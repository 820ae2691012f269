import ThanksComputer.Static.Index
import Mathlib.Data.List.Induction

/-! What a tenant's private files show of themselves over HTTP. -/

namespace ThanksComputer.Static

open Net Lib.Assoc

section Statement

variable (T T₁ T₂ : List FileRow)

def FileRow.ofKey (key : Str × Str) (r : FileRow) : Bool :=
  r.indexed && r.key == key

def marked (key : Str × Str) (root : Str) : Bool :=
  T.any fun r => r.ofKey key && parseMarker r.rel == some (.pub, root)

/-- A row of a private file: its path has a segment with an underscore, and no marker makes it
public. -/
def FileRow.hidden (r : FileRow) : Bool :=
  !isMarker r.rel && privateRoot r.rel != [] && !marked T r.key (privateRoot r.rel)

/-- Two tables that differ in private files only. -/
def AgreeApart : Prop :=
  T₁.filter (fun r => !r.hidden T₁) = T₂.filter (fun r => !r.hidden T₂)

instance : Decidable (AgreeApart T₁ T₂) :=
  inferInstanceAs (Decidable (_ = _))

variable (M : Mime) (op : Operator)

def indexOf : Index := ⟨op, rebuildTenant M T⟩

/-- Every request is answered alike from both tables. -/
def SameAnswers : Prop :=
  ∀ tenant stack reqPath,
    (indexOf T₁ M op).lookup tenant stack reqPath = (indexOf T₂ M op).lookup tenant stack reqPath ∧
    (indexOf T₁ M op).lookupMarkdown tenant stack reqPath =
      (indexOf T₂ M op).lookupMarkdown tenant stack reqPath ∧
    (indexOf T₁ M op).markdownFile tenant stack reqPath =
      (indexOf T₂ M op).markdownFile tenant stack reqPath

/-- A file of the table, whatever its privacy, lies in this directory of the stack. -/
def inDir (key : Str × Str) (seg : Str) : Bool :=
  T.any fun r => r.ofKey key && !isMarker r.rel && (cut '/' r.rel).any (·.1 == seg)

def Operator.inline (stack : Str) : List (Layer Entry) :=
  op.layers stack ++ [op.embedded]

/-- A directory with files in one of the tables only is also one of another layer, or it is private
itself and no other layer makes it public. -/
def Unrevealing : Prop :=
  ∀ key seg, inDir T₁ key seg = inDir T₂ key seg ∨
    (op.inline key.2).any (·.dirs.contains seg) = true ∨
    seg.head? = some '_' ∧ (op.inline key.2).any (·.marks.isPublic seg) = false

end Statement

section Layers

variable (M : Mime)

def layerOf (T : List FileRow) (key : Str × Str) : Layer MetaEntry :=
  ((rebuildTenant M T).lookup key).getD emptyLayer

theorem layerOf_concat (T : List FileRow) (r : FileRow) (key : Str × Str) :
    layerOf M (T ++ [r]) key = if r.ofKey key then r.addTo M (layerOf M T key)
      else layerOf M T key := by
  have hfold : rebuildTenant M (T ++ [r]) = rebuildRow M (rebuildTenant M T) r := by
    rw [rebuildTenant, List.foldl_append]
    rfl
  rw [layerOf, hfold, rebuildRow, FileRow.ofKey]
  cases r.indexed with
  | false => rfl
  | true =>
    by_cases hkey : r.key = key
    · subst hkey
      simp [lookup_upsert_self, layerOf]
    · rw [if_pos rfl, lookup_upsert_of_ne fun h => hkey h.symm]
      simp [hkey, layerOf]

def filesOf (T : List FileRow) (key : Str × Str) : List FileRow :=
  T.filter fun r => r.ofKey key && !isMarker r.rel

def markersOf (T : List FileRow) (key : Str × Str) : List FileRow :=
  T.filter fun r => r.ofKey key && isMarker r.rel

theorem layerOf_files (T : List FileRow) (key : Str × Str) : (layerOf M T key).files =
    ((filesOf T key).map fun r => (r.rel, ⟨r.hash, r.size, contentType M r.rel⟩)).reverse := by
  induction T using List.reverseRecOn with
  | nil => rfl
  | append_singleton T r ih =>
    rw [layerOf_concat, filesOf, List.filter_append]
    cases hkey : r.ofKey key with
    | false => simpa [hkey, filesOf] using ih
    | true =>
      cases hmarker : isMarker r.rel with
      | true => simpa [hkey, hmarker, filesOf, FileRow.addTo] using ih
      | false => simpa [hkey, hmarker, filesOf, FileRow.addTo, Layer.insert] using ih

theorem layerOf_marks (T : List FileRow) (key : Str × Str) : (layerOf M T key).marks =
    (markersOf T key).foldl (fun m r => m.add r.rel) ⟨[], []⟩ := by
  induction T using List.reverseRecOn with
  | nil => rfl
  | append_singleton T r ih =>
    rw [layerOf_concat, markersOf, List.filter_append]
    cases hkey : r.ofKey key with
    | false => simpa [hkey, markersOf] using ih
    | true =>
      cases hmarker : isMarker r.rel with
      | true => simp [hkey, hmarker, markersOf, FileRow.addTo, ih]
      | false => simpa [hkey, hmarker, markersOf, FileRow.addTo, Layer.insert] using ih

theorem mem_layerOf_dirs (T : List FileRow) (key : Str × Str) (seg : Str) :
    seg ∈ (layerOf M T key).dirs ↔ inDir T key seg = true := by
  induction T using List.reverseRecOn with
  | nil => simp [layerOf, rebuildTenant, emptyLayer, inDir]
  | append_singleton T r ih =>
    rw [layerOf_concat, inDir, List.any_append, Bool.or_eq_true, ← inDir, ← ih]
    cases hkey : r.ofKey key with
    | false => simp [hkey]
    | true =>
      cases hmarker : isMarker r.rel with
      | true => simp [hkey, hmarker, FileRow.addTo]
      | false =>
        cases hcut : cut '/' r.rel with
        | none => simp [hkey, hmarker, FileRow.addTo, Layer.insert, hcut]
        | some parts =>
          simp only [hkey, hmarker, FileRow.addTo, Layer.insert, hcut, if_true, Bool.false_eq_true,
            if_false,
            List.mem_cons, List.any_cons, List.any_nil, Option.any_some, Bool.not_false,
              Bool.and_true, Bool.true_and,
            Bool.or_false, beq_iff_eq]
          rw [or_comm, eq_comm]

theorem layerOf_isPublic (T : List FileRow) (key : Str × Str) (root : Str) :
    (layerOf M T key).marks.isPublic root = marked T key root := by
  induction T using List.reverseRecOn with
  | nil => rfl
  | append_singleton T r ih =>
    rw [layerOf_concat, marked, List.any_append, ← marked, ← ih]
    cases hkey : r.ofKey key with
    | false => simp [hkey]
    | true =>
      cases hmarker : parseMarker r.rel with
      | none => simp [hkey, hmarker, FileRow.addTo, isMarker, Layer.insert]
      | some mark =>
        obtain ⟨kind, target⟩ := mark
        cases kind with
        | pub =>
          rw [Bool.eq_iff_iff]
          simp only [hkey, hmarker, FileRow.addTo, isMarker, Marks.add, Marks.isPublic, if_true,
            Option.isSome_some,
            List.contains_cons, List.any_cons, List.any_nil, Bool.true_and, Bool.or_false,
              Bool.or_eq_true,
            beq_iff_eq, Option.some.injEq, Prod.mk.injEq, true_and]
          rw [or_comm, @eq_comm _ root]
        | immutable => simp [hkey, hmarker, FileRow.addTo, isMarker, Marks.add, Marks.isPublic]

end Layers

section Agreement

variable {M : Mime} {op : Operator} {T T₁ T₂ : List FileRow} {key : Str × Str} {rel : Str}

theorem AgreeApart.filter_eq (h : AgreeApart T₁ T₂) {p : FileRow → Bool}
    (h₁ : ∀ r, p r = true → r.hidden T₁ = false) (h₂ : ∀ r, p r = true → r.hidden T₂ = false) :
    T₁.filter p = T₂.filter p := by
  have hfilter : ∀ T : List FileRow, (∀ r, p r = true → r.hidden T = false) →
      T.filter p = (T.filter fun r => !r.hidden T).filter p := by
    intro T hT
    rw [List.filter_filter]
    refine List.filter_congr fun r _ => ?_
    cases hp : p r with
    | false => rfl
    | true => rw [hT r hp, Bool.true_and, Bool.not_false]
  rw [hfilter T₁ h₁, hfilter T₂ h₂, h]

theorem hidden_of_isMarker {r : FileRow} (h : isMarker r.rel = true) : r.hidden T = false := by
  simp [FileRow.hidden, h]

theorem AgreeApart.markersOf_eq (h : AgreeApart T₁ T₂) (key : Str × Str) :
    markersOf T₁ key = markersOf T₂ key :=
  h.filter_eq (fun _ hr => hidden_of_isMarker (Bool.and_eq_true_iff.mp hr).2)
    fun _ hr => hidden_of_isMarker (Bool.and_eq_true_iff.mp hr).2

theorem AgreeApart.marks_eq (h : AgreeApart T₁ T₂) (key : Str × Str) :
    (layerOf M T₁ key).marks = (layerOf M T₂ key).marks := by
  rw [layerOf_marks, layerOf_marks, h.markersOf_eq]

theorem AgreeApart.marked_eq (h : AgreeApart T₁ T₂) (key : Str × Str) (root : Str) :
    marked T₁ key root = marked T₂ key root := by
  have M : Mime := ⟨id, id⟩
  rw [← layerOf_isPublic M, ← layerOf_isPublic M, h.marks_eq]

theorem AgreeApart.lookup_eq (h : AgreeApart T₁ T₂)
    (hpub : privateRoot rel = [] ∨ marked T₁ key (privateRoot rel) = true) :
    (layerOf M T₁ key).files.lookup rel = (layerOf M T₂ key).files.lookup rel := by
  have hvisible : ∀ T, (privateRoot rel = [] ∨ marked T key (privateRoot rel) = true) →
    ∀ r : FileRow,
      (r.rel == rel && (r.ofKey key && !isMarker r.rel)) = true → r.hidden T = false := by
    intro T hpub r hr
    simp only [FileRow.ofKey, Bool.and_eq_true, beq_iff_eq] at hr
    obtain ⟨rfl, ⟨-, rfl⟩, -⟩ := hr
    rcases hpub with hroot | hmarked
    · simp [FileRow.hidden, hroot]
    · simp [FileRow.hidden, hmarked]
  have hrows := h.filter_eq (hvisible T₁ hpub) (hvisible T₂ (h.marked_eq key _ ▸ hpub))
  have hfiles : ∀ T, (layerOf M T key).files.filter (·.1 == rel) =
      ((T.filter fun r => r.rel == rel && (r.ofKey key && !isMarker r.rel)).map fun r =>
        (r.rel, (⟨r.hash, r.size, contentType M r.rel⟩ : MetaEntry))).reverse := by
    intro T
    rw [layerOf_files, List.filter_reverse, List.filter_map, filesOf, List.filter_filter]
    rfl
  rw [← lookup_filter, hfiles, hrows, ← hfiles, lookup_filter]

end Agreement

section Answers

variable {M : Mime} {op : Operator} {T T₁ T₂ : List FileRow} {key : Str × Str} {rel seg : Str}

theorem safeSeg_safeSeg (s : Str) : safeSeg (safeSeg s) = safeSeg s := by
  unfold safeSeg
  split
  · rfl
  · rfl

theorem safeStack_safeStack (s : Str) : safeStack (safeStack s) = safeStack s := by
  unfold safeStack
  repeat' split
  all_goals rfl

theorem inline_safeStack (stack : Str) : op.inline (safeStack stack) = op.inline stack := by
  simp only [Operator.inline, Operator.layers, Operator.stackLayers, safeStack_safeStack]

theorem privateRoot_of_cut {rest : Str} (hcut : cut '/' rel = some (seg, rest))
    (hseg : seg.head? = some '_') :
    privateRoot rel = seg := by
  obtain ⟨rfl, hslash⟩ := cut_eq_some hcut
  rw [privateRoot, List.splitOn_append_cons_self_of_not_mem hslash, privateRoot.go, if_pos hseg]
  exact List.append_nil seg

def requested (M : Mime) (T : List FileRow) (tenant stack : Str) : Layer MetaEntry :=
  if safeSeg tenant ≠ [] ∧ safeStack stack ≠ [] then layerOf M T (safeSeg tenant, safeStack stack)
    else emptyLayer

theorem tenantLayer_getD (tenant stack : Str) :
    ((indexOf T M op).tenantLayer tenant stack).getD emptyLayer = requested M T tenant stack := by
  unfold Index.tenantLayer requested
  split
  · rfl
  · rfl

variable {tl : Option (Layer MetaEntry)}

theorem bind_tenantHit : tl.bind (tenantHit rel) = tenantHit rel (tl.getD emptyLayer) := by
  cases tl with
  | none =>
    have hnone : (emptyLayer : Layer MetaEntry).servable rel = none := by
      unfold Layer.servable
      split <;> rfl
    rw [tenantHit, Option.getD_none, hnone]
    rfl
  | some l => rfl

theorem any_isPublic {root : Str} :
    tl.any (·.marks.isPublic root) = (tl.getD emptyLayer).marks.isPublic root := by
  cases tl <;> rfl

theorem any_dirs : tl.any (·.dirs.contains seg) = (tl.getD emptyLayer).dirs.contains seg := by
  cases tl <;> rfl

theorem AgreeApart.servable_eq (h : AgreeApart T₁ T₂) (tenant stack rel : Str) :
    (requested M T₁ tenant stack).servable rel = (requested M T₂ tenant stack).servable rel := by
  unfold requested
  split
  · unfold Layer.servable
    rw [h.marks_eq]
    split
    · rfl
    · next hserves =>
      refine h.lookup_eq ?_
      rw [← layerOf_isPublic M, h.marks_eq]
      by_cases hroot : privateRoot rel = []
      · exact .inl hroot
      · exact .inr (by simpa [hroot] using hserves)
  · rfl

theorem AgreeApart.requested_marks (h : AgreeApart T₁ T₂) (tenant stack : Str) :
    (requested M T₁ tenant stack).marks = (requested M T₂ tenant stack).marks := by
  unfold requested
  split
  · exact h.marks_eq _
  · rfl

theorem AgreeApart.lookupServable_eq (h : AgreeApart T₁ T₂) (tenant stack rel : Str)
    (opLayers defaults : List (Layer Entry)) :
    lookupServable rel opLayers ((indexOf T₁ M op).tenantLayer tenant stack) defaults =
      lookupServable rel opLayers ((indexOf T₂ M op).tenantLayer tenant stack) defaults := by
  unfold lookupServable
  rw [bind_tenantHit, bind_tenantHit, tenantLayer_getD, tenantLayer_getD, tenantHit, tenantHit,
    h.servable_eq, h.requested_marks]

theorem AgreeApart.inDir_of_marked (h : AgreeApart T₁ T₂) (hseg : seg.head? = some '_')
    (hmarked : marked T₁ key seg = true) : inDir T₁ key seg = inDir T₂ key seg := by
  have hvisible : ∀ T, marked T key seg = true → ∀ r : FileRow,
      (r.ofKey key && !isMarker r.rel && (cut '/' r.rel).any (·.1 == seg)) = true →
      r.hidden T = false := by
    intro T hmarked r hr
    simp only [FileRow.ofKey, Bool.and_eq_true, beq_iff_eq] at hr
    obtain ⟨⟨⟨-, rfl⟩, -⟩, hcut⟩ := hr
    obtain ⟨⟨seg', rest⟩, hparts, heq⟩ := (Option.any_eq_true _ _).mp hcut
    obtain rfl := beq_iff_eq.mp heq
    rw [FileRow.hidden, privateRoot_of_cut hparts hseg, hmarked, Bool.not_true, Bool.and_false]
  have hrows := h.filter_eq (hvisible T₁ hmarked) (hvisible T₂ (h.marked_eq key seg ▸ hmarked))
  have hany : ∀ T, inDir T key seg = (T.filter fun r =>
      r.ofKey key && !isMarker r.rel && (cut '/' r.rel).any (·.1 == seg)).any fun _ => true := by
    intro T
    simp only [inDir, List.any_filter, Bool.and_true]
  rw [hany, hany, hrows]

theorem requested_dirs (T : List FileRow) {tenant stack : Str}
    (hvalid : safeSeg tenant ≠ [] ∧ safeStack stack ≠ []) :
    (requested M T tenant stack).dirs.contains seg = inDir T
      (safeSeg tenant, safeStack stack) seg := by
  rw [requested, if_pos hvalid, Bool.eq_iff_iff, List.contains_iff_mem, mem_layerOf_dirs]

theorem AgreeApart.ownedIn_eq (h : AgreeApart T₁ T₂) (hquiet : Unrevealing T₁ T₂ op)
    {tenant stack : Str} (hpub : privateRoot rel = [] ∨
      publicIn (privateRoot rel) (op.inline stack) ((indexOf T₁ M op).tenantLayer tenant stack) =
        true) :
    ownedIn rel (op.inline stack) ((indexOf T₁ M op).tenantLayer tenant stack) =
      ownedIn rel (op.inline stack) ((indexOf T₂ M op).tenantLayer tenant stack) := by
  unfold ownedIn
  split
  · next seg rest hcut =>
    rw [any_dirs, any_dirs, tenantLayer_getD, tenantLayer_getD]
    by_cases hvalid : safeSeg tenant ≠ [] ∧ safeStack stack ≠ []
    · rw [requested_dirs T₁ hvalid, requested_dirs T₂ hvalid]
      have hdir := hquiet (safeSeg tenant, safeStack stack) seg
      rw [inline_safeStack] at hdir
      rcases hdir with hsame | hinline | ⟨hseg, hprivate⟩
      · rw [hsame]
      · rw [hinline, Bool.true_or, Bool.true_or]
      · rw [privateRoot_of_cut hcut hseg, publicIn, hprivate, Bool.false_or, any_isPublic,
          tenantLayer_getD, requested,
          if_pos hvalid, layerOf_isPublic] at hpub
        rcases hpub with hnil | hmarked
        · rw [hnil] at hseg
          cases hseg
        · rw [h.inDir_of_marked hseg hmarked]
    · rw [requested, requested, if_neg hvalid, if_neg hvalid]
  · rfl

@[simp] theorem indexOf_operator : (indexOf T M op).operator = op := rfl

theorem AgreeApart.missed_eq (h : AgreeApart T₁ T₂) (hquiet : Unrevealing T₁ T₂ op)
    (tenant stack rel : Str) :
    missed rel (op.inline stack) ((indexOf T₁ M op).tenantLayer tenant stack) =
      missed rel (op.inline stack) ((indexOf T₂ M op).tenantLayer tenant stack) := by
  have hpublic : publicIn (privateRoot rel) (op.inline stack)
    ((indexOf T₁ M op).tenantLayer tenant stack) =
      publicIn (privateRoot rel) (op.inline stack)
        ((indexOf T₂ M op).tenantLayer tenant stack) := by
    rw [publicIn, publicIn, any_isPublic, any_isPublic, tenantLayer_getD, tenantLayer_getD,
      h.requested_marks]
  unfold missed
  rw [← hpublic]
  split
  · rfl
  · next hserves =>
    rw [h.ownedIn_eq hquiet]
    by_cases hroot : privateRoot rel = []
    · exact .inl hroot
    · exact .inr (by simpa [hroot] using hserves)

theorem AgreeApart.sameAnswers (h : AgreeApart T₁ T₂) (hquiet : Unrevealing T₁ T₂ op) :
    SameAnswers T₁ T₂ M op := by
  intro tenant stack reqPath
  have hmissed := h.missed_eq (M := M) hquiet tenant stack (safeRel reqPath)
  rw [Operator.inline] at hmissed
  refine ⟨?_, ?_, ?_⟩
  · simp only [Index.lookup, indexOf_operator, h.lookupServable_eq, hmissed]
  · simp only [Index.lookupMarkdown, Index.markdownLayers, indexOf_operator, h.lookupServable_eq]
  · simp only [Index.markdownFile, Index.markdownLayers, indexOf_operator, h.lookupServable_eq]

end Answers

section Probes

variable {M : Mime} {op : Operator} {T T₁ T₂ : List FileRow} {key : Str × Str} {seg : Str}

/-- A file name with an extension that is longer than `n`. -/
def probeName (n : Nat) : Str :=
  'a' :: (List.replicate n 'a' ++ ".a".toList)

def probe (seg : Str) (n : Nat) : Str :=
  seg ++ '/' :: probeName n

theorem mem_probeName {n : Nat} {c : Char} (h : c ∈ probeName n) : c = 'a' ∨ c = '.' := by
  rcases List.mem_cons.mp h with rfl | h
  · exact .inl rfl
  · rcases List.mem_append.mp h with h | h
    · exact .inl (List.eq_of_mem_replicate h)
    · revert h
      simp
      tauto

theorem slash_notMem_probeName (n : Nat) : '/' ∉ probeName n := by
  intro h
  rcases mem_probeName h with h | h <;> revert h <;> decide

theorem safe_probeName (n : Nat) : safe (probeName n) = true := by
  simp [safe, probeName]

theorem probe_splitOn (hslash : '/' ∉ seg) (n : Nat) :
    (probe seg n).splitOn '/' = [seg, probeName n] := by
  rw [probe, List.splitOn_append_cons_self_of_not_mem hslash,
    List.splitOn_eq_singleton (slash_notMem_probeName n)]

theorem safe_ne {seg : Str} (h : safe seg = true) :
    seg ≠ [] ∧ seg ≠ ['.'] ∧ seg ≠ ['.', '.'] ∧ seg.head? ≠ some '.' := by
  simpa [safe, and_assoc] using h

theorem safeRel_probe (hsafe : safe seg = true) (hslash : '/' ∉ seg) (n : Nat) :
    safeRel (probe seg n) = probe seg n := by
  obtain ⟨hnil, hdot, hdots, -⟩ := safe_ne hsafe
  have hhead : (probe seg n).head? ≠ some '/' := by
    cases seg with
    | nil => exact absurd rfl hnil
    | cons c seg =>
      intro h
      exact hslash (by simpa using Or.inl (Option.some.inj h).symm)
  obtain ⟨hnil', hdot', hdots', -⟩ := safe_ne (safe_probeName n)
  have hclean : clean ('/' :: probe seg n) = '/' :: probe seg n := by
    have hsplit : ('/' :: probe seg n).splitOn '/' = [[], seg, probeName n] := by
      rw [← probe_splitOn hslash n]
      have hnil : '/' ∉ ([] : Str) := List.not_mem_nil
      exact List.splitOn_append_cons_self_of_not_mem hnil _
    rw [clean, hsplit]
    simp [cleanSegs, hnil, hdot, hdots, hnil', hdot', hdots', probe, List.intercalate]
  have hne : probe seg n ≠ [] := by
    simp [probe]
  have hne' : probe seg n ≠ ['.'] := by
    intro h
    have := congrArg List.length h
    simp [probe, probeName] at this
    omega
  rw [safeRel, trimPrefix_slash hhead, hclean]
  simp [trimPrefix, cutPrefix, List.isPrefixOf, hne, hne', probe_splitOn hslash, hsafe,
    safe_probeName]

theorem lastSegHasDot_probe (n : Nat) : lastSegHasDot (probe seg n) = true := by
  have hname : ∀ c ∈ (probeName n).reverse, (c != '/') = true := by
    intro c hc
    rw [bne_iff_ne]
    rintro rfl
    exact slash_notMem_probeName n (List.mem_reverse.mp hc)
  rw [lastSegHasDot, probe, List.reverse_append, List.reverse_cons, List.append_assoc,
    List.takeWhile_append_of_pos hname,
    List.contains_iff_mem]
  exact List.mem_append_left _ (List.mem_reverse.mpr (by simp [probeName]))

theorem ext_probe (n : Nat) : (ext (probe seg n) != []) = true := by
  have hdot : '.' ∈ ((probe seg n).reverse.takeWhile (· != '/')).reverse := by
    have h : lastSegHasDot (probe seg n) = true := lastSegHasDot_probe n
    rw [lastSegHasDot, List.contains_iff_mem] at h
    exact List.mem_reverse.mpr h
  rw [ext, if_pos hdot]
  rfl

theorem cut_probe (hslash : '/' ∉ seg) (n : Nat) :
    cut '/' (probe seg n) = some (seg, probeName n) :=
  cut_append hslash _

theorem privateRoot_probe (hslash : '/' ∉ seg) (hseg : seg.head? ≠ some '_') (n : Nat) :
    privateRoot (probe seg n) = [] := by
  rw [privateRoot, probe_splitOn hslash, privateRoot.go, if_neg hseg, privateRoot.go,
    if_neg (by simp [probeName])]
  rfl

theorem safe_of_cut {p rest : Str} (h : cut '/' (safeRel p) = some (seg, rest)) :
    safe seg = true ∧ '/' ∉ seg := by
  obtain ⟨heq, hslash⟩ := cut_eq_some h
  refine ⟨?_, hslash⟩
  have hall : safeRel p ≠ [] → ((safeRel p).splitOn '/').all safe = true := by
    unfold safeRel
    simp only
    repeat' split
    all_goals simp_all
  have hne : safeRel p ≠ [] := by
    rw [heq]
    simp
  have hsplit := hall hne
  rw [heq, List.splitOn_append_cons_self_of_not_mem hslash] at hsplit
  exact (Bool.and_eq_true_iff.mp hsplit).1

theorem exists_length_le (ls : List Str) : ∃ n, ∀ s ∈ ls, s.length ≤ n := by
  induction ls with
  | nil => exact ⟨0, fun _ h => absurd h List.not_mem_nil⟩
  | cons s ls ih =>
    obtain ⟨n, hn⟩ := ih
    refine ⟨max s.length n, fun t ht => ?_⟩
    rcases List.mem_cons.mp ht with rfl | ht
    · exact Nat.le_max_left _ _
    · exact Nat.le_trans (hn t ht) (Nat.le_max_right _ _)

theorem length_probe (seg : Str) (n : Nat) : n < (probe seg n).length := by
  simp [probe, probeName]
  omega

theorem servable_probe {α : Type} {l : Layer α} {n : Nat} (h : ∀ s ∈ keys l.files, s.length ≤ n) :
    l.servable (probe seg n) = none := by
  unfold Layer.servable
  split
  · rfl
  · refine lookup_eq_none_iff_keys.mpr fun hmem => ?_
    have hle := h _ hmem
    have hlt := length_probe seg n
    omega

theorem lookup_probe (hkey : safeSeg key.1 = key.1 ∧ safeStack key.2 = key.2)
    (hvalid : key.1 ≠ [] ∧ key.2 ≠ []) (hsafe : safe seg = true) (hslash : '/' ∉ seg)
    (hdirs : (op.inline key.2).any (·.dirs.contains seg) = false)
    (hpublic : seg.head? = some '_' → (op.inline key.2).any (·.marks.isPublic seg) = true) {n : Nat}
    (hinline : ∀ l ∈ op.inline key.2, ∀ s ∈ keys l.files, s.length ≤ n)
    (hfiles : ∀ s ∈ keys (layerOf M T key).files, s.length ≤ n) :
    ((indexOf T M op).lookup key.1 key.2 (probe seg n)).owned = inDir T key seg := by
  have hne : probe seg n ≠ [] := by
    simp [probe]
  have hlayer : ((indexOf T M op).tenantLayer key.1 key.2).getD emptyLayer = layerOf M T key := by
    rw [tenantLayer_getD, requested, hkey.1, hkey.2, if_pos hvalid]
  have hmiss : ∀ ls : List (Layer Entry), (∀ l ∈ ls, l ∈ op.inline key.2) →
    inlineHit (probe seg n) ls = none := by
    intro ls hls
    refine List.findSome?_eq_none_iff.mpr fun l hl => ?_
    rw [servable_probe (hinline l (hls l hl))]
    rfl
  have hserves : lookupServable (probe seg n) (op.layers key.2)
    ((indexOf T M op).tenantLayer key.1 key.2)
      [op.embedded] = none := by
    rw [lookupServable, if_neg hne, hmiss _ fun l hl => List.mem_append_left _ hl,
      hmiss [op.embedded] fun l hl => List.mem_append_right _ hl, bind_tenantHit, hlayer, tenantHit,
        servable_probe hfiles]
    rfl
  have hopen : ¬(privateRoot (probe seg n) ≠ [] ∧
    publicIn (privateRoot (probe seg n)) (op.inline key.2)
      ((indexOf T M op).tenantLayer key.1 key.2) = false) := by
    rintro ⟨hroot, hprivate⟩
    by_cases hseg : seg.head? = some '_'
    · rw [privateRoot_of_cut (cut_probe hslash n) hseg, publicIn, hpublic hseg] at hprivate
      cases hprivate
    · exact hroot (privateRoot_probe hslash hseg n)
  have howned : ownedIn (probe seg n) (op.inline key.2) ((indexOf T M op).tenantLayer key.1 key.2) =
      inDir T key seg := by
    rw [ownedIn, cut_probe hslash n]
    simp only [ext_probe, hdirs, Bool.true_and, Bool.false_or]
    rw [any_dirs, hlayer, Bool.eq_iff_iff, List.contains_iff_mem, mem_layerOf_dirs]
  have hmissed : missed (probe seg n) (op.inline key.2) ((indexOf T M op).tenantLayer key.1 key.2) =
      if inDir T key seg then { miss with owned := true } else miss := by
    rw [missed, if_neg hopen, howned]
  rw [Operator.inline] at hmissed
  rw [Index.lookup]
  simp only [safeRel_probe hsafe hslash, hne, false_and, if_false, indexCandidates,
    lastSegHasDot_probe, if_true,
    indexOf_operator, List.findSome?_cons, List.findSome?_nil, hserves, hmissed]
  cases inDir T key seg <;> rfl

theorem inDir_valid (h : inDir T key seg = true) :
    (safeSeg key.1 = key.1 ∧ safeStack key.2 = key.2) ∧ (key.1 ≠ [] ∧ key.2 ≠ []) ∧
    safe seg = true ∧ '/' ∉ seg := by
  obtain ⟨r, -, hr⟩ := List.any_eq_true.mp h
  simp only [FileRow.ofKey, FileRow.indexed, Bool.and_eq_true, beq_iff_eq, Bool.not_eq_true',
    List.isEmpty_eq_false_iff]
    at hr
  obtain ⟨⟨⟨⟨⟨⟨-, htenant⟩, hstack⟩, -⟩, rfl⟩, -⟩, hcut⟩ := hr
  obtain ⟨⟨seg', rest⟩, hparts, heq⟩ := (Option.any_eq_true _ _).mp hcut
  obtain rfl := beq_iff_eq.mp heq
  exact ⟨⟨safeSeg_safeSeg _, safeStack_safeStack _⟩, ⟨htenant, hstack⟩, safe_of_cut hparts⟩

theorem SameAnswers.unrevealing (h : SameAnswers T₁ T₂ M op) : Unrevealing T₁ T₂ op := by
  intro key seg
  by_contra hreveals
  obtain ⟨hdiffer, hdirs, hpublic⟩ : inDir T₁ key seg ≠ inDir T₂ key seg ∧
      (op.inline key.2).any (·.dirs.contains seg) = false ∧
      (seg.head? = some '_' → (op.inline key.2).any (·.marks.isPublic seg) = true) := by
    simpa only [not_or, not_and, Bool.not_eq_true, Bool.not_eq_false] using hreveals
  -- The directory is one of either table, so its name and its stack's are good ones.
  obtain ⟨hkey, hvalid, hsafe, hslash⟩ : _ ∧ _ := by
    cases h₁ : inDir T₁ key seg with
    | true => exact inDir_valid h₁
    | false =>
      refine inDir_valid (T := T₂) ?_
      rw [h₁] at hdiffer
      exact (Bool.not_eq_false _).mp hdiffer.symm
  obtain ⟨n, hn⟩ := exists_length_le (((op.inline key.2).flatMap fun l => keys l.files) ++
    (keys (layerOf M T₁ key).files ++ keys (layerOf M T₂ key).files))
  have hinline : ∀ l ∈ op.inline key.2, ∀ s ∈ keys l.files, s.length ≤ n := fun l hl s hs =>
    hn s (List.mem_append_left _ (List.mem_flatMap.mpr ⟨l, hl, hs⟩))
  have h₁ :=
    lookup_probe (M := M) (T := T₁) hkey hvalid hsafe hslash hdirs hpublic hinline fun s hs =>
    hn s (List.mem_append_right _ (List.mem_append_left _ hs))
  have h₂ :=
    lookup_probe (M := M) (T := T₂) hkey hvalid hsafe hslash hdirs hpublic hinline fun s hs =>
    hn s (List.mem_append_right _ (List.mem_append_right _ hs))
  exact hdiffer (by rw [← h₁, ← h₂, (h key.1 key.2 (probe seg n)).1])

/-- Private files show in no answer exactly when no directory tells of them. -/
theorem sameAnswers_iff (h : AgreeApart T₁ T₂) : SameAnswers T₁ T₂ M op ↔ Unrevealing T₁ T₂ op :=
  ⟨fun hsame => hsame.unrevealing, fun hquiet => h.sameAnswers hquiet⟩

/-- A private file beside a public one in the same directory goes unseen. -/
theorem sameAnswers_beside :
    let M : Mime := ⟨Char.toLower, fun _ => []⟩
    let op : Operator := ⟨[], emptyLayer, emptyLayer⟩
    let page :
      FileRow := ⟨"acme".toList, "site".toList, "FILES/assets/app.js".toList, "ab".toList, 7⟩
    let secret :
      FileRow := ⟨"acme".toList, "site".toList, "FILES/assets/_keys/k.txt".toList, "cd".toList, 9⟩
    AgreeApart [page] [page, secret] ∧ SameAnswers [page] [page, secret] M op := by
  intro M op page secret
  have hagree : AgreeApart [page] [page, secret] := by decide +kernel
  refine ⟨hagree, (sameAnswers_iff hagree).mpr fun key seg => .inl ?_⟩
  have hsecret : ∀ r : FileRow, r.indexed = true → r.key = ("acme".toList, "site".toList) →
      isMarker r.rel = false → (cut '/' r.rel).map Prod.fst = some "assets".toList →
      (r.ofKey key && !isMarker r.rel && (cut '/' r.rel).any (·.1 == seg)) =
        ((("acme".toList, "site".toList) == key) && ("assets".toList == seg)) := by
    intro r hindexed hkey hmarker hcut
    obtain ⟨parts, hparts, hfst⟩ := Option.map_eq_some_iff.mp hcut
    rw [FileRow.ofKey, hindexed, hkey, hmarker, hparts, Option.any_some, hfst, Bool.true_and,
      Bool.not_false,
      Bool.and_true]
  have hpage := hsecret page (by decide +kernel) (by decide +kernel) (by decide +kernel) (by decide +kernel)
  have hkeys := hsecret secret (by decide +kernel) (by decide +kernel) (by decide +kernel) (by decide +kernel)
  rw [inDir, inDir, List.any_cons, List.any_cons, List.any_cons, List.any_nil, hpage, hkeys,
    Bool.or_false, Bool.or_self]

/-- A private file in a directory of its own makes that directory's missing files a 404. -/
theorem not_sameAnswers_alone :
    ¬∀ (M : Mime) (op : Operator) (T₁ T₂ : List FileRow), AgreeApart T₁ T₂ →
      SameAnswers T₁ T₂ M op := by
  intro h
  have hsame := h ⟨Char.toLower, fun _ => []⟩ ⟨[], emptyLayer, emptyLayer⟩ []
    [⟨"acme".toList, "site".toList, "FILES/assets/_keys/k.txt".toList, "cd".toList, 9⟩] (by decide)
    "acme".toList "site".toList "/assets/missing.js".toList
  exact absurd (congrArg Result.owned hsame.1) (by decide)

end Probes

end ThanksComputer.Static
