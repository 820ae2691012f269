import ThanksComputer.Admin.Drafts
import ThanksComputer.Lib.Assoc

/-! The comparison of two versions, and the digest it trusts. -/

namespace ThanksComputer.Admin

open Net Lib.Runs Lib.Assoc

section Diff

inductive Change
  | removed
  | changed
  | added
  deriving DecidableEq

structure DiffEntry where
  path : Str
  change : Change
  fromHash : Str
  toHash : Str
  deriving DecidableEq

structure DiffResponse where
  equal : Bool
  entries : List DiffEntry
  deriving DecidableEq

variable (h₁ h₂ : List (Str × Str))

def goneOrChanged : List DiffEntry :=
  h₁.filterMap fun f =>
    match h₂.lookup f.1 with
    | none => some ⟨f.1, .removed, f.2, []⟩
    | some hash => if f.2 ≠ hash then some ⟨f.1, .changed, f.2, hash⟩ else none

def addedOnly : List DiffEntry :=
  h₂.filterMap fun f => if (h₁.lookup f.1).isSome then none else some ⟨f.1, .added, [], f.2⟩

def diffEntries : List DiffEntry :=
  (goneOrChanged h₁ h₂ ++ addedOnly h₁ h₂).insertionSort fun a b => textLe a.path b.path

variable (E : Engine) (v₁ v₂ : Version)

/-- `handleDiffVersions`, of two versions that exist. -/
def diffVersions : DiffResponse :=
  if v₁.manifest ≠ [] ∧ v₁.manifest = v₂.manifest then ⟨true, []⟩
  else
    let entries := diffEntries (v₁.hashes E) (v₂.hashes E)
    ⟨entries.isEmpty, entries⟩

def SameFiles : Prop :=
  ∀ path, (v₁.hashes E).lookup path = (v₂.hashes E).lookup path

/-- The comparison says equal of equal files, and lists the paths on which they differ, each
once. -/
structure DiffExact : Prop where
  equal : (diffVersions E v₁ v₂).equal = true ↔ SameFiles E v₁ v₂
  entries : ∀ path, path ∈ (diffVersions E v₁ v₂).entries.map (·.path) ↔
    (v₁.hashes E).lookup path ≠ (v₂.hashes E).lookup path
  nodup : ((diffVersions E v₁ v₂).entries.map (·.path)).Nodup

end Diff

section Entries

variable {h₁ h₂ : List (Str × Str)} {path : Str}

theorem mem_goneOrChanged (hnodup : (keys h₁).Nodup) :
    path ∈ (goneOrChanged h₁ h₂).map (·.path) ↔ ∃ hash, h₁.lookup path = some hash ∧
      h₂.lookup path ≠ some hash := by
  simp only [goneOrChanged, List.mem_map, List.mem_filterMap]
  constructor
  · rintro ⟨entry, ⟨⟨p, hash⟩, hmem, hentry⟩, rfl⟩
    split at hentry
    · next hnone =>
      cases hentry
      exact ⟨hash, lookup_of_mem hnodup hmem, by rw [hnone]; nofun⟩
    · next hash' hsome =>
      split at hentry
      · next hne =>
        cases hentry
        refine ⟨hash, lookup_of_mem hnodup hmem, ?_⟩
        rw [hsome]
        exact fun heq => hne (Option.some.inj heq).symm
      · cases hentry
  · rintro ⟨hash, hfirst, hsecond⟩
    cases hlookup : h₂.lookup path with
    | none =>
      exact ⟨⟨path, .removed, hash, []⟩, ⟨(path, hash), mem_of_lookup hfirst, by simp [hlookup]⟩,
        rfl⟩
    | some hash' =>
      have hne : hash ≠ hash' := fun heq => hsecond (heq ▸ hlookup)
      exact ⟨⟨path, .changed, hash, hash'⟩,
        ⟨(path, hash), mem_of_lookup hfirst, by simp [hlookup, hne]⟩, rfl⟩

theorem mem_addedOnly :
    path ∈ (addedOnly h₁ h₂).map (·.path) ↔ h₁.lookup path = none ∧ path ∈ keys h₂ := by
  simp only [addedOnly, List.mem_map, List.mem_filterMap]
  constructor
  · rintro ⟨entry, ⟨⟨p, hash⟩, hmem, hentry⟩, rfl⟩
    split at hentry
    · cases hentry
    · next hnone =>
      cases hentry
      exact ⟨Option.not_isSome_iff_eq_none.mp hnone, List.mem_map_of_mem hmem⟩
  · rintro ⟨hnone, hkey⟩
    obtain ⟨⟨p, hash⟩, hmem, rfl⟩ := List.mem_map.mp hkey
    exact ⟨⟨p, .added, [], hash⟩, ⟨(p, hash), hmem, by simp [hnone]⟩, rfl⟩

theorem mem_diffEntries (hnodup : (keys h₁).Nodup) :
    path ∈ (diffEntries h₁ h₂).map (·.path) ↔ h₁.lookup path ≠ h₂.lookup path := by
  have hperm : (diffEntries h₁ h₂).Perm (goneOrChanged h₁ h₂ ++ addedOnly h₁ h₂) :=
    List.perm_insertionSort _ _
  rw [(hperm.map _).mem_iff, List.map_append, List.mem_append, mem_goneOrChanged hnodup,
    mem_addedOnly]
  cases hfirst : h₁.lookup path with
  | none =>
    cases hsecond : h₂.lookup path with
    | none => simpa using lookup_eq_none_iff_keys.mp hsecond
    | some hash => simpa using mem_keys_of_lookup hsecond
  | some hash => simp [eq_comm]

theorem sublist_filterMap {f : Str × Str → Option DiffEntry}
    (hf : ∀ e entry, f e = some entry → entry.path = e.1) (l : List (Str × Str)) :
      ((l.filterMap f).map (·.path)).Sublist (keys l) := by
  induction l with
  | nil => exact List.Sublist.slnil
  | cons e l ih =>
    cases hentry : f e with
    | none =>
      rw [List.filterMap_cons_none hentry]
      exact ih.cons e.1
    | some entry =>
      rw [List.filterMap_cons_some hentry, List.map_cons, hf e entry hentry, keys_cons]
      exact ih.cons_cons e.1

theorem nodup_diffEntries (hfirst : (keys h₁).Nodup) (hsecond : (keys h₂).Nodup) :
    ((diffEntries h₁ h₂).map (·.path)).Nodup := by
  have hperm : (diffEntries h₁ h₂).Perm (goneOrChanged h₁ h₂ ++ addedOnly h₁ h₂) :=
    List.perm_insertionSort _ _
  rw [(hperm.map _).nodup_iff, List.map_append, List.nodup_append]
  refine ⟨?_, ?_, fun p hp q hq heq => ?_⟩
  · refine (sublist_filterMap (fun e entry hentry => ?_) h₁).nodup hfirst
    split at hentry
    · cases hentry
      rfl
    · split at hentry
      · cases hentry
        rfl
      · cases hentry
  · refine (sublist_filterMap (fun e entry hentry => ?_) h₂).nodup hsecond
    split at hentry
    · cases hentry
    · cases hentry
      rfl
  · obtain ⟨hash, hsome, -⟩ := (mem_goneOrChanged hfirst).mp hp
    obtain ⟨hnone, -⟩ := mem_addedOnly.mp hq
    rw [← heq, hsome] at hnone
    cases hnone

end Entries

section Digest

variable {E : Engine} {v v' : Version}

/-- A version's digest is that of its files, if it has one, and no path stands twice. -/
structure Version.Sound (E : Engine) (v : Version) : Prop where
  manifest : v.manifest = [] ∨ v.manifest = computeManifestHash E (v.hashes E)
  nodup : (v.files.map (·.path)).Nodup

theorem Version.keys_hashes (v : Version) : keys (v.hashes E) = v.files.map (·.path) := by
  rw [Version.hashes, keys, List.map_map]
  rfl

theorem sameFiles_of_manifest (hinj : Function.Injective E.manifest) (hv : v.Sound E)
    (hv' : v'.Sound E) (hne : v.manifest ≠ []) (heq : v.manifest = v'.manifest) :
      SameFiles E v v' := by
  have hdigest : computeManifestHash E (v.hashes E) = computeManifestHash E (v'.hashes E) := by
    rw [← hv.manifest.resolve_left hne, heq, ← hv'.manifest.resolve_left (heq ▸ hne)]
  have hperm : (v.hashes E).Perm (v'.hashes E) := by
    have hsorted := hinj hdigest
    refine (List.perm_insertionSort (fun a b => textLe a.1 b.1) _).symm.trans ?_
    rw [hsorted]
    exact List.perm_insertionSort _ _
  intro path
  have hkeys : (keys (v.hashes E)).Nodup := v.keys_hashes ▸ hv.nodup
  have hkeys' : (keys (v'.hashes E)).Nodup := v'.keys_hashes ▸ hv'.nodup
  cases hlookup : (v.hashes E).lookup path with
  | some hash => exact (lookup_of_mem hkeys' (hperm.mem_iff.mp (mem_of_lookup hlookup))).symm
  | none =>
    refine (lookup_eq_none_iff_keys.mpr fun hmem => ?_).symm
    exact lookup_eq_none_iff_keys.mp hlookup ((hperm.map Prod.fst).mem_iff.mpr hmem)

theorem diffExact_of_sound (hinj : Function.Injective E.manifest) (hv : v.Sound E)
    (hv' : v'.Sound E) :
    DiffExact E v v' := by
  have hkeys : (keys (v.hashes E)).Nodup := v.keys_hashes ▸ hv.nodup
  have hkeys' : (keys (v'.hashes E)).Nodup := v'.keys_hashes ▸ hv'.nodup
  by_cases hmanifest : v.manifest ≠ [] ∧ v.manifest = v'.manifest
  · have hsame := sameFiles_of_manifest hinj hv hv' hmanifest.1 hmanifest.2
    have hdiff : diffVersions E v v' = ⟨true, []⟩ := if_pos hmanifest
    refine ⟨?_, fun path => ?_, ?_⟩
    · rw [hdiff]
      exact iff_of_true rfl hsame
    · rw [hdiff]
      exact iff_of_false List.not_mem_nil fun hne => hne (hsame path)
    · rw [hdiff]
      exact List.nodup_nil
  · have hdiff : diffVersions E v v' = ⟨(diffEntries (v.hashes E) (v'.hashes E)).isEmpty,
        diffEntries (v.hashes E) (v'.hashes E)⟩ := if_neg hmanifest
    refine ⟨?_, fun path => ?_, ?_⟩
    · rw [hdiff, List.isEmpty_iff]
      constructor
      · intro hempty path
        by_contra hne
        have hmem := (mem_diffEntries hkeys).mpr hne
        rw [hempty] at hmem
        cases hmem
      · intro hsame
        refine List.eq_nil_iff_forall_not_mem.mpr fun entry hentry => ?_
        exact (mem_diffEntries hkeys).mp (List.mem_map_of_mem hentry) (hsame entry.path)
    · rw [hdiff]
      exact mem_diffEntries hkeys
    · rw [hdiff]
      exact nodup_diffEntries hkeys hkeys'

theorem Version.Sound.recompute (h : (v.files.map (·.path)).Nodup) : (v.recompute E).Sound E :=
  ⟨.inr rfl, h⟩

theorem Version.Sound.mutate (h : v.Sound E) {m : Mutation} (hmutate : v.mutate E m = some v') :
    v'.Sound E := by
  unfold Version.mutate at hmutate
  split at hmutate
  · cases hmutate
  · next hnone _ =>
    split at hmutate
    · cases hmutate
    · cases hmutate
      refine Version.Sound.recompute ?_
      rw [List.map_append, List.nodup_append]
      refine ⟨h.nodup, List.nodup_singleton _, fun path hpath path' hpath' heq => ?_⟩
      obtain ⟨f, hf, rfl⟩ := List.mem_map.mp hpath
      have hne := List.find?_eq_none.mp hnone f hf
      rw [List.map_singleton, List.mem_singleton] at hpath'
      exact hne (beq_iff_eq.mpr (heq.trans hpath'))
  · next content _ _ =>
    split at hmutate
    · cases hmutate
    · cases hmutate
      refine Version.Sound.recompute ?_
      have hpaths : (v.files.map fun g => if g.path = m.path then
        ⟨m.path, content, E.sha256Hex content⟩ else g).map
          (·.path) = v.files.map (·.path) := by
        rw [List.map_map]
        refine List.map_congr_left fun g _ => ?_
        simp only [Function.comp]
        split
        · next hpath => exact hpath.symm
        · rfl
      rw [hpaths]
      exact h.nodup
  · split at hmutate
    · cases hmutate
    · cases hmutate
      exact Version.Sound.recompute ((List.filter_sublist.map _).nodup h.nodup)

theorem PutFile.row_path (f : PutFile) : (f.row E).path = f.path := by
  unfold PutFile.row
  split <;> rfl

theorem PutFile.digest_row (hsum : ∀ s, E.sha256Hex s ≠ []) {f : PutFile}
    (hcas : f.cas.all isHash = true) :
    (f.row E).digest E = (f.row E).hash := by
  refine if_neg ?_
  unfold PutFile.row
  split
  · exact hsum _
  · next hash hsome =>
    rw [hsome] at hcas
    rintro rfl
    exact absurd hcas (by decide)

theorem Version.Sound.put (hsum : ∀ s, E.sha256Hex s ≠ []) {manage : Manage} {files : List PutFile}
    (hkept : kept E manage v.files = []) (hput : v.put E manage files = some v') : v'.Sound E := by
  obtain ⟨-, hok, -, rfl⟩ := Version.put_some hput
  obtain ⟨hnodup, hcas⟩ := Bool.and_eq_true_iff.mp hok
  rw [hkept]
  refine ⟨.inr ?_, ?_⟩
  · simp only [Version.hashes, List.nil_append, List.map_map]
    congr 1
    refine List.map_congr_left fun f hf => ?_
    simp only [Function.comp, PutFile.digest_row hsum (List.all_eq_true.mp hcas f hf)]
  · simp only [List.nil_append, List.map_map]
    have hpaths : files.map ((fun f : File => f.path) ∘ PutFile.row E) = files.map (·.path) :=
      List.map_congr_left fun f _ => f.row_path
    rw [hpaths]
    exact of_decide_eq_true hnodup

end Digest

section Runs

variable (E : Engine) (w : World)

/-- Every comparison that is asked for is exact. -/
def World.DiffsExact : Event → Prop
  | .diff n₁ n₂ => ∀ v₁, w.lookupVersion n₁ = some v₁ → ∀ v₂, w.lookupVersion n₂ = some v₂ →
    DiffExact E v₁ v₂
  | _ => True

/-- A put finds no file in its draft of the kind that it does not manage. -/
def World.WholeSet : Event → Prop
  | .put n manage _ => ∀ v ∈ w.lookupVersion n, kept E manage v.files = []
  | _ => True

instance : DecidablePred (w.WholeSet E)
  | .put n manage _ =>
    inferInstanceAs (Decidable (∀ v ∈ w.lookupVersion n, kept E manage v.files = []))
  | .draft _ | .check _ _ | .commit _ | .drop _ | .activate _ _ | .diff _ _ => .isTrue trivial

def World.Sound : Prop :=
  ∀ v ∈ w.versions, v.Sound E

variable {E w} {w' : World}

theorem World.Sound.next (hsum : ∀ s, E.sha256Hex s ≠ []) (h : w.Sound E) {e : Event}
    (hwhole : w.WholeSet E e) (hnext : w.next E e = some w') : w'.Sound E := by
  cases next_steps hnext with
  | same hversions _ =>
    rw [World.Sound, hversions]
    exact h
  | adds v hadds hversions _ =>
    rw [World.Sound, hversions]
    intro u hu
    rcases List.mem_append.mp hu with hu | hu
    · exact h u hu
    · rw [List.mem_singleton.mp hu]
      refine ⟨.inl hadds.manifest, ?_⟩
      rcases hadds.files with hnil | ⟨source, hsource, hfiles⟩
      · rw [hnil]
        exact List.nodup_nil
      · rw [hfiles]
        exact (h source hsource).nodup
  | rewrites v v' hmem hrewrites hversions _ =>
    have hsound : v'.Sound E := by
      cases hrewrites with
      | put hfound _ hput => exact .put hsum (hwhole v hfound) hput
      | mutate _ _ hmutate => exact (h v hmem).mutate hmutate
      | activate => exact ⟨(h v hmem).manifest, (h v hmem).nodup⟩
    rw [World.Sound, hversions]
    intro u hu
    obtain ⟨u₀, hu₀, rfl⟩ := mem_write.mp hu
    split
    · exact hsound
    · exact h u₀ hu₀

theorem World.start_sound (old : List Backfilled) (active : Option Nat) :
    (World.start old active).Sound E := by
  intro v hv
  obtain ⟨⟨b, i⟩, -, rfl⟩ := List.mem_map.mp hv
  refine ⟨.inl rfl, ?_⟩
  simp only [Backfilled.version, List.map_map]
  exact b.nodup

/-- Where no put leaves files that it does not manage in its draft, every comparison of two versions
is exact. -/
theorem diffsExact_along (hinj : Function.Injective E.manifest) (hsum : ∀ s, E.sha256Hex s ≠ [])
    {old : List Backfilled} {active : Option Nat} {events : List Event}
    (h : Along (World.next E) (World.WholeSet E) (World.start old active) events) :
    Along (World.next E) (World.DiffsExact E) (World.start old active) events := by
  refine Along.of_invariant (I := World.Sound E)
    (fun _ _ _ hw hwhole hnext => hw.next hsum hwhole hnext)
    (fun w e hw _ => ?_) (World.start_sound old active) h
  cases e with
  | diff n₁ n₂ =>
    intro v₁ h₁ v₂ h₂
    exact diffExact_of_sound hinj (hw v₁ (World.lookupVersion_mem h₁))
      (hw v₂ (World.lookupVersion_mem h₂))
  | _ => trivial

/-- A text with its characters marked and its end. -/
def framed (s : Str) : Str :=
  s.flatMap (fun c => ['+', c]) ++ ['-']

/-- A digest that keeps everything. -/
def Engine.plain : Engine :=
  ⟨fun s => 'h' :: s, fun l => l.flatMap fun f => framed f.1 ++ framed f.2, true⟩

theorem framed_append_inj {s s' t t' : Str} (h : framed s ++ t = framed s' ++ t') :
    s = s' ∧ t = t' := by
  induction s generalizing s' with
  | nil =>
    cases s' with
    | nil => exact ⟨rfl, (List.cons.inj h).2⟩
    | cons c' s' => exact absurd (List.cons.inj h).1 (by decide)
  | cons c s ih =>
    cases s' with
    | nil => exact absurd (List.cons.inj h).1 (by decide)
    | cons c' s' =>
      obtain ⟨hc, hrest⟩ := List.cons.inj (List.cons.inj h).2
      obtain ⟨rfl, rfl⟩ := ih hrest
      exact ⟨by rw [hc], rfl⟩

theorem framed_ne_nil (s t : Str) : framed s ++ t ≠ [] := by
  simp [framed]

theorem plain_injective : Function.Injective Engine.plain.manifest := by
  intro l l' h
  induction l generalizing l' with
  | nil =>
    cases l' with
    | nil => rfl
    | cons f' l' =>
      refine absurd h.symm ?_
      simp only [Engine.plain, List.flatMap_cons, List.append_assoc]
      exact framed_ne_nil _ _
  | cons f l ih =>
    cases l' with
    | nil =>
      refine absurd h ?_
      simp only [Engine.plain, List.flatMap_cons, List.append_assoc]
      exact framed_ne_nil _ _
    | cons f' l' =>
      simp only [Engine.plain, List.flatMap_cons, List.append_assoc] at h
      obtain ⟨hpath, hrest⟩ := framed_append_inj h
      obtain ⟨hhash, hrest⟩ := framed_append_inj hrest
      rw [Prod.ext hpath hhash, ih hrest]

/-- A pack and a rule are put together, the next draft's rule is patched. -/
theorem diffsExact_patched :
    let pack : PutFile := ⟨"KV/a.jsonl".toList, "p".toList, none⟩
    let rule : PutFile := ⟨"1/a.txcl".toList, "x".toList, none⟩
    let events : List Event := [.draft none, .put 1 .all [pack, rule], .draft (some 1), .diff 1 2,
      .check 2 ⟨"1/a.txcl".toList, "hx".toList, some "y".toList⟩, .commit 0, .diff 1 2]
    Along (World.next .plain) (World.WholeSet .plain) (World.start [] none) events ∧
      Along (World.next .plain) (World.DiffsExact .plain) (World.start [] none) events :=
  ⟨by decide, diffsExact_along plain_injective (fun _ => List.cons_ne_nil _ _) (by decide)⟩

/-- A put of code leaves a pack in its draft, and the digest of the code alone: the version passes
for one that has the same code and no pack. -/
theorem not_diffsExact_kept :
    Function.Injective Engine.plain.manifest ∧
      ¬Along (World.next .plain) (World.DiffsExact .plain) (World.start [] none)
        [.draft none, .put 1 .all [⟨"KV/a.jsonl".toList, "p".toList, none⟩], .draft (some 1),
          .put 2 .code [⟨"1/a.txcl".toList, "x".toList, none⟩], .draft none,
          .put 3 .all [⟨"1/a.txcl".toList, "x".toList, none⟩], .diff 2 3] := by
  refine ⟨plain_injective, fun h => ?_⟩
  have hbad :
    (([.draft none, .put 1 .all [⟨"KV/a.jsonl".toList, "p".toList, none⟩], .draft (some 1),
      .put 2 .code [⟨"1/a.txcl".toList, "x".toList, none⟩], .draft none,
      .put 3 .all [⟨"1/a.txcl".toList, "x".toList, none⟩]] : List Event).foldlM (World.next .plain)
        (World.start [] none)).any
          (fun w => (w.lookupVersion 2).any fun v₂ => (w.lookupVersion 3).any fun v₃ =>
          (diffVersions .plain v₂ v₃).equal &&
            decide ((v₂.hashes .plain).lookup "KV/a.jsonl".toList ≠
            (v₃.hashes .plain).lookup "KV/a.jsonl".toList)) = true := by
    decide
  obtain ⟨w, hw, hbad⟩ := (Option.any_eq_true _ _).mp hbad
  obtain ⟨v₂, h₂, hbad⟩ := (Option.any_eq_true _ _).mp hbad
  obtain ⟨v₃, h₃, hbad⟩ := (Option.any_eq_true _ _).mp hbad
  obtain ⟨hequal, hdiffer⟩ := Bool.and_eq_true_iff.mp hbad
  have hexact := along_iff.mp h 6 (.diff 2 3) w rfl hw v₂ h₂ v₃ h₃
  exact of_decide_eq_true hdiffer (hexact.equal.mp hequal _)

end Runs

end ThanksComputer.Admin
