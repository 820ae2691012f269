import ThanksComputer.Drive.Tree

/-! A move, row by row: the target goes, what is below the source is renamed, and the source takes
the place of the target. -/

namespace ThanksComputer.Drive

open Lib (byteLen length_le_byteLen)
open Lib.Table

section Rows

variable {db : Index} {c : Collection} {src : Resource} {s t : Path} {now : Int}

/-- A row once the target is out of the way, if it is among those below the source. -/
def renamed (db : Index) (collID : String) (src : Resource) (s t : Path) (r : Resource) : Bool :=
  src.kind == .dir && r.liveIn collID && likeBelow s r.path && !targetHit db collID t r

def moved (db : Index) (collID : String) (src : Resource) (s t : Path) (token : Nat) (now : Int)
    (r : Resource) : Resource :=
  let r' := if targetHit db collID t r then r.tombstone token now
    else if renamed db collID src s t r then r.relocate s t token else r
  if r.resourceID == src.resourceID then r'.placeAt t token else r'

theorem moveRows_replaced {collID : String} {rows : List Resource} (hid : c.id = collID)
    (h : moveRows (replaced db c t now) collID src s t (c.syncToken + 1) = .ok rows) :
    rows = db.resources.map (moved db collID src s t (c.syncToken + 1) now) ∧
    livePathsUnique rows := by
  obtain ⟨hrows, hunique⟩ := moveRows_ok h
  refine ⟨?_, hunique⟩
  rw [hrows, replaced, hid, update, update, update, List.map_map, List.map_map]
  apply List.map_congr_left
  intro r _
  rw [Function.comp, Function.comp, moved, renamed]
  cases hhit : targetHit db collID t r with
  | true =>
    have hdead : (r.tombstone (c.syncToken + 1) now).liveIn collID = false := by
      rw [Resource.liveIn, live_tombstone, Bool.and_false]
    simp only [hdead, Bool.and_false, Bool.false_and, Bool.false_eq_true, if_true, if_false]
    rfl
  | false =>
    cases hbelow : src.kind == .dir && r.liveIn collID && likeBelow s r.path with
    | true => simp [hbelow, Resource.relocate]
    | false => simp [hbelow]

theorem moved_id (collID : String) (token : Nat) (r : Resource) :
    (moved db collID src s t token now r).resourceID = r.resourceID := by
  rw [moved]
  have hplace : ∀ r' : Resource, r'.resourceID = r.resourceID →
      (if r.resourceID == src.resourceID then r'.placeAt t token else r').resourceID =
        r.resourceID := by
    intro r' hr'
    split <;> exact hr'
  apply hplace
  split
  · rfl
  · split <;> rfl

variable {collID : String} {token : Nat} {r : Resource}

theorem live_moved_of_hit (h : targetHit db collID t r = true) :
    (moved db collID src s t token now r).live = false := by
  rw [moved, if_pos h]
  split <;> rfl

theorem moved_of_renamed (h : renamed db collID src s t r = true)
    (hne : r.resourceID ≠ src.resourceID) :
    moved db collID src s t token now r = r.relocate s t token := by
  have hkept := h
  rw [renamed, Bool.and_eq_true, Bool.not_eq_true'] at hkept
  rw [moved, hkept.2, h]
  simp [hne]

theorem moved_of_not (hhit : targetHit db collID t r = false)
    (hren : renamed db collID src s t r = false) (hne : r.resourceID ≠ src.resourceID) :
    moved db collID src s t token now r = r := by
  rw [moved, hhit, hren]
  simp [hne]

theorem moved_src (hhit : targetHit db collID t src = false) (hpath : src.path = s) :
    moved db collID src s t token now src = src.placeAt t token := by
  have hren : renamed db collID src s t src = false := by
    have hself : likeBelow s src.path = false := by
      apply (Bool.not_eq_true _).mp
      intro h
      rw [hpath] at h
      exact Nat.lt_irrefl _ (length_lt_of_likeBelow h)
    rw [renamed, hself]
    simp
  rw [moved, hhit, hren]
  simp

end Rows

section Relocation

variable {s t f x : Path} {r : Resource}

/-- A row below the source under its new name, where the length of the source is the same in bytes
and in characters. -/
theorem relocate_place (token : Nat) (hs : s ≠ []) (ht : t ≠ []) (hlen : byteLen s = s.length)
    (hf : SameLetters f s) (hpath : r.path = f ++ '/' :: x)
    (hparent : r.parentPath = parentOf r.path) (hdepth : r.depth = depthOf r.path) :
    (r.relocate s t token).path = t ++ '/' :: x ∧
      (r.relocate s t token).parentPath = parentOf (t ++ '/' :: x) ∧
      (r.relocate s t token).depth = depthOf (t ++ '/' :: x) := by
  have hflen : byteLen s = f.length := hlen.trans hf.length_eq.symm
  have hfne : f ≠ [] := by
    rintro rfl
    exact hs (List.length_eq_zero_iff.mp hf.length_eq.symm)
  have hdrop : ∀ y : Path, substr (f ++ y) (byteLen s + 1) = y := by
    intro y
    rw [substr, Nat.add_sub_cancel, hflen, List.drop_left]
  refine ⟨?_, ?_, ?_⟩
  · change t ++ substr r.path (byteLen s + 1) = t ++ '/' :: x
    rw [hpath, hdrop]
  · change t ++ substr r.parentPath (byteLen s + 1) = parentOf (t ++ '/' :: x)
    rw [hparent, hpath, parentOf_append, parentOf_append]
    split
    · rw [hdrop]
    · have hself := hdrop []
      rw [List.append_nil] at hself
      rw [hself, List.append_nil]
  · have hfs : depthOf f = depthOf s := by
      rw [depthOf, depthOf, if_neg hfne, if_neg hs, hf.count_eq]
    change r.depth + ((depthOf t : Int) - depthOf s) = depthOf (t ++ '/' :: x)
    rw [hdepth, hpath, depthOf_append hfne, depthOf_append ht, hfs]
    omega

theorem inside_of_relocate_eq {token : Nat} (hs : s ≠ []) (ht : t ≠ []) (hf : SameLetters f s)
    (hpath : r.path = f ++ '/' :: x) (h : r.relocate s t token = r) :
    r.path = t ∨ isInside r.path t = true := by
  have hnew : t ++ r.path.drop (byteLen s) = r.path := congrArg Resource.path h
  have hdepth : r.depth + ((depthOf t : Int) - depthOf s) = r.depth := congrArg Resource.depth h
  by_cases hshort : r.path.length ≤ byteLen s
  · rw [List.drop_eq_nil_of_le hshort, List.append_nil] at hnew
    exact .inl hnew.symm
  · have htlen : t.length = byteLen s := by
      have hlen := congrArg List.length hnew
      rw [List.length_append, List.length_drop] at hlen
      omega
    have htake : t = r.path.take (byteLen s) := by
      rw [← hnew, ← htlen, List.take_left]
    have hfle : f.length ≤ byteLen s := by
      rw [hf.length_eq]
      exact length_le_byteLen s
    rw [hpath, List.take_append, List.take_of_length_le hfle] at htake
    have hfne : f ≠ [] := by
      rintro rfl
      exact hs (List.length_eq_zero_iff.mp hf.length_eq.symm)
    cases hmore : byteLen s - f.length with
    | zero =>
      rw [hmore, List.take_zero, List.append_nil] at htake
      exact .inr ((isInside_iff ht).mpr ⟨x, by rw [hpath, htake]⟩)
    | succ k =>
      -- Then the target is deeper than the source, and the depth of the row would change.
      rw [hmore, List.take_succ_cons] at htake
      have hdeep : depthOf t = depthOf f + (x.take k).count '/' + 1 := by
        rw [htake, depthOf_append hfne]
      have hfs : depthOf f = depthOf s := by
        rw [depthOf, depthOf, if_neg hfne, if_neg hs, hf.count_eq]
      omega

end Relocation

/-- A row that is neither at the source or the target nor below one of them. -/
def Outside (collID : String) (s t : Path) (r : Resource) : Prop :=
  r.collectionID = collID →
    (r.path ≠ s ∧ isInside r.path s = false) ∧ r.path ≠ t ∧ isInside r.path t = false

/-- A live row of the collection at a path, with the parent path and the depth of that path. -/
structure PlacedAt (collID : String) (p : Path) (r : Resource) : Prop where
  live : r.liveIn collID = true
  path : r.path = p
  parentPath : r.parentPath = parentOf p
  depth : r.depth = depthOf p

structure MoveEffect (rows rows' : List Resource) (collID : String) (src : Resource) (s t : Path) :
    Prop where
  root : ∃ r' ∈ rows', r'.resourceID = src.resourceID ∧ PlacedAt collID t r'
  below : ∀ r ∈ rows, r.liveIn collID = true → ∀ x, r.path = s ++ '/' :: x →
    ∃ r' ∈ rows', r'.resourceID = r.resourceID ∧ PlacedAt collID (t ++ '/' :: x) r'
  others : ∀ r, Outside collID s t r → (r ∈ rows' ↔ r ∈ rows)

/-- The source is not below the target; what the pattern of a directory matches is below that
directory, letter by letter; and the length of the source is the same in bytes and in characters,
where there is something below it. -/
structure MoveCond (db : Index) (collID : String) (src : Resource) (s t : Path) : Prop where
  apart : isInside s t = false
  target : ∀ dst, db.getResource collID t = some dst → dst.kind = .dir →
    ∀ r ∈ db.resources, r.liveIn collID = true → likeBelow t r.path = true →
      isInside r.path t = true
  source : src.kind = .dir → ∀ r ∈ db.resources, r.liveIn collID = true →
    likeBelow s r.path = true →
    isInside r.path s = true ∨ r.path = t ∨ isInside r.path t = true
  length : ∀ r ∈ db.resources, r.liveIn collID = true → isInside r.path s = true →
    byteLen s = s.length

section Effect

variable {db : Index} {collID : String} {src r : Resource} {s t : Path} {token : Nat} {now : Int}

theorem hit_of_inside (htree : Tree db.resources) (ht : t ≠ []) (hr : r ∈ db.resources)
    (hlive : r.liveIn collID = true) (h : r.path = t ∨ isInside r.path t = true) :
    targetHit db collID t r = true := by
  rw [targetHit, Option.any_eq_true]
  rcases h with rfl | hinside
  · refine ⟨r, getResource_of_mem htree.toKeyed hr hlive, ?_⟩
    simp [inSubtree, hlive]
  · obtain ⟨x, hx⟩ := (isInside_iff ht).mp hinside
    obtain ⟨q, hq, hql, hqpath, hqdir⟩ := htree.ancestor hr (live_of_liveIn hlive) ht hx
    rw [(liveIn_iff.mp hlive).1] at hql
    refine ⟨q, hqpath ▸ getResource_of_mem htree.toKeyed hq hql, ?_⟩
    have hbelow : likeBelow t r.path = true := hx ▸ likeBelow_self t x
    simp [inSubtree, hlive, hqdir, hbelow]

theorem inside_of_hit (hcond : MoveCond db collID src s t) (hr : r ∈ db.resources)
    (h : targetHit db collID t r = true) : r.path = t ∨ isInside r.path t = true := by
  have hlive := targetHit_liveIn h
  rw [targetHit, Option.any_eq_true] at h
  obtain ⟨dst, hdst, hsub⟩ := h
  simp only [inSubtree, Bool.and_eq_true, Bool.or_eq_true, beq_iff_eq] at hsub
  rcases hsub.2 with heq | ⟨hdir, hbelow⟩
  · exact .inl heq
  · exact .inr (hcond.target dst hdst hdir r hr hlive hbelow)

theorem renamed_iff : renamed db collID src s t r = true ↔
    src.kind = .dir ∧ r.liveIn collID = true ∧ likeBelow s r.path = true ∧
      targetHit db collID t r = false := by
  simp only [renamed, Bool.and_eq_true, beq_iff_eq, Bool.not_eq_true', and_assoc]

theorem ne_src_of_path (hids : (db.resources.map Resource.resourceID).Nodup) (hr : r ∈ db.resources)
    (hmem : src ∈ db.resources) (hpath : r.path ≠ src.path) : r.resourceID ≠ src.resourceID := by
  intro hid
  exact hpath (congrArg Resource.path (eq_of_key hids hr hmem hid))

theorem renamed_of_inside (htree : Tree db.resources) (hs : s ≠ [])
    (hsrc : db.getResource collID s = some src) (hr : r ∈ db.resources)
    (hlive : r.liveIn collID = true) {x : Path} (hx : r.path = s ++ '/' :: x)
    (hkept : targetHit db collID t r = false) :
    renamed db collID src s t r = true ∧ r.resourceID ≠ src.resourceID := by
  obtain ⟨hmem, hsl, hsp⟩ := getResource_some hsrc
  have hdir : src.kind = .dir := by
    obtain ⟨q, hq, hql, hqpath, hqdir⟩ := htree.ancestor hr (live_of_liveIn hlive) hs hx
    rw [(liveIn_iff.mp hlive).1] at hql
    rw [← eq_of_path htree.toKeyed hq hmem hql hsl (hqpath.trans hsp.symm)]
    exact hqdir
  refine ⟨renamed_iff.mpr ⟨hdir, hlive, hx ▸ likeBelow_self s x, hkept⟩, ?_⟩
  apply ne_src_of_path htree.ids hr hmem
  rw [hx, hsp]
  simp

theorem moved_outside (htree : Tree db.resources) (hsrc : db.getResource collID s = some src)
    (hcond : MoveCond db collID src s t) (hr : r ∈ db.resources) (hout : Outside collID s t r) :
    moved db collID src s t token now r = r := by
  obtain ⟨hmem, hsl, hsp⟩ := getResource_some hsrc
  by_cases hcoll : r.collectionID = collID
  · obtain ⟨⟨hnes, hns⟩, hnet, hnt⟩ := hout hcoll
    apply moved_of_not
    · apply (Bool.not_eq_true _).mp
      intro hhit
      rcases inside_of_hit hcond hr hhit with heq | hin
      · exact hnet heq
      · rw [hnt] at hin
        cases hin
    · apply (Bool.not_eq_true _).mp
      intro hren
      obtain ⟨hdir, hlive, hbelow, -⟩ := renamed_iff.mp hren
      rcases hcond.source hdir r hr hlive hbelow with hin | heq | hin
      · rw [hns] at hin
        cases hin
      · exact hnet heq
      · rw [hnt] at hin
        cases hin
    · exact ne_src_of_path htree.ids hr hmem (hsp ▸ hnes)
  · have hforeign : r.liveIn collID = false := by
      apply (Bool.not_eq_true _).mp
      exact fun h => hcoll (liveIn_iff.mp h).1
    apply moved_of_not
    · apply (Bool.not_eq_true _).mp
      intro hhit
      rw [targetHit_liveIn hhit] at hforeign
      cases hforeign
    · simp [renamed, hforeign]
    · intro hid
      obtain rfl := eq_of_key htree.ids hr hmem hid
      exact hcoll (liveIn_iff.mp hsl).1

theorem inside_of_moved (htree : Tree db.resources) (hs : s ≠ []) (ht : t ≠ [])
    (hsrc : db.getResource collID s = some src) (hcond : MoveCond db collID src s t)
    (hr : r ∈ db.resources) (hne : moved db collID src s t token now r ≠ r) :
    (moved db collID src s t token now r).collectionID = collID ∧
      ((moved db collID src s t token now r).path = t ∨
        isInside (moved db collID src s t token now r).path t = true) := by
  obtain ⟨hmem, hsl, hsp⟩ := getResource_some hsrc
  by_cases hid : r.resourceID = src.resourceID
  · obtain rfl := eq_of_key htree.ids hr hmem hid
    have hplaced : ∀ r' : Resource, r'.collectionID = collID →
        (r'.placeAt t token).collectionID = collID ∧
          ((r'.placeAt t token).path = t ∨ isInside (r'.placeAt t token).path t = true) :=
      fun r' hcoll => ⟨hcoll, .inl rfl⟩
    rw [moved, beq_self_eq_true, if_pos rfl]
    apply hplaced
    have hcoll := (liveIn_iff.mp hsl).1
    split
    · exact hcoll
    · split <;> exact hcoll
  · cases hhit : targetHit db collID t r with
    | true =>
      have hmoved : moved db collID src s t token now r = r.tombstone token now := by
        rw [moved, hhit]
        simp [hid]
      have hin := inside_of_hit hcond hr hhit
      rw [hmoved]
      exact ⟨(liveIn_iff.mp (targetHit_liveIn hhit)).1, hin⟩
    | false =>
      cases hren : renamed db collID src s t r with
      | false => exact absurd (moved_of_not hhit hren hid) hne
      | true =>
        obtain ⟨hdir, hlive, hbelow, -⟩ := renamed_iff.mp hren
        have hinside : isInside r.path s = true := by
          rcases hcond.source hdir r hr hlive hbelow with hin | hin
          · exact hin
          · rw [hit_of_inside htree ht hr hlive hin] at hhit
            cases hhit
        obtain ⟨x, hx⟩ := (isInside_iff hs).mp hinside
        obtain ⟨-, hparent, hdepth⟩ := htree.place r hr (live_of_liveIn hlive)
        obtain ⟨hpath', -, -⟩ := relocate_place (r := r) token hs ht
          (hcond.length r hr hlive hinside) (SameLetters.refl s) hx hparent hdepth
        rw [moved_of_renamed hren hid, hpath']
        exact ⟨(liveIn_iff.mp hlive).1, .inr ((isInside_iff ht).mpr ⟨x, rfl⟩)⟩

theorem effect_of_cond (htree : Tree db.resources) (hs : s ≠ []) (ht : t ≠ []) (hne : s ≠ t)
    (hcycle : isInside t s = false) (hsrc : db.getResource collID s = some src)
    (hcond : MoveCond db collID src s t) :
    MoveEffect db.resources
      (db.resources.map (moved db collID src s t token now)) collID src s t := by
  obtain ⟨hmem, hsl, hsp⟩ := getResource_some hsrc
  have hsrckept : targetHit db collID t src = false := by
    apply (Bool.not_eq_true _).mp
    intro hhit
    rcases inside_of_hit hcond hmem hhit with heq | hinside
    · exact hne (hsp.symm.trans heq)
    · rw [hsp, hcond.apart] at hinside
      cases hinside
  refine ⟨?_, ?_, ?_⟩
  · refine ⟨_, List.mem_map_of_mem hmem, moved_id collID token src, ?_⟩
    rw [moved_src hsrckept hsp]
    exact ⟨hsl, rfl, rfl, rfl⟩
  · intro r hr hlive x hx
    refine ⟨_, List.mem_map_of_mem hr, moved_id collID token r, ?_⟩
    have hinside : isInside r.path s = true := (isInside_iff hs).mpr ⟨x, hx⟩
    have hkept : targetHit db collID t r = false := by
      apply (Bool.not_eq_true _).mp
      intro hhit
      rcases inside_of_hit hcond hr hhit with heq | hin
      · rw [heq, hcycle] at hinside
        cases hinside
      · obtain ⟨y, hy⟩ := (isInside_iff ht).mp hin
        rcases inside_of_append_eq hs ht (hx.symm.trans hy) with heq | hst | hts
        · exact hne heq
        · rw [hcond.apart] at hst
          cases hst
        · rw [hcycle] at hts
          cases hts
    obtain ⟨hren, hne'⟩ := renamed_of_inside htree hs hsrc hr hlive hx hkept
    obtain ⟨-, hparent, hdepth⟩ := htree.place r hr (live_of_liveIn hlive)
    obtain ⟨hpath', hparent', hdepth'⟩ := relocate_place (r := r) token hs ht
      (hcond.length r hr hlive hinside) (SameLetters.refl s) hx hparent hdepth
    rw [moved_of_renamed hren hne']
    exact ⟨hlive, hpath', hparent', hdepth'⟩
  · intro r hout
    constructor
    · intro hr'
      obtain ⟨r₀, hr₀, rfl⟩ := List.mem_map.mp hr'
      by_cases hsame : moved db collID src s t token now r₀ = r₀
      · rw [hsame]
        exact hr₀
      · obtain ⟨hcoll, hin⟩ := inside_of_moved htree hs ht hsrc hcond hr₀ hsame
        obtain ⟨-, hnet, hnt⟩ := hout hcoll
        rcases hin with heq | hin
        · exact absurd heq hnet
        · rw [hnt] at hin
          cases hin
    · intro hr
      rw [← moved_outside htree hsrc hcond hr hout]
      exact List.mem_map_of_mem hr

section Necessary

variable (htree : Tree db.resources) (hs : s ≠ []) (ht : t ≠ [])
  (hsrc : db.getResource collID s = some src)
  (heffect : MoveEffect db.resources (db.resources.map (moved db collID src s t token now))
    collID src
    s t)

include htree in
theorem eq_moved (hr : r ∈ db.resources) {r' : Resource}
    (hr' : r' ∈ db.resources.map (moved db collID src s t token now))
    (hid : r'.resourceID = r.resourceID) : r' = moved db collID src s t token now r := by
  obtain ⟨r₀, hr₀, rfl⟩ := List.mem_map.mp hr'
  rw [moved_id] at hid
  rw [eq_of_key htree.ids hr₀ hr hid]

include htree hs hsrc heffect in
theorem inside_of_hit_of_effect (hr : r ∈ db.resources) (hhit : targetHit db collID t r = true) :
    r.path = t ∨ isInside r.path t = true := by
  obtain ⟨hmem, hsl, hsp⟩ := getResource_some hsrc
  have hlive := targetHit_liveIn hhit
  have hdead : (moved db collID src s t token now r).live = false := live_moved_of_hit hhit
  have hgone : ∀ r' ∈ db.resources.map (moved db collID src s t token now),
      r'.resourceID = r.resourceID → r'.liveIn collID = true → False := by
    intro r' hr' hid hlive'
    rw [eq_moved htree hr hr' hid] at hlive'
    rw [live_of_liveIn hlive'] at hdead
    cases hdead
  by_contra hnot
  rw [not_or] at hnot
  by_cases hps : r.path = s
  · obtain rfl := eq_of_path htree.toKeyed hr hmem hlive hsl (hps.trans hsp.symm)
    obtain ⟨r', hr', hid, hplaced⟩ := heffect.root
    exact hgone r' hr' hid hplaced.live
  · by_cases hin : isInside r.path s = true
    · obtain ⟨x, hx⟩ := (isInside_iff hs).mp hin
      obtain ⟨r', hr', hid, hplaced⟩ := heffect.below r hr hlive x hx
      exact hgone r' hr' hid hplaced.live
    · have hout : Outside collID s t r := fun _ =>
        ⟨⟨hps, (Bool.not_eq_true _).mp hin⟩, hnot.1, (Bool.not_eq_true _).mp hnot.2⟩
      exact hgone r ((heffect.others r hout).mpr hr) rfl hlive

include htree hs ht hsrc heffect in
theorem cond_of_effect : MoveCond db collID src s t := by
  obtain ⟨hmem, hsl, hsp⟩ := getResource_some hsrc
  have hkeeps : ∀ r ∈ db.resources, targetHit db collID t r = true →
      r.path = t ∨ isInside r.path t = true :=
    fun r hr hhit => inside_of_hit_of_effect htree hs hsrc heffect hr hhit
  refine ⟨?_, ?_, ?_, ?_⟩
  · -- A source below the target would be removed with it.
    apply (Bool.not_eq_true _).mp
    intro hin
    have hhit := hit_of_inside htree ht hmem hsl (.inr (hsp ▸ hin))
    obtain ⟨r', hr', hid, hplaced⟩ := heffect.root
    have hlive := live_of_liveIn hplaced.live
    rw [eq_moved htree hmem hr' hid, live_moved_of_hit hhit] at hlive
    cases hlive
  · intro dst hdst hdir r hr hlive hbelow
    have hhit : targetHit db collID t r = true := by
      rw [targetHit, hdst]
      simp [inSubtree, hlive, hdir, hbelow]
    rcases hkeeps r hr hhit with heq | hin
    · have hlt := length_lt_of_likeBelow hbelow
      rw [heq] at hlt
      exact absurd hlt (Nat.lt_irrefl _)
    · exact hin
  · intro hdir r hr hlive hbelow
    by_contra hnot
    rw [not_or, not_or] at hnot
    have hps : r.path ≠ s := by
      intro hps
      have hlt := length_lt_of_likeBelow hbelow
      rw [hps] at hlt
      exact Nat.lt_irrefl _ hlt
    have hkept : targetHit db collID t r = false := by
      apply (Bool.not_eq_true _).mp
      intro hhit
      exact (hkeeps r hr hhit).elim hnot.2.1 hnot.2.2
    have hren : renamed db collID src s t r = true := renamed_iff.mpr ⟨hdir, hlive, hbelow, hkept⟩
    have hout : Outside collID s t r := fun _ =>
      ⟨⟨hps, (Bool.not_eq_true _).mp hnot.1⟩, hnot.2.1, (Bool.not_eq_true _).mp hnot.2.2⟩
    have hsame := eq_moved htree hr ((heffect.others r hout).mpr hr) rfl
    rw [moved_of_renamed hren (ne_src_of_path htree.ids hr hmem (hsp ▸ hps))] at hsame
    obtain ⟨f, x, hx, hf⟩ := likeBelow_iff.mp hbelow
    exact (inside_of_relocate_eq hs ht hf hx hsame.symm).elim hnot.2.1 hnot.2.2
  · intro r hr hlive hin
    obtain ⟨x, hx⟩ := (isInside_iff hs).mp hin
    obtain ⟨r', hr', hid, hplaced⟩ := heffect.below r hr hlive x hx
    have hkept : targetHit db collID t r = false := by
      apply (Bool.not_eq_true _).mp
      intro hhit
      have hlive' := live_of_liveIn hplaced.live
      rw [eq_moved htree hr hr' hid, live_moved_of_hit hhit] at hlive'
      cases hlive'
    obtain ⟨hren, hne'⟩ := renamed_of_inside htree hs hsrc hr hlive hx hkept
    have hpath := hplaced.path
    rw [eq_moved htree hr hr' hid, moved_of_renamed hren hne'] at hpath
    -- Cut at the bytes of the source, a name in more bytes than characters is too short.
    have hlen := congrArg List.length hpath
    have hbytes := length_le_byteLen s
    simp only [Resource.relocate, substr, Nat.add_sub_cancel, hx, List.length_append,
      List.length_drop,
      List.length_cons] at hlen
    omega

end Necessary

end Effect

/-- A move that reports success has done what it is for exactly when the condition held. -/
theorem move_effect_iff {nfc : Path → Path} {db db' : Index} (htree : Tree db.resources)
    {collID : String} {source target : Option Path} {overwrite : Bool} {now : Int}
    (h : db.move nfc collID source target overwrite now = .ok db') :
    ∃ s t src, checkMoveCopyPaths nfc source target = .ok (s, t) ∧
      db.getResource collID s = some src ∧
      (MoveEffect db.resources db'.resources collID src s t ↔ MoveCond db collID src s t) := by
  obtain ⟨s, t, c, src, rows, hpaths, hc, hsrc, -, hrows, rfl⟩ := move_ok h
  obtain ⟨hs, ht, hne, hcycle⟩ := checkMoveCopyPaths_ok hpaths
  obtain ⟨rfl, -⟩ := moveRows_replaced (lockCollection_ok hc).2.1 hrows
  refine ⟨s, t, src, hpaths, hsrc, ?_⟩
  exact ⟨fun heffect => cond_of_effect htree hs ht hsrc heffect,
    fun hcond => effect_of_cond htree hs ht hne hcycle hsrc hcond⟩

section Names

/-- A collection of one directory with one file in it. -/
def oneFile (dir : Path) : Index where
  collections := [⟨"dc_1", "acme", ['m', 'a', 'i', 'n'], 2, 3, 2, none⟩]
  resources :=
    [⟨"dr_1", "dc_1", dir, [], 1, .dir, none, 0, [], 1, none⟩,
      ⟨"dr_2", "dc_1", dir ++ ['/', 'x'], dir, 2, .file, some "k", 3, ['e'], 2, none⟩]

def afterRename (dir target : Path) : Index :=
  match (oneFile dir).move id "dc_1" (some dir) (some target) false 0 with
  | .ok db' => db'
  | .error _ => .empty

def docs : Path := ['d', 'o', 'c', 's']

theorem tree_oneFile_docs : Tree (oneFile docs).resources :=
  ⟨⟨by decide, by decide⟩, by decide, by decide⟩

theorem move_docs :
    (oneFile docs).move id "dc_1" (some docs) (some ['b']) false 0 = .ok
      (afterRename docs ['b']) := by
  decide

theorem move_effect_docs :
    ∃ src, MoveEffect (oneFile docs).resources (afterRename docs ['b']).resources "dc_1" src docs
      ['b'] := by
  obtain ⟨s, t, src, hpaths, hsrc, hiff⟩ := move_effect_iff tree_oneFile_docs move_docs
  have hpaths' : checkMoveCopyPaths id (some docs) (some ['b']) = .ok (docs, ['b']) := by decide
  rw [hpaths'] at hpaths
  cases hpaths
  have hnone : (oneFile docs).getResource "dc_1" ['b'] = none := by decide
  refine ⟨src, hiff.mpr ⟨by decide, ?_, fun _ => by decide, by decide⟩⟩
  intro dst hdst
  rw [hnone] at hdst
  cases hdst

theorem tree_oneFile_accented : Tree (oneFile ['é']).resources :=
  ⟨⟨by decide, by decide⟩, by decide, by decide⟩

/-- A directory of one letter in two bytes: the slash of its file is cut off with the name. -/
theorem not_move_effect_accented :
    Tree (oneFile ['é']).resources ∧
      (oneFile ['é']).move id "dc_1" (some ['é']) (some ['b']) false 0 = .ok
        (afterRename ['é'] ['b']) ∧
      ∀ src, (oneFile ['é']).getResource "dc_1" ['é'] = some src →
        ¬MoveEffect (oneFile ['é']).resources (afterRename ['é'] ['b']).resources "dc_1" src ['é']
          ['b'] := by
  refine ⟨tree_oneFile_accented, by decide, fun src _ heffect => ?_⟩
  obtain ⟨r', hr', hid, hplaced⟩ := heffect.below
    ⟨"dr_2", "dc_1", ['é', '/', 'x'], ['é'], 2, .file, some "k", 3, ['e'], 2, none⟩ (by decide)
    (by decide) ['x'] rfl
  have hno : ∀ r' ∈ (afterRename ['é'] ['b']).resources, r'.resourceID = "dr_2" →
      r'.path = ['b', 'x'] := by
    decide
  have hpath := hplaced.path
  rw [hno r' hr' hid] at hpath
  cases hpath

end Names

end ThanksComputer.Drive
