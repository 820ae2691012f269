import ThanksComputer.Drive.Effects

/-! The rows of a drive as trees: every live row stands below a live directory or the root. -/

namespace ThanksComputer.Drive

open Lib.Table

/-- Live paths are unique, parent path and depth agree with the path, and the parent is there. -/
structure Tree (rows : List Resource) : Prop extends Keyed rows where
  place : ∀ r ∈ rows, r.live = true →
    r.path ≠ [] ∧ r.parentPath = parentOf r.path ∧ r.depth = depthOf r.path
  parent : ∀ r ∈ rows, r.live = true → parentOf r.path = [] ∨
    ∃ q ∈ rows, q.liveIn r.collectionID = true ∧ q.path = parentOf r.path ∧ q.kind = .dir

variable {rows : List Resource}

section Places

variable {r q : Resource}

theorem eq_of_path (h : Keyed rows) (hr : r ∈ rows) (hq : q ∈ rows) {collID : String}
    (hrl : r.liveIn collID = true) (hql : q.liveIn collID = true) (hpath : r.path = q.path) :
      r = q := by
  obtain ⟨hrc, hrl⟩ := liveIn_iff.mp hrl
  obtain ⟨hqc, hql⟩ := liveIn_iff.mp hql
  refine eq_of_key h.paths
    (List.mem_filter.mpr ⟨hr, hrl⟩) (List.mem_filter.mpr ⟨hq, hql⟩) ?_
  rw [hrc, hqc, hpath]

theorem getResource_of_mem {db : Index} (h : Keyed db.resources) (hr : r ∈ db.resources)
    {collID : String} (hlive : r.liveIn collID = true) : db.getResource collID r.path = some r := by
  cases hfound : db.getResource collID r.path with
  | none => exact absurd rfl (getResource_none hfound hr hlive)
  | some q =>
    obtain ⟨hq, hql, hpath⟩ := getResource_some hfound
    rw [eq_of_path h hq hr hql hlive hpath]

theorem live_of_liveIn {collID : String} (h : r.liveIn collID = true) : r.live = true :=
  (liveIn_iff.mp h).2

structure ChildOf (rows : List Resource) (r q : Resource) : Prop where
  mem : q ∈ rows
  live : q.liveIn r.collectionID = true
  dir : q.kind = .dir
  path : ∃ seg, r.path = q.path ++ '/' :: seg ∧ '/' ∉ seg

theorem Tree.childOf (h : Tree rows) (hr : r ∈ rows) (hlive : r.live = true)
    (hroot : parentOf r.path ≠ []) : ∃ q, ChildOf rows r q ∧ q.path = parentOf r.path := by
  rcases h.parent r hr hlive with hnil | ⟨q, hq, hqlive, hpath, hdir⟩
  · exact absurd hnil hroot
  · obtain ⟨seg, hseg, hslash⟩ := eq_append_of_parentOf hroot
    exact ⟨q, ⟨hq, hqlive, hdir, seg, hpath ▸ hseg, hslash⟩, hpath⟩

theorem Tree.ancestor (h : Tree rows) {r : Resource} (hr : r ∈ rows) (hlive : r.live = true)
    {dir x : Path} (hdir : dir ≠ []) (hpath : r.path = dir ++ '/' :: x) :
    ∃ q ∈ rows, q.liveIn r.collectionID = true ∧ q.path = dir ∧ q.kind = .dir := by
  -- Parent by parent: each is shorter, and those below `dir` still have it above them.
  induction hlen : r.path.length using Nat.strongRecOn generalizing r x with
  | _ n ih =>
    have hparent : parentOf r.path = if '/' ∈ x then dir ++ '/' :: parentOf x else dir := by
      rw [hpath, parentOf_append]
    have hroot : parentOf r.path ≠ [] := by
      rw [hparent]
      split
      · simp
      · exact hdir
    obtain ⟨q, hchild, hq⟩ := h.childOf hr hlive hroot
    by_cases hx : '/' ∈ x
    · rw [if_pos hx] at hparent
      have hshort : q.path.length < n := by
        rw [hq, ← hlen]
        apply length_parentOf_lt
        intro hnil
        rw [hnil] at hroot
        exact hroot rfl
      have hcoll := (liveIn_iff.mp hchild.live).1
      obtain ⟨a, ha, hal, hapath, hadir⟩ := ih q.path.length hshort hchild.mem
        (live_of_liveIn hchild.live) (hq.trans hparent) rfl
      exact ⟨a, ha, hcoll ▸ hal, hapath, hadir⟩
    · rw [if_neg hx] at hparent
      exact ⟨q, hchild.mem, hchild.live, hq.trans hparent, hchild.dir⟩

end Places

section Tombstones

variable {collID : String} {out : Resource → Bool} {token : Nat} {now : Int}

/-- What is taken out is live in one collection, and is taken out with all below it. -/
structure Uprooted (rows : List Resource) (collID : String) (out : Resource → Bool) : Prop where
  live : ∀ r ∈ rows, out r = true → r.liveIn collID = true
  below : ∀ r ∈ rows, r.liveIn collID = true → ∀ q, ChildOf rows r q → out q = true → out r = true

theorem filter_update_tombstone (p : Resource → Bool)
    (hp : ∀ r, p r = true → r.live = true) :
    (update out (Resource.tombstone token now) rows).filter p =
      rows.filter fun r => p r && !out r := by
  induction rows with
  | nil => rfl
  | cons r rows ih =>
    rw [update, List.map_cons, List.filter_cons, List.filter_cons]
    rw [update] at ih
    rw [ih]
    cases hout : out r with
    | true =>
      have hdead : ¬p (r.tombstone token now) = true := fun h => by
        have hlive := hp _ h
        rw [live_tombstone] at hlive
        cases hlive
      simp [hdead]
    | false => simp

theorem mem_update_tombstone {r' : Resource} (hlive : r'.live = true) :
    r' ∈ update out (Resource.tombstone token now) rows ↔ r' ∈ rows ∧ out r' = false := by
  have hmem : r' ∈ update out (Resource.tombstone token now) rows ↔
      r' ∈ (update out (Resource.tombstone token now) rows).filter Resource.live := by
    rw [List.mem_filter]
    exact ⟨fun h => ⟨h, hlive⟩, fun h => h.1⟩
  rw [hmem, filter_update_tombstone Resource.live fun _ h => h, List.mem_filter]
  simp [hlive]

theorem Keyed.tombstone (h : Keyed rows) :
    Keyed (update out (Resource.tombstone token now) rows) := by
  refine ⟨?_, ?_⟩
  · rw [map_update]
    · exact h.ids
    · exact fun r => rfl
  · rw [livePathsUnique, filter_update_tombstone Resource.live fun _ h => h]
    apply List.Nodup.sublist _ h.paths
    apply List.Sublist.map
    apply List.monotone_filter_right
    intro r hr
    exact (Bool.and_eq_true _ _ ▸ hr).1

theorem Tree.tombstone (h : Tree rows) (hout : Uprooted rows collID out) :
    Tree (update out (Resource.tombstone token now) rows) := by
  refine ⟨h.toKeyed.tombstone, ?_, ?_⟩
  · intro r hr hlive
    exact h.place r ((mem_update_tombstone hlive).mp hr).1 hlive
  · intro r hr hlive
    obtain ⟨hr, hkept⟩ := (mem_update_tombstone hlive).mp hr
    by_cases hroot : parentOf r.path = []
    · exact .inl hroot
    · obtain ⟨q, hchild, hpath⟩ := h.childOf hr hlive hroot
      refine .inr ⟨q, (mem_update_tombstone (live_of_liveIn hchild.live)).mpr ⟨hchild.mem, ?_⟩,
        hchild.live, hpath, hchild.dir⟩
      -- A parent that is taken out would take the row with it.
      by_contra hq
      rw [Bool.not_eq_false] at hq
      have hcoll : r.collectionID = collID := by
        rw [← (liveIn_iff.mp hchild.live).1]
        exact (liveIn_iff.mp (hout.live q hchild.mem hq)).1
      have hgone := hout.below r hr (liveIn_iff.mpr ⟨hcoll, hlive⟩) q hchild hq
      rw [hkept] at hgone
      cases hgone

theorem liveIn_tombstone (id : String) (r : Resource) :
    (if out r then r.tombstone token now else r).liveIn id = (r.liveIn id && !out r) := by
  cases hout : out r with
  | true => simp [Resource.liveIn, live_tombstone]
  | false => simp

theorem uprooted_inSubtree (h : Tree rows) {cur : Resource} (hcur : cur ∈ rows)
    (hlive : cur.liveIn collID = true) :
    Uprooted rows collID (inSubtree collID cur.path cur.kind) := by
  refine ⟨fun r _ hr => inSubtree_liveIn hr, fun r hr hrl q hchild hq => ?_⟩
  obtain ⟨seg, hseg, -⟩ := hchild.path
  rw [inSubtree, Bool.and_eq_true, Bool.or_eq_true, Bool.and_eq_true, beq_iff_eq,
    beq_iff_eq] at hq ⊢
  refine ⟨hrl, .inr ?_⟩
  rcases hq.2 with heq | ⟨hdir, hbelow⟩
  · have hcoll := hchild.live
    rw [(liveIn_iff.mp hrl).1] at hcoll
    obtain rfl := eq_of_path h.toKeyed hchild.mem hcur hcoll hlive heq
    exact ⟨hchild.dir, hseg ▸ likeBelow_self q.path seg⟩
  · exact ⟨hdir, hseg ▸ likeBelow_append hbelow seg⟩

end Tombstones

section Rows

theorem Tree.append (h : Tree rows) {new : List Resource} (hkeyed : Keyed (rows ++ new))
    (hplace : ∀ r ∈ new,
      r.path ≠ [] ∧ r.parentPath = parentOf r.path ∧ r.depth = depthOf r.path)
    (hparent : ∀ r ∈ new, parentOf r.path = [] ∨ ∃ q ∈ rows ++ new,
      q.liveIn r.collectionID = true ∧ q.path = parentOf r.path ∧ q.kind = .dir) :
    Tree (rows ++ new) := by
  refine ⟨hkeyed, ?_, ?_⟩
  · intro r hr hlive
    rcases List.mem_append.mp hr with hr | hr
    · exact h.place r hr hlive
    · exact hplace r hr
  · intro r hr hlive
    rcases List.mem_append.mp hr with hr | hr
    · rcases h.parent r hr hlive with hroot | ⟨q, hq, hrest⟩
      · exact .inl hroot
      · exact .inr ⟨q, List.mem_append_left _ hq, hrest⟩
    · exact hparent r hr

structure SamePlace (r r' : Resource) : Prop where
  resourceID : r'.resourceID = r.resourceID
  collectionID : r'.collectionID = r.collectionID
  path : r'.path = r.path
  parentPath : r'.parentPath = r.parentPath
  depth : r'.depth = r.depth
  kind : r'.kind = r.kind
  live : r'.live = r.live

theorem SamePlace.liveIn {r r' : Resource} (h : SamePlace r r') (id : String) :
    r'.liveIn id = r.liveIn id := by
  rw [Resource.liveIn, Resource.liveIn, h.collectionID, h.live]

theorem SamePlace.refl (r : Resource) : SamePlace r r :=
  ⟨rfl, rfl, rfl, rfl, rfl, rfl, rfl⟩

theorem SamePlace.ite {r r' : Resource} (h : SamePlace r r') (b : Bool) :
    SamePlace r (if b then r' else r) := by
  split
  · exact h
  · exact .refl r

theorem Keyed.map {φ : Resource → Resource} (h : Keyed rows) (hφ : ∀ r, SamePlace r (φ r)) :
    Keyed (rows.map φ) := by
  have hlive : (rows.map φ).filter Resource.live = (rows.filter Resource.live).map φ := by
    rw [List.filter_map]
    congr 1
    apply List.filter_congr
    exact fun r _ => (hφ r).live
  refine ⟨?_, ?_⟩
  · have hids : (rows.map φ).map Resource.resourceID = rows.map Resource.resourceID := by
      rw [List.map_map]
      exact List.map_congr_left fun r _ => (hφ r).resourceID
    rw [hids]
    exact h.ids
  · have hpaths := h.paths
    rw [livePathsUnique] at hpaths ⊢
    rw [hlive, List.map_map]
    have hkeys : (fun r : Resource => (r.collectionID, r.path)) ∘ φ =
        fun r => (r.collectionID, r.path) := by
      funext r
      rw [Function.comp, (hφ r).collectionID, (hφ r).path]
    rw [hkeys]
    exact hpaths

theorem Tree.map {φ : Resource → Resource} (h : Tree rows) (hφ : ∀ r, SamePlace r (φ r)) :
    Tree (rows.map φ) := by
  refine ⟨h.toKeyed.map hφ, ?_, ?_⟩
  · intro r' hr' hlive'
    obtain ⟨r, hr, rfl⟩ := List.mem_map.mp hr'
    rw [(hφ r).live] at hlive'
    rw [(hφ r).path, (hφ r).parentPath, (hφ r).depth]
    exact h.place r hr hlive'
  · intro r' hr' hlive'
    obtain ⟨r, hr, rfl⟩ := List.mem_map.mp hr'
    rw [(hφ r).live] at hlive'
    rw [(hφ r).path]
    rcases h.parent r hr hlive' with hroot | ⟨q, hq, hql, hqpath, hqdir⟩
    · exact .inl hroot
    · refine .inr ⟨φ q, List.mem_map_of_mem hq, ?_, ?_, ?_⟩
      · rw [(hφ q).liveIn, (hφ r).collectionID]
        exact hql
      · rw [(hφ q).path, hqpath]
      · rw [(hφ q).kind, hqdir]

end Rows

end ThanksComputer.Drive
