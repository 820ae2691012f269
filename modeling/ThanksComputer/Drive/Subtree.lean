import ThanksComputer.Drive.Effects

/-! Which rows a deleted directory takes with it.  The statement finds them by a `LIKE` that ignores
the case of ASCII letters, `isInside` by the very letters. -/

namespace ThanksComputer.Drive

open Lib.Table

/-- The directory and what is live strictly below it. -/
def subtreeHit (collID : String) (dir : Path) (r : Resource) : Bool :=
  r.liveIn collID && (r.path == dir || isInside r.path dir)

/-- The rows after a deletion are those before, with that subtree tombstoned and nothing else. -/
def TombstonesExactly (collID : String) (dir : Path) (token : Nat) (now : Int)
    (rows rows' : List Resource) :
    Prop :=
  rows' = update (subtreeHit collID dir) (Resource.tombstone token now) rows

/-- No live row lies below a path that differs from the directory's in the case of letters only. -/
def CaseClear (collID : String) (dir : Path) (rows : List Resource) : Prop :=
  ∀ r ∈ rows, r.liveIn collID = true → ∀ f x, r.path = f ++ '/' :: x → SameLetters f dir → f = dir

section Rows

variable {collID : String} {dir : Path} {rows : List Resource}

theorem update_tombstone_eq {p q : Resource → Bool} {token : Nat} {now : Int}
    (hp : ∀ r, p r = true → r.live = true) (hq : ∀ r, q r = true → r.live = true) :
    update p (Resource.tombstone token now) rows = update q (Resource.tombstone token now) rows ↔
      ∀ r ∈ rows, p r = q r := by
  rw [update, update, List.map_inj_left]
  refine forall₂_congr fun r _ => ?_
  have hne : ∀ {s : Resource → Bool}, (s r = true → r.live = true) → s r = true →
    r.tombstone token now ≠ r := by
    intro s hs hr heq
    have hlive := hs hr
    rw [← heq, live_tombstone] at hlive
    cases hlive
  cases hpr : p r with
  | true =>
    cases hqr : q r with
    | true => exact iff_of_true rfl rfl
    | false =>
      refine iff_of_false ?_ (by decide)
      exact hne (hp r) hpr
  | false =>
    cases hqr : q r with
    | true =>
      refine iff_of_false ?_ Bool.false_ne_true
      exact (hne (hq r) hqr).symm
    | false => exact iff_of_true rfl rfl

theorem inSubtree_eq_subtreeHit (hdir : dir ≠ []) :
    (∀ r ∈ rows, inSubtree collID dir .dir r = subtreeHit collID dir r) ↔
    CaseClear collID dir rows := by
  refine forall₂_congr fun r _ => ?_
  rw [inSubtree, subtreeHit]
  cases hlive : r.liveIn collID with
  | false => simp
  | true =>
    have hinside : isInside r.path dir = true → likeBelow dir r.path = true := by
      intro h
      obtain ⟨x, hx⟩ := (isInside_iff hdir).mp h
      exact likeBelow_iff.mpr ⟨dir, x, hx, SameLetters.refl dir⟩
    have hself : r.path = dir → likeBelow dir r.path = false := by
      intro h
      by_contra hbelow
      have := length_lt_of_likeBelow (Bool.not_eq_false _ ▸ hbelow)
      rw [h] at this
      omega
    simp only [Bool.true_and, beq_self_eq_true, true_implies]
    constructor
    · intro heq f x hpath hletters
      have hbelow : likeBelow dir r.path = true := likeBelow_iff.mpr ⟨f, x, hpath, hletters⟩
      have hne : (r.path == dir) = false := by
        rw [beq_eq_false_iff_ne]
        intro h
        rw [hself h] at hbelow
        cases hbelow
      rw [hne, hbelow] at heq
      obtain ⟨y, hy⟩ := (isInside_iff hdir).mp (heq.symm : isInside r.path dir = true)
      rw [hpath] at hy
      exact (List.append_inj hy hletters.length_eq).1
    · intro hclear
      congr 1
      rw [Bool.eq_iff_iff]
      refine ⟨fun hbelow => ?_, hinside⟩
      obtain ⟨f, x, hpath, hletters⟩ := likeBelow_iff.mp hbelow
      rw [hclear f x hpath hletters] at hpath
      exact (isInside_iff hdir).mpr ⟨x, hpath⟩

end Rows

/-- Deleting a directory, or replacing it, tombstones its subtree and nothing else exactly if no
live row lies below a path that differs from its own in the case of letters only. -/
theorem tombstonesExactly_iff {db : Index} {collID : String} {d : Resource} (hdir : d.kind = .dir)
    (hpath : d.path ≠ []) :
    (∀ c opts now db', db.lockCollection collID = .ok c →
      db.deleteWhere collID opts (some d) now = .ok db' →
        (TombstonesExactly collID d.path (c.syncToken + 1) now db.resources db'.resources ↔
          CaseClear collID d.path db.resources)) ∧
      ∀ c now c' db', c.id = collID → db.getResource collID d.path = some d →
        replaceDestination db c d.path true now = .ok (c', db') →
        (TombstonesExactly collID d.path c.syncToken now db.resources db'.resources ↔
          CaseClear collID d.path db.resources) := by
  have hrows : ∀ token now,
      TombstonesExactly collID d.path token now db.resources
          (update (inSubtree collID d.path .dir) (Resource.tombstone token now) db.resources) ↔
        CaseClear collID d.path db.resources := by
    intro token now
    rw [TombstonesExactly, update_tombstone_eq, inSubtree_eq_subtreeHit hpath]
    · intro r hr
      exact (liveIn_iff.mp (inSubtree_liveIn hr)).2
    · intro r hr
      rw [subtreeHit, Bool.and_eq_true] at hr
      exact (liveIn_iff.mp hr.1).2
  refine ⟨fun c opts now db' hc hdelete => ?_, fun c now c' db' hid hget hreplace => ?_⟩
  · obtain ⟨c', cur, hc', hcur, rfl⟩ := deleteWhere_ok hdelete
    rw [hc] at hc'
    cases hc'
    cases hcur
    rw [hdir]
    exact hrows _ now
  · obtain ⟨-, rfl⟩ := replaceDestination_ok hreplace
    have hhit : targetHit db c.id d.path = inSubtree collID d.path .dir := by
      funext r
      rw [targetHit, hid, hget, Option.any_some, hdir]
    rw [hhit]
    exact hrows _ now

/-- A directory with a file in it, beside another directory. -/
def besideDir (dir other : Path) : Index where
  collections := [⟨"c", "t", ['d'], 3, 0, 3, none⟩]
  resources :=
    [⟨"1", "c", dir, [], 1, .dir, none, 0, [], 1, none⟩,
      ⟨"2", "c", other, [], 1, .dir, none, 0, [], 2, none⟩,
      ⟨"3", "c", other ++ ['/', 'x'], other, 2, .file, some "k", 0, [], 3, none⟩]

/-- A sibling of another name keeps its file. -/
theorem tombstonesExactly_sibling :
    ∃ db', (besideDir ['A'] ['b']).deleteWhere "c" ⟨[], []⟩
        ((besideDir ['A'] ['b']).getResource "c" ['A']) 7 = .ok db' ∧
      TombstonesExactly "c" ['A'] 4 7 (besideDir ['A'] ['b']).resources db'.resources := by
  have hclear : CaseClear "c" ['A'] (besideDir ['A'] ['b']).resources := by
    intro r hr _ f x hpath hletters
    have hlen := hletters.length_eq
    obtain ⟨c, rfl⟩ := List.length_eq_one_iff.mp hlen
    simp only [besideDir, List.mem_cons, List.not_mem_nil, or_false] at hr
    rcases hr with rfl | rfl | rfl
    · simp at hpath
    · simp at hpath
    · simp only [List.cons_append, List.nil_append, List.cons.injEq] at hpath
      rw [← hpath.1, SameLetters] at hletters
      exact absurd hletters (by decide)
  have hpath : (⟨"1", "c", ['A'], [], 1, .dir, none, 0, [], 1, none⟩ : Resource).path ≠ [] := by
    decide
  refine ⟨_, rfl, ?_⟩
  exact ((tombstonesExactly_iff rfl hpath).1 ⟨"c", "t", ['d'], 3, 0, 3, none⟩
    ⟨[], []⟩ 7 _ rfl rfl).mpr hclear

/-- A sibling that is the same name in lower case loses its file with it. -/
theorem not_tombstonesExactly_cased :
    ∃ db', (besideDir ['A'] ['a']).deleteWhere "c" ⟨[], []⟩
        ((besideDir ['A'] ['a']).getResource "c" ['A']) 7 = .ok db' ∧
      ¬TombstonesExactly "c" ['A'] 4 7 (besideDir ['A'] ['a']).resources db'.resources := by
  refine ⟨_, rfl, ?_⟩
  unfold TombstonesExactly
  decide

end ThanksComputer.Drive
