import Mathlib.Order.Basic
import Mathlib.Algebra.Ring.Int.Defs

/-! Functions of time that are constant between changes: how few samples tell such a function, the
bisection that finds a change, and lists of changes. -/

universe u

namespace ThanksComputer.Lib.Transitions

variable {α : Type u} {f : Int → α} {a b gap : Int}

section Changes

/-- The value is another one than just before. -/
def Changes (f : Int → α) (t : Int) : Prop :=
  f (t - 1) ≠ f t

/-- Two changes are more than `gap` apart. -/
def FarApart (f : Int → α) (gap : Int) : Prop :=
  ∀ s t, Changes f s → Changes f t → s < t → gap < t - s

theorem exists_changes (hab : a ≤ b) (hne : f a ≠ f b) : ∃ t, a < t ∧ t ≤ b ∧ Changes f t := by
  by_contra hno
  refine hne ?_
  -- by induction on the distance
  obtain ⟨n, rfl⟩ : ∃ n : Nat, b = a + n := ⟨(b - a).toNat, by omega⟩
  clear hab hne
  induction n with
  | zero => simp
  | succ n ih =>
    have hlast : ¬Changes f (a + (n + 1 : Nat)) := fun h => hno ⟨_, by omega, Int.le_refl _, h⟩
    rw [Changes, not_not] at hlast
    rw [← hlast, ih]
    · congr 1
      omega
    · rintro ⟨t, hlow, hhigh, ht⟩
      exact hno ⟨t, hlow, by omega, ht⟩

theorem FarApart.const (h : FarApart f gap) (hgap : b - a ≤ gap) (heq : f a = f b) {t : Int}
    (hat : a ≤ t) (htb : t ≤ b) : f t = f a := by
  by_contra hne
  obtain ⟨s, has, hst, hs⟩ := exists_changes hat (Ne.symm hne)
  obtain ⟨s', hts, hsb, hs'⟩ := exists_changes htb (heq ▸ hne)
  have := h s s' hs hs' (by omega)
  omega

theorem FarApart.one (h : FarApart f gap) (hab : a ≤ b) (hgap : b - a ≤ gap) (hne : f a ≠ f b) :
    ∃ s, a < s ∧ s ≤ b ∧ Changes f s ∧ (∀ t, a ≤ t → t < s → f t = f a) ∧ ∀ t, s ≤ t → t ≤ b →
      f t = f b := by
  obtain ⟨s, has, hsb, hs⟩ := exists_changes hab hne
  refine ⟨s, has, hsb, hs, ?_, ?_⟩
  · intro t hat hts
    by_contra hne'
    obtain ⟨s', has', hst, hs'⟩ := exists_changes hat (Ne.symm hne')
    have := h s' s hs' hs (by omega)
    omega
  · intro t hst htb
    by_contra hne'
    obtain ⟨s', hts', hsb', hs'⟩ := exists_changes htb hne'
    have := h s s' hs hs' (by omega)
    omega

end Changes

section Bisection

/-- How an interval is halved: on a grid, until it is no longer than `gap`. -/
structure Halving where
  gap : Int
  mid : Int → Int → Int
  Grid : Int → Prop
  grid_mid : ∀ lo hi, Grid (mid lo hi)
  between : ∀ lo hi, Grid lo → Grid hi → gap < hi - lo → lo < mid lo hi ∧ mid lo hi < hi

/-- The end of the last interval, with `same` at its start and not at its end. -/
def bisect (H : Halving) (same : Int → Bool) (lo hi : { t : Int // H.Grid t }) :
    { t : Int // H.Grid t } :=
  if H.gap < hi.1 - lo.1 then
    if same (H.mid lo.1 hi.1) then bisect H same ⟨H.mid lo.1 hi.1, H.grid_mid _ _⟩ hi
    else bisect H same lo ⟨H.mid lo.1 hi.1, H.grid_mid _ _⟩
  else hi
termination_by (hi.1 - lo.1).toNat
decreasing_by
  all_goals
    have := H.between lo.1 hi.1 lo.2 hi.2 (by assumption)
    omega

theorem sampled_iff {f : Int → Int} {prev s u lo hi : Int} (hu : 0 < u)
    (hbefore : ∀ x, lo / u ≤ x → x < s → f x = prev) (hafter : ∀ x, s ≤ x → x ≤ hi / u → f x ≠ prev)
    (x : Int) (hlow : lo ≤ x) (hhigh : x ≤ hi) : (f (x / u) == prev) = true ↔ x < s * u := by
  rw [beq_iff_eq, ← Int.ediv_lt_iff_lt_mul hu]
  constructor
  · intro hsame
    by_contra hge
    exact hafter (x / u) (Int.not_lt.mp hge) (Int.ediv_le_ediv hu hhigh) hsame
  · intro hlt
    exact hbefore (x / u) (Int.ediv_le_ediv hu hlow) hlt

/-- If `same` holds up to one point of the interval and from there on no longer, the bisection comes
down to less than `gap` behind it. -/
theorem bisect_spec (H : Halving) {same : Int → Bool} {lo hi : { t : Int // H.Grid t }} {s : Int}
    (hlo : lo.1 < s) (hhi : s ≤ hi.1) (hsame : ∀ t, lo.1 ≤ t → t ≤ hi.1 → (same t = true ↔ t < s)) :
    s ≤ (bisect H same lo hi).1 ∧ (bisect H same lo hi).1 < s + H.gap := by
  fun_induction bisect H same lo hi with
  | case1 lo hi hgap hmid ih =>
    obtain ⟨hlow, hhigh⟩ := H.between lo.1 hi.1 lo.2 hi.2 hgap
    have hbefore : H.mid lo.1 hi.1 < s := (hsame _ (by omega) (by omega)).mp hmid
    exact ih hbefore hhi fun t ht => hsame t (Int.le_trans (Int.le_of_lt hlow) ht)
  | case2 lo hi hgap hmid ih =>
    obtain ⟨hlow, hhigh⟩ := H.between lo.1 hi.1 lo.2 hi.2 hgap
    have hpast : ¬H.mid lo.1 hi.1 < s := fun h => hmid ((hsame _ (by omega) (by omega)).mpr h)
    exact ih hlo (Int.not_lt.mp hpast) fun t ht ht' =>
      hsame t ht (Int.le_trans ht' (Int.le_of_lt hhigh))
  | case3 lo hi hgap => omega

end Bisection

section Lists

/-- What a list of changes gives at an instant: the value of the last one not after it. -/
def valueAt (base : α) (changes : List (Int × α)) (t : Int) : α :=
  changes.foldl (fun v c => if c.1 ≤ t then c.2 else v) base

/-- From `a` to `b` the list of changes has the values of the function. -/
structure Tracks (f : Int → α) (base : α) (a b : Int) (changes : List (Int × α)) : Prop where
  sorted : changes.Pairwise fun c d => c.1 < d.1
  after : ∀ c ∈ changes, a < c.1
  upto : ∀ c ∈ changes, c.1 ≤ b
  value : ∀ t, a ≤ t → t ≤ b → valueAt base changes t = f t

variable {base : α} {changes : List (Int × α)} {c : Int}

theorem valueAt_of_lt {t : Int} (h : ∀ c ∈ changes, t < c.1) : valueAt base changes t = base := by
  induction changes generalizing base with
  | nil => rfl
  | cons c cs ih =>
    rw [List.forall_mem_cons] at h
    rw [valueAt, List.foldl_cons, if_neg (by omega)]
    exact ih h.2

theorem Tracks.empty (h : b ≤ a) (hbase : base = f a) : Tracks f base a b [] :=
  ⟨.nil, by simp, by simp,
    fun t hat htb => by rw [valueAt, List.foldl_nil, hbase, Int.le_antisymm (by omega) hat]⟩

theorem Tracks.skip (hab : a ≤ b) (hconst : ∀ t, a ≤ t → t ≤ b → f t = base)
    (h : Tracks f base b c changes) :
    Tracks f base a c changes := by
  refine ⟨h.sorted, fun d hd => by have := h.after d hd; omega, h.upto, fun t hat htc => ?_⟩
  by_cases htb : t ≤ b
  · rw [valueAt_of_lt fun d hd => by have := h.after d hd; omega, hconst t hat htb]
  · exact h.value t (by omega) htc

theorem Tracks.change {s : Int} {v : α} (has : a < s) (hsb : s ≤ b) (hbc : b ≤ c)
    (hbefore : ∀ t, a ≤ t → t < s → f t = base) (hafter : ∀ t, s ≤ t → t ≤ b → f t = v)
    (h : Tracks f v b c changes) :
    Tracks f base a c ((s, v) :: changes) := by
  refine ⟨List.pairwise_cons.mpr ⟨fun d hd => ?_, h.sorted⟩,
    List.forall_mem_cons.mpr ⟨has, fun d hd => ?_⟩,
    List.forall_mem_cons.mpr ⟨by dsimp only; omega, h.upto⟩, ?_⟩
  · have := h.after d hd
    dsimp only
    omega
  · have := h.after d hd
    omega
  · intro t hat htc
    by_cases hts : t < s
    · rw [hbefore t hat hts]
      refine valueAt_of_lt (List.forall_mem_cons.mpr ⟨hts, fun d hd => ?_⟩)
      have := h.after d hd
      omega
    · have hcons : valueAt base ((s, v) :: changes) t = valueAt v changes t := by
        rw [valueAt, List.foldl_cons, if_pos (by omega)]
        rfl
      rw [hcons]
      by_cases htb : t ≤ b
      · rw [valueAt_of_lt fun d hd => by have := h.after d hd; omega, hafter t (by omega) htb]
      · exact h.value t (by omega) htc

theorem Tracks.value_after (h : Tracks f base a b changes) (hab : a ≤ b) {t : Int} (hbt : b ≤ t) :
    valueAt base changes t = f b := by
  rw [← h.value b hab (Int.le_refl _)]
  have hall := h.upto
  clear h
  induction changes generalizing base with
  | nil => rfl
  | cons c cs ih =>
    rw [List.forall_mem_cons] at hall
    rw [valueAt, valueAt, List.foldl_cons, List.foldl_cons, if_pos (by omega), if_pos hall.1]
    exact ih hall.2

/-- Of the onsets in a list the latest one not after an instant has the value. -/
def InForce (onsets : List (Int × α)) (t : Int) (v : α) : Prop :=
  ∃ o ∈ onsets, o.1 ≤ t ∧ o.2 = v ∧ ∀ o' ∈ onsets, o'.1 ≤ t → o'.1 ≤ o.1

theorem inForce_cons_iff (hafter : ∀ c ∈ changes, a < c.1)
    (hsorted : changes.Pairwise fun c d => c.1 < d.1) {t : Int} (hat : a ≤ t) {v : α} :
      InForce ((a, base) :: changes) t v ↔ v = valueAt base changes t := by
  induction changes generalizing a base with
  | nil =>
    constructor
    · rintro ⟨o, ho, -, rfl, -⟩
      rw [List.mem_singleton.mp ho]
      rfl
    · intro hv
      refine ⟨(a, base), List.mem_cons_self, hat, hv.symm, fun o ho _ => ?_⟩
      obtain rfl := List.mem_singleton.mp ho
      exact Int.le_refl _
  | cons c cs ih =>
    rw [List.forall_mem_cons] at hafter
    rw [List.pairwise_cons] at hsorted
    by_cases hct : c.1 ≤ t
    · have hvalue : valueAt base (c :: cs) t = valueAt c.2 cs t := by
        rw [valueAt, List.foldl_cons, if_pos hct]
        rfl
      rw [hvalue, ← ih hsorted.1 hsorted.2 hct]
      constructor
      · rintro ⟨o, ho, hot, hov, hlatest⟩
        rcases List.mem_cons.mp ho with rfl | ho
        · have := hlatest c (List.mem_cons_of_mem _ List.mem_cons_self) hct
          exact absurd this (by have := hafter.1; dsimp only at *; omega)
        · exact ⟨o, ho, hot, hov, fun o' ho' => hlatest o' (List.mem_cons_of_mem _ ho')⟩
      · rintro ⟨o, ho, hot, hov, hlatest⟩
        refine ⟨o, List.mem_cons_of_mem _ ho, hot, hov,
          List.forall_mem_cons.mpr ⟨fun _ => ?_, hlatest⟩⟩
        have hfirst := hlatest (c.1, c.2) List.mem_cons_self hct
        have := hafter.1
        dsimp only at *
        omega
    · have hlate : ∀ d ∈ c :: cs, t < d.1 := by
        refine List.forall_mem_cons.mpr ⟨by omega, fun d hd => ?_⟩
        have := hsorted.1 d hd
        omega
      rw [valueAt_of_lt hlate]
      constructor
      · rintro ⟨o, ho, hot, hov, -⟩
        rcases List.mem_cons.mp ho with rfl | ho
        · exact hov.symm
        · exact absurd hot (by have := hlate o ho; omega)
      · intro hv
        refine ⟨(a, base), List.mem_cons_self, hat, hv.symm,
          List.forall_mem_cons.mpr ⟨fun _ => ?_, fun o ho hot => ?_⟩⟩
        · exact Int.le_refl _
        · exact absurd hot (by have := hlate o ho; omega)

end Lists

end ThanksComputer.Lib.Transitions
