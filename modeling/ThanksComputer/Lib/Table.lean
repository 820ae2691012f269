import Mathlib.Algebra.Ring.Nat
import Mathlib.Data.List.Nodup

/-! Tables of rows, changed in place by conditional updates. -/

universe u v

namespace ThanksComputer.Lib.Table

variable {α : Type u} {κ : Type v}

/-- `UPDATE … SET … WHERE`. -/
def update (cond : α → Bool) (set : α → α) (t : List α) : List α :=
  t.map fun r => if cond r then set r else r

theorem mem_update {cond : α → Bool} {set : α → α} {t : List α} {r : α} :
    r ∈ update cond set t ↔ ∃ r₀ ∈ t, (if cond r₀ then set r₀ else r₀) = r :=
  List.mem_map

theorem map_update {f : α → κ} {cond : α → Bool} {set : α → α} (hset : ∀ r, f (set r) = f r)
    (t : List α) : (update cond set t).map f = t.map f := by
  rw [update, List.map_map]
  apply List.map_congr_left
  intro r _
  rw [Function.comp]
  split
  · exact hset r
  · rfl

theorem filter_update {cond p : α → Bool} {set : α → α} {t : List α}
    (h : ∀ r ∈ t, cond r = true → p r = false ∧ p (set r) = false) :
    (update cond set t).filter p = t.filter p := by
  induction t with
  | nil => rfl
  | cons r t ih =>
    rw [List.forall_mem_cons] at h
    rw [update, List.map_cons, ← update, List.filter_cons, List.filter_cons, ih h.2]
    by_cases hr : cond r = true
    · rw [if_pos hr, (h.1 hr).1, (h.1 hr).2, if_neg Bool.false_ne_true, if_neg Bool.false_ne_true]
    · rw [if_neg hr]

theorem sublist_update {key : α → κ} {cond p : α → Bool} {set : α → α}
    (hkey : ∀ r, key (set r) = key r) (hp : ∀ r, p (set r) = true → p r = true) (t : List α) :
    (((update cond set t).filter p).map key).Sublist ((t.filter p).map key) := by
  induction t with
  | nil => exact .slnil
  | cons r t ih =>
    rw [update, List.map_cons, ← update, List.filter_cons, List.filter_cons]
    by_cases hr : cond r = true
    · rw [if_pos hr]
      by_cases hset : p (set r) = true
      · rw [if_pos hset, if_pos (hp r hset), List.map_cons, List.map_cons, hkey]
        exact ih.cons_cons _
      · rw [if_neg hset]
        split
        · exact ih.cons _
        · exact ih
    · rw [if_neg hr]
      split
      · exact ih.cons_cons _
      · exact ih

theorem sublist_update_of_drop {cond p : α → Bool} {set : α → α} (hdrop : ∀ r, p (set r) = false)
    (t : List α) : ((update cond set t).filter p).Sublist (t.filter p) := by
  induction t with
  | nil => exact .slnil
  | cons r t ih =>
    rw [update, List.map_cons, ← update, List.filter_cons, List.filter_cons]
    by_cases hr : cond r = true
    · rw [if_pos hr, hdrop, if_neg Bool.false_ne_true]
      split
      · exact ih.cons _
      · exact ih
    · rw [if_neg hr]
      split
      · exact ih.cons_cons _
      · exact ih

theorem nodup_insert {key : α → κ} {t : List α} (h : (t.map key).Nodup) {r : α}
    (hfresh : ∀ q ∈ t, key q ≠ key r) : ((t ++ [r]).map key).Nodup := by
  rw [List.map_append, List.nodup_append]
  refine ⟨h, List.nodup_singleton _, fun a ha b hb => ?_⟩
  obtain ⟨q, hq, rfl⟩ := List.mem_map.mp ha
  rw [List.mem_singleton.mp hb]
  exact hfresh q hq

theorem eq_of_key {key : α → κ} {t : List α} (h : (t.map key).Nodup) {r r' : α} (hr : r ∈ t)
    (hr' : r' ∈ t) (hkey : key r = key r') : r = r' :=
  List.inj_on_of_nodup_map h hr hr' hkey

theorem length_le_one {t : List α} (hnodup : t.Nodup) (h : ∀ r ∈ t, ∀ r' ∈ t, r = r') :
    t.length ≤ 1 := by
  match t with
  | [] => exact Nat.zero_le 1
  | [r] => exact Nat.le_refl 1
  | r :: r' :: t =>
    rw [h r (by simp) r' (by simp)] at hnodup
    simp at hnodup

theorem sum_filter_split (f : α → Nat) {p out : α → Bool} {t : List α}
    (h : ∀ r ∈ t, out r = true → p r = true) :
    ((t.filter p).map f).sum =
      ((t.filter fun r => p r && !out r).map f).sum + ((t.filter out).map f).sum := by
  induction t with
  | nil => rfl
  | cons r t ih =>
    rw [List.forall_mem_cons] at h
    have hrest := ih h.2
    rw [List.filter_cons, List.filter_cons, List.filter_cons]
    cases hout : out r with
    | true =>
      simp only [h.1 hout, Bool.not_true, Bool.and_false, Bool.false_eq_true, if_true, if_false,
        List.map_cons, List.sum_cons]
      omega
    | false =>
      cases hp : p r with
      | true =>
        simp only [Bool.not_false, Bool.and_true, Bool.false_eq_true, if_true, if_false,
          List.map_cons,
          List.sum_cons]
        omega
      | false =>
        simp only [Bool.not_false, Bool.and_true, Bool.false_eq_true, if_false]
        exact hrest

theorem sum_update_key [DecidableEq κ] (f : α → Nat) {key : α → κ} {p : α → Bool} {set : α → α}
    {t : List α} (hkeys : (t.map key).Nodup) {r : α} (hr : r ∈ t) (hp : p r = true)
    (hset : p (set r) = true) :
    (((update (fun q => key q == key r) set t).filter p).map f).sum + f r =
      ((t.filter p).map f).sum + f (set r) := by
  induction t with
  | nil => cases hr
  | cons q t ih =>
    rw [List.map_cons, List.nodup_cons] at hkeys
    rw [update, List.map_cons]
    rcases List.mem_cons.mp hr with rfl | hr
    · have hrest : t.map (fun q => if key q == key r then set q else q) = t := by
        refine (List.map_congr_left fun q hq => ?_).trans (List.map_id t)
        rw [if_neg, id]
        intro hkey
        exact hkeys.1 (beq_iff_eq.mp hkey ▸ List.mem_map_of_mem hq)
      rw [hrest, beq_self_eq_true, if_pos rfl, List.filter_cons_of_pos hset,
        List.filter_cons_of_pos hp, List.map_cons, List.map_cons, List.sum_cons, List.sum_cons]
      omega
    · have hother : key q ≠ key r := by
        intro hkey
        exact hkeys.1 (hkey ▸ List.mem_map_of_mem hr)
      have hrest := ih hkeys.2 hr
      rw [update] at hrest
      rw [if_neg (by simpa using hother), List.filter_cons, List.filter_cons]
      split
      · rw [List.map_cons, List.map_cons, List.sum_cons, List.sum_cons]
        omega
      · exact hrest

theorem length_filter_split {p out : α → Bool} {t : List α}
    (h : ∀ r ∈ t, out r = true → p r = true) :
    (t.filter p).length = (t.filter fun r => p r && !out r).length + (t.filter out).length := by
  have hsum := sum_filter_split (fun _ => 1) h
  simpa using hsum

end ThanksComputer.Lib.Table
