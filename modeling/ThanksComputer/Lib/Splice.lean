import Mathlib.Data.List.Basic
import Mathlib.Data.List.Perm.Basic

/-! Writing new elements into a list in one pass over it.  With the places in ascending order this
gives what one in-place write after the other gives, in whatever order these are made. -/

universe u

namespace ThanksComputer.Lib.Splice

variable {α : Type u}

/-- Copy `src`, which starts at `pos`, with the new elements at their places. -/
def splice (pos : Nat) (src : List α) : List (Nat × α) → List α
  | [] => src
  | r :: rs => src.take (r.1 - pos) ++ r.2 :: splice (r.1 + 1) (src.drop (r.1 + 1 - pos)) rs

def writes (src : List α) (rs : List (Nat × α)) : List α :=
  rs.foldl (fun l r => l.set r.1 r.2) src

@[simp] theorem writes_nil (src : List α) : writes src [] = src := rfl

@[simp] theorem writes_cons (src : List α) (r : Nat × α) (rs : List (Nat × α)) :
    writes src (r :: rs) = writes (src.set r.1 r.2) rs := rfl

theorem writes_append (src : List α) (rs qs : List (Nat × α)) :
    writes src (rs ++ qs) = writes (writes src rs) qs :=
  List.foldl_append

theorem writes_prefix (a src : List α) (rs : List (Nat × α)) (h : ∀ r ∈ rs, a.length ≤ r.1) :
    writes (a ++ src) rs = a ++ writes src (rs.map fun r => (r.1 - a.length, r.2)) := by
  induction rs generalizing src with
  | nil => rfl
  | cons r rs ih =>
    have hr : a.length ≤ r.1 := h r List.mem_cons_self
    rw [writes_cons, List.set_append_right _ _ hr, ih _ fun q hq => h q (List.mem_cons_of_mem _ hq)]
    rfl

theorem writes_perm {rs qs : List (Nat × α)} (h : rs.Perm qs) (src : List α)
    (hd : (rs.map Prod.fst).Nodup) : writes src rs = writes src qs := by
  induction h generalizing src with
  | nil => rfl
  | cons r h ih =>
    rw [List.map_cons, List.nodup_cons] at hd
    rw [writes_cons, writes_cons, ih _ hd.2]
  | swap r q l =>
    simp only [List.map_cons, List.nodup_cons, List.mem_cons, not_or] at hd
    rw [writes_cons, writes_cons, writes_cons, writes_cons, List.set_comm]
    exact hd.1.1
  | trans h₁ h₂ ih₁ ih₂ =>
    rw [ih₁ _ hd]
    exact ih₂ _ ((h₁.map Prod.fst).nodup_iff.mp hd)

theorem splice_eq_writes (pos : Nat) (src : List α) (rs : List (Nat × α))
    (hs : (rs.map Prod.fst).Pairwise (· < ·))
    (hb : ∀ r ∈ rs, pos ≤ r.1 ∧ r.1 < pos + src.length) :
    splice pos src rs = writes src (rs.map fun r => (r.1 - pos, r.2)) := by
  induction rs generalizing pos src with
  | nil => rfl
  | cons r rs ih =>
    rw [List.map_cons, List.pairwise_cons] at hs
    obtain ⟨hp, hl⟩ := hb r List.mem_cons_self
    have hi : r.1 - pos < src.length := by omega
    have hd : r.1 + 1 - pos = r.1 - pos + 1 := by omega
    have hq : ∀ q ∈ rs, r.1 < q.1 := fun q hq => hs.1 q.1 (List.mem_map_of_mem hq)
    rw [splice, ih _ _ hs.2]
    · rw [List.map_cons, writes_cons]
      have hset : src.set (r.1 - pos) r.2 =
          (src.take (r.1 - pos) ++ [r.2]) ++ src.drop (r.1 + 1 - pos) := by
        rw [List.set_eq_take_append_cons_drop, if_pos hi, hd]
        simp
      rw [hset, writes_prefix]
      · rw [List.append_assoc, List.singleton_append, List.map_map]
        congr 3
        apply List.map_congr_left
        intro q hq'
        have := hq q hq'
        have hlen : (src.take (r.1 - pos) ++ [r.2]).length = r.1 - pos + 1 := by
          simp only [List.length_append, List.length_take, List.length_singleton]
          omega
        simp only [Function.comp_apply, hlen, Prod.mk.injEq, and_true]
        omega
      · intro q hq'
        obtain ⟨q', hq'', rfl⟩ := List.mem_map.mp hq'
        have := hq q' hq''
        simp only [List.length_append, List.length_take, List.length_singleton]
        omega
    · intro q hq'
      have h1 := hq q hq'
      have h2 := (hb q (List.mem_cons_of_mem _ hq')).2
      rw [List.length_drop]
      omega

end ThanksComputer.Lib.Splice
