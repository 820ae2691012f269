import Mathlib.Data.List.MinMax
import Mathlib.Order.Defs.LinearOrder

/-! Binary search for the first index at which a predicate turns true, and the lookup it makes on a
sorted list. -/

universe u

namespace ThanksComputer.Lib.Search

/-- The first index from `i` up to `j` at which `f` holds, `j` if there is none. -/
def search (f : Nat → Bool) (i j : Nat) : Nat :=
  if i < j then
    if f ((i + j) / 2) then search f i ((i + j) / 2) else search f ((i + j) / 2 + 1) j
  else i
termination_by j - i

theorem search_spec {f : Nat → Bool} {i j : Nat} (hij : i ≤ j)
    (hmono : ∀ a b, a ≤ b → b < j → f a = true → f b = true) :
    i ≤ search f i j ∧ search f i j ≤ j ∧ (∀ k, i ≤ k → k < search f i j → f k = false) ∧
      (search f i j < j → f (search f i j) = true) := by
  fun_induction search f i j with
  | case1 i j hlt hmid ih =>
    obtain ⟨hle, hge, hbelow, hat⟩ := ih (by omega) fun a b hab hb => hmono a b hab (by omega)
    refine ⟨hle, by omega, hbelow, fun _ => ?_⟩
    rcases Nat.lt_or_ge (search f i ((i + j) / 2)) ((i + j) / 2) with h | h
    · exact hat h
    · rw [Nat.le_antisymm hge h]
      exact hmid
  | case2 i j hlt hmid ih =>
    obtain ⟨hle, hge, hbelow, hat⟩ := ih (by omega) hmono
    refine ⟨by omega, hge, fun k hk hlt => ?_, hat⟩
    rcases Nat.lt_or_ge ((i + j) / 2) k with h | h
    · exact hbelow k h hlt
    · by_contra hf
      rw [Bool.not_eq_false] at hf
      exact hmid (hmono k _ h (by omega) hf)
  | case3 i j hlt =>
    exact ⟨le_rfl, hij, fun k hk h => absurd h (by omega), fun h => absurd h hlt⟩

variable {α : Type u} [LinearOrder α]

/-- The place of the first entry at or above `x`. -/
def searchFloor (xs : List α) (x : α) : Nat :=
  search (fun k => (xs[k]?.map fun y => decide (x ≤ y)).getD true) 0 xs.length

theorem getElem?_searchFloor {xs : List α} (hs : xs.Pairwise (· ≤ ·)) (x : α) :
    xs[searchFloor xs x]? = (xs.filter fun y => decide (x ≤ y)).min? := by
  have hmono : ∀ a b, a ≤ b → b < xs.length →
      (xs[a]?.map fun y => decide (x ≤ y)).getD true = true →
        (xs[b]?.map fun y => decide (x ≤ y)).getD true = true := by
    intro a b hab hb ha
    have ha' : a < xs.length := by omega
    rw [List.getElem?_eq_getElem ha'] at ha
    rw [List.getElem?_eq_getElem hb]
    simp only [Option.map_some, Option.getD_some, decide_eq_true_eq] at ha ⊢
    rcases Nat.eq_or_lt_of_le hab with rfl | hlt
    · exact ha
    · exact ha.trans (List.pairwise_iff_getElem.mp hs a b ha' hb hlt)
  obtain ⟨-, hle, hbelow, hat⟩ := search_spec (Nat.zero_le _) hmono
  rw [← searchFloor] at hle hbelow hat
  have hlow : ∀ k (hk : k < xs.length), k < searchFloor xs x → xs[k] < x := by
    intro k hk hlt
    have h := hbelow k (Nat.zero_le _) hlt
    rw [List.getElem?_eq_getElem hk] at h
    simpa using h
  rcases Nat.lt_or_ge (searchFloor xs x) xs.length with hlt | hge
  · have hx := hat hlt
    rw [List.getElem?_eq_getElem hlt] at hx ⊢
    simp only [Option.map_some, Option.getD_some, decide_eq_true_eq] at hx
    symm
    rw [List.min?_eq_some_iff]
    refine ⟨List.mem_filter.mpr ⟨List.getElem_mem _, by simpa using hx⟩, fun b hb => ?_⟩
    obtain ⟨hb, hxb⟩ := List.mem_filter.mp hb
    obtain ⟨k, hk, rfl⟩ := List.getElem_of_mem hb
    rw [decide_eq_true_eq] at hxb
    rcases Nat.lt_trichotomy k (searchFloor xs x) with h | h | h
    · exact absurd (hlow k hk h) (not_lt.mpr hxb)
    · exact le_of_eq (by simp only [h])
    · exact List.pairwise_iff_getElem.mp hs _ k hlt hk h
  · rw [List.getElem?_eq_none hge]
    symm
    rw [List.min?_eq_none_iff, List.filter_eq_nil_iff]
    intro b hb
    obtain ⟨k, hk, rfl⟩ := List.getElem_of_mem hb
    simpa using hlow k hk (by omega)

end ThanksComputer.Lib.Search
