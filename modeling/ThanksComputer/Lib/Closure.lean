import Mathlib.Logic.Relation
import Mathlib.Data.List.Basic

/-! What is reached over links, and lists that hold all of it. -/

universe u

namespace ThanksComputer.Lib.Closure

variable {α : Type u} {links : α → List α}

def Reach (links : α → List α) : α → α → Prop :=
  Relation.ReflTransGen fun a b => b ∈ links a

theorem covers_of_difference {root : α} {roots : List α} {P : α → Prop}
    (hroots : ∀ r ∈ roots, ∀ a, Reach links r a → P a)
    (hrest : ∀ a, Reach links root a → (∀ r ∈ roots, ¬ Reach links r a) → P a) :
    ∀ a, Reach links root a → P a := by
  intro a ha
  by_cases h : ∃ r ∈ roots, Reach links r a
  · obtain ⟨r, hr, hra⟩ := h
    exact hroots r hr a hra
  · exact hrest a ha fun r hr hra => h ⟨r, hr, hra⟩

def Closed (links : α → List α) (l : List α) : Prop :=
  ∀ a ∈ l, ∀ b ∈ links a, b ∈ l

theorem Closed.mem_of_reach {l : List α} (h : Closed links l) {a b : α} (ha : a ∈ l)
    (hab : Reach links a b) : b ∈ l := by
  induction hab with
  | refl => exact ha
  | tail _ hlink ih => exact h _ ih _ hlink

section Search

variable [DecidableEq α]

instance (l : List α) : Decidable (Closed links l) :=
  inferInstanceAs (Decidable (∀ a ∈ l, ∀ b ∈ links a, b ∈ l))

def rounds (links : α → List α) : Nat → List α → List α
  | 0, l => l
  | n + 1, l => rounds links n (l ++ (l.flatMap links).filter (· ∉ l))

theorem mem_rounds {n : Nat} {l : List α} {a : α} (ha : a ∈ l) : a ∈ rounds links n l := by
  induction n generalizing l with
  | zero => exact ha
  | succ n ih => exact ih (List.mem_append_left _ ha)

theorem reach_of_mem_rounds {n : Nat} {l : List α} {b : α} (h : b ∈ rounds links n l) :
    ∃ a ∈ l, Reach links a b := by
  induction n generalizing l with
  | zero => exact ⟨b, h, .refl⟩
  | succ n ih =>
    obtain ⟨a, ha, hab⟩ := ih h
    rcases List.mem_append.mp ha with ha | ha
    · exact ⟨a, ha, hab⟩
    · obtain ⟨c, hc, hca⟩ := List.mem_flatMap.mp (List.mem_filter.mp ha).1
      exact ⟨c, hc, .head hca hab⟩

/-- What the root reaches and the others do not, if `has` has all of it. -/
def walk (links : α → List α) (n : Nat) (has : α → Bool) (root : α) (roots : List α) :
    Option (List α) :=
  let found := rounds links n [root]
  let fresh := found.filter (· ∉ rounds links n roots)
  if Closed links found ∧ fresh.all has = true then some fresh else none

theorem walk_complete {n : Nat} {has : α → Bool} {root : α} {roots objs : List α}
    (h : walk links n has root roots = some objs) {a : α} (ha : Reach links root a)
    (hroots : ∀ r ∈ roots, ¬ Reach links r a) : a ∈ objs ∧ has a = true := by
  rw [walk] at h
  split at h
  · next hok =>
    cases h
    have hfound := hok.1.mem_of_reach (mem_rounds (List.mem_singleton_self root)) ha
    have hknown : a ∉ rounds links n roots := fun hmem => by
      obtain ⟨r, hr, hra⟩ := reach_of_mem_rounds hmem
      exact hroots r hr hra
    have hfresh : a ∈ (rounds links n [root]).filter (· ∉ rounds links n roots) :=
      List.mem_filter.mpr ⟨hfound, decide_eq_true hknown⟩
    exact ⟨hfresh, List.all_eq_true.mp hok.2 a hfresh⟩
  · cases h

end Search

end ThanksComputer.Lib.Closure
