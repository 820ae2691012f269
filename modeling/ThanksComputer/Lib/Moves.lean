import Mathlib.Logic.Function.Basic
import Mathlib.Data.List.Basic

/-! Cells that change by guarded moves: a move is taken where its cell holds the value it is
from. -/

universe u v

namespace ThanksComputer.Lib.Moves

variable {κ : Type u} {α : Type v}

structure Move (κ : Type u) (α : Type v) where
  key : κ
  old : α
  new : α
  deriving DecidableEq

/-- The moves lead, one behind the other, from one value to another. -/
def Leads : α → List (Move κ α) → α → Prop
  | a, [], b => a = b
  | a, m :: ms, b => m.old = a ∧ Leads m.new ms b

theorem Leads.append {a b c : α} {ms ms' : List (Move κ α)} (h : Leads a ms b)
    (h' : Leads b ms' c) :
    Leads a (ms ++ ms') c := by
  induction ms generalizing a with
  | nil =>
    cases h
    exact h'
  | cons m ms ih => exact ⟨h.1, ih h.2⟩

theorem Leads.eq_new {a b : α} {ms : List (Move κ α)} {m : Move κ α} (h : Leads a (ms ++ [m]) b) :
    b = m.new := by
  induction ms generalizing a with
  | nil => exact h.2.symm
  | cons m' ms ih => exact ih h.2

theorem Leads.eq_or {a b : α} {ms : List (Move κ α)} (h : Leads a ms b) :
    a = b ∨ ∃ m ∈ ms, b = m.new := by
  rcases ms.eq_nil_or_concat' with rfl | ⟨init, m, rfl⟩
  · exact .inl h
  · exact .inr ⟨m, List.mem_append_right init (List.mem_singleton_self m), h.eq_new⟩

section Cells

variable [DecidableEq κ] [DecidableEq α]

def take (cells : κ → α) (m : Move κ α) : Option (κ → α) :=
  if cells m.key = m.old then some (Function.update cells m.key m.new) else none

def play (cells : κ → α) (ms : List (Move κ α)) : Option (κ → α) :=
  ms.foldlM take cells

theorem take_eq_some_iff {cells cells' : κ → α} {m : Move κ α} :
    take cells m = some cells' ↔
      cells m.key = m.old ∧ cells' = Function.update cells m.key m.new := by
  rw [take]
  split
  · next h =>
    rw [Option.some.injEq]
    exact ⟨fun heq => ⟨h, heq.symm⟩, fun heq => heq.2.symm⟩
  · next h => exact ⟨nofun, fun heq => absurd heq.1 h⟩

theorem leads_of_play {cells cells' : κ → α} {ms : List (Move κ α)}
    (h : play cells ms = some cells') (k : κ) :
      Leads (cells k) (ms.filter (·.key = k)) (cells' k) := by
  induction ms generalizing cells with
  | nil =>
    cases h
    rfl
  | cons m ms ih =>
    rw [play, List.foldlM_cons] at h
    obtain ⟨cells₁, htake, hrest⟩ := Option.bind_eq_some_iff.mp h
    obtain ⟨hold, rfl⟩ := take_eq_some_iff.mp htake
    have hled := ih hrest
    by_cases hk : m.key = k
    · subst hk
      rw [List.filter_cons_of_pos (by simp)]
      rw [Function.update_self] at hled
      exact ⟨hold.symm, hled⟩
    · rw [List.filter_cons_of_neg (by simp [hk])]
      rw [Function.update_of_ne fun heq => hk heq.symm] at hled
      exact hled

end Cells

end ThanksComputer.Lib.Moves
