import Mathlib.Data.List.Basic

/-! Pieces between separators, and an automaton that cuts a text into them again. -/

universe u v

namespace ThanksComputer.Lib.Separate

variable {α : Type u} {σ : Type v}

/-- The pieces with a separator between each two. -/
def sepBy (sep : α) : List (List α) → List α
  | [] => []
  | [x] => x
  | x :: y :: xs => x ++ sep :: sepBy sep (y :: xs)

structure Cutter (α : Type u) (σ : Type v) where
  start : σ
  step : σ → α → σ
  cut : σ → α → Bool

namespace Cutter

variable {m : Cutter α σ} {s s' s'' : σ} {t t' : List α} {a : α}

/-- The pieces of a text; `cur` is the piece that is being read. -/
def pieces (m : Cutter α σ) (s : σ) (cur : List α) : List α → List (List α)
  | [] => [cur]
  | a :: t =>
    if m.cut s a then cur :: pieces m m.start [] t else pieces m (m.step s a) (cur ++ [a]) t

def Passes (m : Cutter α σ) (s : σ) (t : List α) (s' : σ) : Prop :=
  ∀ cur rest, m.pieces s cur (t ++ rest) = m.pieces s' (cur ++ t) rest

theorem Passes.nil : m.Passes s [] s := by
  intro cur rest
  rw [List.nil_append, List.append_nil]

theorem Passes.cons (ha : m.cut s a = false) (ht : m.Passes (m.step s a) t s') :
    m.Passes s (a :: t) s' := by
  intro cur rest
  rw [List.cons_append, pieces, ha, if_neg Bool.false_ne_true, ht, List.append_assoc,
    List.singleton_append]

theorem Passes.append (ht : m.Passes s t s') (ht' : m.Passes s' t' s'') :
    m.Passes s (t ++ t') s'' := by
  intro cur rest
  rw [List.append_assoc, ht, ht', List.append_assoc]

theorem Passes.pieces_eq (ht : m.Passes s t s') : m.pieces s [] t = [t] := by
  have h := ht [] []
  rwa [List.append_nil, List.nil_append, pieces] at h

theorem pieces_sepBy {sep : α} (hsep : m.cut m.start sep = true) {x : List α} {xs : List (List α)}
    (hx : m.Passes m.start x m.start) (hxs : ∀ y ∈ xs, m.Passes m.start y m.start) :
    m.pieces m.start [] (sepBy sep (x :: xs)) = x :: xs := by
  induction xs generalizing x with
  | nil => exact hx.pieces_eq
  | cons y xs ih =>
    rw [List.forall_mem_cons] at hxs
    rw [sepBy, hx, List.nil_append, pieces, hsep, if_pos rfl, ih hxs.1 hxs.2]

end Cutter

end ThanksComputer.Lib.Separate
