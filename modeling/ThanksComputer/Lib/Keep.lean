import Mathlib.Data.List.Basic

/-! The loop that filters a slice in place: what is kept is written behind what was kept before,
into the slice that is still being read. -/

universe u v w

namespace ThanksComputer.Lib.Keep

variable {α : Type u} {σ : Type v} {ε : Type w}

/-- `n` turns from element `k` on, with `i` elements kept so far. -/
def keepLoop (f : σ → α → Except ε (σ × Option α)) :
    Nat → Nat → Nat → σ → List α → Except ε (σ × List α × Nat)
  | 0, _, i, s, xs => .ok (s, xs, i)
  | n + 1, k, i, s, xs =>
    match xs[k]? with
    | none => .ok (s, xs, i)
    | some x =>
      match f s x with
      | .error e => .error e
      | .ok (s', none) => keepLoop f n (k + 1) i s' xs
      | .ok (s', some y) => keepLoop f n (k + 1) (i + 1) s' (xs.set i y)

def keepEach (f : σ → α → Except ε (σ × Option α)) : σ → List α → Except ε (σ × List α)
  | s, [] => .ok (s, [])
  | s, x :: xs =>
    match f s x with
    | .error e => .error e
    | .ok (s', y) => (keepEach f s' xs).map fun r => (r.1, y.toList ++ r.2)

/-- What a loop leaves at the front of the slice. -/
def front (r : σ × List α × Nat) : σ × List α :=
  (r.1, r.2.1.take r.2.2)

theorem take_set_succ {xs : List α} {i : Nat} (h : i < xs.length) (y : α) :
    (xs.set i y).take (i + 1) = xs.take i ++ [y] := by
  have hlen : i < (xs.set i y).length := by rwa [List.length_set]
  rw [List.take_add_one, List.getElem?_eq_getElem hlen, List.getElem_set_self,
    List.take_set_of_le (Nat.le_refl i)]
  rfl

theorem keepLoop_from (f : σ → α → Except ε (σ × Option α)) {k i : Nat} {s : σ} {xs rest : List α}
    (hik : i ≤ k) (hrest : xs.drop k = rest) :
    (keepLoop f rest.length k i s xs).map front =
      (keepEach f s rest).map fun r => (r.1, xs.take i ++ r.2) := by
  induction rest generalizing k i s xs with
  | nil =>
    show Except.ok (s, xs.take i) = Except.ok (s, xs.take i ++ [])
    rw [List.append_nil]
  | cons x rest ih =>
    have hk : xs[k]? = some x := by rw [← List.head?_drop, hrest, List.head?_cons]
    have hlt : k < xs.length := (List.getElem?_eq_some_iff.mp hk).1
    have htail : xs.drop (k + 1) = rest := by rw [← List.tail_drop, hrest, List.tail_cons]
    rw [List.length_cons, keepLoop, keepEach, hk]
    dsimp only
    cases hf : f s x with
    | error e => rfl
    | ok r =>
      obtain ⟨s', y⟩ := r
      cases y with
      | none =>
        dsimp only
        rw [ih (Nat.le_succ_of_le hik) htail]
        cases keepEach f s' rest with
        | error e => rfl
        | ok r => rfl
      | some y =>
        have hset : (xs.set i y).drop (k + 1) = rest := by
          rw [List.drop_set_of_lt (Nat.lt_succ_of_le hik), htail]
        dsimp only
        rw [ih (Nat.succ_le_succ hik) hset, take_set_succ (Nat.lt_of_le_of_lt hik hlt)]
        cases keepEach f s' rest with
        | error e => rfl
        | ok r =>
          show Except.ok (r.1, xs.take i ++ [y] ++ r.2) = Except.ok (r.1, xs.take i ++ ([y] ++ r.2))
          rw [List.append_assoc]

theorem keepLoop_eq (f : σ → α → Except ε (σ × Option α)) (s : σ) (xs : List α) :
    (keepLoop f xs.length 0 0 s xs).map front = keepEach f s xs := by
  rw [keepLoop_from f (Nat.le_refl 0) (List.drop_zero)]
  cases keepEach f s xs with
  | error e => rfl
  | ok r => rfl

end ThanksComputer.Lib.Keep
