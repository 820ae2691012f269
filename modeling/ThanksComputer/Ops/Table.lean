import Mathlib.Algebra.Ring.Nat
import ThanksComputer.Lib.Builtin
import ThanksComputer.Lib.Layers

/-! The ops table of one tenant and the lookup of a stage in it.  A stack name is the list of its
slash-separated segments, the last one first, so that the parent of a stack is its tail. -/

namespace ThanksComputer.Ops

open Lib (toLower_toLower toLower_eq_iff)
open Lib.Layers

abbrev Segment := List Char

abbrev Stack := List Segment

/-- `math.MaxInt64`, the largest scope a stage can name. -/
def maxInt : Nat :=
  2 ^ 63 - 1

/-- One rule of the tenant.  The scope is a Go `int`. -/
structure Row where
  stack : Stack
  scope : Nat
  name : String
  txcl : String
  scope_le : scope ≤ maxInt
  deriving DecidableEq

def foldCase (s : Stack) : Stack :=
  s.map fun seg => seg.map Char.toLower

/-- `stack LIKE ?` with a pattern that has no `%`: equality but for the case of ASCII letters. -/
def like (a b : Stack) : Bool :=
  foldCase a == foldCase b

def rowsOf (t : List Row) (s : Stack) : List Row :=
  t.filter fun r => like r.stack s

def rowsAt (t : List Row) (s : Stack) (x : Nat) : List Row :=
  (rowsOf t s).filter fun r => r.scope == x

def scopesOf (t : List Row) (s : Stack) : List Nat :=
  (rowsOf t s).map Row.scope

/-- `SELECT MIN(scope) ... WHERE scope >= ?`. -/
def floorScope (t : List Row) (s : Stack) (floor : Nat) : Option Nat :=
  lowest (scopesOf t s) floor

def lookupOpsExact (t : List Row) (s : Stack) (floor : Nat) : List Row :=
  match floorScope t s floor with
  | some x => rowsAt t s x
  | none => []

/-- A channel segment such as `_mail`, which the overlay walk does not peel. -/
def channel (seg : Segment) : Bool :=
  seg.head? == some '_'

def peelParent : Stack → Option Stack
  | [] | [_] => none
  | seg :: s :: ss => if channel seg then none else some (s :: ss)

/-- `OpsForStage`: the floor lookup in the stack itself, then in its parents. -/
def opsForStage (t : List Row) : Stack → Nat → List Row
  | [], floor => lookupOpsExact t [] floor
  | seg :: rest, floor =>
    let rows := lookupOpsExact t (seg :: rest) floor
    if rows.isEmpty then
      match peelParent (seg :: rest) with
      | some _ => opsForStage t rest floor
      | none => []
    else rows

/-- The stack and the ancestors the walk may peel to, the stack first. -/
def chain : Stack → List Stack
  | [] => [[]]
  | seg :: rest =>
    match peelParent (seg :: rest) with
    | some _ => (seg :: rest) :: chain rest
    | none => [seg :: rest]

theorem mem_rowsOf {t : List Row} {s : Stack} {r : Row} :
    r ∈ rowsOf t s ↔ r ∈ t ∧ like r.stack s = true := by
  simp [rowsOf]

theorem mem_rowsAt {t : List Row} {s : Stack} {x : Nat} {r : Row} :
    r ∈ rowsAt t s x ↔ r ∈ rowsOf t s ∧ r.scope = x := by
  simp [rowsAt]

theorem mem_scopesOf {t : List Row} {s : Stack} {x : Nat} :
    x ∈ scopesOf t s ↔ rowsAt t s x ≠ [] := by
  rw [scopesOf, List.mem_map, List.ne_nil_iff_exists_cons, ← List.ne_nil_iff_exists_cons]
  constructor
  · rintro ⟨r, hr, hx⟩
    exact List.ne_nil_of_mem (mem_rowsAt.mpr ⟨hr, hx⟩)
  · intro h
    obtain ⟨r, hr⟩ := List.exists_mem_of_ne_nil _ h
    obtain ⟨hr, hx⟩ := mem_rowsAt.mp hr
    exact ⟨r, hr, hx⟩

theorem scope_le_maxInt {t : List Row} {s : Stack} {x : Nat} (h : x ∈ scopesOf t s) :
    x ≤ maxInt := by
  obtain ⟨r, -, rfl⟩ := List.mem_map.mp h
  exact r.scope_le

theorem lookupOpsExact_of_some {t : List Row} {s : Stack} {floor x : Nat}
    (h : floorScope t s floor = some x) : lookupOpsExact t s floor = rowsAt t s x := by
  rw [lookupOpsExact, h]

theorem rowsAt_ne_nil_of_floorScope {t : List Row} {s : Stack} {floor x : Nat}
    (h : floorScope t s floor = some x) : rowsAt t s x ≠ [] :=
  mem_scopesOf.mp (lowest_eq_some.mp h).1

theorem opsForStage_eq (t : List Row) (s : Stack) (floor : Nat) :
    opsForStage t s floor =
      match descend (scopesOf t) (chain s) floor with
      | some (a :: _, m) => rowsAt t a m
      | _ => [] := by
  induction s with
  | nil =>
    rw [opsForStage, chain, descend, lookupOpsExact, floorScope]
    cases lowest (scopesOf t []) floor <;> simp [descend]
  | cons seg rest ih =>
    rw [opsForStage, chain]
    cases hfloor : floorScope t (seg :: rest) floor with
    | some x =>
      have hne : (lookupOpsExact t (seg :: rest) floor).isEmpty = false := by
        rw [lookupOpsExact_of_some hfloor]
        simpa using rowsAt_ne_nil_of_floorScope hfloor
      rw [floorScope] at hfloor
      rw [hne]
      cases peelParent (seg :: rest) <;> simp [descend, hfloor, lookupOpsExact, floorScope]
    | none =>
      have hnil : lookupOpsExact t (seg :: rest) floor = [] := by rw [lookupOpsExact, hfloor]
      rw [floorScope] at hfloor
      rw [hnil]
      cases peelParent (seg :: rest) with
      | none => simp [descend, hfloor]
      | some p => simp [descend, hfloor, ih]

theorem chain_suffix {s a : Stack} {pre post : List Stack} (h : chain s = pre ++ a :: post) :
    chain a = a :: post := by
  induction s generalizing pre with
  | nil =>
    rw [chain] at h
    cases pre with
    | nil =>
      cases h
      rfl
    | cons b pre =>
      rw [List.cons_append, List.cons.injEq] at h
      simp at h
  | cons seg rest ih =>
    have hchain := h
    rw [chain] at h
    split at h
    · cases pre with
      | nil =>
        cases h
        exact hchain
      | cons b pre =>
        rw [List.cons_append, List.cons.injEq] at h
        exact ih h.2
    · cases pre with
      | nil =>
        cases h
        exact hchain
      | cons b pre =>
        rw [List.cons_append, List.cons.injEq] at h
        simp at h

section Case

theorem like_comm {a b : Stack} (h : like a b = true) : like b a = true := by
  rw [like, beq_iff_eq] at h ⊢
  exact h.symm

theorem like_trans {a b c : Stack} (h : like a b = true) (h' : like b c = true) :
    like a c = true := by
  rw [like, beq_iff_eq] at h h' ⊢
  exact h.trans h'

theorem length_eq_of_like {a b : Stack} (h : like a b = true) : a.length = b.length := by
  rw [like, beq_iff_eq] at h
  simpa [foldCase] using congrArg List.length h

theorem rowsOf_congr {a b : Stack} (h : like a b = true) (t : List Row) :
    rowsOf t a = rowsOf t b := by
  rw [rowsOf, rowsOf]
  apply List.filter_congr
  intro r _
  rw [Bool.eq_iff_iff]
  exact ⟨fun hr => like_trans hr h, fun hr => like_trans hr (like_comm h)⟩

theorem like_foldCase (s : Stack) : like (foldCase s) s = true := by
  rw [like, beq_iff_eq, foldCase, foldCase, List.map_map]
  apply List.map_congr_left
  intro seg _
  rw [Function.comp_apply, List.map_map]
  apply List.map_congr_left
  intro c _
  exact toLower_toLower c

theorem channel_congr {a b : Segment} (h : a.map Char.toLower = b.map Char.toLower) :
    channel a = channel b := by
  have hhead : ∀ seg : Segment, channel seg = ((seg.map Char.toLower).head? == some '_') := by
    intro seg
    cases seg with
    | nil => rfl
    | cons c cs =>
      rw [Bool.eq_iff_iff]
      simp [channel, toLower_eq_iff (d := '_') (by decide)]
  rw [hhead, hhead, h]

theorem like_cons {a b : Segment} {s s' : Stack} (h : like (a :: s) (b :: s') = true) :
    a.map Char.toLower = b.map Char.toLower ∧ like s s' = true := by
  simpa [like, foldCase] using h

theorem peelParent_isSome_congr {a b : Stack} (h : like a b = true) :
    (peelParent a).isSome = (peelParent b).isSome := by
  match a, b with
  | [], [] => rfl
  | [], _ :: _ => cases length_eq_of_like h
  | _ :: _, [] => cases length_eq_of_like h
  | [_], [_] => rfl
  | [_], _ :: _ :: _ => cases length_eq_of_like h
  | _ :: _ :: _, [_] => cases length_eq_of_like h
  | x :: y :: ys, x' :: y' :: ys' =>
    rw [peelParent, peelParent, channel_congr (like_cons h).1]
    split <;> rfl

end Case

end ThanksComputer.Ops
