import Mathlib.Algebra.Ring.Nat
import ThanksComputer.Json.Value
import ThanksComputer.Lib.Builtin

/-! Set paths, as `jsonx` mirrors them from sjson: splitting a path into its segments, and what a
set at a list of segments does to a value. -/

universe u

namespace ThanksComputer

open Lib (wrapInt wrapInt_of_mem)
open Lib.Assoc

structure PathSeg where
  name : String
  force : Bool
  deriving DecidableEq, Repr

/-- The loop of `splitPath`: `cur` is the segment read so far. -/
def splitSegs (cur : List Char) (force segStart : Bool) : List Char → Option (List PathSeg)
  | [] => some [⟨String.ofList cur, force⟩]
  | c :: cs =>
    if segStart && c == ':' then splitSegs cur true false cs
    else if c = '\\' then
      match cs with
      | [] => some [⟨String.ofList cur, force⟩]
      | d :: ds => splitSegs (cur ++ [d]) force false ds
    else if c = '.' then
      (splitSegs [] false true cs).map (⟨String.ofList cur, force⟩ :: ·)
    else if c = '*' ∨ c = '?' ∨ c = '#' then none
    else splitSegs (cur ++ [c]) force false cs

theorem splitSegs_nil (cur : List Char) (force segStart : Bool) :
    splitSegs cur force segStart [] = some [⟨String.ofList cur, force⟩] := by
  rw [splitSegs]

theorem splitSegs_cons (cur : List Char) (force segStart : Bool) (c : Char) (cs : List Char) :
    splitSegs cur force segStart (c :: cs) =
      if segStart && c == ':' then splitSegs cur true false cs
      else if c = '\\' then
        match cs with
        | [] => some [⟨String.ofList cur, force⟩]
        | d :: ds => splitSegs (cur ++ [d]) force false ds
      else if c = '.' then
        (splitSegs [] false true cs).map (⟨String.ofList cur, force⟩ :: ·)
      else if c = '*' ∨ c = '?' ∨ c = '#' then none
      else splitSegs (cur ++ [c]) force false cs := by
  rw [splitSegs.eq_def]

@[simp] theorem splitSegs_escape (cur : List Char) (force segStart : Bool) (d : Char)
    (ds : List Char) :
    splitSegs cur force segStart ('\\' :: d :: ds) = splitSegs (cur ++ [d]) force false ds := by
  rw [splitSegs_cons]
  simp

theorem splitSegs_char {segStart : Bool} {c : Char} (hcolon : (segStart && c == ':') = false)
    (hesc : c ≠ '\\') (hdot : c ≠ '.') (hwild : ¬(c = '*' ∨ c = '?' ∨ c = '#'))
    (cur : List Char) (force : Bool) (cs : List Char) :
    splitSegs cur force segStart (c :: cs) = splitSegs (cur ++ [c]) force false cs := by
  rw [splitSegs_cons]
  simp only [hcolon, hesc, hdot, hwild, if_false, Bool.false_eq_true]

def splitPath (path : List Char) : Option (List PathSeg) :=
  match path with
  | [] => none
  | c :: cs => splitSegs [] false true (c :: cs)

def replaceAll (c : Char) (r : List Char) (s : List Char) : List Char :=
  s.flatMap fun d => if d = c then r else [d]

def escapeChars (key : List Char) : List Char :=
  replaceAll ':' ['\\', ':'] (replaceAll '.' ['\\', '.'] key)

/-- The path `mergeJSONSlow` makes of a member name. -/
def escapeDot (key : String) : List Char :=
  escapeChars key.toList

def plainMergeChar (c : Char) : Bool :=
  ('a' ≤ c && c ≤ 'z') || ('A' ≤ c && c ≤ 'Z') || ('0' ≤ c && c ≤ '9') ||
    c == '_' || c == '-' || c == '.' || c == ':' || c == '/' || c == '$' || c == ' '

def plainMergeKey (k : String) : Bool :=
  !k.toList.isEmpty && k.toList.all plainMergeChar

@[simp] theorem escapeChars_nil : escapeChars [] = [] := rfl

theorem escapeChars_cons (c : Char) (cs : List Char) :
    escapeChars (c :: cs) =
      (if c = '.' ∨ c = ':' then ['\\', c] else [c]) ++ escapeChars cs := by
  by_cases hdot : c = '.'
  · subst hdot
    rfl
  · by_cases hcolon : c = ':'
    · subst hcolon
      rfl
    · simp [escapeChars, replaceAll, hdot, hcolon]

theorem plainMergeChar_ne {c : Char} (h : plainMergeChar c = true) :
    c ≠ '\\' ∧ c ≠ '*' ∧ c ≠ '?' ∧ c ≠ '#' := by
  refine ⟨?_, ?_, ?_, ?_⟩ <;> rintro rfl <;> revert h <;> decide

theorem splitSegs_escapeChars_plain (cs cur : List Char) (segStart : Bool)
    (h : cs.all plainMergeChar = true) :
    splitSegs cur false segStart (escapeChars cs) = some [⟨String.ofList (cur ++ cs), false⟩] := by
  induction cs generalizing cur segStart with
  | nil => simp [splitSegs_nil]
  | cons c cs ih =>
    rw [List.all_cons, Bool.and_eq_true] at h
    obtain ⟨hb, hs, hq, hh⟩ := plainMergeChar_ne h.1
    rw [escapeChars_cons]
    split
    · rw [List.cons_append, List.singleton_append, splitSegs_escape, ih _ _ h.2]
      simp
    · next hne =>
      simp only [not_or] at hne
      have hcolon : (segStart && c == ':') = false := by simp [hne.2]
      rw [List.singleton_append, splitSegs_char hcolon hb hne.1 (by simp [hs, hq, hh]), ih _ _ h.2]
      simp

theorem splitPath_escapeDot_plain {k : String} (h : plainMergeKey k = true) :
    splitPath (escapeDot k) = some [⟨k, false⟩] := by
  rw [plainMergeKey, Bool.and_eq_true] at h
  have hsegs := splitSegs_escapeChars_plain k.toList [] true h.2
  rw [List.nil_append, String.ofList_toList] at hsegs
  cases he : escapeChars k.toList with
  | nil =>
    cases hk : k.toList with
    | nil => simp [hk] at h
    | cons c cs =>
      rw [hk, escapeChars_cons] at he
      split at he <;> cases he
  | cons c cs =>
    rw [he] at hsegs
    rw [escapeDot, he, splitPath, hsegs]

theorem splitSegs_dot (cur : List Char) (force : Bool) (cs : List Char) :
    splitSegs cur force false ('.' :: cs) =
      (splitSegs [] false true cs).map (⟨String.ofList cur, force⟩ :: ·) := by
  rw [splitSegs_cons]
  simp

theorem splitSegs_escapeChars_cons {c : Char} (hc : c ≠ '\\') (cur : List Char) (segStart : Bool)
    (cs : List Char) :
    splitSegs cur false segStart (escapeChars (c :: cs)) = none ∨
      splitSegs cur false segStart (escapeChars (c :: cs)) =
        splitSegs (cur ++ [c]) false false (escapeChars cs) := by
  rw [escapeChars_cons]
  split
  · exact .inr (splitSegs_escape cur false segStart c _)
  · next hne =>
    rw [not_or] at hne
    have hcolon : (segStart && c == ':') = false := by simp [hne.2]
    by_cases hwild : c = '*' ∨ c = '?' ∨ c = '#'
    · refine .inl ?_
      rw [List.singleton_append, splitSegs_cons]
      simp only [hcolon, hc, hne.1, hwild, if_false, if_true, Bool.false_eq_true]
    · exact .inr (splitSegs_char hcolon hc hne.1 hwild cur false _)

theorem splitSegs_escapeChars_backslash_dot (cur : List Char) (segStart : Bool) (cs : List Char) :
    splitSegs cur false segStart (escapeChars ('\\' :: '.' :: cs)) =
      (splitSegs [] false true (escapeChars cs)).map
        (⟨String.ofList (cur ++ ['\\']), false⟩ :: ·) := by
  rw [escapeChars_cons, if_neg (by decide), escapeChars_cons, if_pos (.inl rfl),
    List.singleton_append, List.cons_append, List.singleton_append, splitSegs_escape, splitSegs_dot]

theorem splitSegs_escapeChars_backslash {d : Char} (hd : d ≠ '.') (cur : List Char)
    (segStart : Bool) (cs : List Char) :
    ∃ cur', splitSegs cur false segStart (escapeChars ('\\' :: d :: cs)) =
      splitSegs cur' false false (escapeChars cs) := by
  rw [escapeChars_cons, if_neg (by decide), escapeChars_cons]
  split
  · next hdc =>
    obtain rfl := hdc.resolve_left hd
    rw [List.singleton_append, List.cons_append, List.singleton_append, splitSegs_escape,
      splitSegs_char (by rfl) (by decide) (by decide) (by decide)]
    exact ⟨_, rfl⟩
  · rw [List.singleton_append, List.singleton_append, splitSegs_escape]
    exact ⟨_, rfl⟩

theorem splitSegs_escapeChars_dropLast {cs cur : List Char} {segStart : Bool}
    {segs : List PathSeg} (h : splitSegs cur false segStart (escapeChars cs) = some segs) :
    ∀ s ∈ segs.dropLast, ∃ l, s.name = String.ofList (l ++ ['\\']) := by
  induction hn : cs.length using Nat.strongRecOn generalizing cs cur segStart segs with
  | _ n ih =>
    cases cs with
    | nil =>
      rw [escapeChars_nil, splitSegs_nil] at h
      cases h
      simp
    | cons c cs =>
      by_cases hc : c = '\\'
      · subst hc
        cases cs with
        | nil =>
          rw [escapeChars_cons, if_neg (by decide), escapeChars_nil, List.append_nil,
            splitSegs_cons] at h
          simp at h
          subst h
          simp
        | cons d ds =>
          have hlt : ds.length < n := by
            rw [← hn, List.length_cons, List.length_cons]
            omega
          by_cases hd : d = '.'
          · subst hd
            rw [splitSegs_escapeChars_backslash_dot] at h
            obtain ⟨rest, hrest, rfl⟩ := Option.map_eq_some_iff.mp h
            intro s hs
            cases rest with
            | nil => simp at hs
            | cons r rest =>
              rw [List.dropLast_cons_cons] at hs
              rcases List.mem_cons.mp hs with rfl | hs
              · exact ⟨cur, rfl⟩
              · exact ih _ hlt hrest rfl s hs
          · obtain ⟨cur', heq⟩ := splitSegs_escapeChars_backslash hd cur segStart ds
            rw [heq] at h
            exact ih _ hlt h rfl
      · rcases splitSegs_escapeChars_cons hc cur segStart cs with hnone | hrest
        · rw [hnone] at h
          cases h
        · rw [hrest] at h
          exact ih cs.length (by simp [← hn]) h rfl

theorem splitPath_escapeDot_tail_nil {k : String} {s : PathSeg} {ss : List PathSeg}
    (h : splitPath (escapeDot k) = some (s :: ss))
    (hs : ∀ l, s.name ≠ String.ofList (l ++ ['\\'])) : ss = [] := by
  rw [escapeDot] at h
  cases he : escapeChars k.toList with
  | nil =>
    rw [he] at h
    cases h
  | cons c cs =>
    rw [he, splitPath, ← he] at h
    cases ss with
    | nil => rfl
    | cons s' ss =>
      obtain ⟨l, hl⟩ := splitSegs_escapeChars_dropLast h s (by simp)
      exact absurd hl (hs l)

def isDigit (c : Char) : Bool :=
  '0' ≤ c && c ≤ '9'

/-- Go's `int` conversion loop on digits, which wraps silently. -/
def digitsValue (cs : List Char) : Int :=
  wrapInt (cs.foldl (fun n c => n * 10 + (c.toNat - '0'.toNat : Nat)) 0)

theorem foldl_digits (cs : List Char) (n : Nat) :
    cs.foldl (fun (n : Int) c => n * 10 + (c.toNat - '0'.toNat : Nat)) (n : Int) =
      (Nat.ofDigitChars 10 cs n : Int) := by
  induction cs generalizing n with
  | nil => rfl
  | cons c cs ih =>
    rw [List.foldl_cons, Nat.ofDigitChars_cons, ← ih]
    congr 1
    push_cast
    omega

theorem digitsValue_of_lt {cs : List Char} (h : Nat.ofDigitChars 10 cs 0 < 2 ^ 63) :
    digitsValue cs = Nat.ofDigitChars 10 cs 0 := by
  rw [digitsValue, show (0 : Int) = ((0 : Nat) : Int) from rfl, foldl_digits]
  exact wrapInt_of_mem (by omega)

def gjsonArrayIndex (name : String) : Option Int :=
  if name.toList.isEmpty || !name.toList.all isDigit then none else some (digitsValue name.toList)

def PathSeg.atoui (s : PathSeg) : Option Int :=
  if s.force || !s.name.toList.all isDigit then none else some (digitsValue s.name.toList)

def PathSeg.isAppend (s : PathSeg) : Bool :=
  !s.force && s.name == "-1"

def PathSeg.indexLike (s : PathSeg) : Bool :=
  s.atoui.isSome || s.isAppend

namespace Json

variable {F : Type u}

def createValue : List PathSeg → Json F → Json F
  | [], v => v
  | s :: ss, v =>
    match s.atoui with
    | some n => .arr (List.replicate n.toNat .null ++ [createValue ss v])
    | none => if s.isAppend then .arr [createValue ss v] else .obj [(s.name, createValue ss v)]

def createRoot (s : PathSeg) (ss : List PathSeg) (v : Json F) : Json F :=
  match s.atoui with
  | some _ => createValue (s :: ss) v
  | none => .obj [(s.name, createValue ss v)]

/-- The element an array set hits: gjson's index test, which does not look at the force flag. -/
def arrayHit (xs : List (Json F)) (s : PathSeg) : Option Nat :=
  match gjsonArrayIndex s.name with
  | some i => if 0 ≤ i ∧ i.toNat < xs.length then some i.toNat else none
  | none => none

/-- `setNode` of builder.go on values; `none` is the array element error. -/
def setNode : List PathSeg → Json F → Json F → Option (Json F)
  | [], _, v => some v
  | s :: ss, .obj ms, v =>
    match ms.lookup s.name with
    | some w => (setNode ss w v).map fun w' => .obj (replaceFirst s.name w' ms)
    | none => some (.obj ((s.name, createValue ss v) :: ms))
  | s :: ss, .arr xs, v =>
    match arrayHit xs s with
    | some i => (setNode ss (xs.getD i .null) v).map fun w' => .arr (xs.set i w')
    | none =>
      match s.atoui with
      | some n =>
        some (.arr (xs ++ List.replicate (n.toNat - xs.length) .null ++ [createValue ss v]))
      | none => if s.isAppend then some (.arr (xs ++ [createValue ss v])) else none
  | s :: ss, _, v => some (createRoot s ss v)

section Finite

variable {fin : F → Bool}

theorem finite_getPath {j v : Json F} {p : List String} (hj : j.finite fin = true)
    (h : j.getPath p = some v) : v.finite fin = true := by
  induction p generalizing j with
  | nil =>
    rw [getPath_nil, Option.some.injEq] at h
    exact h ▸ hj
  | cons k p ih =>
    cases j with
    | obj ms =>
      rw [finite, finiteMembers_iff] at hj
      rw [getPath_obj_cons, Option.bind_eq_some_iff] at h
      obtain ⟨w, hw, h⟩ := h
      exact ih (hj k w (mem_of_lookup hw)) h
    | null | bool | num | str | arr => cases h

theorem finite_createValue {ss : List PathSeg} {v : Json F} (hv : v.finite fin = true) :
    (createValue ss v).finite fin = true := by
  induction ss with
  | nil => exact hv
  | cons s ss ih =>
    rw [createValue]
    split
    · rw [finite, finiteElems_iff]
      intro x hx
      rcases List.mem_append.mp hx with hx | hx
      · rw [(List.mem_replicate.mp hx).2]
        rfl
      · rw [List.mem_singleton.mp hx]
        exact ih
    · split <;> simp [finite, finiteElems, finiteMembers, ih]

theorem finite_createRoot {s : PathSeg} {ss : List PathSeg} {v : Json F}
    (hv : v.finite fin = true) : (createRoot s ss v).finite fin = true := by
  rw [createRoot]
  split
  · exact finite_createValue hv
  · simp [finite, finiteMembers, finite_createValue hv]

theorem finite_setNode {ss : List PathSeg} {j j' v : Json F} (hj : j.finite fin = true)
    (hv : v.finite fin = true) (h : setNode ss j v = some j') : j'.finite fin = true := by
  induction ss generalizing j j' with
  | nil =>
    rw [setNode, Option.some.injEq] at h
    exact h ▸ hv
  | cons s ss ih =>
    cases j with
    | obj ms =>
      rw [finite, finiteMembers_iff] at hj
      rw [setNode] at h
      split at h
      · next w hw =>
        obtain ⟨w', hw', rfl⟩ := Option.map_eq_some_iff.mp h
        rw [finite, finiteMembers_iff]
        intro k x hx
        rcases mem_replaceFirst hx with heq | hx
        · cases heq
          exact ih (hj _ _ (mem_of_lookup hw)) hw'
        · exact hj k x hx
      · cases h
        simp only [finite, finiteMembers, finite_createValue hv, Bool.true_and]
        exact (finiteMembers_iff fin ms).mpr hj
    | arr xs =>
      rw [finite, finiteElems_iff] at hj
      rw [setNode] at h
      split at h
      · next i hi =>
        obtain ⟨w', hw', rfl⟩ := Option.map_eq_some_iff.mp h
        have hget : (xs.getD i .null).finite fin = true := by
          rw [List.getD_eq_getElem?_getD]
          cases hx : xs[i]? with
          | none => rfl
          | some x => exact hj x (List.mem_of_getElem? hx)
        rw [finite, finiteElems_iff]
        intro x hx
        rcases List.mem_or_eq_of_mem_set hx with hx | rfl
        · exact hj x hx
        · exact ih hget hw'
      · split at h
        · cases h
          rw [finite, finiteElems_iff]
          intro x hx
          rcases List.mem_append.mp hx with hx | hx
          · rcases List.mem_append.mp hx with hx | hx
            · exact hj x hx
            · rw [(List.mem_replicate.mp hx).2]
              rfl
          · rw [List.mem_singleton.mp hx]
            exact finite_createValue hv
        · split at h
          · cases h
            rw [finite, finiteElems_iff]
            intro x hx
            rcases List.mem_append.mp hx with hx | hx
            · exact hj x hx
            · rw [List.mem_singleton.mp hx]
              exact finite_createValue hv
          · cases h
    | null | bool | num | str =>
      cases h
      exact finite_createRoot hv

end Finite

theorem setNode_isSome {ss : List PathSeg} (hs : ∀ s ∈ ss, s.indexLike = true) (j v : Json F) :
    (setNode ss j v).isSome = true := by
  induction ss generalizing j with
  | nil => rfl
  | cons s ss ih =>
    have ih' := ih fun s h => hs s (List.mem_cons_of_mem _ h)
    cases j with
    | obj ms =>
      rw [setNode]
      split
      · rw [Option.isSome_map]
        exact ih' _
      · rfl
    | arr xs =>
      rw [setNode]
      split
      · rw [Option.isSome_map]
        exact ih' _
      · have hidx := hs s List.mem_cons_self
        split
        · rfl
        · next hnone =>
          rw [PathSeg.indexLike, hnone, Option.isSome_none, Bool.false_or] at hidx
          rw [if_pos hidx]
          rfl
    | null | bool | num | str => rfl

end Json

end ThanksComputer
