import Mathlib.Data.List.Infix

/-! Glob patterns over bytes: `?` stands for one byte, `*` for any number of them, a class in
brackets for one of its bytes, and a backslash takes its meaning from the byte after it. -/

namespace ThanksComputer.Lib.Glob

inductive Item
  | byte (b : UInt8)
  | range (a b : UInt8)
  deriving DecidableEq

inductive Tok
  | star
  | one
  | byte (b : UInt8)
  | cls (not : Bool) (items : List Item)
  deriving DecidableEq

def Item.has (c : UInt8) : Item → Bool
  | .byte b => c == b
  | .range a b => decide (min a b ≤ c) && decide (c ≤ max a b)

/-- The byte a token stands for; `star` is not such a token. -/
def Tok.accepts (c : UInt8) : Tok → Bool
  | .star => false
  | .one => true
  | .byte b => c == b
  | .cls not items => items.any (Item.has c) != not

def starByte : UInt8 := 42
def oneByte : UInt8 := 63
def openByte : UInt8 := 91
def closeByte : UInt8 := 93
def escapeByte : UInt8 := 92
def notByte : UInt8 := 94
def rangeByte : UInt8 := 45

/-- The tokens of a pattern; inside of a class, with what of the class was read.  A class that is
not closed reaches to the end. -/
def tokens : Option (Bool × List Item) → List UInt8 → List Tok
  | none, [] => []
  | some (not, items), [] => [.cls not items]
  | none, b :: p =>
    if b = starByte then .star :: tokens none p
    else if b = oneByte then .one :: tokens none p
    else if b = openByte then
      match p with
      | [] => [.cls false []]
      | c :: q =>
        if c = notByte then tokens (some (true, [])) q else tokens (some (false, [])) (c :: q)
    else if b = escapeByte then
      match p with
      | [] => [.byte escapeByte]
      | c :: q => .byte c :: tokens none q
    else .byte b :: tokens none p
  | some (not, items), b :: p =>
    if b = closeByte then .cls not items :: tokens none p
    else
      match p with
      | [] => [.cls not (items ++ [.byte b])]
      | c :: q =>
        if b = escapeByte then tokens (some (not, items ++ [.byte c])) q
        else
          match q with
          | [] => tokens (some (not, items ++ [.byte b])) [c]
          | d :: r =>
            if c = rangeByte then tokens (some (not, items ++ [.range b d])) r
            else tokens (some (not, items ++ [.byte b])) (c :: d :: r)

def accepts : List Tok → List UInt8 → Bool
  | [], s => s.isEmpty
  | .star :: ts, s => s.tails.any (accepts ts)
  | _ :: _, [] => false
  | tok :: ts, c :: s => tok.accepts c && accepts ts s

/-- The text as a whole matches the pattern. -/
def glob (pattern text : List UInt8) : Bool :=
  accepts (tokens none pattern) text

theorem accepts_star {ts : List Tok} {s t : List UInt8} (h : accepts ts t = true) :
    accepts (.star :: ts) (s ++ t) = true :=
  List.any_eq_true.mpr ⟨t, (List.mem_tails t _).mpr (List.suffix_append s t), h⟩

theorem accepts_cons {tok : Tok} (h : tok ≠ .star) (ts : List Tok) (c : UInt8) (s : List UInt8) :
    accepts (tok :: ts) (c :: s) = (tok.accepts c && accepts ts s) := by
  cases tok with
  | star => exact absurd rfl h
  | one | byte | cls => rfl

theorem glob_self_append {p : List UInt8} (hopen : openByte ∉ p) (hescape : escapeByte ∉ p)
    (t : List UInt8) : glob (p ++ [starByte]) (p ++ t) = true := by
  induction p with
  | nil =>
    have hnil : accepts [] [] = true := rfl
    have hstar := accepts_star (s := t) hnil
    rwa [List.append_nil] at hstar
  | cons b p ih =>
    rw [List.mem_cons, not_or] at hopen hescape
    have ih := ih hopen.2 hescape.2
    rw [glob] at ih ⊢
    rw [List.cons_append, tokens.eq_def, List.cons_append]
    dsimp only
    by_cases hstar : b = starByte
    · rw [if_pos hstar]
      exact accepts_star (s := [b]) ih
    rw [if_neg hstar]
    by_cases hone : b = oneByte
    · rw [if_pos hone, accepts_cons (by decide), ih]
      rfl
    rw [if_neg hone, if_neg (Ne.symm hopen.1), if_neg (Ne.symm hescape.1),
      accepts_cons (fun h => by cases h), ih, Tok.accepts, beq_self_eq_true]
    rfl

end ThanksComputer.Lib.Glob
