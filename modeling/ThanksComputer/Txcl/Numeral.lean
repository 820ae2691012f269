import Mathlib.Algebra.Ring.Int.Defs
import Mathlib.Algebra.Ring.Nat
import Mathlib.Data.Char
import ThanksComputer.Lib.Checks
import ThanksComputer.Txcl.Lexer

/-! `strconv.ParseInt(s, 0, 64)` and `strconv.ParseBool`, as the parser calls them. -/

namespace ThanksComputer.Txcl

open scoped Lib.Checks

inductive NumError
  | syntax_
  | range
  deriving DecidableEq

section ParseInt

/-- The bit 32 set, which makes a letter lower case. -/
def lower (c : Char) : Char :=
  Char.ofNat (c.toNat ||| 32)

def digitVal (c : Char) : Option Nat :=
  if isNumeric c then some (c.toNat - 48)
  else if 'a' ≤ lower c ∧ lower c ≤ 'z' then some ((lower c).toNat - 97 + 10)
  else none

def splitBase (s : Bytes) : Nat × Bytes :=
  match s with
  | '0' :: c :: d :: s =>
    if lower c = 'b' then (2, d :: s)
    else if lower c = 'o' then (8, d :: s)
    else if lower c = 'x' then (16, d :: s)
    else (8, c :: d :: s)
  | '0' :: s => (8, s)
  | s => (10, s)

/-- The loop of `ParseUint` over the digits; an underscore is passed over. -/
def readDigits (base : Nat) : Nat → Bytes → Except NumError Nat
  | n, [] => .ok n
  | n, c :: s =>
    if c = '_' then readDigits base n s
    else
      match digitVal c with
      | none => .error .syntax_
      | some d =>
        if base ≤ d then .error .syntax_
        else if 2 ^ 64 ≤ n * base + d then .error .range
        else readDigits base (n * base + d) s

inductive Before
  | start
  | digit
  | underscore
  | other
  deriving DecidableEq

def underscoresFrom (hex : Bool) : Before → Bytes → Bool
  | i, [] => decide (i ≠ .underscore)
  | i, c :: s =>
    if isNumeric c || (hex && decide ('a' ≤ lower c) && decide (lower c ≤ 'f')) then
      underscoresFrom hex .digit s
    else if c = '_' then decide (i = .digit) && underscoresFrom hex .underscore s
    else decide (i ≠ .underscore) && underscoresFrom hex .other s

/-- `underscoreOK`, of a text without a sign. -/
def underscoreOK (s : Bytes) : Bool :=
  match s with
  | '0' :: c :: s =>
    if lower c = 'b' ∨ lower c = 'o' ∨ lower c = 'x' then underscoresFrom (lower c == 'x') .digit s
    else underscoresFrom false .start ('0' :: c :: s)
  | s => underscoresFrom false .start s

def parseUint (s : Bytes) : Except NumError Nat :=
  if s = [] then .error .syntax_
  else
    match readDigits (splitBase s).1 0 (splitBase s).2 with
    | .error e => .error e
    | .ok n => if '_' ∈ (splitBase s).2 ∧ underscoreOK s = false then .error .syntax_ else .ok n

/-- The value `ParseInt` returns for a sign and the number behind it, and its error. -/
def signed (neg : Bool) : Except NumError Nat → Int × Option NumError
  | .error .syntax_ => (0, some .syntax_)
  | .error .range => (if neg then -2 ^ 63 else 2 ^ 63 - 1, some .range)
  | .ok n =>
    if neg then if 2 ^ 63 < n then (-2 ^ 63, some .range) else (-(n : Int), none)
    else if 2 ^ 63 ≤ n then (2 ^ 63 - 1, some .range)
    else (n, none)

def parseInt (s : Bytes) : Int × Option NumError :=
  match s with
  | '-' :: s => signed true (parseUint s)
  | '+' :: s => signed false (parseUint s)
  | s => signed false (parseUint s)

end ParseInt

/-- `strconv.ParseBool`; an error leaves false. -/
def parseBool (s : Bytes) : Bool :=
  decide (s ∈ ["1".toList, "t".toList, "T".toList, "TRUE".toList, "true".toList, "True".toList])

end ThanksComputer.Txcl
