import Mathlib.Algebra.Ring.Int.Defs
import Mathlib.Data.Rat.Defs
import Mathlib.Algebra.Field.Rat

/-! A number of a JSON text: the decimal it spells and the `float64` that `encoding/json` makes of
it. -/

namespace ThanksComputer.Json

/-- `-?` digits, a fraction and an exponent, as they are written. -/
structure Numeral where
  neg : Bool
  whole : List Char
  frac : List Char
  expNeg : Bool
  exp : List Char
  deriving DecidableEq, Repr

namespace Numeral

def coeff (n : Numeral) : Nat :=
  Nat.ofDigitChars 10 (n.whole ++ n.frac) 0

def scaleOf (n : Numeral) (e : Nat) : Int :=
  (if n.expNeg then -(e : Int) else e) - n.frac.length

/-- The number as an exact decimal. -/
def value (n : Numeral) : Rat :=
  (if n.neg then -(n.coeff : Rat) else n.coeff) * 10 ^ n.scaleOf (Nat.ofDigitChars 10 n.exp 0)

/-- The exponent that `strconv.ParseFloat` reads: it stops adding digits from ten thousand on. -/
def readExp (n : Numeral) : Nat :=
  n.exp.foldl (fun e c => if e < 10000 then e * 10 + (c.toNat - '0'.toNat) else e) 0

end Numeral

def roundEven (n d : Nat) : Nat :=
  if 2 * (n % d) < d then n / d
  else if d < 2 * (n % d) then n / d + 1
  else n / d + n / d % 2

/-- The binary exponent of `n / d`. -/
def binaryExp (n d : Nat) : Int :=
  let k := (n.log2 : Int) - d.log2
  if n * 2 ^ (-k).toNat < d * 2 ^ k.toNat then k - 1 else k

/-- The exponent of the last bit of a `float64` of that size; the least is that of the
subnormals. -/
def lastBit (n d : Nat) : Int :=
  max (binaryExp n d - 52) (-1074)

/-- The `float64` nearest to `n / d`, in units of `2 ^ -1074`. -/
def nearestUnits (n d : Nat) : Nat :=
  let q := lastBit n d
  roundEven (n * 2 ^ (-q).toNat) (d * 2 ^ q.toNat) * 2 ^ (q + 1074).toNat

/-- `strconv.ParseFloat` of a numeral; a number too large is an error.  A `float64` is the integer
of its units of `2 ^ -1074`: a negative zero compares equal to zero. -/
def parseFloat (n : Numeral) : Option Int :=
  let e := n.scaleOf n.readExp
  let units := if n.coeff = 0 then 0 else nearestUnits (n.coeff * 10 ^ e.toNat) (10 ^ (-e).toNat)
  if 2 ^ (1024 + 1074) ≤ units then none else some (if n.neg then -(units : Int) else units)

section Literal

def wholePart : List Char → Option (List Char × List Char)
  | [] => none
  | c :: cs =>
    if c = '0' then some (['0'], cs)
    else if c.isDigit then some (c :: cs.takeWhile Char.isDigit, cs.dropWhile Char.isDigit)
    else none

def digitsPart (cs : List Char) : Option (List Char × List Char) :=
  if cs.takeWhile Char.isDigit = [] then none
  else some (cs.takeWhile Char.isDigit, cs.dropWhile Char.isDigit)

def fracPart : List Char → Option (List Char × List Char)
  | '.' :: cs => digitsPart cs
  | cs => some ([], cs)

def signPart : List Char → Bool × List Char
  | '-' :: cs => (true, cs)
  | '+' :: cs => (false, cs)
  | cs => (false, cs)

def expPart (cs : List Char) : Option (Bool × List Char × List Char) :=
  match cs with
  | [] => some (false, [], [])
  | c :: cs =>
    if c = 'e' ∨ c = 'E' then
      (digitsPart (signPart cs).2).map fun r => ((signPart cs).1, r)
    else none

def numeralFrom (neg : Bool) (cs : List Char) : Option Numeral := do
  let (whole, cs) ← wholePart cs
  let (frac, cs) ← fracPart cs
  let (expNeg, exp, cs) ← expPart cs
  if cs = [] then some ⟨neg, whole, frac, expNeg, exp⟩ else none

def readNumeral : List Char → Option Numeral
  | '-' :: cs => numeralFrom true cs
  | cs => numeralFrom false cs

end Literal

end ThanksComputer.Json
