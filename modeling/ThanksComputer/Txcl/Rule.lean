import ThanksComputer.Lib.Builtin
import ThanksComputer.Txcl.Lexer

/-! `txcl/ast`, `resonator` and `txcl/runtime`: the parsed rule and how its predicates are
evaluated. `F` is `float64` and `R` a compiled regular expression. -/

namespace ThanksComputer.Txcl

open Lib (trimDot)

/-- An integer of a rule.  Only `value` is in the rule; `written` says which token it was read
from. -/
structure Number where
  written : Token
  value : Int
  deriving DecidableEq

def Number.zero : Number := ⟨⟨.untyped, []⟩, 0⟩

inductive Lit (F : Type)
  | int (n : Number)
  | float (x : F)
  | bool (b : Bool)
  | str (s : Bytes)
  | array (items : List (Lit F))

/-- `ast.Value`. -/
inductive Value (F : Type)
  | literal (v : Lit F)
  | pathRef (path : Bytes)
  | call (name : Bytes) (args : List (Value F))

inductive MatchType
  | unset
  | eq
  | gteq
  | matches_
  | noMatch
  | lteq
  | ne
  | gt
  | lt
  deriving DecidableEq

section Rule

variable (F R : Type)

structure FunctionCall where
  name : Bytes
  args : List (Value F)

structure BranchValue where
  path : Bytes
  value : Value F

structure Condition where
  star : Bool
  branch : Option Bytes
  matchType : MatchType
  matchValue : Option (Lit F)
  matchCall : Option (FunctionCall F)
  re : Option R

/-- A node of a predicate: the evaluator goes by the first of its fields that is set. -/
inductive WhenExpr
  | node (and or : List WhenExpr) (not : Option WhenExpr) (leaf : Option (Condition F R))
    (star : Bool)

structure When where
  expr : Option (WhenExpr F R)
  conditions : List (Condition F R)

structure SelectAssignment where
  source : Bytes
  dest : Bytes
  default : Option (Value F)

structure Select where
  star : Bool
  assignments : List (SelectAssignment F)

structure Loop where
  untilExpr : Option (WhenExpr F R)
  max : Number
  every : Number
  set : List (BranchValue F)

inductive Phrase
  | when_ (w : When F R)
  | priority (n : Number)
  | select (s : Select F)
  | with_ (entries : List (Bytes × Value F))
  | loop (l : Loop F R)
  | setPre (overrides : List (BranchValue F))
  | setPost (overrides : List (BranchValue F))
  | exec (name : Bytes)
  | emit (overrides : List (BranchValue F))

/-- A parsed rule.  `with` holds its entries as they were written; the last of a key counts. -/
structure Resonator where
  when_ : Option (When F R)
  select : Option (Select F)
  setPre : Option (List (BranchValue F))
  setPost : Option (List (BranchValue F))
  with_ : Option (List (Bytes × Value F))
  priority : Number
  exec : Bytes
  emit : Option (List (BranchValue F))
  loop : Option (Loop F R)

end Rule

section Build

variable {F R : Type}

def WhenExpr.starred : WhenExpr F R :=
  .node [] [] none none true

def WhenExpr.ofAnd (parts : List (WhenExpr F R)) : WhenExpr F R :=
  .node parts [] none none false

def WhenExpr.ofOr (parts : List (WhenExpr F R)) : WhenExpr F R :=
  .node [] parts none none false

def WhenExpr.ofNot (e : WhenExpr F R) : WhenExpr F R :=
  .node [] [] (some e) none false

def WhenExpr.ofLeaf (c : Condition F R) : WhenExpr F R :=
  .node [] [] none (some c) false

/-- `resonator.New`. -/
def Resonator.new : Resonator F R :=
  ⟨none, none, none, none, none, .zero, [], none, none⟩

def Resonator.add (r : Resonator F R) : Phrase F R → Resonator F R
  | .when_ w => { r with when_ := some w }
  | .priority n => { r with priority := n }
  | .select s => { r with select := some s }
  | .with_ entries => { r with with_ := some entries }
  | .loop l => { r with loop := some l }
  | .setPre overrides => { r with setPre := some overrides }
  | .setPost overrides => { r with setPost := some overrides }
  | .exec name => { r with exec := name }
  | .emit overrides => { r with emit := some overrides }

end Build

section Paths

variable {F : Type}

mutual

def Value.firstPath : Value F → Option Bytes
  | .literal _ => none
  | .pathRef path => some path
  | .call _ args => firstPathArg args

/-- `firstPathArg` over the arguments of a call. -/
def firstPathArg : List (Value F) → Option Bytes
  | [] => none
  | v :: args => v.firstPath.or (firstPathArg args)

end

end Paths

/-- What a type switch sees of a Go value. -/
inductive View (F : Type)
  | none
  | int64 (n : Int)
  | int (n : Int)
  | float (x : F)
  | bool (b : Bool)
  | str (s : Bytes)
  | other

/-- What the evaluator takes from `gjson`, `regexp` and the function registry.  `E` is an envelope,
`V` a `gjson.Result` and `A` a Go value of any type; a function sees its arguments only. -/
structure Runtime (E V A F R : Type) where
  get : E → Bytes → V
  isEmpty : E → Bool
  int : V → Int
  float : V → F
  string : V → Bytes
  bool : V → Bool
  floatEq : F → F → Bool
  floatLt : F → F → Bool
  compile : Bytes → Option R
  matchString : R → Bytes → Bool
  nil : A
  ofLit : Lit F → A
  view : A → View F
  call : Bytes → List A → Except String A

namespace Runtime

variable {E V A F R : Type} (G : Runtime E V A F R)

def viewLit : Lit F → View F
  | .int n => .int64 n.value
  | .float x => .float x
  | .bool b => .bool b
  | .str s => .str s
  | .array _ => .other

mutual

/-- `runtime.Resolve`, with the paths looked up by `env`. -/
def resolve (env : Bytes → Option A) : Value F → Except String A
  | .literal v => .ok (G.ofLit v)
  | .pathRef path => .ok ((env path).getD G.nil)
  | .call name args =>
    match resolveArgs env args with
    | .error e => .error e
    | .ok vals => G.call name vals

def resolveArgs (env : Bytes → Option A) : List (Value F) → Except String (List A)
  | [] => .ok []
  | v :: args =>
    match resolve env v with
    | .error e => .error e
    | .ok val =>
      match resolveArgs env args with
      | .error e => .error e
      | .ok vals => .ok (val :: vals)

end

def bytesLt (a b : Bytes) : Bool :=
  match a, b with
  | _, [] => false
  | [], _ :: _ => true
  | x :: a, y :: b => decide (x.toNat < y.toNat) || (x == y && bytesLt a b)

def compareTyped (val : V) (m : MatchType) (mv : View F) : Bool :=
  match m with
  | .eq =>
    match mv with
    | .int64 n => decide (G.int val = n)
    | .float x => G.floatEq (G.float val) x
    | .str s => decide (G.string val = s)
    | .bool b => G.bool val == b
    | _ => false
  | .ne =>
    match mv with
    | .int64 n => decide (G.int val ≠ n)
    | .float x => !G.floatEq (G.float val) x
    | .str s => decide (G.string val ≠ s)
    | .bool b => G.bool val != b
    | _ => false
  | .lt =>
    match mv with
    | .int64 n => decide (G.int val < n)
    | .float x => G.floatLt (G.float val) x
    | .str s => bytesLt (G.string val) s
    | _ => false
  | .gt =>
    match mv with
    | .int64 n => decide (n < G.int val)
    | .float x => G.floatLt x (G.float val)
    | .str s => bytesLt s (G.string val)
    | _ => false
  | .gteq =>
    match mv with
    | .int64 n => decide (n ≤ G.int val)
    | .float x => G.floatLt x (G.float val) || G.floatEq (G.float val) x
    | .str s => bytesLt s (G.string val) || decide (G.string val = s)
    | _ => false
  | .lteq =>
    match mv with
    | .int64 n => decide (G.int val ≤ n)
    | .float x => G.floatLt (G.float val) x || G.floatEq (G.float val) x
    | .str s => bytesLt (G.string val) s || decide (G.string val = s)
    | _ => false
  | _ => false

/-- What the call on the right of a comparison comes to; a failing call or a nil is no match.  The
call sees an empty envelope. -/
def callView (c : FunctionCall F) : Option (View F) :=
  match G.resolve (fun _ => none) (.call c.name c.args) with
  | .error _ => none
  | .ok mv =>
    match G.view mv with
    | .none => none
    | .int n => some (.int64 n)
    | v => some v

/-- The regular expression of a condition; a pattern that is no string has none. -/
def pattern (c : Condition F R) : Option R :=
  match c.re, c.matchValue with
  | some re, _ => some re
  | none, some (.str s) => G.compile s
  | none, _ => none

def evalLeaf (c : Condition F R) (input : E) : Bool :=
  if c.star then true
  else
    match c.branch with
    | none => false
    | some branch =>
      if branch = [] ∨ c.matchType = .unset then false
      else
        let val := G.get input (trimDot branch)
        match c.matchCall with
        | some call =>
          match G.callView call with
          | none => false
          | some mv => G.compareTyped val c.matchType mv
        | none =>
          if c.matchType = .matches_ ∨ c.matchType = .noMatch then
            match G.pattern c with
            | some re => G.matchString re (G.string val) == decide (c.matchType = .matches_)
            | none => false
          else
            match c.matchValue with
            | none => false
            | some v => G.compareTyped val c.matchType (viewLit v)

mutual

def evalExpr (input : E) : WhenExpr F R → Bool
  | .node and or not leaf star =>
    if star then true
    else
      match leaf with
      | some c => G.evalLeaf c input
      | none =>
        if !and.isEmpty then evalAll input and
        else if !or.isEmpty then evalAny input or
        else evalNot input not

def evalAll (input : E) : List (WhenExpr F R) → Bool
  | [] => true
  | e :: es => if !evalExpr input e then false else evalAll input es

def evalAny (input : E) : List (WhenExpr F R) → Bool
  | [] => false
  | e :: es => if evalExpr input e then true else evalAny input es

def evalNot (input : E) : Option (WhenExpr F R) → Bool
  | none => false
  | some e => !evalExpr input e

end

/-- `WhenMatches`; a rule without an expression has its conditions promoted to one. -/
def whenMatches (r : Resonator F R) (input : E) : Bool :=
  if G.isEmpty input then false
  else
    match r.when_ with
    | none => true
    | some w =>
      match w.expr with
      | some e => G.evalExpr input e
      | none =>
        if w.conditions.isEmpty || w.conditions.any (·.star) then true
        else G.evalExpr input (.ofAnd (w.conditions.map .ofLeaf))

end Runtime

end ThanksComputer.Txcl
