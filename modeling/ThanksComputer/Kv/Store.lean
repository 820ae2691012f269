import Mathlib.Logic.Function.Basic
import Mathlib.Logic.Relation
import Mathlib.Order.Basic
import ThanksComputer.Lib.Builtin

/-! The backend of `kv` as its callers see it: single operations, each atomic, on pairs of bytes and
an index, and a clock that only goes forward. -/

namespace ThanksComputer.Kv

open Lib (second)

/-- The caller's value and its expiry in unix seconds; `0` is persistent. -/
structure Wrapper (V : Type) where
  v : V
  exp : Nat
  deriving DecidableEq

/-- Stored bytes, as far as `json.Unmarshal` tells them apart. -/
inductive Blob (V : Type)
  | corrupt (text : String)
  | wrapped (w : Wrapper V)
  deriving DecidableEq

/-- `store.KVPair`. -/
structure Pair (V : Type) where
  value : Blob V
  lastIndex : Nat
  deriving DecidableEq

variable {V : Type}

/-- `expired` at a clock reading. -/
def Wrapper.expired (w : Wrapper V) (now : Nat) : Bool :=
  w.exp != 0 && decide (w.exp ≤ now / second.toNat)

def Blob.expired (b : Blob V) (now : Nat) : Bool :=
  match b with
  | .corrupt _ => false
  | .wrapped w => w.expired now

inductive PutError
  | keyExists
  | keyModified
  | keyNotFound
  deriving DecidableEq

/-- What was done to a key.  A lazy delete is noted with the pair its reader saw and the pair it
removed. -/
inductive Event (V : Type)
  | wrote (key : String) (w : Wrapper V)
  | deleted (key : String)
  | collected (key : String) (seen : Pair V) (found : Option (Pair V))
  deriving DecidableEq

/-- `index` is the counter that boltdb stamps its pairs with; `log` is history. -/
structure Store (V : Type) where
  data : String → Option (Pair V)
  index : Nat
  clock : Nat
  log : List (Event V)

/-- Redis compares the bytes of a pair, boltdb its index. -/
structure Backend (V : Type) where
  same : Pair V → Pair V → Bool
  multi : Bool
  batch : Bool

/-- `boltstore`; `GetMulti` and `PutMulti` are there. -/
def boltdb : Backend V :=
  ⟨fun cur prev => cur.lastIndex == prev.lastIndex, true, true⟩

namespace Store

def put (s : Store V) (key : String) (w : Wrapper V) : Store V :=
  { s with
    data := Function.update s.data key (some ⟨.wrapped w, s.index + 1⟩)
    index := s.index + 1
    log := s.log ++ [.wrote key w] }

def putMulti (s : Store V) (kws : List (String × Wrapper V)) : Store V :=
  kws.foldl (fun s kw => s.put kw.1 kw.2) s

/-- The error of an `AtomicPut` that is refused. -/
def refusal (s : Store V) (same : Pair V → Pair V → Bool) (key : String) :
    Option (Pair V) → Option PutError
  | none => if (s.data key).isSome then some .keyExists else none
  | some prev =>
    match s.data key with
    | none => some .keyNotFound
    | some cur => if same cur prev then none else some .keyModified

def delete (s : Store V) (key : String) : Store V :=
  { s with data := Function.update s.data key none, log := s.log ++ [.deleted key] }

def deleteMulti (s : Store V) (keys : List String) : Store V :=
  keys.foldl delete s

/-- The delete of a reader that saw `seen`. -/
def collect (s : Store V) (key : String) (seen : Pair V) : Store V :=
  { s with
    data := Function.update s.data key none
    log := s.log ++ [.collected key seen (s.data key)] }

end Store

/-- A call under way, one store operation or clock reading after the other. -/
inductive Prog (V α : Type) : Type
  | pure (a : α)
  | now (next : Nat → Prog V α)
  | get (key : String) (next : Option (Pair V) → Prog V α)
  | getMulti (keys : List String) (next : List (Option (Pair V)) → Prog V α)
  | put (key : String) (w : Wrapper V) (next : Prog V α)
  | putMulti (kws : List (String × Wrapper V)) (next : Prog V α)
  | atomicPut (key : String) (w : Wrapper V) (prev : Option (Pair V))
      (next : Option PutError → Prog V α)
  | delete (key : String) (next : Prog V α)
  | deleteMulti (keys : List String) (next : Prog V α)
  | collect (key : String) (seen : Pair V) (next : Prog V α)

namespace Prog

variable {α β : Type}

def bind : Prog V α → (α → Prog V β) → Prog V β
  | .pure a, g => g a
  | .now next, g => .now fun t => (next t).bind g
  | .get key next, g => .get key fun p => (next p).bind g
  | .getMulti keys next, g => .getMulti keys fun ps => (next ps).bind g
  | .put key w next, g => .put key w (next.bind g)
  | .putMulti kws next, g => .putMulti kws (next.bind g)
  | .atomicPut key w prev next, g => .atomicPut key w prev fun e => (next e).bind g
  | .delete key next, g => .delete key (next.bind g)
  | .deleteMulti keys next, g => .deleteMulti keys (next.bind g)
  | .collect key seen next, g => .collect key seen (next.bind g)

instance : Monad (Prog V) where
  pure := Prog.pure
  bind := Prog.bind

/-- The next operation of a call. -/
def step (be : Backend V) (s : Store V) : Prog V α → Store V × Prog V α
  | .pure a => (s, .pure a)
  | .now next => (s, next s.clock)
  | .get key next => (s, next (s.data key))
  | .getMulti keys next => (s, next (keys.map s.data))
  | .put key w next => (s.put key w, next)
  | .putMulti kws next => (s.putMulti kws, next)
  | .atomicPut key w prev next =>
    match s.refusal be.same key prev with
    | some e => (s, next (some e))
    | none => (s.put key w, next none)
  | .delete key next => (s.delete key, next)
  | .deleteMulti keys next => (s.deleteMulti keys, next)
  | .collect key seen next => (s.collect key seen, next)

end Prog

/-- The calls under way beside each other. -/
structure Pool (V α : Type) where
  store : Store V
  calls : List (Prog V α)

variable {α : Type}

/-- One operation of one call, a call that ends with an error of the backend, time that passes, or a
pair that the backend drops by its own expiry, which is not before the wrapper's. -/
inductive Step (be : Backend V) : Pool V α → Pool V α → Prop
  | act (s : Store V) (p : Prog V α) (pre post : List (Prog V α)) :
      Step be ⟨s, pre ++ p :: post⟩ ⟨(p.step be s).1, pre ++ (p.step be s).2 :: post⟩
  | fail (s : Store V) (p : Prog V α) (pre post : List (Prog V α)) :
      Step be ⟨s, pre ++ p :: post⟩ ⟨s, pre ++ post⟩
  | tick (s : Store V) (calls : List (Prog V α)) (clock : Nat) (h : s.clock ≤ clock) :
      Step be ⟨s, calls⟩ ⟨{ s with clock := clock }, calls⟩
  | evict (s : Store V) (calls : List (Prog V α)) (key : String) (p : Pair V)
      (hp : s.data key = some p) (h : p.value.expired s.clock = true) :
      Step be ⟨s, calls⟩ ⟨{ s with data := Function.update s.data key none }, calls⟩

abbrev Reach (be : Backend V) : Pool V α → Pool V α → Prop :=
  Relation.ReflTransGen (Step be)

end ThanksComputer.Kv
