import Mathlib.Algebra.Ring.Int.Defs
import ThanksComputer.Kv.Store

/-! The calls of `kv`, each a program of single store operations. -/

namespace ThanksComputer.Kv

open Lib (wrapInt second)

variable {V : Type}

/-- `New`'s arguments and what `encoding/json` makes of a value.  A size cap or a ttl ceiling of `0`
is none; times are in nanoseconds. -/
structure Config (V : Type) where
  maxValue : Nat
  maxTTL : Int
  valid : V → Bool
  size : V → Nat
  equal : V → V → Bool
  asInt : V → Option Int
  ofInt : Int → V

inductive Error
  | invalidTenant
  | invalidNamespace (ns : String)
  | invalidKey (key : String)
  | decode (key : String)
  | notJSON
  | tooLarge (size cap : Nat)
  | expectedNotJSON
  | incrCorrupt (key : String)
  | incrNonInteger (key : String)
  | contention (key : String)
  | backend (e : PutError)
  | tooMany (n : Nat)
  | twice (key ns : String)
  | noBatch
  deriving DecidableEq

/-- What a call answers. -/
inductive Answer (V : Type)
  | value (v : Option V)
  | hits (vs : List (Option V))
  | done
  | counter (n : Int)
  | swapped (yes : Bool) (current : Option V)
  | error (e : Error)
  deriving DecidableEq

abbrev Run (V : Type) := Prog V (Answer V)

def segMax : Nat := 256

def casAttempts : Nat := 5

def maxBatchItems : Nat := 200

/-- The bytes of a segment are bounded, not its characters. -/
def segOK (s : String) : Bool :=
  s != "" && decide (s.utf8ByteSize ≤ segMax) &&
    s.toList.all fun r => r != '/' && !decide (r.toNat < 0x20) && r.toNat != 0x7f

def fullKey (tenant ns key : String) : Except Error String :=
  if segOK tenant = false then .error .invalidTenant
  else if segOK ns = false then .error (.invalidNamespace ns)
  else if segOK key = false then .error (.invalidKey key)
  else .ok (tenant ++ "/" ++ ns ++ "/" ++ key)

def clampTTL (cfg : Config V) (ttl : Int) : Int :=
  if ttl < 0 then 0
  else if 0 < cfg.maxTTL ∧ cfg.maxTTL < ttl then cfg.maxTTL
  else ttl

def encode (cfg : Config V) (value : V) (ttl : Int) : Prog V (Wrapper V) :=
  if 0 < clampTTL cfg ttl then
    .now fun t => .pure ⟨value, (t + (clampTTL cfg ttl).toNat) / second.toNat⟩
  else
    .pure ⟨value, 0⟩

def withKey (tenant ns key : String) (go : String → Run V) : Run V :=
  match fullKey tenant ns key with
  | .error e => .pure (.error e)
  | .ok fk => go fk

def get (tenant ns key : String) : Run V :=
  withKey tenant ns key fun fk =>
    .get fk fun
      | none => .pure (.value none)
      | some pair =>
        match pair.value with
        | .corrupt _ => .pure (.error (.decode key))
        | .wrapped w => .now fun t =>
          if w.expired t then .collect fk pair (.pure (.value none)) else .pure (.value (some w.v))

structure Ref where
  ns : String
  key : String
  deriving DecidableEq

def fullKeys (tenant : String) : List Ref → Except Error (List String)
  | [] => .ok []
  | r :: rs => do
    let fk ← fullKey tenant r.ns r.key
    let fks ← fullKeys tenant rs
    pure (fk :: fks)

/-- The key-by-key branch of `readMany`. -/
def readEach : List String → Prog V (List (Option (Pair V)))
  | [] => .pure []
  | fk :: fks => .get fk fun p => (readEach fks).bind fun ps => .pure (p :: ps)

def readMany (be : Backend V) (fks : List String) : Prog V (List (Option (Pair V))) :=
  if be.multi then .getMulti fks .pure else readEach fks

/-- The loop of `GetMany` over the pairs it read. -/
def getEach : List ((Ref × String) × Option (Pair V)) → List (Option V) → Run V
  | [], hits => .pure (.hits hits.reverse)
  | (_, none) :: rest, hits => getEach rest (none :: hits)
  | ((r, fk), some pair) :: rest, hits =>
    match pair.value with
    | .corrupt _ => .pure (.error (.decode r.key))
    | .wrapped w => .now fun t =>
      if w.expired t then .collect fk pair (getEach rest (none :: hits))
      else getEach rest (some w.v :: hits)

def getMany (be : Backend V) (tenant : String) (refs : List Ref) : Run V :=
  if maxBatchItems < refs.length then .pure (.error (.tooMany refs.length))
  else
    match fullKeys tenant refs with
    | .error e => .pure (.error e)
    | .ok fks =>
      if refs = [] then .pure (.hits [])
      else (readMany be fks).bind fun pairs => getEach ((refs.zip fks).zip pairs) []

/-- What `Set` and `CAS` ask of a value. -/
def checkValue (cfg : Config V) (value : V) : Option Error :=
  if cfg.valid value = false then some .notJSON
  else if 0 < cfg.maxValue ∧ cfg.maxValue < cfg.size value then
    some (.tooLarge (cfg.size value) cfg.maxValue)
  else none

def set (cfg : Config V) (tenant ns key : String) (value : V) (ttl : Int) : Run V :=
  withKey tenant ns key fun fk =>
    match checkValue cfg value with
    | some e => .pure (.error e)
    | none => (encode cfg value ttl).bind fun w => .put fk w (.pure .done)

structure Write (V : Type) where
  ref : Ref
  value : V
  ttl : Int

/-- The loop of `SetMany`: the entries to write, or the first error. -/
def gather (cfg : Config V) (tenant : String) : List (Write V) → List (String × Wrapper V) →
    Prog V (Except Error (List (String × Wrapper V)))
  | [], kws => .pure (.ok kws.reverse)
  | x :: xs, kws =>
    match fullKey tenant x.ref.ns x.ref.key with
    | .error e => .pure (.error e)
    | .ok fk =>
      if (kws.map Prod.fst).contains fk then .pure (.error (.twice x.ref.key x.ref.ns))
      else
        match checkValue cfg x.value with
        | some e => .pure (.error e)
        | none => (encode cfg x.value x.ttl).bind fun w => gather cfg tenant xs ((fk, w) :: kws)

def setMany (cfg : Config V) (be : Backend V) (tenant : String) (writes : List (Write V)) : Run V :=
  if maxBatchItems < writes.length then .pure (.error (.tooMany writes.length))
  else if be.batch = false then .pure (.error .noBatch)
  else (gather cfg tenant writes []).bind fun
    | .error e => .pure (.error e)
    | .ok [] => .pure .done
    | .ok (kw :: kws) => .putMulti (kw :: kws) (.pure .done)

def delete (tenant ns key : String) : Run V :=
  withKey tenant ns key fun fk => .delete fk (.pure .done)

def deleteMany (be : Backend V) (tenant : String) (refs : List Ref) : Run V :=
  if maxBatchItems < refs.length then .pure (.error (.tooMany refs.length))
  else if be.batch = false then .pure (.error .noBatch)
  else
    match fullKeys tenant refs with
    | .error e => .pure (.error e)
    | .ok [] => .pure .done
    | .ok (fk :: fks) => .deleteMulti (fk :: fks) (.pure .done)

/-- An `AtomicPut` that lost a race is tried again. -/
def PutError.retries : PutError → Bool
  | .keyExists | .keyModified => true
  | .keyNotFound => false

/-- The last lines of an attempt of `Incr`. -/
def incrPut (cfg : Config V) (fk : String) (cur delta ttl : Int) (prev : Option (Pair V))
    (again : Run V) : Run V :=
  (encode cfg (cfg.ofInt (wrapInt (cur + delta))) ttl).bind fun w => .atomicPut fk w prev fun
    | none => .pure (.counter (wrapInt (cur + delta)))
    | some e => if e.retries then again else .pure (.error (.backend e))

/-- The attempts of `Incr`. -/
def incrLoop (cfg : Config V) (key fk : String) (delta ttl : Int) : Nat → Run V
  | 0 => .pure (.error (.contention key))
  | n + 1 => .get fk fun
    | none => incrPut cfg fk 0 delta ttl none (incrLoop cfg key fk delta ttl n)
    | some pair =>
      match pair.value with
      | .corrupt _ => .pure (.error (.incrCorrupt key))
      | .wrapped w => .now fun t =>
        if w.expired t then
          incrPut cfg fk 0 delta ttl (some pair) (incrLoop cfg key fk delta ttl n)
        else
          match cfg.asInt w.v with
          | none => .pure (.error (.incrNonInteger key))
          | some cur => incrPut cfg fk cur delta ttl (some pair) (incrLoop cfg key fk delta ttl n)

def incr (cfg : Config V) (tenant ns key : String) (delta ttl : Int) : Run V :=
  withKey tenant ns key fun fk => incrLoop cfg key fk delta ttl casAttempts

/-- What `CAS` finds at the key: its live value. -/
def live (pair : Option (Pair V)) : Prog V (Option V) :=
  match pair with
  | none => .pure none
  | some pair =>
    match pair.value with
    | .corrupt _ => .pure none
    | .wrapped w => .now fun t => .pure (if w.expired t then none else some w.v)

/-- The check of `CAS`; `expected` is `none` for `expectAbsent`. -/
def passes (cfg : Config V) (expected : Option V) (cur : Option V) : Bool :=
  match expected with
  | none => cur.isNone
  | some v => cur.any fun c => cfg.equal c v

def casLoop (cfg : Config V) (key fk : String) (expected : Option V) (newVal : V) (ttl : Int) :
    Nat → Run V
  | 0 => .pure (.error (.contention key))
  | n + 1 => .get fk fun pair =>
    (live pair).bind fun cur =>
      if passes cfg expected cur then
        (encode cfg newVal ttl).bind fun w => .atomicPut fk w pair fun
          | none => .pure (.swapped true (some newVal))
          | some e =>
            if e.retries then casLoop cfg key fk expected newVal ttl n
            else .pure (.error (.backend e))
      else .pure (.swapped false cur)

def cas (cfg : Config V) (tenant ns key : String) (expected : Option V) (newVal : V) (ttl : Int) :
    Run V :=
  withKey tenant ns key fun fk =>
    match checkValue cfg newVal with
    | some e => .pure (.error e)
    | none =>
      if expected.any fun v => !cfg.valid v then .pure (.error .expectedNotJSON)
      else casLoop cfg key fk expected newVal ttl casAttempts

/-- A call of some caller. -/
inductive Call (V : Type)
  | get (tenant ns key : String)
  | getMany (tenant : String) (refs : List Ref)
  | set (tenant ns key : String) (value : V) (ttl : Int)
  | setMany (tenant : String) (writes : List (Write V))
  | cas (tenant ns key : String) (expected : Option V) (newVal : V) (ttl : Int)
  | incr (tenant ns key : String) (delta ttl : Int)
  | delete (tenant ns key : String)
  | deleteMany (tenant : String) (refs : List Ref)

def code (cfg : Config V) (be : Backend V) : Call V → Run V
  | .get tenant ns key => get tenant ns key
  | .getMany tenant refs => getMany be tenant refs
  | .set tenant ns key value ttl => set cfg tenant ns key value ttl
  | .setMany tenant writes => setMany cfg be tenant writes
  | .cas tenant ns key expected newVal ttl => cas cfg tenant ns key expected newVal ttl
  | .incr tenant ns key delta ttl => incr cfg tenant ns key delta ttl
  | .delete tenant ns key => delete tenant ns key
  | .deleteMany tenant refs => deleteMany be tenant refs

/-- The calls start on whatever is stored, at some time. -/
def start (cfg : Config V) (be : Backend V) (data : String → Option (Pair V)) (index clock : Nat)
    (calls : List (Call V)) : Pool V (Answer V) :=
  ⟨⟨data, index, clock, []⟩, calls.map (code cfg be)⟩

end ThanksComputer.Kv
