import ThanksComputer.Lib.Checks
import ThanksComputer.Lib.Table

/-! State records and their events (state/state.go, state/store.go): the checks of a request, the
statements and the transaction of each call.  Times are in nanoseconds, and their fixed-width texts
compare as they do. -/

namespace ThanksComputer.State

open Lib.Checks Lib.Table

/-- An event's way to the tenant's stack. -/
inductive Status
  | pending
  | claimed
  | done
  | skipped
  | dead
  deriving DecidableEq

def Status.terminal : Status → Bool
  | .done | .skipped | .dead => true
  | _ => false

/-- `(tenant, machine, id)` -/
structure Key where
  tenant : String
  machine : String
  id : String
  deriving DecidableEq

/-- A `state_records` row. -/
structure Record where
  key : Key
  state : String
  version : Nat
  data : String
  createdAt : Int
  updatedAt : Int
  deriving DecidableEq

structure Cause where
  source : String
  stack : String
  trace : String
  run : String
  deriving DecidableEq

/-- A `state_events` row; `key` is its record's. -/
structure Event where
  id : String
  key : Key
  version : Nat
  fromState : String
  toState : String
  cause : Cause
  createdAt : Int
  status : Status
  attempts : Nat
  nextAttemptAt : Int
  claimedBy : Option String
  claimedAt : Option Int
  deliveredAt : Option Int
  deliveredRid : String
  lastError : String
  deriving DecidableEq

section Requests

inductive Reason
  | empty (field : String)
  | pattern (field : String) (value : Raw) (want : String)
  | tooLong (field : String) (limit size : Nat)
  | notUTF8 (field : String)
  | idChars
  | tenantMalformed
  | dataNotJSON
  | expectedVersion
  deriving DecidableEq

inductive ConflictReason
  | version
  | state
  deriving DecidableEq

inductive StateError
  | invalidArg (reason : Reason)
  | notFound (machine id : String)
  | exists (current : Record)
  | conflict (reason : ConflictReason) (current : Record)
  /-- a failure of the database, and what it failed at -/
  | store (op : String)
  deriving DecidableEq

/-- A nil `data` stores an empty object. -/
structure CreateReq where
  tenant : Raw
  machine : Raw
  id : Raw
  state : Raw
  data : Option Raw

/-- A nil `data` keeps what is stored. -/
structure TransitionReq where
  tenant : Raw
  machine : Raw
  id : Raw
  source : Raw
  target : Raw
  expectedVersion : Int
  data : Option Raw
  cause : Cause

/-- The cap on `data` (none if zero), and `json.Valid`. -/
structure Config where
  maxDataBytes : Nat
  jsonValid : String → Bool

/-- `^[first][rest]{0,63}$` -/
def token (first rest : Char → Bool) (s : String) : Bool :=
  match s.toList with
  | [] => false
  | c :: cs => first c && cs.all rest && decide (cs.length ≤ 63)

def dotted (c : Char) : Bool :=
  c ∈ ['.', '_', '-']

def control (c : Char) : Bool :=
  decide (c.toNat < 0x20) || c.toNat == 0x7f

/-- The checks of a name: an empty one has a reason of its own. -/
def validToken (field want : String) (ok : String → Bool) : Raw → Except StateError String
  | .text s =>
    if s = "" then .error (.invalidArg (.empty field))
    else if ok s then .ok s
    else .error (.invalidArg (.pattern field (.text s) want))
  | .bytes size => .error (.invalidArg (.pattern field (.bytes size) want))

def validMachine : Raw → Except StateError String :=
  validToken "machine" "[a-z][a-z0-9._-]\x7b0,63\x7d"
    (token Char.isLower fun c => c.isLower || c.isDigit || dotted c)

def validState (field : String) : Raw → Except StateError String :=
  validToken field "[A-Za-z0-9][A-Za-z0-9._-]\x7b0,63\x7d"
    (token Char.isAlphanum fun c => c.isAlphanum || dotted c)

def validID : Raw → Except StateError String
  | .text s =>
    if s = "" then .error (.invalidArg (.empty "id"))
    else if 256 < s.utf8ByteSize then .error (.invalidArg (.tooLong "id" 256 s.utf8ByteSize))
    else if s.toList.any fun c => c == '/' || control c then .error (.invalidArg .idChars)
    else .ok s
  | .bytes size =>
    if 256 < size then .error (.invalidArg (.tooLong "id" 256 size))
    else .error (.invalidArg (.notUTF8 "id"))

def validTenant : Raw → Except StateError String
  | .text s =>
    if s = "" then .error (.invalidArg (.empty "tenant"))
    else if 128 < s.utf8ByteSize ∨ s.toList.any control then .error (.invalidArg .tenantMalformed)
    else .ok s
  | .bytes _ => .error (.invalidArg .tenantMalformed)

def validData (cfg : Config) : Raw → Except StateError String
  | .text data =>
    if !cfg.jsonValid data then .error (.invalidArg .dataNotJSON)
    else if 0 < cfg.maxDataBytes ∧ cfg.maxDataBytes < data.utf8ByteSize then
      .error (.invalidArg (.tooLong "data" cfg.maxDataBytes data.utf8ByteSize))
    else .ok data
  | .bytes _ => .error (.invalidArg (.notUTF8 "data"))

def validKey (tenant machine id : Raw) : Except StateError Key := do
  let tenant ← validTenant tenant
  let machine ← validMachine machine
  let id ← validID id
  return ⟨tenant, machine, id⟩

/-- The row a create inserts; no data is an empty object. -/
def CreateReq.check (cfg : Config) (req : CreateReq) (now : Int) : Except StateError Record := do
  let key ← validKey req.tenant req.machine req.id
  let state ← validState "state" req.state
  let data := req.data.getD (.text "")
  let data ← validData cfg (if data = .text "" then .text "\x7b\x7d" else data)
  return ⟨key, state, 1, data, now, now⟩

structure Move where
  key : Key
  source : String
  target : String
  expected : Nat
  data : Option String

def TransitionReq.check (cfg : Config) (req : TransitionReq) : Except StateError Move := do
  let key ← validKey req.tenant req.machine req.id
  let source ← validState "from" req.source
  let target ← validState "to" req.target
  if req.expectedVersion < 1 then throw (.invalidArg .expectedVersion)
  let data ← req.data.mapM (validData cfg)
  return ⟨key, source, target, req.expectedVersion.toNat, data⟩

end Requests

/-- The two tables. -/
structure Store where
  records : List Record
  events : List Event
  deriving DecidableEq

section Records

def Store.get (db : Store) (key : Key) : Except StateError Record :=
  match db.records.find? fun r => r.key == key with
  | some r => .ok r
  | none => .error (.notFound key.machine key.id)

/-- `INSERT … ON CONFLICT DO NOTHING`, and whether a row is affected. -/
def Store.insertRecord (db : Store) (r : Record) : Store × Bool :=
  if db.records.any fun q => q.key == r.key then (db, false)
  else ({ db with records := db.records ++ [r] }, true)

/-- What `Create` says once it has read the record back. -/
def createResult (inserted : Bool) (cur : Record) : Except StateError Record :=
  if inserted then .ok cur else .error (.exists cur)

def Store.matching (db : Store) (m : Move) : Option Record :=
  db.records.find? fun r => r.key == m.key && r.state == m.source && r.version == m.expected

def Move.apply (m : Move) (now : Int) (r : Record) : Record :=
  { r with
    state := m.target
    version := r.version + 1
    data := m.data.getD r.data
    updatedAt := now }

def Store.classify (db : Store) (m : Move) : StateError :=
  match db.get m.key with
  | .error e => e
  | .ok cur => if cur.version ≠ m.expected then .conflict .version cur else .conflict .state cur

def Move.event (m : Move) (eventID : String) (version : Nat) (cause : Cause) (now : Int) : Event :=
  ⟨eventID, m.key, version, m.source, m.target, cause, now, .pending, 0, now, none, none,
    none, "", ""⟩

def Store.insertEvent (db : Store) (e : Event) : Option Store :=
  if db.events.any fun q => q.id == e.id || q.key == e.key && q.version == e.version then none
  else some { db with events := db.events ++ [e] }

/-- Where the database may fail a transition. -/
inductive Stage
  | begin
  | update
  | get
  | event
  | commit
  deriving DecidableEq

/-- The transaction of `Transition`: what it returns, and the tables it leaves. -/
def Store.transition (cfg : Config) (db : Store) (req : TransitionReq) (eventID : String)
    (now : Int) (fault : Option Stage) : Except StateError (Record × Event) × Store :=
  match req.check cfg with
  | .error e => (.error e, db)
  | .ok m =>
    if fault = some .begin then (.error (.store "transition: begin"), db)
    else if fault = some .update then (.error (.store "transition: update"), db)
    else
      match db.matching m with
      | none =>
        if fault = some .get then (.error (.store "get"), db) else (.error (db.classify m), db)
      | some r =>
        let e := m.event eventID (r.version + 1) req.cause now
        let updated : Store :=
          { db with
            records :=
              update (fun q => q.key == m.key && q.state == m.source && q.version == m.expected)
              (m.apply now) db.records }
        if fault = some .event then (.error (.store "transition: event"), db)
        else
          match updated.insertEvent e with
          | none => (.error (.store "transition: event"), db)
          | some db' =>
            if fault = some .commit then (.error (.store "transition: commit"), db)
            else (.ok (m.apply now r, e), db')

end Records

section Events

def Store.due (db : Store) (now : Int) (e : Event) : Bool :=
  e.status == .pending && decide (e.nextAttemptAt ≤ now) &&
    !db.events.any fun p => p.key == e.key && decide (p.version < e.version) && !p.status.terminal

def Event.before (e e' : Event) : Bool :=
  decide (e.nextAttemptAt < e'.nextAttemptAt ∨
    e.nextAttemptAt = e'.nextAttemptAt ∧ e.version ≤ e'.version)

/-- The events a claim picks; `locked` are those that a concurrent claim has locked. -/
def Store.picks (db : Store) (limit : Int) (locked : Event → Bool) (now : Int) : List Event :=
  ((db.events.filter fun e => db.due now e && !locked e).mergeSort Event.before).take
    (if limit ≤ 0 then 100 else limit.toNat)

def Store.claimDue (db : Store) (node : String) (limit : Int) (locked : Event → Bool) (now : Int) :
    Store :=
  { db with
    events := update
      (fun e => e.status == .pending && (db.picks limit locked now).any fun p => p.id == e.id)
      (fun e => { e with status := .claimed, claimedBy := some node, claimedAt := some now })
        db.events }

/-- `UPDATE … WHERE event_id = ? AND status = 'claimed'` -/
def Store.settle (db : Store) (eventID : String) (set : Event → Event) : Store :=
  { db with events := update (fun e => e.id == eventID && e.status == .claimed) set db.events }

def Store.markDone (db : Store) (eventID rid : String) (now : Int) : Store :=
  db.settle eventID fun e =>
    { e with status := .done, deliveredAt := some now, deliveredRid := rid, lastError := "" }

def Store.markSkipped (db : Store) (eventID reason : String) (now : Int) : Store :=
  db.settle eventID fun e =>
    { e with status := .skipped, deliveredAt := some now, lastError := reason }

def Event.unclaim (maxAttempts : Int) (next : Int) (reason : String) (e : Event) : Event :=
  { e with
    status := if maxAttempts ≤ e.attempts + 1 then .dead else .pending
    attempts := e.attempts + 1
    nextAttemptAt := next
    lastError := reason
    claimedBy := none
    claimedAt := none }

def Store.retry (db : Store) (eventID : String) (backoff : Int) (reason : String)
    (consumeAttempt : Bool) (maxAttempts : Int) (now : Int) : Store :=
  db.settle eventID
    (if consumeAttempt then Event.unclaim maxAttempts (now + backoff) reason
    else fun e =>
      { e with
        status := .pending
        nextAttemptAt := now + backoff
        lastError := reason
        claimedBy := none
        claimedAt := none })

def Store.reclaimStale (db : Store) (staleAfter : Int) (maxAttempts : Int) (now : Int) : Store :=
  { db with
    events := update (fun e => e.status == .claimed && e.claimedAt.any (· < now - staleAfter))
      (Event.unclaim maxAttempts now "claim reclaimed: stale") db.events }

def Event.expired (retention now : Int) (e : Event) : Bool :=
  e.status.terminal && decide (e.createdAt < now - retention)

def Store.purge (db : Store) (retention now : Int) : Store :=
  { db with events := db.events.filter fun e => !e.expired retention now }

end Events

end ThanksComputer.State
