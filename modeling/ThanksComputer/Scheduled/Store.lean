import ThanksComputer.Lib.Checks
import ThanksComputer.Lib.Table

/-! Scheduled events (scheduled/store.go, scheduled/store_tx.go): the table, and the one statement
of each call.  Times are in nanoseconds; the columns keep whole seconds. -/

namespace ThanksComputer.Scheduled

open Lib.Checks Lib.Table

inductive Status
  | pending
  | claimed
  | done
  | failed
  deriving DecidableEq

/-- A `scheduled_events` row. -/
structure Event where
  id : String
  tenant : String
  idempotencyKey : String
  scheduleAt : Int
  payload : String
  status : Status
  claimedBy : Option String
  claimedAt : Option Int
  firedAt : Option Int
  attempts : Nat
  createdAt : Int
  deriving DecidableEq

abbrev Table : Type :=
  List Event

/-- `Format(time.RFC3339)`, whose texts compare as the seconds do. -/
def seconds (t : Int) : Int :=
  t / 1000000000

inductive EnqueueError
  | emptyTenant
  | emptyKey
  | keyTooLong (size : Nat)
  | payloadNotJSON
  | payloadNotUTF8
  /-- a failure of the database -/
  | enqueue
  deriving DecidableEq

section Calls

/-- `json.Valid`, of the texts and of the bytes that are not UTF-8. -/
structure Config where
  jsonValid : Raw → Bool

def checkEnqueue (cfg : Config) (tenant idempotencyKey : String) (payload : Raw) :
    Except EnqueueError String :=
  if tenant = "" then .error .emptyTenant
  else if idempotencyKey = "" then .error .emptyKey
  else if 512 < idempotencyKey.utf8ByteSize then .error (.keyTooLong idempotencyKey.utf8ByteSize)
  else if payload.size = 0 then .ok "\x7b\x7d"
  else if !cfg.jsonValid payload then .error .payloadNotJSON
  else
    match payload with
    | .text s => .ok s
    | .bytes _ => .error .payloadNotUTF8

/-- `INSERT … ON CONFLICT (tenant, idempotency_key) DO UPDATE … WHERE status = 'pending'` -/
def enqueue (cfg : Config) (t : Table) (id tenant idempotencyKey : String) (scheduled : Int)
    (payload : Raw) (now : Int) : Except EnqueueError Table :=
  match checkEnqueue cfg tenant idempotencyKey payload with
  | .error e => .error e
  | .ok payload =>
    let same (e : Event) : Bool := e.tenant == tenant && e.idempotencyKey == idempotencyKey
    if t.any same then
      .ok (update (fun e => same e && e.status == .pending)
        (fun e => { e with scheduleAt := seconds scheduled, payload := payload }) t)
    else if t.any fun e => e.id == id then .error .enqueue
    else
      .ok (t ++
        [⟨id, tenant, idempotencyKey, seconds scheduled, payload, .pending, none, none, none, 0,
        seconds now⟩])

def cancel (t : Table) (tenant idempotencyKey : String) : Table :=
  t.filter fun e =>
    !(e.tenant == tenant && e.idempotencyKey == idempotencyKey && e.status == .pending)

/-- The rows a claim picks; `locked` are those that a concurrent claim has locked. -/
def picks (t : Table) (limit : Int) (locked : Event → Bool) (now : Int) : List Event :=
  ((t.filter fun e =>
      e.status == .pending && decide (e.scheduleAt ≤ seconds now) && !locked e).mergeSort
    fun e e' => decide (e.scheduleAt ≤ e'.scheduleAt)).take (if limit ≤ 0 then 100 else limit.toNat)

def claims (t : Table) (limit : Int) (locked : Event → Bool) (now : Int) (e : Event) : Bool :=
  e.status == .pending && (picks t limit locked now).any fun p => p.id == e.id

def claimDue (t : Table) (node : String) (limit : Int) (locked : Event → Bool) (now : Int) :
    Table :=
  update (claims t limit locked now) (fun e =>
    { e with
      status := .claimed
      claimedBy := some node
      claimedAt := some (seconds now)
      attempts := e.attempts + 1 }) t

/-- `UPDATE … SET status = ?, fired_at = ? WHERE id = ? AND status = 'claimed'` -/
def finish (status : Status) (t : Table) (id : String) (now : Int) : Table :=
  update (fun e => e.id == id && e.status == .claimed)
    (fun e => { e with status := status, firedAt := some (seconds now) }) t

def markDone : Table → String → Int → Table :=
  finish .done

def markFailed : Table → String → Int → Table :=
  finish .failed

def reclaimStale (t : Table) (staleAfter now : Int) : Table :=
  update (fun e => e.status == .claimed && e.claimedAt.any (· < seconds (now - staleAfter)))
    (fun e => { e with status := .pending, claimedBy := none, claimedAt := none }) t

def purge (t : Table) (retention now : Int) : Table :=
  t.filter fun e => !((e.status == .done || e.status == .failed) &&
    decide (e.firedAt.getD e.createdAt < seconds (now - retention)))

end Calls

end ThanksComputer.Scheduled
