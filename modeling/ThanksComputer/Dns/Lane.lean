import ThanksComputer.Dns.Zone
import ThanksComputer.Lib.Table

/-! The stack-answered lane (`server/personality/dns/answer.go`): questions for a zone that a stack
answers, the runs of the stack, the cache of its answers, and the rebuilds of the snapshot. -/

namespace ThanksComputer.Dns

open Net

section Translate

variable (E : Externals)

structure StackAnswer where
  rcode : Rcode
  answer : List RR
  ns : List RR
  ttl : Nat
  deriving DecidableEq

/-- A section of `@dns.res`: its entries, each a string or something else. -/
inductive RRSection
  | absent
  | notArray
  | items (lines : List (Option Str))
  deriving DecidableEq

/-- The `rcode` of `@dns.res`: one that a stack may answer with, or another text. -/
inductive RcodeField
  | absent
  | rcode (rcode : Rcode)
  | other
  deriving DecidableEq

inductive StackResponse
  | denied
  | absent
  | notObject
  | res (rcode : RcodeField) (answer authority : RRSection)
  deriving DecidableEq

def stackMaxRRs : Nat := 64

def stackMaxTTL : Nat := 7 * 24 * 3600

def metaTypes : List RRType :=
  [41, 250, 249, typeANY, 252, 251, 0]

def isZoneTransfer (qtype : RRType) : Bool :=
  qtype == 252 || qtype == 251

def parseStackRR (z : Zone) (line : Option Str) : Option RR := do
  let rr ← E.newRR (← line)
  if metaTypes.contains rr.rtype || !z.covers (E.lower rr.name) then none
  else some { rr with ttl := min rr.ttl stackMaxTTL }

def parseStackRRs (z : Zone) : RRSection → Option (List RR)
  | .absent => some []
  | .notArray => none
  | .items lines => lines.mapM (parseStackRR E z)

/-- `SOA.Minttl`. -/
def Zone.minttl (z : Zone) : Nat :=
  match z.soa.data with
  | .soa _ _ _ _ _ _ minttl => minttl
  | _ => 0

def RcodeField.get : RcodeField → Option Rcode
  | .absent => some .success
  | .rcode r => some r
  | .other => none

/-- `settle` up to the cache: a denied, absent or unacceptable response is no answer. -/
def translateStackAnswer (z : Zone) : StackResponse → Option StackAnswer
  | .denied | .absent | .notObject => none
  | .res rcode answer authority => do
    let rcode ← rcode.get
    let answer ← parseStackRRs E z answer
    let ns ← parseStackRRs E z authority
    if stackMaxRRs < answer.length + ns.length then none
    else some ⟨rcode, answer, ns, (((answer ++ ns).map RR.ttl).min?).getD z.minttl⟩

end Translate

section State

structure Key where
  origin : Name
  qname : Name
  qtype : RRType
  deriving DecidableEq

/-- A stack's answer; `begun` is how many rebuilds had come to an end when the flight began that it
is from, and `dispatched` how many when its run was handed over. -/
structure Served where
  answer : StackAnswer
  begun : Nat
  dispatched : Nat
  deriving DecidableEq

structure CacheEntry where
  key : Key
  served : Served
  expires : Nat
  deriving DecidableEq

/-- A `flightCall`; `result` is there when its channel is closed. -/
structure Flight where
  key : Key
  begun : Nat
  result : Option (Option Served)
  deriving DecidableEq

structure StackRun where
  key : Key
  zone : Zone
  leader : Nat
  begun : Nat
  dispatched : Nat
  settled : Bool
  deriving DecidableEq

inductive Source
  | snapshot
  | stack (begun dispatched : Nat)
  deriving DecidableEq

structure Reply where
  answer : Answer
  source : Source
  deriving DecidableEq

/-- Where a query is.  A leader has its flight, and then its run and what it came to. -/
inductive Phase
  | loaded
  | missed
  | leading (flight begun : Nat)
  | waiting (flight begun run : Nat)
  | returned (flight begun : Nat) (res : Option Served)
  | following (flight : Nat)
  | replied (reply : Reply)
  deriving DecidableEq

/-- A query with the snapshot it loaded: the `version`th one, when `arrived` rebuilds had come to an
end. -/
structure Query where
  q : Question
  snap : ZoneSnapshot
  version : Nat
  arrived : Nat
  phase : Phase
  deriving DecidableEq

/-- The head.  `version` counts the snapshots stored, and `completed` is the version whose rebuild
was the last to come to an end. -/
structure Head where
  now : Nat
  snap : ZoneSnapshot
  version : Nat
  completed : Nat
  cache : List CacheEntry
  flights : List Flight
  runs : List StackRun
  queries : List Query
  deriving DecidableEq

def Head.start (snap : ZoneSnapshot) : Head :=
  ⟨0, snap, 0, 0, [], [], [], []⟩

def answerCacheMax : Nat := 8192

end State

section Steps

variable (E : Externals)

/-- The zone whose stack is to answer, if the question is the lane's. -/
def Query.zone (query : Query) : Option Zone :=
  (query.snap.zoneFor (query.q.qname E)).filter fun z =>
    z.stackAnswered && query.q.qtype != typeANY && !isZoneTransfer query.q.qtype

def Query.key (query : Query) (z : Zone) : Key :=
  ⟨z.origin, query.q.qname E, query.q.qtype⟩

def StackAnswer.reply (a : StackAnswer) : Answer :=
  ⟨a.answer, a.ns, a.rcode⟩

def Served.reply (s : Served) : Reply :=
  ⟨s.answer.reply, .stack s.begun s.dispatched⟩

def Query.fallback (query : Query) (z : Zone) : Reply :=
  match z.fallback with
  | .servfail => ⟨⟨[], [], .servfail⟩, .snapshot⟩
  | .proposal => ⟨query.snap.lookup E query.q, .snapshot⟩

/-- The end of `lane.answer`. -/
def Query.conclude (query : Query) (z : Zone) (res : Option Served) : Query :=
  { query with phase := .replied ((res.map Served.reply).getD (query.fallback E z)) }

inductive LaneStep
  | tick (seconds : Nat)
  | arrive (q : Question)
  | get (i : Nat)
  | join (i : Nat)
  /-- The limiter refuses, or the bus does not take the run in time. -/
  | refuse (i : Nat)
  | dispatch (i : Nat)
  | deadline (i : Nat)
  /-- A run comes back, in time or late; a full cache loses the victims. -/
  | respond (r : Nat) (res : StackResponse) (victims : List Key)
  /-- A run does not come back in the time it has. -/
  | lapse (r : Nat)
  | finish (i : Nat)
  | wake (i : Nat)
  | giveUp (i : Nat)
  /-- A rebuild stores its snapshot, and then resets the cache. -/
  | store (snap : ZoneSnapshot)
  | reset

namespace Head

variable (h : Head)

def setQuery (i : Nat) (query : Query) : Head :=
  { h with queries := h.queries.set i query }

/-- `cache.get`. -/
def cached (key : Key) : Option CacheEntry :=
  h.cache.find? fun e => e.key == key && decide (h.now ≤ e.expires)

/-- `cache.put`; an answer without a lifetime is not kept. -/
def put (key : Key) (s : Served) (victims : List Key) : List CacheEntry :=
  if s.answer.ttl = 0 then h.cache
  else
    let kept := if answerCacheMax ≤ h.cache.length then
        h.cache.filter fun e => !(victims.take (answerCacheMax / 8)).contains e.key
      else h.cache
    kept.filter (fun e => e.key != key) ++ [⟨key, s, h.now + s.answer.ttl⟩]

def flightOf (key : Key) : Option Nat :=
  h.flights.findIdx? fun f => f.key == key && f.result.isNone

def handOver (r : Nat) (run : StackRun) (res : Option Served) : List Query :=
  match h.queries[run.leader]? with
  | none => h.queries
  | some query =>
    match query.phase with
    | .waiting f begun r' =>
      if r' = r then h.queries.set run.leader { query with phase := .returned f begun res }
      else h.queries
    | _ => h.queries

/-- A query that is behind its cache miss: it joins the flight of its question, or begins one. -/
def joinFlight (i : Nat) (query : Query) (key : Key) : Head :=
  match h.flightOf key with
  | some f => h.setQuery i { query with phase := .following f }
  | none =>
    { h.setQuery i { query with phase := .leading h.flights.length h.completed } with
      flights := h.flights ++ [⟨key, h.completed, none⟩] }

def settle (r : Nat) (run : StackRun) (res : StackResponse) (victims : List Key) : Head :=
  let served := (translateStackAnswer E run.zone res).map fun a => ⟨a, run.begun, run.dispatched⟩
  { h with
    runs := h.runs.set r { run with settled := true }
    cache := match served with
      | some s => h.put run.key s victims
      | none => h.cache
    queries := h.handOver r run served }

def next : LaneStep → Option Head
  | .tick seconds => some { h with now := h.now + seconds }
  | .arrive q =>
    some { h with queries := h.queries ++ [⟨q, h.snap, h.version, h.completed, .loaded⟩] }
  | .get i =>
    match h.queries[i]? with
    | none => none
    | some query =>
      match query.phase with
      | .loaded =>
        match query.zone E with
        | none => some (h.setQuery i
            { query with phase := .replied ⟨query.snap.lookup E query.q, .snapshot⟩ })
        | some z =>
          match h.cached (query.key E z) with
          | some e => some (h.setQuery i { query with phase := .replied e.served.reply })
          | none => some (h.setQuery i { query with phase := .missed })
      | _ => none
  | .join i =>
    match h.queries[i]? with
    | none => none
    | some query =>
      match query.phase, query.zone E with
      | .missed, some z => some (h.joinFlight i query (query.key E z))
      | _, _ => none
  | .refuse i =>
    match h.queries[i]? with
    | none => none
    | some query =>
      match query.phase with
      | .leading f begun => some (h.setQuery i { query with phase := .returned f begun none })
      | _ => none
  | .dispatch i =>
    match h.queries[i]? with
    | none => none
    | some query =>
      match query.phase, query.zone E with
      | .leading f begun, some z => some
          { h.setQuery i { query with phase := .waiting f begun h.runs.length } with
            runs := h.runs ++ [⟨query.key E z, z, i, begun, h.completed, false⟩] }
      | _, _ => none
  | .deadline i =>
    match h.queries[i]? with
    | none => none
    | some query =>
      match query.phase with
      | .waiting f begun _ => some (h.setQuery i { query with phase := .returned f begun none })
      | _ => none
  | .respond r res victims =>
    match h.runs[r]? with
    | none => none
    | some run => if run.settled then none else some (h.settle E r run res victims)
  | .lapse r =>
    match h.runs[r]? with
    | none => none
    | some run => some { h with runs := h.runs.set r { run with settled := true } }
  | .finish i =>
    match h.queries[i]? with
    | none => none
    | some query =>
      match query.phase, query.zone E with
      | .returned f _ res, some z =>
        match h.flights[f]? with
        | none => none
        | some flight => some
            { h.setQuery i (query.conclude E z res) with
              flights := h.flights.set f { flight with result := some res } }
      | _, _ => none
  | .wake i =>
    match h.queries[i]? with
    | none => none
    | some query =>
      match query.phase, query.zone E with
      | .following f, some z =>
        match h.flights[f]? with
        | none => none
        | some flight => flight.result.map fun res => h.setQuery i (query.conclude E z res)
      | _, _ => none
  | .giveUp i =>
    match h.queries[i]? with
    | none => none
    | some query =>
      match query.phase, query.zone E with
      | .following _, some z => some (h.setQuery i (query.conclude E z none))
      | _, _ => none
  | .store snap =>
    if h.completed = h.version then some { h with snap := snap, version := h.version + 1 } else none
  | .reset =>
    if h.completed = h.version then none else some { h with cache := [], completed := h.version }

end Head

end Steps

end ThanksComputer.Dns
