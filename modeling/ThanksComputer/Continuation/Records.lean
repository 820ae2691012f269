import ThanksComputer.Lib.Process

/-! The documents of one run in the continuation store, by their keys.  Times are numbers read off
some clock; hashes, tokens, audit events and the opstack snapshot are left out. -/

namespace ThanksComputer.Continuation

open Lib.CreateOnce

structure Stage where
  stack : String
  scope : Nat
  deriving DecidableEq

structure OpRef where
  ordinal : Nat
  op : String
  deriving DecidableEq

/-- An op-continuation id. -/
abbrev Opc := String

/-- Where an op's result is filed: under the stage of its scope, or, for a deferred op, under its
id. -/
inductive Place
  | op (st : Stage) (ref : OpRef)
  | deferred (opc : Opc)
  deriving DecidableEq

inductive Status
  | completed
  | failed
  | other (text : String)
  deriving DecidableEq

structure TerminalMeta where
  transport : String := ""
  fuelUsed : Int := 0
  startedAt : Nat := 0
  finishedAt : Nat := 0
  operation : String := ""
  model : String := ""
  stackVersion : Int := 0
  deriving DecidableEq

/-- Who records a terminal: a goroutine of the suspending request (a synchronous sibling, a failed
dispatch, an op refused before its dispatch), the detached goroutine of a local-async or a
continuable op, or a worker's callback. -/
inductive Writer
  | dispatch
  | detached
  | callback
  deriving DecidableEq

/-- The writers that look at the stage again once their terminal is there. -/
def Writer.rechecks : Writer → Bool
  | .dispatch => false
  | .detached | .callback => true

/-- `writer` is history; the document of the source has no such field. -/
structure OpTerminal where
  status : Status
  outputKey : Option Place := none
  errorKey : Option Place := none
  recordedAt : Nat
  info : TerminalMeta
  writer : Writer
  deriving DecidableEq

structure OpManifestEntry where
  ref : OpRef
  async : Bool
  opc : Option Opc := none
  deriving DecidableEq

structure StageSuspended where
  scopeEnvelope : String
  manifest : List OpManifestEntry
  suspendedAt : Nat
  deriving DecidableEq

structure OpContinuationLookup where
  stage : Stage
  ref : OpRef
  deferred : Bool
  deriving DecidableEq

structure OpCreated where
  async : Bool
  opc : Option Opc
  deriving DecidableEq

structure DeferredOpCreated where
  ref : OpRef
  joinAtScope : Nat
  dispatchStage : Stage
  deriving DecidableEq

structure PendingJoin where
  ref : OpRef
  joinAtScope : Nat
  dispatchStack : String
  deriving DecidableEq

structure RunCreated where
  firstStage : Stage
  expiresAt : Option Nat
  deriving DecidableEq

inductive Key
  | runCreated
  | result
  | runFailed
  | stageSuspended (st : Stage)
  | stageFailed (st : Stage)
  | resumeClaim (st : Stage)
  | opInput (st : Stage) (ref : OpRef)
  | opCreated (st : Stage) (ref : OpRef)
  | opAccepted (st : Stage) (ref : OpRef)
  | opContinuation (opc : Opc)
  | output (p : Place)
  | error (p : Place)
  | terminal (p : Place)
  | deferredInput (opc : Opc)
  | deferredCreated (opc : Opc)
  | pendingJoin (opc : Opc)
  | joined (opc : Opc)
  | suspendedAt (opc : Opc)
  | returned (opc : Opc)
  deriving DecidableEq

/-- What is filed under a key.  A failure carries its reason, a claim its time; `returned` stands
for the `wg.Done` of a dispatching goroutine. -/
abbrev Doc : Key → Type
  | .runCreated => RunCreated
  | .result => String
  | .runFailed | .stageFailed _ => String
  | .stageSuspended _ => StageSuspended
  | .resumeClaim _ => Nat
  | .opInput _ _ | .deferredInput _ => String
  | .opCreated _ _ => OpCreated
  | .opAccepted _ _ => String
  | .opContinuation _ => OpContinuationLookup
  | .output _ | .error _ => String
  | .terminal _ => OpTerminal
  | .deferredCreated _ => DeferredOpCreated
  | .pendingJoin _ => PendingJoin
  | .joined _ => Unit
  | .suspendedAt _ => Stage
  | .returned _ => Unit

instance : ∀ k, DecidableEq (Doc k)
  | .runCreated => inferInstanceAs (DecidableEq RunCreated)
  | .stageSuspended _ => inferInstanceAs (DecidableEq StageSuspended)
  | .resumeClaim _ => inferInstanceAs (DecidableEq Nat)
  | .opCreated _ _ => inferInstanceAs (DecidableEq OpCreated)
  | .opContinuation _ => inferInstanceAs (DecidableEq OpContinuationLookup)
  | .terminal _ => inferInstanceAs (DecidableEq OpTerminal)
  | .deferredCreated _ => inferInstanceAs (DecidableEq DeferredOpCreated)
  | .pendingJoin _ => inferInstanceAs (DecidableEq PendingJoin)
  | .suspendedAt _ => inferInstanceAs (DecidableEq Stage)
  | .joined _ | .returned _ => inferInstanceAs (DecidableEq Unit)
  | .result | .runFailed | .stageFailed _ | .opInput _ _ | .deferredInput _ | .opAccepted _ _
  | .output _ | .error _ => inferInstanceAs (DecidableEq String)

def Key.opc : Key → Option Opc
  | .opContinuation o | .deferredInput o | .deferredCreated o | .pendingJoin o | .joined o
  | .suspendedAt o | .returned o => some o
  | .output (.deferred o) | .error (.deferred o) | .terminal (.deferred o) => some o
  | _ => none

def OpManifestEntry.place (st : Stage) (e : OpManifestEntry) : Place :=
  match e.opc with
  | some o => .deferred o
  | none => .op st e.ref

def isDeferredJoinManifest (m : List OpManifestEntry) : Bool :=
  m.any fun e => e.opc.isSome

inductive State
  | waiting
  | resumable
  | completed
  | failed
  deriving DecidableEq

end ThanksComputer.Continuation
