import ThanksComputer.Continuation.Records

/-! The operations of `Runs`, each a program of single store operations. -/

namespace ThanksComputer.Continuation

open Lib.CreateOnce Lib.Process

section

variable {ε τ : Type}

/-- `Create`; `false` stands for `ErrExists`. -/
def create (k : Key) (d : Doc k) : Prog Doc ε τ Bool :=
  Prog.put k d

def fetch (k : Key) : Prog Doc ε τ (Option (Doc k)) :=
  Prog.get k

def exist (k : Key) : Prog Doc ε τ Bool :=
  Prog.present k

/-- One `RecordTerminal` call; `now` is the time it reads. -/
structure Call where
  status : Status
  info : TerminalMeta := {}
  payload : String
  now : Nat := 0
  deriving DecidableEq

inductive RecordError
  | badStatus (status : String)
  deriving DecidableEq

def TerminalMeta.terminal (m : TerminalMeta) (w : Writer) (status : Status) (now : Nat) :
    OpTerminal where
  status := status
  recordedAt := now
  info := m
  writer := w

/-- `RecordTerminal`, and `RecordDeferredTerminal` for a deferred place. -/
def recordTerminal (w : Writer) (p : Place) (call : Call) :
    Prog Doc ε τ (Except RecordError Bool) := do
  let term := call.info.terminal w call.status call.now
  match call.status with
  | .completed =>
    let _ ← create (.output p) call.payload
    let recorded ← create (.terminal p) { term with outputKey := some p }
    pure (.ok recorded)
  | .failed =>
    let _ ← create (.error p) call.payload
    let recorded ← create (.terminal p) { term with errorKey := some p }
    pure (.ok recorded)
  | .other text => pure (.error (.badStatus text))

/-- The bytes a terminal points to. -/
def OpTerminal.bytes (s : Store Doc ε) (t : OpTerminal) : Option String :=
  match t.outputKey, t.errorKey with
  | some p, _ => s.docs (.output p)
  | none, some p => s.docs (.error p)
  | none, none => none

/-- The status, the metadata and the payload that are read back for an op. -/
def readBack (s : Store Doc ε) (p : Place) : Option (Status × TerminalMeta × String) := do
  let term ← s.docs (.terminal p)
  let payload ← term.bytes s
  pure (term.status, term.info, payload)

def createRun (firstStage : Stage) (expiresAt : Option Nat) : Prog Doc ε τ Unit := do
  let _ ← create .runCreated { firstStage, expiresAt }

/-- `ErrExists` is swallowed. -/
def suspendStage (st : Stage) (scopeEnvelope : String) (manifest : List OpManifestEntry)
    (now : Nat) : Prog Doc ε τ Unit := do
  let _ ← create (.stageSuspended st) { scopeEnvelope, manifest, suspendedAt := now }

def claimResume (st : Stage) (now : Nat) : Prog Doc ε τ Bool :=
  create (.resumeClaim st) now

def writeResult (finalEnvelope : String) : Prog Doc ε τ Unit := do
  let _ ← create .result finalEnvelope

def failStage (st : Stage) (reason : String) : Prog Doc ε τ Unit := do
  let _ ← create (.stageFailed st) reason

def failRun (reason : String) : Prog Doc ε τ Unit := do
  let _ ← create .runFailed reason

def markJoined (opc : Opc) : Prog Doc ε τ Bool :=
  create (.joined opc) ()

def setDeferredSuspendedAt (opc : Opc) (st : Stage) : Prog Doc ε τ Unit := do
  let _ ← create (.suspendedAt opc) st

/-- The loop of `StageState` over the manifest. -/
def manifestState (st : Stage) : List OpManifestEntry → Prog Doc ε τ State
  | [] => pure .resumable
  | e :: es => do
    if ← exist (.terminal (e.place st)) then manifestState st es else pure .waiting

def stageState (st : Stage) (manifest : List OpManifestEntry) : Prog Doc ε τ State := do
  if ← exist .result then
    pure .completed
  else if ← exist .runFailed then
    pure .failed
  else if ← exist (.stageFailed st) then
    pure .failed
  else
    manifestState st manifest

def Key.pendingJoin? : Key → Option Opc
  | .pendingJoin o => some o
  | _ => none

def Key.stageSuspended? : Key → Option Stage
  | .stageSuspended st => some st
  | _ => none

/-- `ListPendingJoins`.  The documents never change, so listing them and reading them is one
operation. -/
def pendingJoins (s : Store Doc ε) : List (Opc × PendingJoin) :=
  (s.keys.filterMap Key.pendingJoin?).filterMap fun o => (s.docs (.pendingJoin o)).map (o, ·)

def suspendedStages (s : Store Doc ε) : List (Stage × StageSuspended) :=
  (s.keys.filterMap Key.stageSuspended?).filterMap fun st =>
    (s.docs (.stageSuspended st)).map (st, ·)

/-- The latest by its time, the first of those listed. -/
def latest : List (Stage × StageSuspended) → Option (Stage × StageSuspended)
  | [] => none
  | x :: xs => some (xs.foldl (fun l y => if l.2.suspendedAt < y.2.suspendedAt then y else l) x)

end

end ThanksComputer.Continuation
