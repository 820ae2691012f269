import Mathlib.Data.List.Basic
import ThanksComputer.Lib.Assoc

/-! The documents of suspended runs in the continuation store, under their logical keys, and the
calls of `Runs` that create them.  Any operation of the store may fail. -/

namespace ThanksComputer.Retention

section Documents

structure RunCreated where
  runID : String
  runContinuationID : String
  tenantID : String
  stack : String
  stackVersionID : String
  firstStage : String
  originRID : String
  createdAt : Int
  /-- The zero time is `none`. -/
  expiresAt : Option Int
  deriving DecidableEq

structure OpContinuationLookup where
  runID : String
  stage : String
  op : String
  ordinal : Nat
  tokenHash : String
  expiresAt : Option Int
  deferred : Bool
  deriving DecidableEq

structure OpManifestEntry where
  ordinal : Nat
  op : String
  async : Bool
  opContinuationID : String
  deriving DecidableEq

structure StageSuspended where
  stage : String
  scopeEnvelope : String
  manifest : List OpManifestEntry
  stackVersion : String
  suspendedAt : Int
  deriving DecidableEq

structure OpCreated where
  ordinal : Nat
  op : String
  async : Bool
  opContinuationID : String
  inputKey : String
  createdAt : Int
  deriving DecidableEq

structure DeferredOpCreated where
  opContinuationID : String
  op : String
  ordinal : Nat
  joinAtScope : Int
  dest : String
  dispatchStage : String
  inputKey : String
  expiresAt : Option Int
  createdAt : Int
  deriving DecidableEq

structure PendingJoin where
  opContinuationID : String
  op : String
  ordinal : Nat
  joinAtScope : Int
  dest : String
  dispatchStack : String
  deriving DecidableEq

/-- What an object holds.  `blob` is the bytes of an input, an output, an error, a result or a
snapshot, `note` a document that is not read here but for being there, and `garbled` bytes that
`json.Unmarshal` refuses. -/
inductive Doc
  | runCreated (d : RunCreated)
  | runLookup (runID : String)
  | requestLookup (runID rcid : String)
  | opLookup (d : OpContinuationLookup)
  | stageSuspended (d : StageSuspended)
  | opCreated (d : OpCreated)
  | deferredCreated (d : DeferredOpCreated)
  | pendingJoin (d : PendingJoin)
  | claim (claimedAt : Int)
  | note (fields : List (String × String))
  | blob (bytes : String)
  | garbled (bytes : String)
  deriving DecidableEq

def Doc.resolves : Doc → Option String
  | .runLookup runID => some runID
  | .requestLookup runID _ => some runID
  | .opLookup d => some d.runID
  | _ => none

end Documents

section Keys

def runContinuationKey (rcid : String) : String := "run-continuations/" ++ rcid ++ ".json"
def opContinuationKey (opc : String) : String := "op-continuations/" ++ opc ++ ".json"
def requestContinuationKey (rid : String) : String := "request-continuations/" ++ rid ++ ".json"
def runDir (runID : String) : String := "runs/" ++ runID
def runCreatedKey (runID : String) : String := runDir runID ++ "/run-created.json"
def opstackSnapshotKey (runID : String) : String := runDir runID ++ "/opstack-snapshot.json"
def resultKey (runID : String) : String := runDir runID ++ "/result.json"
def runFailedKey (runID : String) : String := runDir runID ++ "/failed.json"
def stageDir (runID stage : String) : String := runDir runID ++ "/stages/" ++ stage
def stageSuspendedKey (runID stage : String) :
    String := stageDir runID stage ++ "/stage-suspended.json"
def stageFailedKey (runID stage : String) : String := stageDir runID stage ++ "/stage-failed.json"
def resumeClaimKey (runID stage : String) : String := stageDir runID stage ++ "/resume-claim.json"

/-- `%04d`. -/
def fourDigits (n : Nat) : String :=
  String.ofList (List.replicate (4 - (Nat.toDigits 10 n).length) '0' ++ Nat.toDigits 10 n)

def opDir (runID stage : String) (ordinal : Nat) (op : String) : String :=
  stageDir runID stage ++ "/ops/" ++ fourDigits ordinal ++ "-" ++ op

/-- The keys of one op: its `op-created`, `op-accepted`, `op-terminal`, `input`, `output` and
`error`. -/
def opKey (name runID stage : String) (ordinal : Nat) (op : String) : String :=
  opDir runID stage ordinal op ++ "/" ++ name ++ ".json"

def opCreatedKey := opKey "op-created"
def opAcceptedKey := opKey "op-accepted"
def opTerminalKey := opKey "op-terminal"
def opInputKey := opKey "input"
def opOutputKey := opKey "output"
def opErrorKey := opKey "error"

def deferredDir (runID opc : String) : String := runDir runID ++ "/deferred/" ++ opc

def deferredKey (name runID opc : String) : String :=
  deferredDir runID opc ++ "/" ++ name ++ ".json"

def deferredCreatedKey := deferredKey "deferred-created"
def deferredInputKey := deferredKey "input"
def deferredTerminalKey := deferredKey "terminal"
def deferredOutputKey := deferredKey "output"
def deferredErrorKey := deferredKey "error"
def deferredJoinedKey := deferredKey "joined"
def deferredSuspendedAtKey := deferredKey "suspended-at"
def pendingJoinsDir (runID : String) : String := runDir runID ++ "/pending-joins/"
def pendingJoinKey (runID opc : String) : String := pendingJoinsDir runID ++ opc ++ ".json"

def eventKey (runID ts suffix kind : String) : String :=
  runDir runID ++ "/events/" ++ ts ++ "-" ++ suffix ++ "-" ++ kind ++ ".json"

/-- `strings.HasSuffix`. -/
def hasSuffix (s suffix : String) : Bool :=
  suffix.toList.isSuffixOf s.toList

def under (dir key : String) : Bool :=
  (dir ++ "/").toList.isPrefixOf key.toList

end Keys

section Store

inductive StoreError
  | exists_
  | notFound
  | decode
  | badStatus (status : String)
  | backend
  deriving DecidableEq

/-- The objects in the order they were created, and how many operations were made. -/
structure World where
  docs : List (String × Doc)
  ops : Nat
  deriving DecidableEq

/-- Code that may fail; the world it leaves is what it did until then.  `faults` says which
operations of the store fail, counted from the first. -/
abbrev Act (α : Type) := (Nat → Bool) → World → Except StoreError α × World

namespace Act

variable {α β : Type}

def pure (a : α) : Act α := fun _ w => (.ok a, w)

def throw (e : StoreError) : Act α := fun _ w => (.error e, w)

def bind (m : Act α) (f : α → Act β) : Act β := fun faults w =>
  match m faults w with
  | (.error e, w) => (.error e, w)
  | (.ok a, w) => f a faults w

instance : Monad Act where
  pure := Act.pure
  bind := Act.bind

def attempt (m : Act α) : Act (Except StoreError α) := fun faults w =>
  (.ok (m faults w).1, (m faults w).2)

/-- One operation of the store. -/
def op (f : List (String × Doc) → Except StoreError α × List (String × Doc)) :
    Act α := fun faults w =>
  if faults w.ops then (.error .backend, { w with ops := w.ops + 1 })
  else ((f w.docs).1, ⟨(f w.docs).2, w.ops + 1⟩)

end Act

def create (key : String) (d : Doc) : Act Unit :=
  .op fun docs =>
    if (docs.lookup key).isSome then (.error .exists_, docs) else (.ok (), docs ++ [(key, d)])

def get (key : String) : Act Doc :=
  .op fun docs => ((docs.lookup key).elim (.error .notFound) .ok, docs)

def exist (key : String) : Act Bool :=
  .op fun docs => (.ok (docs.lookup key).isSome, docs)

/-- `List`: the keys in a directory and below. -/
def list (dir : String) : Act (List String) :=
  .op fun docs => (.ok ((docs.map Prod.fst).filter (under dir)), docs)

/-- An absent key is no error. -/
def delete (key : String) : Act Unit :=
  .op fun docs => (.ok (), docs.filter fun e => e.1 ≠ key)

def ignoreExists (m : Act Unit) : Act Unit := fun faults w =>
  match m faults w with
  | (.error .exists_, w) => (.ok (), w)
  | r => r

end Store

section Calls

/-- `CreateRun` with the ids it minted; `ErrExists` is an error, but for the request lookup. -/
def createRun (runID rcid tenantID stack stackVersionID firstStage originRID : String) (now : Int)
    (expires : Option Int) : Act Unit := do
  create (runCreatedKey runID)
    (.runCreated ⟨runID, rcid, tenantID, stack, stackVersionID, firstStage, originRID,
      now, expires⟩)
  create (runContinuationKey rcid) (.runLookup runID)
  if originRID ≠ "" then
    ignoreExists (create (requestContinuationKey originRID) (.requestLookup runID rcid))

def suspendStage (runID stage scopeEnvelope stackVersionID : String)
    (manifest : List OpManifestEntry) (now : Int) : Act Unit :=
  ignoreExists (create (stageSuspendedKey runID stage)
    (.stageSuspended ⟨stage, scopeEnvelope, manifest, stackVersionID, now⟩))

structure OpRecordSpec where
  ordinal : Nat
  op : String
  async : Bool
  opContinuationID : String
  tokenHash : String
  input : String
  expiresAt : Option Int

/-- What `CreateOpRecords` writes for one op. -/
def createOpRecord (runID stage : String) (now : Int) (sp : OpRecordSpec) : Act Unit := do
  ignoreExists (create (opInputKey runID stage sp.ordinal sp.op) (.blob sp.input))
  ignoreExists (create (opCreatedKey runID stage sp.ordinal sp.op)
    (.opCreated ⟨sp.ordinal, sp.op, sp.async, sp.opContinuationID,
      opInputKey runID stage sp.ordinal sp.op, now⟩))
  if sp.async then
    ignoreExists (create (opContinuationKey sp.opContinuationID)
      (.opLookup ⟨runID, stage, sp.op, sp.ordinal, sp.tokenHash, sp.expiresAt, false⟩))

def createOpRecords (runID stage : String) (now : Int) : List OpRecordSpec → Act Unit
  | [] => pure ()
  | sp :: specs => do
    createOpRecord runID stage now sp
    createOpRecords runID stage now specs

/-- The last lines of `RecordTerminal`: `ErrExists` says that another terminal has won. -/
def recordAt (terminalKey blobKey payload : String) (fields : List (String × String)) :
    Act Bool := do
  ignoreExists (create blobKey (.blob payload))
  let r ← Act.attempt (create terminalKey (.note fields))
  match r with
  | .ok _ => pure true
  | .error .exists_ => pure false
  | .error e => Act.throw e

def recordTerminal (runID stage : String) (ordinal : Nat) (op status payload : String) : Act Bool :=
  if status = "completed" then
    recordAt (opTerminalKey runID stage ordinal op) (opOutputKey runID stage ordinal op) payload
      [("status", status), ("output_key", opOutputKey runID stage ordinal op)]
  else if status = "failed" then
    recordAt (opTerminalKey runID stage ordinal op) (opErrorKey runID stage ordinal op) payload
      [("status", status), ("error_key", opErrorKey runID stage ordinal op)]
  else Act.throw (.badStatus status)

structure DeferredOpSpec where
  opContinuationID : String
  op : String
  ordinal : Nat
  joinAtScope : Int
  dest : String
  dispatchStage : String
  dispatchStack : String
  tokenHash : String
  input : String
  expiresAt : Option Int

def createDeferredOp (runID : String) (now : Int) (sp : DeferredOpSpec) : Act Unit := do
  ignoreExists (create (deferredInputKey runID sp.opContinuationID)
    (.blob (if sp.input = "" then "\x7b\x7d" else sp.input)))
  ignoreExists (create (deferredCreatedKey runID sp.opContinuationID)
    (.deferredCreated ⟨sp.opContinuationID, sp.op, sp.ordinal, sp.joinAtScope, sp.dest,
      sp.dispatchStage,
      deferredInputKey runID sp.opContinuationID, sp.expiresAt, now⟩))
  ignoreExists (create (opContinuationKey sp.opContinuationID)
    (.opLookup ⟨runID, "", sp.op, sp.ordinal, sp.tokenHash, sp.expiresAt, true⟩))
  ignoreExists (create (pendingJoinKey runID sp.opContinuationID)
    (.pendingJoin ⟨sp.opContinuationID, sp.op, sp.ordinal, sp.joinAtScope, sp.dest,
      sp.dispatchStack⟩))

def recordDeferredTerminal (runID opc status payload : String) : Act Bool :=
  if status = "completed" then
    recordAt (deferredTerminalKey runID opc) (deferredOutputKey runID opc) payload
      [("status", status), ("output_key", deferredOutputKey runID opc)]
  else if status = "failed" then
    recordAt (deferredTerminalKey runID opc) (deferredErrorKey runID opc) payload
      [("status", status), ("error_key", deferredErrorKey runID opc)]
  else Act.throw (.badStatus status)

def writeResult (runID finalEnvelope : String) : Act Unit :=
  ignoreExists (create (resultKey runID) (.blob finalEnvelope))

def failRun (runID reason : String) : Act Unit :=
  ignoreExists (create (runFailedKey runID) (.note [("reason", reason)]))

def appendEvent (runID ts suffix kind : String) (fields : List (String × String)) : Act Unit :=
  ignoreExists (create (eventKey runID ts suffix kind) (.note (("kind", kind) :: fields)))

def readRunCreated (runID : String) : Act RunCreated := do
  let d ← get (runCreatedKey runID)
  match d with
  | .runCreated rc => pure rc
  | _ => Act.throw .decode

/-- The `op_continuation_id` of a document. -/
def Doc.opContinuationID : Doc → String
  | .opCreated d => d.opContinuationID
  | .deferredCreated d => d.opContinuationID
  | .pendingJoin d => d.opContinuationID
  | _ => ""

/-- The id that `PurgeRun` takes from an op-created document, if it can be read and has one. -/
def opcOf : Except StoreError Doc → Option String
  | .ok d => if d.opContinuationID ≠ "" then some d.opContinuationID else none
  | .error _ => none

/-- The loop of `PurgeRun` that collects the handles of the async ops. -/
def collect : List String → Act (List String)
  | [] => pure []
  | k :: ks =>
    if hasSuffix k "/op-created.json" = false then collect ks
    else do
      let d ← Act.attempt (get k)
      let opcs ← collect ks
      pure ((opcOf d).toList ++ opcs)

def deleteEach : List String → Act Unit
  | [] => pure ()
  | k :: ks => do
    delete k
    deleteEach ks

/-- The lookups that `PurgeRun` deletes for the run-created document. -/
def runLookups (rc : RunCreated) : List String :=
  (if rc.runContinuationID ≠ "" then [runContinuationKey rc.runContinuationID] else []) ++
    (if rc.originRID ≠ "" then [requestContinuationKey rc.originRID] else [])

def deleteLookups : Except StoreError RunCreated → Act Unit
  | .ok rc => deleteEach (runLookups rc)
  | .error _ => pure ()

/-- `PurgeRun`: the lookups first, then the run's directory. -/
def purgeRun (runID : String) : Act Unit := do
  let rc ← Act.attempt (readRunCreated runID)
  let runKeys ← list (runDir runID)
  let opcs ← collect runKeys
  deleteEach (opcs.map opContinuationKey)
  deleteLookups rc
  deleteEach runKeys

end Calls

end ThanksComputer.Retention
