import ThanksComputer.Continuation.Runs

/-! The parties of one run: the pipeline of the request and of its resumes, the goroutines that
dispatch ops, workers and their callbacks, and the sweeper.  What the rules of the tenant make of a
scope is left open: a task goes on as any of those that the code could go on as. -/

namespace ThanksComputer.Continuation

open Lib.CreateOnce Lib.Process

/-- The envelope functions of the processor and the order in which the store lists its keys.
`merge` projects a stored output by its transport and merges it; a refused merge leaves the
envelope. -/
structure Machine where
  merge : String → String → String → String
  addFuel : String → Int → String
  failPayload : String → String
  listing : List (Stage × StageSuspended) → List (Stage × StageSuspended)

structure Ident where
  resuming : Bool
  deferred : Bool
  deriving DecidableEq

def Ident.known (id : Ident) : Bool :=
  id.resuming || id.deferred

/-- What becomes of a worker's dispatch.  A worker can have its job though the dispatch failed. -/
inductive RemoteFate
  | accepted (jobID : String)
  | failed (posted : Bool) (call : Call)

/-- A local-async op is refused before it is detached, or runs to its end. -/
inductive LocalFate
  | refused (call : Call)
  | detached (call : Call) (now : Nat)

inductive AsyncMode
  | remote (fate : RemoteFate)
  | localAsync (fate : LocalFate)

inductive OpMode
  | sync (call : Call)
  | async (opc : Opc) (mode : AsyncMode)

def OpMode.isAsync : OpMode → Bool
  | .sync _ => false
  | .async _ _ => true

def OpMode.opc : OpMode → Option Opc
  | .sync _ => none
  | .async opc _ => some opc

structure ScopeOp where
  name : String
  input : String
  mode : OpMode

structure DeferredOp where
  name : String
  input : String
  joinAtScope : Nat
  opc : Opc
  mode : AsyncMode

inductive Task
  | run (id : Ident) (st : Stage) (env : String) (now : Nat)
  | dispatchDeferred (id : Ident) (st : Stage) (env : String) (ops : List DeferredOp)
      (expires : Option Nat)
  | barrier (id : Ident) (st : Stage) (env : String) (ops : List ScopeOp) (expires : Option Nat)
      (now : Nat)
  | promote (id : Ident) (st : Stage) (env : String) (op input : String) (call : Call) (now : Nat)
  | finish (id : Ident) (env : String)
  | stop
  | sibling (st : Stage) (ref : OpRef) (call : Call)
  | dispatch (st : Stage) (ref : OpRef) (opc : Opc) (fate : RemoteFate)
  | detached (st : Stage) (ref : OpRef) (call : Call) (now : Nat)
  | dispatchRemote (opc : Opc) (fate : RemoteFate)
  | detachedDeferred (opc : Opc) (call : Call) (now : Nat)
  | worker (opc : Opc)
  | post (opc : Opc) (call : Call) (now : Nat)
  | callback (opc : Opc) (call : Call) (now : Nat)
  | drive (st : Stage) (now : Nat)
  | resume (st : Stage)
  | sweep (now staleAfter : Nat)

/-- A deferred op's output goes into the run's envelope. -/
inductive Event
  | merged (opc : Opc)
  deriving DecidableEq

abbrev M := Prog Doc Event Task

namespace Task

def advances (id : Ident) : Task → Bool
  | .run id' _ _ _ => id' == id
  | .finish id' _ => id' == id
  | .stop => true
  | _ => false

/-- What a pipeline does at a scope.  A barrier is filed under the stack its ops come from. -/
def follows (id : Ident) (env : String) : Task → Bool
  | .barrier id' _ env' ops _ _ => id' == id && env' == env && ops.any fun op => op.mode.isAsync
  | .promote id' _ env' _ _ _ _ => id' == id && env' == env
  | t => t.advances id

def enters (id : Ident) (st : Stage) (env : String) : Task → Bool
  | .dispatchDeferred id' st' env' _ _ => id' == id && st' == st && env' == env
  | t => t.follows id env

def reruns (st : Stage) (env : String) : Task → Bool
  | .run id st' env' _ => id == ⟨true, true⟩ && st' == st && env' == env
  | .stop => true
  | _ => false

def resumes (st : Stage) : Task → Bool
  | .resume st' => st' == st
  | _ => false

def posts (opc : Opc) : Task → Bool
  | .post opc' _ _ => opc' == opc
  | .stop => true
  | _ => false

def works (opc : Opc) : Task → Bool
  | .worker opc' => opc' == opc
  | _ => false

def sweeps : Task → Bool
  | .sweep _ _ => true
  | .stop => true
  | _ => false

end Task

def numbered (ops : List ScopeOp) : List (OpRef × ScopeOp) :=
  ops.zipIdx.map fun x => (⟨x.2, x.1.name⟩, x.1)

def manifestOf (ops : List ScopeOp) : List OpManifestEntry :=
  (numbered ops).map fun x => { ref := x.1, async := x.2.mode.isAsync }

/-- `CreateOpRecords` for one op. -/
def createOpRecord (st : Stage) (x : OpRef × ScopeOp) : M Unit := do
  let _ ← create (.opInput st x.1) (if x.2.input = "" then "\x7b\x7d" else x.2.input)
  let _ ← create (.opCreated st x.1) { async := x.2.mode.isAsync, opc := x.2.mode.opc }
  match x.2.mode.opc with
  | some opc => do
    let _ ← create (.opContinuation opc) { stage := st, ref := x.1, deferred := false }
  | none => pure ()

def dispatchLocalAsync (st : Stage) (ref : OpRef) : LocalFate → M Unit
  | .refused call => do
    let _ ← recordTerminal .dispatch (.op st ref) call
  | .detached call now => Prog.spawn (.detached st ref call now)

def dispatchOp (st : Stage) (x : OpRef × ScopeOp) : M Unit :=
  match x.2.mode with
  | .sync call => Prog.spawn (.sibling st x.1 call)
  | .async opc (.remote fate) => Prog.spawn (.dispatch st x.1 opc fate)
  | .async _ (.localAsync fate) => dispatchLocalAsync st x.1 fate

def unused (s : Store Doc Event) (opc : Opc) : Bool :=
  s.keys.all fun k => k.opc != some opc

/-- The ids are drawn: they are new and differ from each other. -/
def mint (opcs : List Opc) : M Unit :=
  .await (fun s => opcs.all (unused s) && decide opcs.Nodup) (.pure ())

def suspendBarrierScope (id : Ident) (st : Stage) (env : String) (ops : List ScopeOp)
    (expires : Option Nat) (now : Nat) : M Unit := do
  if id.known then pure () else createRun st expires
  suspendStage st env (manifestOf ops) now
  Prog.each (createOpRecord st) (numbered ops)
  Prog.each (dispatchOp st) (numbered ops)

def promoteContinuable (id : Ident) (st : Stage) (env op input : String) (call : Call)
    (now : Nat) : M Unit := do
  if id.known then pure () else createRun st none
  suspendStage st env [{ ref := ⟨0, op⟩, async := true }] now
  let _ ← create (.opInput st ⟨0, op⟩) (if input = "" then "\x7b\x7d" else input)
  let _ ← create (.opCreated st ⟨0, op⟩) { async := true, opc := none }
  Prog.spawn (.detached st ⟨0, op⟩ call now)

def DeferredOp.remote (op : DeferredOp) : Bool :=
  match op.mode with
  | .remote _ => true
  | .localAsync _ => false

def createDeferredOp (st : Stage) (ordinal : Nat) (op : DeferredOp) : M Unit := do
  let _ ← create (.deferredInput op.opc) (if op.input = "" then "\x7b\x7d" else op.input)
  let _ ← create (.deferredCreated op.opc)
    { ref := ⟨ordinal, op.name⟩, joinAtScope := op.joinAtScope, dispatchStage := st }
  let _ ← create (.opContinuation op.opc)
    { stage := ⟨"", 0⟩, ref := ⟨ordinal, op.name⟩, deferred := true }
  let _ ← create (.pendingJoin op.opc)
    { ref := ⟨ordinal, op.name⟩, joinAtScope := op.joinAtScope, dispatchStack := st.stack }

def dispatchDeferredOp (st : Stage) (x : DeferredOp × Nat) : M Unit := do
  createDeferredOp st x.2 x.1
  match x.1.mode with
  | .remote fate => Prog.spawn (.dispatchRemote x.1.opc fate)
  | .localAsync (.refused call) => do
    let _ ← recordTerminal .dispatch (.deferred x.1.opc) call
  | .localAsync (.detached call now) => Prog.spawn (.detachedDeferred x.1.opc call now)

/-- The goroutines of the remote dispatches that `wg.Wait` waits for. -/
def remoteOpcs (ops : List DeferredOp) : List Opc :=
  (ops.filter DeferredOp.remote).map DeferredOp.opc

def dispatchDeferred (id : Ident) (st : Stage) (env : String) (ops : List DeferredOp)
    (expires : Option Nat) : M Unit := do
  if id.known then pure () else createRun st expires
  mint (ops.map DeferredOp.opc)
  Prog.each (dispatchDeferredOp st) ops.zipIdx
  .await (fun s => (remoteOpcs ops).all fun opc => s.has (.returned opc)) (.pure ())
  .goto (Task.follows { id with deferred := true } env)

/-- The floor of the join is reached, or the run has left the stack. -/
def due (st : Stage) (pj : PendingJoin) : Bool :=
  if pj.dispatchStack = st.stack then decide (pj.joinAtScope ≤ st.scope) else true

def unjoined : List (Opc × PendingJoin) → M (List (Opc × PendingJoin))
  | [] => pure []
  | pj :: pjs => do
    if ← exist (.joined pj.1) then
      unjoined pjs
    else
      let rest ← unjoined pjs
      pure (pj :: rest)

/-- The bytes of a completed op; `none` when they cannot be read. -/
def readOutput (term : OpTerminal) : M (Option String) :=
  match term.outputKey with
  | none => pure (some "")
  | some p => fetch (.output p)

def readError (term : OpTerminal) : M (Option String) :=
  match term.errorKey with
  | none => pure none
  | some p => fetch (.error p)

def Machine.join (m : Machine) (env : String) (term : OpTerminal) (output : String) : String :=
  if output = "" ∨ output = "\x7b\x7d" then env else m.merge env term.info.transport output

/-- The loop of `resolveDeferredJoins`: the envelope and the joins to wait for, or `none` when the
request stops at a failed op. -/
def resolveEach (m : Machine) (id : Ident) : String → List (Opc × PendingJoin) →
    M (Option (String × List (Opc × PendingJoin)))
  | env, [] => pure (some (env, []))
  | env, pj :: pjs => do
    match ← fetch (.terminal (.deferred pj.1)) with
    | none =>
      match ← resolveEach m id env pjs with
      | none => pure none
      | some (env', waiting) => pure (some (env', pj :: waiting))
    | some term =>
      if term.status = .failed then do
        let _ ← markJoined pj.1
        let eb ← readError term
        if id.resuming then
          writeResult (eb.getD (m.failPayload ("deferred op failed: " ++ pj.2.ref.op)))
        else
          pure ()
        pure none
      else if ← markJoined pj.1 then do
        let ob ← readOutput term
        Prog.say (.merged pj.1)
        resolveEach m id (m.join env term (ob.getD "")) pjs
      else
        resolveEach m id env pjs

def byOrdinal (a b : Opc × PendingJoin) : Bool :=
  decide (a.2.ref.ordinal ≤ b.2.ref.ordinal)

def resolveDeferredJoins (m : Machine) (id : Ident) (st : Stage) (env : String) :
    M (Option (String × List (Opc × PendingJoin))) := do
  let pjs ← .read pendingJoins .pure
  let toResolve ← unjoined (pjs.filter fun pj => due st pj.2)
  resolveEach m id env (toResolve.mergeSort byOrdinal)

def entryOf (pj : Opc × PendingJoin) : OpManifestEntry :=
  { ref := pj.2.ref, async := true, opc := some pj.1 }

def entryOrder (a b : OpManifestEntry) : Bool :=
  decide (a.ref.ordinal ≤ b.ref.ordinal)

def joinManifest (waiting : List (Opc × PendingJoin)) : List OpManifestEntry :=
  (waiting.map entryOf).mergeSort entryOrder

def suspendForDeferredJoins (st : Stage) (env : String) (waiting : List (Opc × PendingJoin))
    (now : Nat) : M Unit := do
  suspendStage st env (joinManifest waiting) now
  Prog.each (fun pj => setDeferredSuspendedAt pj.1 st) waiting
  match ← stageState st (joinManifest waiting) with
  | .resumable => Prog.spawn (.drive st now)
  | _ => pure ()

/-- `Run` up to the classification of the scope. -/
def run (m : Machine) (id : Ident) (st : Stage) (env : String) (now : Nat) : M Unit := do
  if id.deferred then
    match ← resolveDeferredJoins m id st env with
    | none => pure ()
    | some (env', []) => .goto (Task.enters id st env')
    | some (env', pj :: waiting) => suspendForDeferredJoins st env' (pj :: waiting) now
  else
    .goto (Task.enters id st env)

/-- The tail that every re-checking writer runs, and `DriveDeferredResume`. -/
def driveResume (st : Stage) (now : Nat) : M Unit := do
  match ← fetch (.stageSuspended st) with
  | none => pure ()
  | some ss =>
    match ← stageState st ss.manifest with
    | .resumable => do
      if ← claimResume st now then .goto (Task.resumes st) else pure ()
    | _ => pure ()

def driveIfSuspended (opc : Opc) (now : Nat) : M Unit := do
  match ← fetch (.suspendedAt opc) with
  | none => pure ()
  | some st => driveResume st now

def handleDeferredComplete (opc : Opc) (call : Call) (now : Nat) : M Unit := do
  match ← recordTerminal .callback (.deferred opc) call with
  | .ok true => driveIfSuspended opc now
  | _ => pure ()

def handleContinuationComplete (opc : Opc) (call : Call) (now : Nat) : M Unit := do
  match ← fetch (.opContinuation opc) with
  | none => pure ()
  | some lk =>
    if lk.deferred then
      handleDeferredComplete opc call now
    else
      match ← recordTerminal .callback (.op lk.stage lk.ref) call with
      | .ok true => driveResume lk.stage now
      | _ => pure ()

/-- The end of a detached op, whatever its recording reported. -/
def detachedTail (st : Stage) (ref : OpRef) (call : Call) (now : Nat) : M Unit := do
  match ← recordTerminal .detached (.op st ref) call with
  | .ok _ => driveResume st now
  | .error _ => pure ()

def detachedDeferredTail (opc : Opc) (call : Call) (now : Nat) : M Unit := do
  match ← recordTerminal .detached (.deferred opc) call with
  | .ok _ => driveIfSuspended opc now
  | .error _ => pure ()

def mergeBarrier (m : Machine) (st : Stage) : String → Int → List OpManifestEntry →
    M (Option String)
  | env, fuel, [] => pure (some (if 0 < fuel then m.addFuel env fuel else env))
  | env, fuel, e :: es => do
    match ← fetch (.terminal (.op st e.ref)) with
    | none => pure none
    | some term =>
      if term.status = .failed then do
        failStage st ("op-failed:" ++ e.ref.op)
        pure none
      else
        match ← readOutput term with
        | none => pure none
        | some ob => mergeBarrier m st (m.join env term ob) (fuel + term.info.fuelUsed) es

def mergeDeferred (m : Machine) (st : Stage) : String → Int → List OpManifestEntry →
    M (Option String)
  | env, fuel, [] => pure (some (if 0 < fuel then m.addFuel env fuel else env))
  | env, fuel, e :: es => do
    match ← fetch (.terminal (.deferred (e.opc.getD ""))) with
    | none => pure none
    | some term =>
      if term.status = .failed then do
        failStage st ("deferred-op-failed:" ++ e.ref.op)
        pure none
      else
        match ← readOutput term with
        | none => pure none
        | some ob => do
          Prog.say (.merged (e.opc.getD ""))
          let _ ← markJoined (e.opc.getD "")
          mergeDeferred m st (m.join env term ob) (fuel + term.info.fuelUsed) es

def resume (m : Machine) (st : Stage) : M Unit := do
  match ← fetch (.stageSuspended st) with
  | none => pure ()
  | some ss =>
    let entries := ss.manifest.mergeSort entryOrder
    let env := if ss.scopeEnvelope = "" then "\x7b\x7d" else ss.scopeEnvelope
    if isDeferredJoinManifest ss.manifest then
      match ← mergeDeferred m st env 0 entries with
      | none => pure ()
      | some env' => .goto (Task.reruns st env')
    else
      match ← mergeBarrier m st env 0 entries with
      | none => pure ()
      | some _ => .goto (Task.advances ⟨true, false⟩)

def dispatch (st : Stage) (ref : OpRef) (opc : Opc) : RemoteFate → M Unit
  | .accepted jobID => do
    Prog.spawn (.worker opc)
    let _ ← create (.opAccepted st ref) jobID
  | .failed posted call => do
    if posted then Prog.spawn (.worker opc) else pure ()
    let _ ← recordTerminal .dispatch (.op st ref) call

def dispatchRemote (opc : Opc) : RemoteFate → M Unit
  | .accepted _ => do
    Prog.spawn (.worker opc)
    let _ ← create (.returned opc) ()
  | .failed posted call => do
    if posted then Prog.spawn (.worker opc) else pure ()
    let _ ← recordTerminal .dispatch (.deferred opc) call
    let _ ← create (.returned opc) ()

/-- The pipeline's last payload.  Only a run that has been created has a result to keep. -/
def finish (id : Ident) (env : String) : M Unit :=
  if id.known then writeResult env else pure ()

def currentStage (m : Machine) : M (Option (Stage × StageSuspended)) :=
  .read (fun s => latest (m.listing (suspendedStages s))) .pure

/-- `RunState`; `none` stands for `ErrNotFound`. -/
def runState (m : Machine) : M (Option State) := do
  if ← exist .result then
    pure (some .completed)
  else if ← exist .runFailed then
    pure (some .failed)
  else
    match ← currentStage m with
    | some (st, ss) => do
      let state ← stageState st ss.manifest
      pure (some state)
    | none => do
      if ← exist .runCreated then pure (some .waiting) else pure none

def State.terminal : State → Bool
  | .completed | .failed => true
  | .waiting | .resumable => false

def failStale (st : Stage) (ss : StageSuspended) (now staleAfter : Nat) : M Unit := do
  match ← stageState st ss.manifest with
  | .resumable => do
    match ← fetch (.resumeClaim st) with
    | some claimedAt => if staleAfter < now - claimedAt then failRun "resumer-stale" else pure ()
    | none => pure ()
  | _ => pure ()

def expired (rc : RunCreated) (now : Nat) : Bool :=
  rc.expiresAt.any fun at' => decide (at' < now)

/-- One pass of the sweeper over the run, short of a purge. -/
def sweepRun (m : Machine) (now staleAfter : Nat) : M Unit := do
  match ← fetch .runCreated with
  | none => pure ()
  | some rc =>
    match ← runState m with
    | none => pure ()
    | some state =>
      if state.terminal then
        pure ()
      else if expired rc now then
        failRun "expired"
      else
        match ← currentStage m with
        | none => pure ()
        | some (st, ss) => failStale st ss now staleAfter

def code (m : Machine) : Task → M Unit
  | .run id st env now => run m id st env now
  | .dispatchDeferred id st env ops expires => dispatchDeferred id st env ops expires
  | .barrier id st env ops expires now => suspendBarrierScope id st env ops expires now
  | .promote id st env op input call now => promoteContinuable id st env op input call now
  | .finish id env => finish id env
  | .stop => pure ()
  | .sibling st ref call => do
    let _ ← recordTerminal .dispatch (.op st ref) call
  | .dispatch st ref opc fate => dispatch st ref opc fate
  | .detached st ref call now => detachedTail st ref call now
  | .dispatchRemote opc fate => dispatchRemote opc fate
  | .detachedDeferred opc call now => detachedDeferredTail opc call now
  | .worker opc => .goto (Task.posts opc)
  | .post opc call now => do
    Prog.spawn (.callback opc call now)
    .goto (Task.works opc)
  | .callback opc call now => handleContinuationComplete opc call now
  | .drive st now => driveResume st now
  | .resume st => resume m st
  | .sweep now staleAfter => do
    sweepRun m now staleAfter
    .goto Task.sweeps

/-- A request comes in at a stage, beside any number of sweepers. -/
def arrival (m : Machine) (st : Stage) (env : String) (now : Nat) (sweepers : List (Nat × Nat)) :
    Pool Doc Event Task :=
  ⟨Store.empty, start (code m) (.run ⟨false, false⟩ st env now) ::
    sweepers.map fun x => start (code m) (.sweep x.1 x.2)⟩

/-- The run state that is derived from the documents there are. -/
def derivedState (m : Machine) (s : Store Doc Event) : Option State :=
  ((runState m).answer s).join

end ThanksComputer.Continuation
