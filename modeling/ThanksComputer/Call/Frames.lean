import ThanksComputer.Call.Payload
import ThanksComputer.Scope.HopBound
import ThanksComputer.Scope.TenantPin

/-! The frames of a request: its own run and the calls made from it, each on an envelope, a hop
countdown and a history of its own, under one meter.  The runs of the frames interleave. -/

universe u

namespace ThanksComputer.Call

open Lib (wrapInt)
open Ops Scope Guard Lib.Assoc

variable {F D : Type u}

section Stage

/-- The error of `StageParse`. -/
def stageError (stage : StageText) : String :=
  match stageParts stage with
  | none => "invalid stage, doesn't match: " ++ String.ofList stage
  | some (_, ds) => "strconv.Atoi: parsing \"" ++ String.ofList ds ++ "\": value out of range"

def resolveGoto (stage raw : StageText) : StageText :=
  if raw.isEmpty then []
  else if (stageParts raw).isSome then raw
  else
    match stageParse stage with
    | some (stack, _) => stack ++ '/' :: raw
    | none => []

def opStage (r : Row) : StageText :=
  stageAt (stackText r.stack) r.scope

end Stage

section Target

def segChar (c : Char) : Bool :=
  c.isAlphanum || c == '_' || c == '-'

def maxStackNameLen : Nat := 128

def validSegment (seg : List Char) : Bool :=
  !seg.isEmpty && seg.all segChar

/-- `opname.ValidStack`. -/
def validStack (name : StageText) : Bool :=
  !name.isEmpty && decide (name.length ≤ maxStackNameLen) && (name.splitOn '/').all validSegment

/-- The error of `opname.ValidStack`; `quote` is `strconv.Quote`. -/
def validStackError (quote : StageText → String) (name : StageText) : String :=
  if name.isEmpty then "invalid name: stack name is empty"
  else if maxStackNameLen < name.length then
    "invalid name: stack name " ++ quote name ++ " exceeds " ++ toString maxStackNameLen ++ " chars"
  else
    "invalid name: stack name " ++ quote name ++ " has an invalid segment " ++
      quote (((name.splitOn '/').find? fun seg => !validSegment seg).getD []) ++
      " (each segment must match [A-Za-z0-9_-]+)"

def callScheme : List Char := "call://".toList

def gotoScope (text : List Char) : Bool :=
  !text.isEmpty && decide (text.length ≤ 9) && text.all Char.isDigit

/-- `opname.CallTarget`: the stack to call and the scope to enter it at. -/
def callTarget (exec : List Char) : Option (StageText × Nat) :=
  if !callScheme.isPrefixOf exec then none
  else
    let target := exec.drop callScheme.length
    let last := (target.reverse.takeWhile (· != '/')).reverse
    let before := target.take (target.length - last.length - 1)
    let p := if !before.isEmpty && gotoScope last then (before, Nat.ofDigitChars 10 last 0)
      else (target, 0)
    if validStack p.1 then some p else none

end Target

inductive Verdict
  | noStack
  | boundary
  | unsupported
  | timeout
  | cancelled
  | depth
  | failed
  | budget
  deriving DecidableEq

def Verdict.text : Verdict → String
  | .noStack => "no_stack"
  | .boundary => "boundary"
  | .unsupported => "unsupported"
  | .timeout => "timeout"
  | .cancelled => "cancelled"
  | .depth => "depth"
  | .failed => "failed"
  | .budget => "budget"

/-- Where the `Run` of a frame stands: before a stage it is to enter, or in a scope with the ops
that resonated and the look-ahead made at its entry. -/
inductive Position
  | entering (parent stage : StageText)
  | running (stage : StageText) (ops next : List Row)
  | ended

def Position.isEntering : Position → Bool
  | .entering _ _ => true
  | _ => false

/-- What a run sent: nothing a caller reads, an envelope, or an error. -/
inductive Answer (F : Type u)
  | silent
  | envelope (e : Envelope F)
  | error (message : String)

/-- `home` is the tenant the frame was opened under, `found` the caller's countdown and history at
that time; `spent` and `stages` record what the frame charged and which stages it ran. -/
structure Frame (F : Type u) where
  stack : StageText
  entry : StageText
  depth : Nat
  caller : Nat
  home : String
  tenant : String
  own : CallFrame
  env : Text F
  position : Position
  fail : Option (Verdict × String)
  answer : Answer F
  into : PathText
  promised : List String
  version : Int
  returned : Bool
  found : Int × List Transition
  spent : Int
  stages : List (String × StageText)

def Frame.isCall (fr : Frame F) : Bool :=
  decide (0 < fr.depth)

def Frame.confines (fr : Frame F) (stage : StageText) : Bool :=
  !fr.isCall || (stageParts stage).any fun p => p.1 == fr.stack

def Frame.failWith (fr : Frame F) (v : Verdict) (message : String) : Frame F :=
  if fr.isCall && fr.fail.isNone then { fr with fail := some (v, message) } else fr

/-- What stays fixed during a request: the libraries, the settings, the pinned snapshot of the rules
and the tenants there are. -/
structure Site (F D : Type u) where
  L : JsonLib F
  G : Gjson D
  codec : Codec F
  bool : Json F → Bool
  marshal : Json F → String
  quote : StageText → String
  budgetText : BudgetError → String
  conf : BudgetConf
  callDepthMax : Int
  table : String → List Row
  tenants : List String
  num_finite : ∀ n, L.fin (codec.num n) = true

def callDepthDefault : Nat := 8

def callDepthLimit (W : Site F D) : Nat :=
  if 0 < W.callDepthMax ∧ W.callDepthMax < callDepthDefault then W.callDepthMax.toNat
  else callDepthDefault

structure State (F : Type u) where
  budget : Budget
  opening : Int
  frames : List (Frame F)

def envelopeOf (t : Text F) : Envelope F :=
  (parse t).map fun o => .obj o.entries

def State.budgetFor (st : State F) (fr : Frame F) : Budget :=
  { st.budget with call := if fr.isCall then some fr.own else none }

def State.counters (st : State F) (i : Nat) : Int × List Transition :=
  match st.frames[i]? with
  | some fr => ((st.budgetFor fr).countdown, (st.budgetFor fr).history)
  | none => (st.budget.ttl, st.budget.seen)

def State.setFrame (st : State F) (i : Nat) (fr : Frame F) : State F :=
  { st with frames := st.frames.set i fr }

/-- A charge of `cost`, made by the frame on the shared meter and its own counters. -/
def State.charge {α : Type} (st : State F) (i : Nat) (fr : Frame F) (c : Charge α) (cost : Int) :
    Except BudgetError α × Frame F × State F :=
  let r := c (st.budgetFor fr)
  let fr := { fr with own := r.2.call.getD fr.own, spent := fr.spent + cost }
  (r.1, fr, ({ st with budget := { r.2 with call := none } } : State F).setFrame i fr)

def State.waits (st : State F) (i : Nat) : Bool :=
  st.frames.any fun fr => fr.isCall && fr.caller == i && !fr.returned

/-- What entering a stage costs: nothing past the last hop, and no repeat once the ceiling is
passed. -/
def enterCost (parent stage : StageText) (s : Budget) : Int :=
  if 0 < wrapInt (wrapInt (s.countdown - 1) + 1) ∧ wrapInt (s.countdown - 1) ≤ 0 then 0
  else
    let s := (s.setCountdown (wrapInt (s.countdown - 1))).burn fuelCostScopeEnter
    match overBudget s s.fuel stage with
    | .error _ => fuelCostScopeEnter
    | .ok _ =>
      if !parent.isEmpty && s.history.contains (transition parent stage) then
        fuelCostScopeEnter + fuelCostRepeatTransition
      else fuelCostScopeEnter

/-- The op of a `call://` rule as it is dispatched: the target, `WITH into` and `WITH stack`, the
declared entry with its scope and required outputs, and the refusal of a grant or entry check. -/
structure CallOp where
  exec : List Char
  into : PathText
  stack : Option StageText
  entry : Option (Nat × List String)
  refused : Option (String × String)

/-- Why the context of a call ended: the deadline or a cancellation, and what `waitOps` found. -/
structure Cut where
  deadline : Bool
  stopped : Bool
  running : List String

/-- One event of one frame.  `resonates` fails when a rule does not evaluate; `suspends` gives the
mode of an op that would suspend; `resp` is the merged envelope of the scope after its decorations
and deletes, `left` the one that goes on; `fresh` is the document a callee starts from. -/
inductive Event (F : Type u)
  | enter (i : Nat) (resonates : Except String (Row → Bool)) (suspends : Row → Option String)
  | charge (i : Nat) (cost : Int)
  | merge (i : Nat) (env : Text F)
  | call (i : Nat) (op : CallOp) (fresh : Text F) (version ms : Int)
  | advance (i : Nat) (resp left : Text F) (breaks denied : Bool)
  | abort (i : Nat) (message : String)
  | callReturn (i : Nat) (cut : Option Cut) (ms : Int)

def Event.frame : Event F → Nat
  | .enter i _ _ | .charge i _ | .merge i _ | .call i _ _ _ _ | .advance i _ _ _ _ | .abort i _
  | .callReturn i _ _ => i

section Steps

variable (W : Site F D)

/-- The head of `Run`: the charges, the lookup and what resonates. -/
def stepEnter (st : State F) (i : Nat) (fr : Frame F) (parent stage : StageText)
    (resonates : Except String (Row → Bool)) (suspends : Row → Option String) : State F :=
  match st.charge i fr (enterFrame parent stage) (enterCost parent stage (st.budgetFor fr)) with
  | (.error _, fr, st) => st.setFrame i { fr with position := .ended }
  | (.ok _, fr, st) =>
    match lookupStage (W.table fr.tenant) (!fr.isCall) stage with
    | none => st.setFrame i { fr with position := .ended, answer := .error (stageError stage) }
    | some rows =>
      match resonates with
      | .error message => st.setFrame i { fr with position := .ended, answer := .error message }
      | .ok keep =>
        let ops := rows.filter keep
        match ops.findSome? fun r => (suspends r).map (r, ·) with
        | some (r, mode) =>
          let fr := fr.failWith .unsupported (String.ofList (opStage r) ++ "/" ++ r.name ++
            ": WITH mode = \"" ++ mode ++ "\" cannot run inside a call")
          st.setFrame i { fr with position := .ended }
        | none =>
          let next := (lookupStage (W.table fr.tenant) (!fr.isCall) (nextStageFor stage)).getD []
          let ran := (ops.getLast?.map opStage).getD stage
          st.setFrame i
            { fr with
              position := .running ran ops next
              stages := fr.stages ++ (stage :: ops.map opStage).map (fr.tenant, ·) }

/-- The look-ahead of `advanceAfterScope`, from the scope that ran. -/
def nextOps (fr : Frame F) (stage : StageText) (ops next : List Row) : List Row :=
  if ops.isEmpty then next
  else
    match stageParse stage with
    | some (stack, _) =>
      (lookupStage (W.table fr.tenant) (!fr.isCall)
        (stageAt stack (wrapInt (ranScope ops + 1)))).getD next
    | none => next

def flagAt (e : Envelope F) (path : List String) : Bool :=
  match e.read path with
  | some v => W.bool v
  | none => false

/-- `advanceAfterScope`: a halt or a breakpoint answers, a jump or the next scope is entered, and
the end of the stack answers.  A call is ended by a jump past its stack and by a body it would
stream. -/
def stepAdvance (st : State F) (i : Nat) (fr : Frame F) (stage : StageText) (ops next : List Row)
    (resp left : Text F) (breaks denied : Bool) : State F :=
  let e := envelopeOf resp
  let next := nextOps W fr stage ops next
  let halt := flagAt W e ["_txc", "halt"] || breaks
  let goto := resolveGoto stage (W.codec.strAt e ["_txc", "goto"]).toList
  let fr := { fr with env := left }
  let ended : Frame F := { fr with position := .ended, answer := .envelope (envelopeOf left) }
  if fr.isCall && !goto.isEmpty && !halt && !fr.confines goto then
    let fr := fr.failWith .boundary (String.ofList stage ++ " jumped to " ++ String.ofList goto ++
      ", outside the called stack " ++ String.ofList fr.stack)
    st.setFrame i { fr with position := .ended }
  else if fr.isCall && !halt && (!goto.isEmpty || !next.isEmpty) &&
      W.codec.strAt e ["_txc", "web", "res", "body"] != "" then
    let fr := fr.failWith .unsupported (String.ofList stage ++
      " wrote @web.res.body before its last scope; a call cannot stream a body")
    st.setFrame i { fr with position := .ended }
  else if halt then st.setFrame i ended
  else
    let tenant :=
      (maybeRetenant W.codec W.tenants ⟨some fr.tenant, true⟩ (envelopeOf left)).tenantScope
    let onward (dest : StageText) : State F :=
      if tenant != fr.tenant && denied then st.setFrame i ended
      else st.setFrame i { fr with tenant := tenant, position := .entering stage dest }
    if !goto.isEmpty then onward goto
    else
      match next with
      | r :: _ =>
        match stageParse stage with
        | some (stack, _) => onward (stageAt stack r.scope)
        | none => onward (nextStageFor stage)
      | [] => st.setFrame i ended

/-- The answer of a call, merged into the caller's envelope while its scope still runs. -/
def deliver (st : State F) (i : Nat) (into : PathText) (r : CallResult F) : State F :=
  match st.frames[i]? with
  | some fr =>
    match fr.position with
    | .running _ _ _ =>
      let v := r.json W.codec.num
      st.setFrame i
        { fr with
          env := mergeAnswer W.L fr.env (callPayload W.L W.G (callInto W.G into) (W.marshal v) v) }
    | _ => st
  | none => st

def refusal (stack code message : String) (ms : Int) : CallResult F :=
  { ok := false, output := none, error := some ⟨code, message, none, []⟩, stack := stack,
    version := 0, ms := ms }

/-- The stack `WITH stack` names, or the target's; a name that is none is refused. -/
def calledStack (op : CallOp) (stack : StageText) : Except StageText StageText :=
  match op.stack with
  | none => .ok stack
  | some v => if validStack (trimSpace v) then .ok (trimSpace v) else .error (trimSpace v)

/-- The frame `runFrame` opens.  A call too deep or of a stack that is not there ends at once. -/
def openFrame (st : State F) (i : Nat) (fr : Frame F) (op : CallOp) (stack : StageText)
    (scope : Nat) (fresh : Text F) (version : Int) : Frame F :=
  let entry := stageAt stack (op.entry.map Prod.fst |>.getD scope : Nat)
  let there := !((lookupStage (W.table fr.tenant) false (stageAt stack 0)).getD []).isEmpty
  let fail : Option (Verdict × String) :=
    if callDepthLimit W < fr.depth + 1 then
      some (.depth, "calls nest " ++ toString (fr.depth + 1) ++ " deep; the limit is " ++
        toString (callDepthLimit W))
    else if there then none
    else some (.noStack, "no stack " ++ String.ofList stack ++ " in this tenant")
  { stack := stack
    entry := entry
    depth := fr.depth + 1
    caller := i
    home := fr.tenant
    tenant := fr.tenant
    own := ⟨W.conf.opScopeTTLMax, []⟩
    env := fresh
    position := if fail.isSome then .ended else .entering [] entry
    fail := fail
    answer := .silent
    into := op.into
    promised := (op.entry.map Prod.snd).getD []
    version := version
    returned := false
    found := st.counters i
    spent := 0
    stages := [] }

/-- `ExecCall` up to the run of the callee.  A malformed target drops the op. -/
def stepCall (st : State F) (i : Nat) (fr : Frame F) (op : CallOp) (fresh : Text F)
    (version ms : Int) : State F :=
  match callTarget op.exec with
  | none => st
  | some (stack, scope) =>
    match calledStack op stack with
    | .error stack => deliver W st i op.into (refusal (String.ofList stack) "txco_call_target"
        ("WITH stack is not a stack name: " ++ validStackError W.quote stack) ms)
    | .ok stack =>
      match op.refused with
      | some (code, message) =>
        deliver W st i op.into (refusal (String.ofList stack) code message ms)
      | none =>
        { st with frames := st.frames ++ [openFrame W st i fr op stack scope fresh version] }

def budgetExhaustedInCall (s : Budget) (ttl : Int) (stage : StageText) : Option (String × String) :=
  match overBudget s s.fuel stage with
  | .error (.allowance n f r u l) =>
    some ("txco_allowance_exhausted", W.budgetText (.allowance n f r u l))
  | .error e => some ("txco_fuel_exhausted", W.budgetText e)
  | .ok _ =>
    if 0 < s.maxTTL ∧ ttl ≤ 0 then
      some ("txcl_scope_ttl_exhausted",
        "the call's " ++ toString s.maxTTL ++ " stage hops were used up inside it")
    else none

def isNull : Json F → Bool
  | .null => true
  | _ => false

def channelAt (e : Envelope F) (k : String) : Option (Json F) :=
  (e.read ["_call", k]).filter fun v => !isNull v

def missing (promised : List String) (output : Json F) : List String :=
  (promised.filter fun k => !(output.getPath [k]).any fun v => !isNull v).mergeSort

/-- What the engine says of a frame that ended, in order of cause: a refusal the frame recorded, the
end of its context, the budget, a run that failed. -/
def verdictOf (st : State F) (fr : Frame F) (cut : Option Cut) :
    Option (Verdict × String × String) :=
  let what := String.ofList fr.stack
  match fr.fail with
  | some (v, message) => some (v, "txco_call_" ++ v.text, message)
  | none =>
    match cut with
    | some c =>
      if c.deadline then some (.timeout, "txco_call_timeout", what ++ " ran past its deadline")
      else some (.cancelled, "txco_call_cancelled", what ++ " was cancelled")
    | none =>
      match budgetExhaustedInCall W st.budget fr.own.ttl fr.entry with
      | some (code, message) => some (.budget, code, message)
      | none =>
        match fr.answer with
        | .error message => some (.failed, "txco_call_failed", message)
        | _ => none

/-- The result of a call that ran: the engine's verdict, the callee's own error, or its output. -/
def resultOf (st : State F) (fr : Frame F) (cut : Option Cut) (ms : Int) : CallResult F :=
  let e : Envelope F :=
    match verdictOf W st fr cut, fr.answer with
    | none, .envelope e => e
    | _, _ => none
  let output := channelAt e "output"
  let error : Option (String × String) :=
    match verdictOf W st fr cut, channelAt e "error" with
    | some (_, code, message), _ => some (code, message)
    | none, some own =>
      let code := W.codec.strAt (some own) ["code"]
      let message := match own with
        | .str s => s
        | own => W.codec.strAt (some own) ["message"]
      some (if code = "" then "txco_call_error" else code, message)
    | none, none =>
      let lacks := missing fr.promised (output.getD (.obj []))
      if lacks.isEmpty then none
      else some ("txco_call_invalid_output", String.ofList fr.stack ++
        " answered without the output its entry promises: " ++ ", ".intercalate lacks)
  { ok := error.isNone
    output := output
    error := error.map fun p => ⟨p.1, p.2, cut.map Cut.stopped, (cut.map Cut.running).getD []⟩
    stack := String.ofList fr.stack
    version := fr.version
    ms := ms }

def stepReturn (st : State F) (i : Nat) (fr : Frame F) (cut : Option Cut) (ms : Int) : State F :=
  deliver W (st.setFrame i { fr with returned := true }) fr.caller fr.into (resultOf W st fr cut ms)

/-- One event; `none` where the frame is not there or not where the event is possible.  A scope ends
when every call made from it has returned. -/
def State.step (st : State F) (ev : Event F) : Option (State F) :=
  match st.frames[ev.frame]? with
  | none => none
  | some fr =>
    match ev, fr.position with
    | .enter i resonates suspends, .entering parent stage =>
      some (stepEnter W st i fr parent stage resonates suspends)
    | .charge i cost, _ => some (st.charge i fr (addFuel cost fr.stack) cost).2.2
    | .merge i env, .running _ _ _ => some (st.setFrame i { fr with env := env })
    | .call i op fresh version ms, .running _ _ _ =>
      some (stepCall W st i fr op fresh version ms)
    | .advance i resp left breaks denied, .running stage ops next =>
      if st.waits i then none
      else some (stepAdvance W st i fr stage ops next resp left breaks denied)
    | .abort i message, _ =>
      some (st.setFrame i { fr with position := .ended, answer := .error message })
    | .callReturn i cut ms, .ended =>
      if fr.isCall && !fr.returned then some (stepReturn W st i fr cut ms) else none
    | _, _ => none

end Steps

end ThanksComputer.Call
