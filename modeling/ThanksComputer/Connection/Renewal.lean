import ThanksComputer.Connection.Store
import ThanksComputer.Lib.Runs

/-! Uses of a connection and its renewal (`connection/renew.go`), statement by statement, between
reconnects and revocations. -/

namespace ThanksComputer.Connection

open Lib (second)
open Net Lib.Runs

section Provider

/-- What becomes of a renewal whose outcome is unknown. -/
inductive OnUncertain
  | reconnect
  | retry
  deriving DecidableEq

inductive Rotation
  | singleUse
  | reusable
  deriving DecidableEq

/-- A provider's rules; `margin` is how long before its expiry a token of some lifetime is
renewed. -/
structure Provider where
  onUncertain : OnUncertain
  rotation : Rotation
  margin : Int → Int

/-- `outcome`: what became of a request, as `tokenRequest` and `classify` sort it. -/
inductive Outcome
  | ok
  | refused
  | notSent
  | uncertain
  deriving DecidableEq

structure TokenAnswer where
  access : Str
  refresh : Str
  tokenType : Str
  expiresIn : Int
  refreshExpiresIn : Int
  deriving DecidableEq

inductive Code
  | missing
  | noClient
  | store
  | unavailable
  | reconnect
  | busy
  deriving DecidableEq

/-- How a use is answered; a token comes with the expiry that is stored for it. -/
inductive Answer
  | token (access : Str) (expiresAt : Option Int)
  | error (code : Code)
  deriving DecidableEq

def Row.expired (r : Row) (now : Int) : Bool :=
  r.expiresAt.any fun t => decide (t ≤ now)

def Row.due (P : Provider) (r : Row) (now : Int) : Bool :=
  r.expiresAt.any fun t => decide (t - P.margin r.lifetimeS ≤ now)

def Row.stale (r : Row) (now : Int) : Bool :=
  r.claimID.isSome && r.claimUntil.any fun t => decide (t < now)

def Row.mayRenew (P : Provider) (r : Row) : Bool :=
  !r.material.refresh.isEmpty && (decide (r.status = .active) ||
    decide (r.status = .uncertain) && decide (P.onUncertain = .retry))

def Row.token (r : Row) : Answer :=
  .token r.material.access r.expiresAt

end Provider

section Processes

/-- A renewal: the reading its use began with, the row it renews and its claim. -/
structure Renewal where
  start : Int
  row : Row
  claim : Nat
  background : Bool
  deriving DecidableEq

/-- Where a process stands.  The readings are the use's own and that of `renewNow`. -/
inductive Phase
  | load
  | begin (row : Row)
  | stale (start : Int) (row : Row)
  | reload (start : Int) (row : Row)
  | current (start : Int) (row : Row)
  | claim (start : Int) (row : Row)
  | lost (start : Int) (row : Row)
  | wait (start : Int) (row : Row)
  | poll (start : Int) (row : Row) (deadline : Int)
  | take (start : Int) (row : Row) (background : Bool)
  | renew (n : Renewal)
  | noClient (n : Renewal)
  | send (n : Renewal) (now : Int)
  | sent (n : Renewal) (now : Int)
  | write (n : Renewal) (now : Int) (a : TokenAnswer)
  | written (n : Renewal) (access : Str) (expiresAt : Option Int)
  | fenced (n : Renewal)
  | verdict (n : Renewal) (now : Int) (refused : Bool)
  | unsent (n : Renewal) (now : Int)
  | putGet (new : NewRow) (again : Bool)
  | put (new : NewRow) (again : Bool) (existing : Option Row)
  | revoke
  | delete (id : Nat)
  deriving DecidableEq

/-- What a step meets: a statement that runs, one that fails (having reached the table or not), or
the provider's answer. -/
inductive Input
  | runs
  | fails (applied : Bool)
  | answers (out : Outcome) (a : TokenAnswer)
  deriving DecidableEq

/-- How a sending is classified. -/
def Input.outcome : Input → Outcome
  | .answers out _ => out
  | .runs | .fails _ => .uncertain

/-- What a step leaves: the row, where the process goes on, how it ends, and a process it starts. -/
structure Step where
  row : Option Row
  goes : Option Phase
  answer : Option Answer
  spawns : Option Phase
  deriving DecidableEq

variable (P : Provider) (row : Option Row) (fresh : Nat) (now : Int) (input : Input)

def goto (phase : Phase) : Step := ⟨row, some phase, none, none⟩

def finish (answer : Answer) : Step := ⟨row, none, some answer, none⟩

/-- A statement: what it leaves, and what follows if it ran and if it failed. -/
def statement (res : Option Row × Bool) (next : Option Row → Bool → Step)
    (failed : Option Row → Step) :
    Step :=
  match input with
  | .runs | .answers _ _ => next res.1 res.2
  | .fails applied => failed (if applied then res.1 else row)

/-- `reload`: the row as it is now, or as it was where it cannot be read. -/
def reloaded (r : Row) : Row :=
  match input with
  | .runs | .answers _ _ => (reload row r.id).getD r
  | .fails _ => r

/-- The decision of `current` on its row; `Open` may fail. -/
def current (start : Int) (r : Row) : Step :=
  if r.status = .reconnect then finish row (.error .reconnect)
  else
    match input with
    | .fails _ => finish row (.error .unavailable)
    | .runs | .answers _ _ =>
      if r.due P start && r.mayRenew P then
        if r.claimID.isNone then goto row (.claim start r)
        else if !r.expired start then finish row r.token
        else goto row (.wait start r)
      else if r.expired start then
        if r.status = .uncertain ∨ r.material.refresh = [] then finish row (.error .reconnect)
        else goto row (.wait start r)
      else finish row r.token

/-- What follows a claim that ran: a renewal now, or one in the background. -/
def claimed (start : Int) (r : Row) (won : Bool) : Step :=
  if won then
    if r.expired start then goto row (.renew ⟨start, r, fresh, false⟩)
    else ⟨row, none, some r.token, some (.renew ⟨start, r, fresh, true⟩)⟩
  else goto row (.lost start r)

def renewed (n : Renewal) (a : TokenAnswer) : Material :=
  ⟨a.access, if a.refresh.isEmpty && decide (P.rotation = .reusable) then
    n.row.material.refresh else a.refresh,
    if a.tokenType.isEmpty then n.row.material.tokenType else a.tokenType⟩

def refreshExpiry (n : Renewal) (at_ : Int) (a : TokenAnswer) : Option Int :=
  match (expiry at_ a.refreshExpiresIn).1 with
  | some t => some t
  | none => if (renewed P n a).refresh = n.row.material.refresh then n.row.refreshExpiresAt
    else none

/-- What `waitRenewed` makes of the row it finds. -/
def polled (start : Int) (r : Row) (deadline : Int) (latest : Row) : Step :=
  if r.generation < latest.generation then goto row (.take start latest false)
  else if latest.claimID.isNone then
    finish row (.error (if latest.status = .reconnect then .reconnect else .busy))
  else if deadline ≤ now then finish row (.error .busy)
  else goto row (.poll start r deadline)

def advance : Phase → Step
  | .load =>
    match input, row with
    | .fails _, _ => finish row (.error .store)
    | _, none => finish row (.error .missing)
    | _, some r => goto row (.begin r)
  | .begin r => if r.stale now then goto row (.stale now r) else goto row (.current now r)
  | .stale start r =>
    statement row input (releaseStale row r now) (fun row _ => goto row (.reload start r))
      fun row => goto row (.reload start r)
  | .reload start r => goto row (.current start (reloaded row input r))
  | .current start r => current P row input start r
  | .claim start r =>
    statement row input (claim row r.id r.generation fresh (start + 60 * second) r.status)
      (fun row won => claimed row fresh start r won) fun row => finish row (.error .store)
  | .lost start r =>
    if !r.expired start then finish row r.token else goto row (.wait start (reloaded row input r))
  | .wait start r => goto row (.poll start r (now + 5 * second))
  | .poll start r deadline => polled row now start r deadline (reloaded row input r)
  | .take _ r _ =>
    match input with
    | .fails _ => finish row (.error .unavailable)
    | .runs | .answers _ _ => finish row r.token
  | .renew n =>
    match input with
    | .fails _ => goto row (.noClient n)
    | .runs | .answers _ _ => goto row (.send n now)
  | .noClient n =>
    statement row input (release row n.row n.claim) (fun row _ => finish row (.error .noClient))
      fun row => finish row (.error .noClient)
  | .send n at_ => goto row (.sent n at_)
  | .sent n at_ =>
    match input with
    | .answers .ok a => goto row (.write n at_ a)
    | .answers .refused _ => goto row (.verdict n at_ true)
    | .answers .notSent _ => goto row (.unsent n at_)
    | .answers .uncertain _ | .runs | .fails _ => goto row (.verdict n at_ false)
  | .write n at_ a =>
    let exp := expiry at_ a.expiresIn
    statement row input
      (renew row n.row n.claim (renewed P n a) exp.1 (refreshExpiry P n at_ a) exp.2)
      (fun row written =>
        if written then goto row (.written n a.access (exp.1.map stamp)) else goto row (.fenced n))
      fun row => finish row (.error .store)
  | .written n access expiresAt =>
    match input, reload row n.row.id with
    | .fails _, _ | _, none => finish row (.error .store)
    | _, some _ => finish row (.token access expiresAt)
  | .fenced n => goto row (.take n.start (reloaded row input n.row) n.background)
  | .verdict n at_ refused =>
    let answer : Answer :=
      if refused then .error .reconnect
      else if !n.row.expired at_ then n.row.token
      else if P.onUncertain = .retry then .error .busy
      else .error .reconnect
    statement row input (setStatus row n.row n.claim (if refused then .reconnect else .uncertain))
      (fun row _ => finish row answer)
      fun row => finish row answer
  | .unsent n at_ =>
    let answer : Answer := if !n.row.expired at_ then n.row.token else .error .unavailable
    statement row input (release row n.row n.claim) (fun row _ => finish row answer)
      fun row => finish row answer
  | .putGet new again =>
    match input with
    | .fails _ => finish row (.error .store)
    | .runs | .answers _ _ => goto row (.put new again row)
  | .put new again existing =>
    statement row input
      (match existing with
        | some r => putUpdate row r new
        | none => putInsert row fresh new)
      (fun row done =>
        if done || again then ⟨row, none, none, none⟩ else goto row (.putGet new true))
      fun row => finish row (.error .store)
  | .revoke =>
    match input, row with
    | .fails _, _ | _, none => ⟨row, none, none, none⟩
    | _, some r => goto row (.delete r.id)
  | .delete id =>
    statement row input (delete row id, true) (fun row _ => ⟨row, none, none, none⟩)
      fun row => ⟨row, none, none, none⟩

end Processes

section Runs

structure Proc where
  id : Nat
  phase : Phase
  deriving DecidableEq

/-- A refresh token that went to the token destination: of which row and generation, under which
claim, and how the sending was classified. -/
structure Sending where
  row : Nat
  generation : Nat
  claim : Nat
  outcome : Option Outcome
  deriving DecidableEq

/-- The connection's row, the processes of all nodes, what was sent, and how many ids were
minted. -/
structure World where
  row : Option Row
  procs : List Proc
  sendings : List Sending
  minted : Nat
  clock : Int
  deriving DecidableEq

def World.start (clock : Int) : World := ⟨none, [], [], 0, clock⟩

/-- A process that stops is never heard of again; one that stalls takes no step. -/
inductive Event
  | use
  | reconnect (new : NewRow)
  | revoke
  | removePrincipal
  | step (proc : Nat) (input : Input)
  | stop (proc : Nat)
  deriving DecidableEq

variable (P : Provider) (w : World)

/-- The token goes out; its sending is classified when the answer is there. -/
def World.log (phase : Phase) (input : Input) : List Sending :=
  match phase with
  | .send n _ => w.sendings ++ [⟨n.row.id, n.row.generation, n.claim, none⟩]
  | .sent n _ =>
    w.sendings.map fun s => if s.claim = n.claim then { s with outcome := some input.outcome }
      else s
  | _ => w.sendings

def World.step (p : Proc) (now : Int) (input : Input) : World :=
  let res := advance P w.row w.minted now input p.phase
  let others := w.procs.filter (·.id != p.id)
  { row := res.row
    procs := others ++ res.goes.toList.map (⟨p.id, ·⟩) ++ res.spawns.toList.map (⟨w.minted, ·⟩)
    sendings := w.log p.phase input
    minted := w.minted + 1
    clock := now }

def World.spawn (now : Int) (phase : Phase) : World :=
  { w with procs := w.procs ++ [⟨w.minted, phase⟩], minted := w.minted + 1, clock := now }

def World.next (event : Int × Event) : Option World :=
  if w.clock ≤ event.1 then
    match event.2 with
    | .use => some (w.spawn event.1 .load)
    | .reconnect new => some (w.spawn event.1 (.putGet new false))
    | .revoke => some (w.spawn event.1 .revoke)
    | .removePrincipal => some { w with row := none, clock := event.1 }
    | .step id input => (w.procs.find? (·.id == id)).map fun p => w.step P p event.1 input
    | .stop id => some { w with procs := w.procs.filter (·.id != id), clock := event.1 }
  else none

variable {P w} {p q : Proc} {now : Int} {input : Input}

theorem World.mem_step :
    q ∈ (w.step P p now input).procs ↔
    q ∈ w.procs.filter (·.id != p.id) ∨
      ((advance P w.row w.minted now input p.phase).goes = some q.phase ∧ q.id = p.id) ∨
      ((advance P w.row w.minted now input p.phase).spawns = some q.phase ∧ q.id = w.minted) := by
  simp only [World.step, List.mem_append, List.mem_map, Option.mem_toList, or_assoc]
  refine or_congr_right (or_congr ⟨?_, ?_⟩ ⟨?_, ?_⟩)
  · rintro ⟨phase, hphase, rfl⟩
    exact ⟨hphase, rfl⟩
  · rintro ⟨hphase, hid⟩
    exact ⟨q.phase, hphase, hid ▸ rfl⟩
  · rintro ⟨phase, hphase, rfl⟩
    exact ⟨hphase, rfl⟩
  · rintro ⟨hphase, hid⟩
    exact ⟨q.phase, hphase, hid ▸ rfl⟩

end Runs

end ThanksComputer.Connection
