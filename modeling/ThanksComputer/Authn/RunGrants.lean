import ThanksComputer.Guard.Paths
import ThanksComputer.Lib.Table

/-! Run grants (rungrants.go): what one piece of work may ask for, until when and within what
budget. A call reads before it writes, so the reads of a mint or an end and its transaction are two
steps, and those of several calls interleave. -/

namespace ThanksComputer.Authn

open Lib (second)
open Lib.Table

structure Resource where
  kind : String
  name : String
  deriving DecidableEq

/-- A capability stands under its bare name. -/
def Resource.text (r : Resource) : String :=
  if r.kind = "capability" then r.name else r.kind ++ ":" ++ r.name

/-- A time as its stamp shows it, in whole seconds. -/
def stampOf (t : Int) : Int := t / second

def parseStamp (stamp : Int) : Int := stamp * second

/-- A `run_grants` row; `charged` counts the calls charged to the row itself. -/
structure RunGrant where
  id : String
  tenantID : String
  mintedBy : String
  run : String
  generation : Int
  allow : List Resource
  budgetCalls : Int
  spentCalls : Int
  parentGrant : Option String
  depth : Nat
  issuedAt : Int
  expiresAt : Int
  closedAt : Option Int
  closeReason : String
  revokedAt : Option Int
  charged : Int
  deriving DecidableEq

def RunGrant.isOpen (g : RunGrant) : Bool :=
  g.revokedAt.isNone && g.closedAt.isNone

def RunGrant.live (g : RunGrant) (now : Int) : Bool :=
  g.isOpen && decide (now < parseStamp g.expiresAt)

/-- The `WHERE` clause of a live grant. -/
def liveRun (stamp : Int) (g : RunGrant) : Bool :=
  g.isOpen && decide (stamp < g.expiresAt)

def RunGrant.allows (g : RunGrant) (res : Resource) : Bool :=
  g.allow.contains res

/-- A `run_heads` row: the newest generation of a run. -/
structure RunHead where
  tenantID : String
  mintedBy : String
  run : String
  generation : Int
  grantID : String
  deriving DecidableEq

inductive GrantError
  | noTenant
  | invalidRun
  | invalidGeneration
  | invalidBudget
  | invalidTTL
  | invalidAllow
  | refused (message : String)
  | notFound
  | owner (owner : String)
  | parentNotLive
  | exceedsParent
  | depth
  | staleGeneration
  | invalidCharge
  | runNotLive
  | runBudget
  deriving DecidableEq

def maxRunAllow : Nat := 64
def maxRunDepth : Nat := 4
def maxRunTTL : Int := 24 * 3600 * second
def maxRunBudget : Int := 1000000

/-- What a stack asks to mint; `names` are the resources it allows by name and those its sandboxes
refer to, and a `generation` of zero means the next one. -/
structure NewRunGrant where
  run : String
  generation : Int
  names : List Resource
  budgetCalls : Int
  ttl : Int
  parent : Option String

section Normalize

def runStart (c : Char) : Bool :=
  c.isAlphanum || c == '_'

def runChar (c : Char) : Bool :=
  c.isAlphanum || c ∈ ['_', '.', '@', '+', ':', '/', '-']

/-- `runNameRE`. -/
def validRun : List Char → Bool
  | [] => false
  | c :: cs => runStart c && cs.all runChar && decide (cs.length ≤ 127)

def parseAllow (names : List Resource) : Except GrantError (List Resource) :=
  let out := names.dedup
  if out.isEmpty || decide (maxRunAllow < out.length) then .error .invalidAllow
  else .ok (out.mergeSort fun a b => decide (a.text ≤ b.text))

def NewRunGrant.normalize (req : NewRunGrant) :
    Except GrantError (NewRunGrant × List Resource) := do
  let run := Guard.trimSpace req.run.toList
  if !validRun run then throw .invalidRun
  if req.generation < 0 then throw .invalidGeneration
  if req.budgetCalls < 1 ∨ maxRunBudget < req.budgetCalls then throw .invalidBudget
  if req.ttl < second ∨ maxRunTTL < req.ttl then throw .invalidTTL
  let allow ← parseAllow req.names
  return ({ req with run := String.ofList run }, allow)

end Normalize

structure Minting where
  tenantID : String
  mintedBy : String
  run : String
  generation : Int
  allow : List Resource
  budgetCalls : Int
  parentGrant : Option String
  depth : Nat
  now : Int
  expires : Int

def requireTenant (tenantID : String) : Except GrantError Unit :=
  if (Guard.trimSpace tenantID.toList).isEmpty then .error .noTenant else .ok ()

def readRunGrant (grants : List RunGrant) (tenantID grantID : String) : Option RunGrant :=
  grants.find? fun g => g.id == grantID && g.tenantID == tenantID

/-- `MintRunGrant` up to its transaction.  `owner` is the base stack of the minter, unless the
checks of its principal and of the standing grants refuse. -/
def mintRunGrant (grants : List RunGrant) (now : Int) (tenantID : String)
    (owner : Except GrantError String) (req : NewRunGrant) : Except GrantError Minting := do
  requireTenant tenantID
  let (req, allow) ← req.normalize
  let base ← owner
  let expires := now + req.ttl
  match req.parent with
  | none =>
    return ⟨tenantID, base, req.run, req.generation, allow, req.budgetCalls, none, 0, now, expires⟩
  | some pid =>
    match readRunGrant grants tenantID pid with
    | none => throw .parentNotLive
    | some parent =>
      if parent.mintedBy ≠ base then throw (.owner parent.mintedBy)
      if !parent.live now then throw .parentNotLive
      if maxRunDepth < parent.depth + 1 then throw .depth
      if parent.run = req.run then throw .invalidRun
      if !allow.all parent.allows then throw .exceedsParent
      let expires := if parseStamp parent.expiresAt < expires then parseStamp parent.expiresAt
        else expires
      return ⟨tenantID, base, req.run, req.generation, allow, req.budgetCalls, some parent.id,
        parent.depth + 1, now, expires⟩

/-- The head row of the run, at its new generation; `none` where it is there or past it already. -/
def takeHead (heads : List RunHead) (m : Minting) (id : String) : Option (Int × List RunHead) :=
  let same (h : RunHead) : Bool :=
    h.tenantID == m.tenantID && h.mintedBy == m.mintedBy && h.run == m.run
  match heads.find? same with
  | none =>
    let generation := if m.generation = 0 then 1 else m.generation
    some (generation, heads ++ [⟨m.tenantID, m.mintedBy, m.run, generation, id⟩])
  | some h =>
    let generation := if m.generation = 0 then h.generation + 1 else m.generation
    if h.generation < generation then
      some (generation,
        update same (fun h => { h with generation := generation, grantID := id }) heads)
    else none

/-- The budget of the new grant is taken from its parent, if that is live and has it left. -/
def takeBudget (grants : List RunGrant) (m : Minting) : Except GrantError (List RunGrant) :=
  match m.parentGrant with
  | none => .ok grants
  | some pid =>
    let pays (g : RunGrant) : Bool :=
      g.id == pid && g.tenantID == m.tenantID && liveRun (stampOf m.now) g &&
        decide (g.spentCalls + m.budgetCalls ≤ g.budgetCalls)
    if grants.any pays then
      .ok (update pays (fun g => { g with spentCalls := g.spentCalls + m.budgetCalls }) grants)
    else
      match readRunGrant grants m.tenantID pid with
      | some parent => .error (if parent.live m.now then .exceedsParent else .parentNotLive)
      | none => .error .parentNotLive

/-- Every open grant narrowed from the level, and from those, as many levels down as are left. -/
def endDescendants (tenantID : String) (set : RunGrant → RunGrant) :
    Nat → List String → List RunGrant → List RunGrant
  | 0, _, grants => grants
  | n + 1, level, grants =>
    if level.isEmpty then grants
    else
      let child (g : RunGrant) : Bool := g.tenantID == tenantID && g.parentGrant.any level.contains
      endDescendants tenantID set n ((grants.filter child).map RunGrant.id)
        (update (fun g => child g && g.isOpen) set grants)

def closeAs (stamp : Int) (reason : String) (g : RunGrant) : RunGrant :=
  { g with closedAt := some stamp, closeReason := reason }

def revokeAt (stamp : Int) (g : RunGrant) : RunGrant :=
  { g with revokedAt := some stamp }

def supersede (grants : List RunGrant) (m : Minting) : List RunGrant :=
  let older (g : RunGrant) : Bool :=
    g.tenantID == m.tenantID && g.mintedBy == m.mintedBy && g.run == m.run && g.isOpen
  let close := closeAs (stampOf m.now) "superseded"
  endDescendants m.tenantID close maxRunDepth ((grants.filter older).map RunGrant.id)
    (update older close grants)

def Minting.grant (m : Minting) (id : String) (generation : Int) : RunGrant where
  id := id
  tenantID := m.tenantID
  mintedBy := m.mintedBy
  run := m.run
  generation := generation
  allow := m.allow
  budgetCalls := m.budgetCalls
  spentCalls := 0
  parentGrant := m.parentGrant
  depth := m.depth
  issuedAt := stampOf m.now
  expiresAt := stampOf m.expires
  closedAt := none
  closeReason := ""
  revokedAt := none
  charged := 0

def insertRunGrant (grants : List RunGrant) (heads : List RunHead) (m : Minting) (id : String) :
    Except GrantError (List RunGrant × List RunHead) := do
  match takeHead heads m id with
  | none => throw .staleGeneration
  | some (generation, heads) =>
    let paid ← takeBudget grants m
    let closed := supersede paid m
    let taken (g : RunGrant) : Bool :=
      g.id == id || g.tenantID == m.tenantID && g.mintedBy == m.mintedBy && g.run == m.run &&
        g.generation == generation
    if closed.any taken then throw .staleGeneration
    return (closed ++ [m.grant id generation], heads)

/-- A close, with its reason, or a revoke, between its read and its transaction. -/
structure Ending where
  tenantID : String
  grantID : String
  closing : Option String

/-- `endRunGrant` up to its transaction: `none` where the grant had ended before. -/
def endRunGrant (grants : List RunGrant) (tenantID base grantID : String)
    (closing : Option String) :
    Except GrantError (Option Ending) := do
  requireTenant tenantID
  match readRunGrant grants tenantID grantID with
  | none => throw .notFound
  | some g =>
    if g.mintedBy ≠ base then throw (.owner g.mintedBy)
    if g.revokedAt.isSome || closing.isSome && g.closedAt.isSome then return none
    return some ⟨tenantID, grantID, closing⟩

def Ending.set (e : Ending) (stamp : Int) : RunGrant → RunGrant :=
  match e.closing with
  | some reason => closeAs stamp reason
  | none => revokeAt stamp

/-- The transaction of a close or a revoke. -/
def Ending.commit (e : Ending) (stamp : Int) (grants : List RunGrant) : List RunGrant :=
  let ends (g : RunGrant) : Bool :=
    g.id == e.grantID && g.tenantID == e.tenantID && g.revokedAt.isNone &&
      (e.closing.isNone || g.closedAt.isNone)
  endDescendants e.tenantID (e.set stamp) maxRunDepth [e.grantID] (update ends (e.set stamp) grants)

/-- `ChargeRunGrant`, one statement. -/
def chargeRunGrant (grants : List RunGrant) (now : Int) (tenantID grantID : String) (n : Int)
    (enforceBudget : Bool) : Except GrantError (List RunGrant) := do
  requireTenant tenantID
  if n < 1 then throw .invalidCharge
  let pays (g : RunGrant) : Bool :=
    g.id == grantID && g.tenantID == tenantID && liveRun (stampOf now) g &&
      (!enforceBudget || decide (g.spentCalls + n ≤ g.budgetCalls))
  if grants.any pays then
    return update pays
      (fun g => { g with spentCalls := g.spentCalls + n, charged := g.charged + n }) grants
  match readRunGrant grants tenantID grantID with
  | none => throw .notFound
  | some g => throw (if g.live (parseStamp (stampOf now)) then .runBudget else .runNotLive)

/-- The two tables, the clock, and the calls that have read but not yet written. -/
structure GrantStore where
  clock : Int
  grants : List RunGrant
  heads : List RunHead
  minting : List Minting
  ending : List Ending

/-- One step of one call; the `i`th of the calls under way commits. -/
inductive GrantEvent
  | tick (d : Nat)
  | mint (tenantID : String) (owner : Except GrantError String) (req : NewRunGrant)
  | insert (i : Nat) (id : String)
  | endGrant (tenantID base grantID : String) (closing : Option String)
  | endCommit (i : Nat)
  | charge (tenantID grantID : String) (n : Int) (enforceBudget : Bool)

/-- A call that is refused leaves the tables as they are. -/
def GrantStore.step (st : GrantStore) : GrantEvent → GrantStore
  | .tick d => { st with clock := st.clock + d }
  | .mint tenantID owner req =>
    match mintRunGrant st.grants st.clock tenantID owner req with
    | .ok m => { st with minting := st.minting ++ [m] }
    | .error _ => st
  | .insert i id =>
    match st.minting[i]? with
    | none => st
    | some m =>
      let st := { st with minting := st.minting.eraseIdx i }
      match insertRunGrant st.grants st.heads m id with
      | .ok (grants, heads) => { st with grants := grants, heads := heads }
      | .error _ => st
  | .endGrant tenantID base grantID closing =>
    match endRunGrant st.grants tenantID base grantID closing with
    | .ok (some e) => { st with ending := st.ending ++ [e] }
    | _ => st
  | .endCommit i =>
    match st.ending[i]? with
    | none => st
    | some e =>
      { st with
        grants := e.commit (stampOf st.clock) st.grants
        ending := st.ending.eraseIdx i }
  | .charge tenantID grantID n enforceBudget =>
    match chargeRunGrant st.grants st.clock tenantID grantID n enforceBudget with
    | .ok grants => { st with grants := grants }
    | .error _ => st

def GrantStore.empty (clock : Int) : GrantStore :=
  ⟨clock, [], [], [], []⟩

def GrantStore.next (st : GrantStore) (ev : GrantEvent) : Option GrantStore :=
  some (st.step ev)

end ThanksComputer.Authn
