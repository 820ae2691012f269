import ThanksComputer.Scope.Budget

/-! The two ways `Run` goes on from a stage where nothing resonated: a frame for each scope that has
rules, and the loop that hops over the dead ones. -/

universe u

namespace ThanksComputer.Scope

open Lib (wrapInt)
open Ops

/-- What stays fixed while no op fires: the tenant's rules, the frame's policies, the readers of
gjson, the rule engine and the order in which the seen-set is ranged over at each sync. -/
structure Machine (F : Type u) where
  table : List Row
  peels : Bool
  mayStream : Bool
  sinkOpened : Bool
  system : Bool
  tenantExists : String → Bool
  num : Int → F
  bool : Json F → Bool
  str : Json F → String
  resonates : Envelope F → List Row → Except String (List Row)
  order : Nat → List Transition → List Transition
  order_perm : ∀ n seen, (order n seen).Perm seen

variable {F : Type u}

def Machine.flag (M : Machine F) (e : Envelope F) (path : List String) : Bool :=
  match e.read path with
  | some v => M.bool v
  | none => false

def Machine.text (M : Machine F) (e : Envelope F) (path : List String) : String :=
  match e.read path with
  | some v => M.str v
  | none => ""

/-- `maybeRetenant`: the tenant a request in the system tenant is handed to. -/
def Machine.maybeRetenant (M : Machine F) (e : Envelope F) : Option String :=
  let target := M.text e ["_txc", "tenant"]
  if M.system && target != "" && target != "_sys" && M.tenantExists target then some target
    else none

/-- No directive of `advanceAfterScope` is pending, nor a handoff to another tenant. -/
structure Quiet (M : Machine F) (e : Envelope F) : Prop where
  delete : e.read ["_txc", "delete"] = none
  halt : M.flag e ["_txc", "halt"] = false
  goto : M.text e ["_txc", "goto"] = ""
  breakpoint : M.flag e ["_txc", "flag_breakpoint"] = false
  body : M.text e ["_txc", "web", "res", "body"] = ""
  tenant : M.maybeRetenant e = none

/-- `syncs` counts the syncs so far and `slept` the nanoseconds of penalty. -/
structure World (M : Machine F) where
  budget : Budget
  envelope : Envelope F
  quiet : Quiet M envelope
  syncs : Nat
  slept : Int

inductive RunError
  | stage (stage : StageText)
  | resonator (message : String)

inductive Emit
  | json
  | streamEnd

inductive Outcome (M : Machine F)
  | landed (ops : List Row) (stage : StageText) (w : World M)
  | finished (kind : Emit) (w : World M)
  | exhausted (e : BudgetError) (w : World M)
  | failed (e : RunError) (w : World M)

/-- Where a frame or a hop leaves the run: at its end, or at one more dead stage. -/
inductive Walked (M : Machine F)
  | ended (o : Outcome M)
  | dead (stage : StageText) (w : World M)

theorem Quiet.sync {M : Machine F} {e : Envelope F} (h : Quiet M e) (s : Budget)
    (seen : List Transition) : Quiet M (syncBudgetToEnvelope M.num s seen e) := by
  have hread : ∀ k p, k ∉ budgetKeys →
      (syncBudgetToEnvelope M.num s seen e).read ("_txc" :: k :: p) = e.read ("_txc" :: k :: p) :=
    fun k p hk => read_syncBudgetToEnvelope M.num s seen e hk p
  have hflag : ∀ k p, k ∉ budgetKeys →
      M.flag (syncBudgetToEnvelope M.num s seen e) ("_txc" :: k :: p) =
        M.flag e ("_txc" :: k :: p) := by
    intro k p hk
    rw [Machine.flag, Machine.flag, hread k p hk]
  have htext : ∀ k p, k ∉ budgetKeys →
      M.text (syncBudgetToEnvelope M.num s seen e) ("_txc" :: k :: p) =
        M.text e ("_txc" :: k :: p) := by
    intro k p hk
    rw [Machine.text, Machine.text, hread k p hk]
  constructor
  · rw [hread _ _ (by decide), h.delete]
  · rw [hflag _ _ (by decide), h.halt]
  · rw [htext _ _ (by decide), h.goto]
  · rw [hflag _ _ (by decide), h.breakpoint]
  · rw [htext _ _ (by decide), h.body]
  · rw [Machine.maybeRetenant, htext _ _ (by decide)]
    exact h.tenant

namespace World

variable {M : Machine F}

def sync (w : World M) : World M where
  budget := w.budget
  envelope := syncBudgetToEnvelope M.num w.budget (M.order w.syncs w.budget.seen) w.envelope
  quiet := w.quiet.sync _ _
  syncs := w.syncs + 1
  slept := w.slept

def charge {α : Type} (w : World M) (c : Charge α) : Except BudgetError α × World M :=
  let r := c.run.run w.budget
  (r.1, { w with budget := r.2 })

def sleep (w : World M) (penalty : Int) : World M :=
  if 0 < penalty then { w with slept := w.slept + penalty } else w

/-- The type of the last payload: the end of a stream that is open, else the response. -/
def emit (w : World M) : Emit :=
  if (w.budget.call.isNone || M.mayStream) &&
      (M.flag w.envelope ["_txc", "runtime", "http_stream_open"] || M.sinkOpened) then .streamEnd
  else .json

end World

variable (M : Machine F)

def resonatingOps (e : Envelope F) (ops : List Row) : Except String (List Row) :=
  if ops.isEmpty then .ok [] else M.resonates e ops

def opsForStageText (stage : StageText) : Option (List Row) :=
  lookupStage M.table M.peels stage

/-- What a frame that reaches its rules does with them. -/
def evaluate (w : World M) (stage : StageText) (ops : List Row) : Walked M :=
  match resonatingOps M w.envelope ops with
  | .error e => .ended (.failed (.resonator e) w)
  | .ok [] => .dead stage w
  | .ok (op :: ops) => .ended (.landed (op :: ops) stage w)

/-- The charges at the entry of `Run`. -/
def enterFrame (parent stage : StageText) : Charge Int := do
  decrementTTL stage
  addFuel fuelCostScopeEnter stage
  if parent.isEmpty then return 0 else chargeTransition parent stage

/-- What becomes of a frame's charges: `emitBudgetExhausted` answers an error, a penalty is
slept. -/
def afterCharges (r : Except BudgetError Int × World M) (next : World M → Walked M) : Walked M :=
  match r with
  | (.error e, w) => .ended (.exhausted e w)
  | (.ok penalty, w) => next (w.sleep penalty)

/-- `Run` up to where it may fast-forward. -/
def runFrame (w : World M) (parent stage : StageText) : Walked M :=
  afterCharges M (w.charge (enterFrame parent stage)) fun w =>
    match opsForStageText M stage with
    | none => .ended (.failed (.stage stage) w)
    | some ops => evaluate M w stage ops

/-- `advanceAfterScope` of a scope where no op fired, with the look-ahead `Run` made for it. -/
def advanceAfterScope (w : World M) (stage : StageText) : Walked M :=
  match opsForStageText M (nextStageFor stage) with
  | some (r :: _) =>
    let next :=
      match stageParse stage with
      | some (curStack, _) => stageAt curStack r.scope
      | none => nextStageFor stage
    runFrame M w.sync stage next
  | _ => .ended (.finished w.emit w.sync)

/-- The charges the loop of `fastForward` makes for a hop. -/
def hopCharges (prev hopStage : StageText) : Charge Int := do
  decrementTTL hopStage
  addFuel fuelCostScopeEnter hopStage
  chargeTransition prev hopStage

def nextFloor (r : Row) (rs : List Row) : Int :=
  (r :: rs).foldl (fun m q => if m < wrapInt (q.scope + 1) then wrapInt (q.scope + 1) else m)
    (wrapInt (r.scope + 1))

/-- One turn of the loop, up to the next lookup. -/
def hop (w : World M) (curStack prev : StageText) (r : Row) (rs : List Row) : Walked M :=
  let hopStage := stageAt curStack r.scope
  afterCharges M (w.sync.charge (hopCharges prev hopStage)) fun w => evaluate M w hopStage (r :: rs)

def Walked.onward {M : Machine F} (r : Walked M)
    (next : StageText → World M → Option (Walked M)) : Option (Walked M) :=
  match r with
  | .ended o => some (.ended o)
  | .dead stage w => next stage w

def lookupOr (w : World M) (next : StageText) (loop : List Row → Option (Walked M)) :
    Option (Walked M) :=
  match opsForStageText M next with
  | none => some (.ended (.failed (.stage next) w))
  | some cur => loop cur

/-- The loop of `fastForward`; `none` when the turns given do not suffice. -/
def hops (curStack : StageText) : Nat → World M → StageText → List Row → Option (Walked M)
  | _, w, prev, [] => some (.dead prev w)
  | 0, _, _, _ :: _ => none
  | n + 1, w, prev, r :: rs =>
    (hop M w curStack prev r rs).onward fun hopStage w =>
      lookupOr M w (stageAt curStack (nextFloor r rs)) fun cur => hops curStack n w hopStage cur

def fastForward (n : Nat) (w : World M) (stage : StageText) : Option (Walked M) :=
  match stageParse stage with
  | none => some (.dead stage w)
  | some (curStack, curScope) =>
    lookupOr M w (stageAt curStack (wrapInt (curScope + 1))) fun cur =>
      hops M curStack n w stage cur

/-- The rest of `Run` at a stage where nothing resonated; `index` tells whether the ops index covers
the request, which is what lets `Run` fast-forward. -/
def runDead (index : Bool) : Nat → World M → StageText → Option (Outcome M)
  | 0, _, _ => none
  | n + 1, w, stage =>
    match if index then fastForward M n w stage else some (.dead stage w) with
    | none => none
    | some (.ended o) => some o
    | some (.dead stage w) =>
      match advanceAfterScope M w stage with
      | .ended o => some o
      | .dead stage w => runDead index n w stage

/-- From the stage up to the largest `int`, where the next scope's number no longer parses, the
budget pays for every scope that has rules and none of its rules resonates. -/
inductive DeadToTop (curStack : StageText) : World M → StageText → Nat → Prop
  | top (w : World M) (prev : StageText) : DeadToTop curStack w prev maxInt
  | hop {w w' : World M} {prev : StageText} {x : Nat} {r : Row} {rs : List Row} {penalty : Int}
      (hx : x < maxInt) (hrules : lookupStack M.table M.peels curStack (x + 1) = r :: rs)
      (hpaid : w.sync.charge (hopCharges prev (stageAt curStack r.scope)) = (.ok penalty, w'))
      (hdead : resonatingOps M (w'.sleep penalty).envelope (r :: rs) = .ok [])
      (rest : DeadToTop curStack (w'.sleep penalty) (stageAt curStack r.scope) r.scope) :
      DeadToTop curStack w prev x

def ReachesTop (w : World M) (stage : StageText) : Prop :=
  ∃ curStack scope, stageParse stage = some (curStack, scope) ∧ DeadToTop M curStack w stage scope

variable {M}

theorem evaluate_eq_dead {w w' : World M} {stage stage' : StageText} {ops : List Row} :
    evaluate M w stage ops = .dead stage' w' ↔
      resonatingOps M w.envelope ops = .ok [] ∧ stage' = stage ∧ w' = w := by
  rw [evaluate]
  split
  · next e he => simp [he]
  · next he => simp [he, eq_comm]
  · next op ops he => simp [he]

theorem hop_eq_dead {w w'' : World M} {curStack prev stage : StageText} {r : Row} {rs : List Row} :
    hop M w curStack prev r rs = .dead stage w'' ↔
      ∃ penalty w', w.sync.charge (hopCharges prev (stageAt curStack r.scope)) = (.ok penalty, w') ∧
        resonatingOps M (w'.sleep penalty).envelope (r :: rs) = .ok [] ∧
        stage = stageAt curStack r.scope ∧ w'' = w'.sleep penalty := by
  rw [hop]
  generalize w.sync.charge (hopCharges prev (stageAt curStack r.scope)) = res
  obtain ⟨res, w'⟩ := res
  cases res with
  | error e => simp [afterCharges]
  | ok penalty =>
    rw [afterCharges, evaluate_eq_dead]
    simp

theorem ne_nil_of_stageParse {stage : StageText} {p : StageText × Nat}
    (h : stageParse stage = some p) : stage.isEmpty = false := by
  cases stage with
  | nil => cases h
  | cons c cs => rfl

theorem nextFloor_eq {r : Row} {rs : List Row} (h : ∀ q ∈ r :: rs, q.scope = r.scope) :
    nextFloor r rs = wrapInt (r.scope + 1) := by
  rw [nextFloor]
  generalize r :: rs = qs at h
  induction qs with
  | nil => rw [List.foldl_nil]
  | cons q qs ih =>
    rw [List.foldl_cons, h q List.mem_cons_self, if_neg (Int.lt_irrefl _)]
    exact ih fun q' hq' => h q' (List.mem_cons_of_mem _ hq')

theorem runFrame_eq_hop {w : World M} {curStack prev : StageText} {r : Row} {rs : List Row}
    (hprev : prev.isEmpty = false)
    (hrules : opsForStageText M (stageAt curStack r.scope) = some (r :: rs)) :
    runFrame M w.sync prev (stageAt curStack r.scope) = hop M w curStack prev r rs := by
  simp only [runFrame, hop, enterFrame, hopCharges, hprev, hrules, Bool.false_eq_true, if_false]

section Ladder

variable {curStack prev : StageText} {x : Nat}

theorem opsForStageText_at (hline : '\n' ∉ curStack) {n : Nat} (hn : n ≤ maxInt) :
    opsForStageText M (stageAt curStack n) = some (lookupStack M.table M.peels curStack n) := by
  rw [opsForStageText, lookupStage, stageParse_stageAt hline hn]
  rfl

theorem opsForStageText_next (hline : '\n' ∉ curStack) (hx : x ≤ maxInt) :
    opsForStageText M (stageAt curStack (wrapInt (x + 1))) =
      if x < maxInt then some (lookupStack M.table M.peels curStack (x + 1)) else none := by
  rw [opsForStageText, lookupStage, stageParse_next hline hx, succScope]
  split <;> rfl

theorem opsForStageText_nextStageFor (h : stageParse prev = some (curStack, x)) :
    opsForStageText M (nextStageFor prev) =
      if x < maxInt then some (lookupStack M.table M.peels curStack (x + 1)) else none := by
  obtain ⟨hline, hx⟩ := stageParse_bounds h
  rw [nextStageFor, h]
  exact opsForStageText_next hline hx

theorem advanceAfterScope_hop (h : stageParse prev = some (curStack, x)) (hx : x < maxInt) {r : Row}
    {rs : List Row} (hrules : lookupStack M.table M.peels curStack (x + 1) = r :: rs)
    (w : World M) : advanceAfterScope M w prev = hop M w curStack prev r rs := by
  have hhit := lookupStack_hit (hrules ▸ List.mem_cons_self :
    r ∈ lookupStack M.table M.peels curStack (x + 1))
  have hlook : opsForStageText M (stageAt curStack r.scope) = some (r :: rs) := by
    rw [opsForStageText_at (stageParse_bounds h).1 r.scope_le, hhit.again, hrules]
  rw [advanceAfterScope, opsForStageText_nextStageFor h, if_pos hx, hrules]
  simp only [h]
  exact runFrame_eq_hop (ne_nil_of_stageParse h) hlook

theorem advanceAfterScope_end (h : stageParse prev = some (curStack, x))
    (hend : x < maxInt → lookupStack M.table M.peels curStack (x + 1) = []) (w : World M) :
    advanceAfterScope M w prev = .ended (.finished w.emit w.sync) := by
  rw [advanceAfterScope, opsForStageText_nextStageFor h]
  split
  · next r rs heq =>
    split at heq
    · next hx =>
      rw [hend hx] at heq
      cases heq
    · cases heq
  · rfl

theorem runDead_frames (n : Nat) (w : World M) (stage : StageText) :
    runDead M false (n + 1) w stage =
      match advanceAfterScope M w stage with
      | .ended o => some o
      | .dead stage w => runDead M false n w stage := rfl

theorem lookupOr_next (hline : '\n' ∉ curStack) (hx : x ≤ maxInt) (w : World M)
    (loop : List Row → Option (Walked M)) :
    lookupOr M w (stageAt curStack (wrapInt (x + 1))) loop =
      if x < maxInt then loop (lookupStack M.table M.peels curStack (x + 1))
      else some (.ended (.failed (.stage (stageAt curStack (wrapInt (x + 1)))) w)) := by
  rw [lookupOr, opsForStageText_next hline hx]
  by_cases hlt : x < maxInt
  · simp only [hlt, if_true]
  · simp only [hlt, if_false]

theorem hops_cons (n : Nat) (w : World M) {r : Row} {rs : List Row} (hline : '\n' ∉ curStack)
    (hrules : lookupStack M.table M.peels curStack x = r :: rs) :
    hops M curStack (n + 1) w prev (r :: rs) =
      (hop M w curStack prev r rs).onward fun hopStage w =>
        if r.scope < maxInt then
          hops M curStack n w hopStage (lookupStack M.table M.peels curStack (r.scope + 1))
        else some (.ended (.failed (.stage (stageAt curStack (wrapInt (r.scope + 1)))) w)) := by
  have hhit := lookupStack_hit (hrules ▸ List.mem_cons_self :
    r ∈ lookupStack M.table M.peels curStack x)
  have hfloor : nextFloor r rs = wrapInt (r.scope + 1) :=
    nextFloor_eq fun q hq => hhit.same q (hrules ▸ hq)
  simp only [hops, hfloor, lookupOr_next hline r.scope_le]

/-- The loop has come to the outcome, or to a dead stage from which `Run` comes to it at once. -/
def Settles (res : Option (Walked M)) (o : Outcome M) : Prop :=
  res = some (.ended o) ∨
    ∃ stage w, res = some (.dead stage w) ∧ advanceAfterScope M w stage = .ended o

theorem hops_settles {n : Nat} {w : World M} (h : stageParse prev = some (curStack, x))
    (hn : remaining M.table (x + 1) ≤ n) (htop : ¬DeadToTop M curStack w prev x) :
    ∃ o, runDead M false (n + 1) w prev = some o ∧
      Settles (hops M curStack n w prev (lookupStack M.table M.peels curStack (x + 1))) o := by
  induction n generalizing w prev x with
  | zero =>
    cases hrules : lookupStack M.table M.peels curStack (x + 1) with
    | nil =>
      have hend := advanceAfterScope_end h (fun _ => hrules) w
      exact ⟨_, by rw [runDead_frames, hend], .inr ⟨prev, w, rfl, hend⟩⟩
    | cons r rs =>
      have := remaining_lt (hrules ▸ List.mem_cons_self :
        r ∈ lookupStack M.table M.peels curStack (x + 1))
      omega
  | succ n ih =>
    obtain ⟨hline, hle⟩ := stageParse_bounds h
    have hx : x < maxInt := by
      refine Nat.lt_of_le_of_ne hle fun heq => htop ?_
      subst heq
      exact .top w prev
    cases hrules : lookupStack M.table M.peels curStack (x + 1) with
    | nil =>
      have hend := advanceAfterScope_end h (fun _ => hrules) w
      exact ⟨_, by rw [runDead_frames, hend], .inr ⟨prev, w, rfl, hend⟩⟩
    | cons r rs =>
      have hlt := remaining_lt (hrules ▸ List.mem_cons_self :
        r ∈ lookupStack M.table M.peels curStack (x + 1))
      rw [runDead_frames, advanceAfterScope_hop h hx hrules, hops_cons n w hline hrules]
      cases hhop : hop M w curStack prev r rs with
      | ended o => exact ⟨o, rfl, .inl rfl⟩
      | dead hopStage w' =>
        obtain ⟨penalty, v, hpaid, hdead, rfl, rfl⟩ := hop_eq_dead.mp hhop
        have htop' : ¬DeadToTop M curStack (v.sleep penalty) (stageAt curStack r.scope) r.scope :=
          fun hrest => htop (.hop hx hrules hpaid hdead hrest)
        have hscope : r.scope < maxInt := by
          refine Nat.lt_of_le_of_ne r.scope_le fun heq => htop' ?_
          rw [heq]
          exact .top _ _
        simp only [Walked.onward, hscope, if_true]
        exact ih (stageParse_stageAt hline r.scope_le) (by omega) htop'

theorem DeadToTop.frames_finish {w : World M} (htop : DeadToTop M curStack w prev x)
    (h : stageParse prev = some (curStack, x)) {n : Nat} {o : Outcome M}
    (hrun : runDead M false n w prev = some o) : ∃ kind w', o = .finished kind w' := by
  induction htop generalizing n with
  | top w prev =>
    cases n with
    | zero => cases hrun
    | succ n =>
      rw [runDead_frames, advanceAfterScope_end h fun hx => absurd hx (Nat.lt_irrefl _)] at hrun
      cases hrun
      exact ⟨_, _, rfl⟩
  | hop hx hrules hpaid hdead rest ih =>
    cases n with
    | zero => cases hrun
    | succ n =>
      rw [runDead_frames, advanceAfterScope_hop h hx hrules,
        hop_eq_dead.mpr ⟨_, _, hpaid, hdead, rfl, rfl⟩] at hrun
      exact ih (stageParse_stageAt (stageParse_bounds h).1 (Row.scope_le _)) hrun

theorem DeadToTop.loop_fails {w : World M} (htop : DeadToTop M curStack w prev x)
    (hline : '\n' ∉ curStack) {n : Nat} {res : Walked M}
    (hrun : (if x < maxInt then
        hops M curStack n w prev (lookupStack M.table M.peels curStack (x + 1))
      else some (.ended (.failed (.stage (stageAt curStack (wrapInt (x + 1)))) w))) = some res) :
    ∃ e w', res = .ended (.failed e w') := by
  induction htop generalizing n with
  | top w prev =>
    rw [if_neg (Nat.lt_irrefl _)] at hrun
    cases hrun
    exact ⟨_, _, rfl⟩
  | hop hx hrules hpaid hdead rest ih =>
    rw [if_pos hx, hrules] at hrun
    cases n with
    | zero => cases hrun
    | succ n =>
      rw [hops_cons n _ hline hrules, hop_eq_dead.mpr ⟨_, _, hpaid, hdead, rfl, rfl⟩] at hrun
      exact ih hrun

theorem fastForward_eq {stage : StageText} (h : stageParse stage = some (curStack, x)) (n : Nat)
    (w : World M) :
    fastForward M n w stage =
      if x < maxInt then
        hops M curStack n w stage (lookupStack M.table M.peels curStack (x + 1))
      else some (.ended (.failed (.stage (stageAt curStack (wrapInt (x + 1)))) w)) := by
  obtain ⟨hline, hx⟩ := stageParse_bounds h
  simp only [fastForward, h, lookupOr_next hline hx]

end Ladder

theorem not_agrees_of_reachesTop {w : World M} {stage : StageText} (htop : ReachesTop M w stage) :
    ¬∃ n o, runDead M true n w stage = some o ∧ runDead M false n w stage = some o := by
  rintro ⟨n, o, hfast, hframes⟩
  obtain ⟨curStack, x, hparse, htop⟩ := htop
  obtain ⟨kind, w', rfl⟩ := htop.frames_finish hparse hframes
  cases n with
  | zero => cases hfast
  | succ n =>
    rw [runDead, if_pos rfl] at hfast
    cases hres : fastForward M n w stage with
    | none =>
      rw [hres] at hfast
      cases hfast
    | some res =>
      have hloop := hres
      rw [fastForward_eq hparse] at hloop
      obtain ⟨e, w'', rfl⟩ := htop.loop_fails (stageParse_bounds hparse).1 hloop
      rw [hres] at hfast
      cases hfast

theorem agrees_of_not_parse {w : World M} {stage : StageText} (hparse : stageParse stage = none) :
    runDead M true 1 w stage = some (.finished w.emit w.sync) ∧
      runDead M false 1 w stage = some (.finished w.emit w.sync) := by
  have hff : fastForward M 0 w stage = some (.dead stage w) := by simp only [fastForward, hparse]
  have hend : advanceAfterScope M w stage = .ended (.finished w.emit w.sync) := by
    have hnext : nextStageFor stage = [] := by simp only [nextStageFor, hparse]
    rw [advanceAfterScope, hnext]
    rfl
  constructor
  · rw [runDead, if_pos rfl, hff]
    dsimp only
    rw [hend]
  · rw [runDead_frames, hend]

theorem runDead_of_settles {n : Nat} {w : World M} {stage : StageText} {o : Outcome M}
    (h : Settles (fastForward M n w stage) o) : runDead M true (n + 1) w stage = some o := by
  rw [runDead, if_pos rfl]
  rcases h with hended | ⟨stage', w', hdead, hend⟩
  · rw [hended]
  · rw [hdead]
    dsimp only
    rw [hend]

/-- `Run` comes to the same outcome with the fast-forward loop as with a frame for each scope
exactly when no dead stretch of the ladder goes up to the largest `int`. -/
theorem fastForward_agrees_iff (M : Machine F) (w : World M) (stage : StageText) :
    (∃ n o, runDead M true n w stage = some o ∧ runDead M false n w stage = some o) ↔
      ¬ReachesTop M w stage := by
  constructor
  · intro hagrees htop
    exact not_agrees_of_reachesTop htop hagrees
  · intro htop
    cases hparse : stageParse stage with
    | none => exact ⟨1, _, agrees_of_not_parse hparse⟩
    | some p =>
      obtain ⟨curStack, x⟩ := p
      have htop' : ¬DeadToTop M curStack w stage x := fun h => htop ⟨curStack, x, hparse, h⟩
      have hx : x < maxInt := by
        refine Nat.lt_of_le_of_ne (stageParse_bounds hparse).2 fun heq => htop' ?_
        subst heq
        exact .top w stage
      obtain ⟨o, hframes, hsettles⟩ := hops_settles hparse (remaining_le M.table (x + 1)) htop'
      refine ⟨M.table.length + 1, o, runDead_of_settles ?_, hframes⟩
      rw [fastForward_eq hparse, if_pos hx]
      exact hsettles

/-- A tenant without rules. -/
def bareMachine : Machine Int where
  table := []
  peels := true
  mayStream := true
  sinkOpened := false
  system := false
  tenantExists _ := false
  num n := n
  bool v := match v with
    | .bool b => b
    | _ => false
  str v := match v with
    | .str s => s
    | _ => ""
  resonates _ ops := .ok ops
  order _ seen := seen
  order_perm _ _ := .rfl

/-- A request with an empty envelope and the whole budget. -/
def freshWorld : World bareMachine where
  budget := ⟨0, 100, 100000, 100, 0, none, [], [], none⟩
  envelope := some (.obj [])
  quiet := ⟨rfl, rfl, rfl, rfl, rfl, rfl⟩
  syncs := 0
  slept := 0

def topStage : StageText :=
  "x/9223372036854775807".toList

/-- A jump to the largest scope there is gets no response from the loop. -/
theorem top_stage_fails :
    (∃ e w, runDead bareMachine true 1 freshWorld topStage = some (.failed e w)) ∧
      (∃ w, runDead bareMachine false 1 freshWorld topStage = some (.finished .json w)) ∧
      ¬∃ n o, runDead bareMachine true n freshWorld topStage = some o ∧
        runDead bareMachine false n freshWorld topStage = some o := by
  have hparse : stageParse topStage = some (['x'], maxInt) := by decide +kernel
  have hloop : fastForward bareMachine 0 freshWorld topStage =
      some (.ended (.failed (.stage (stageAt ['x'] (wrapInt (maxInt + 1)))) freshWorld)) := by
    rw [fastForward_eq hparse, if_neg (Nat.lt_irrefl _)]
  have hend : advanceAfterScope bareMachine freshWorld topStage =
      .ended (.finished freshWorld.emit freshWorld.sync) :=
    advanceAfterScope_end hparse (fun hx => absurd hx (Nat.lt_irrefl _)) freshWorld
  refine ⟨⟨_, _, runDead_of_settles (.inl hloop)⟩, ⟨freshWorld.sync, ?_⟩,
    not_agrees_of_reachesTop ⟨_, _, hparse, .top _ _⟩⟩
  rw [runDead_frames, hend]
  rfl

end ThanksComputer.Scope
