import ThanksComputer.Lib.Runs
import ThanksComputer.Scope.Reload

/-! The tenant a request is pinned to: where the pin is set, where it moves, and which tenant the op
lookups of a run are made under. -/

universe u

namespace ThanksComputer.Scope

open Lib.Runs

variable {F : Type u}

def systemTenantSlug : String := "_sys"

/-- The values of a context the pin depends on: the tenant, and whether the opstack snapshot was
attached, which a first `Run` does. -/
structure PinCtx where
  tenant : Option String
  snap : Bool
  deriving DecidableEq

def PinCtx.tenantScope (ctx : PinCtx) : String :=
  ctx.tenant.getD ""

def tenantAt (c : Codec F) (e : Envelope F) : String :=
  c.strAt e ["_txc", "tenant"]

/-- The pins of `Run`. -/
def runPins (c : Codec F) (ctx : PinCtx) (raw : Envelope F) : PinCtx :=
  if ctx.snap then ctx else { tenant := some (ctx.tenant.getD (tenantAt c raw)), snap := true }

/-- `tenants` are the slugs that exist and are not revoked. -/
def maybeRetenant (c : Codec F) (tenants : List String) (ctx : PinCtx) (resp : Envelope F) :
    PinCtx :=
  if ctx.tenantScope ≠ systemTenantSlug then ctx
  else
    let target := tenantAt c resp
    if target = "" ∨ target = systemTenantSlug then ctx
    else if target ∉ tenants then ctx
    else { ctx with tenant := some target }

/-- `snap` tells whether `attachResumeSnapshot` found a snapshot. -/
def resumeContext (c : Codec F) (scopeEnvelope : Envelope F) (snap : Bool) : PinCtx where
  tenant := some (tenantAt c scopeEnvelope)
  snap := snap

def detachedOpContext (ctx : PinCtx) : PinCtx where
  tenant := if ctx.tenantScope = "" then none else some ctx.tenantScope
  snap := false

def frameEnvelope (c : Codec F) (ctx : PinCtx) (input : Envelope F) : Envelope F :=
  let tenant := if ctx.tenantScope ≠ "" then ctx.tenantScope else tenantAt c input
  some (.obj [("_txc", .obj (if tenant = "" then [] else [("tenant", .str tenant)]))])

/-- The context a run is in with the envelope of the scope at hand, and both for the callers it
returns to.  `stored` is the scope envelope a run that is suspended has left behind. -/
structure PinState (F : Type u) where
  ctx : PinCtx
  entry : Envelope F
  callers : List (PinCtx × Envelope F)
  stored : Option (Envelope F)

/-- `joined` is the merge of the deferred outputs that are ready into the envelope of a scope. -/
inductive PinEvent (F : Type u)
  | run (raw : Envelope F)
  | joined (merged : Envelope F)
  | advance (resp : Envelope F) (tenants : List String)
  | call (input : Envelope F)
  | detachedCall (input : Envelope F)
  | callReturn
  | suspend
  | resume (snap : Bool) (tenants : List String)

/-- The first `Run` of a request; an inlet may have set the tenant on the context already. -/
def PinState.start (c : Codec F) (tenant : Option String) (raw : Envelope F) : PinState F :=
  ⟨runPins c ⟨tenant, false⟩ raw, raw, [], none⟩

/-- The run is suspended and none of its calls is under way. -/
def PinState.waits (st : PinState F) : Bool :=
  st.stored.isSome && st.callers.isEmpty

/-- A callee runs on the document made for it, on the context `ctx`. -/
def PinState.enter (c : Codec F) (st : PinState F) (ctx : PinCtx) (input : Envelope F) :
    PinState F :=
  { st with
    ctx := runPins c ctx (frameEnvelope c ctx input)
    entry := frameEnvelope c ctx input
    callers := (st.ctx, st.entry) :: st.callers }

/-- A callee runs on a context like its caller's, a detached op's on one of its own; inside a call
no scope suspends.  A resume leaves the suspended context behind. -/
def PinState.step (c : Codec F) (st : PinState F) : PinEvent F → PinState F
  | .run raw => if st.waits then st else { st with ctx := runPins c st.ctx raw, entry := raw }
  | .joined merged => if st.waits then st else { st with entry := merged }
  | .advance resp tenants =>
    if st.waits then st
    else { st with ctx := runPins c (maybeRetenant c tenants st.ctx resp) resp, entry := resp }
  | .call input => st.enter c st.ctx input
  | .detachedCall input => st.enter c (detachedOpContext st.ctx) input
  | .callReturn =>
    match st.callers with
    | [] => st
    | (ctx, entry) :: callers => { st with ctx, entry, callers }
  | .suspend =>
    if st.waits ∨ st.callers ≠ [] then st else { st with stored := some st.entry }
  | .resume snap _ =>
    match st.stored with
    | none => st
    | some scopeEnvelope => ⟨resumeContext c scopeEnvelope snap, scopeEnvelope, [], none⟩

/-- The tenants `OpsForStage` is called under: a call looks its callee up before it runs it. -/
def PinState.lookups (c : Codec F) (st : PinState F) (ev : PinEvent F) : List String :=
  match ev with
  | .run _ | .advance _ _ => if st.waits then [] else [(st.step c ev).ctx.tenantScope]
  | .resume _ _ => if st.stored.isNone then [] else [(st.step c ev).ctx.tenantScope]
  | .call _ => [st.ctx.tenantScope, (st.step c ev).ctx.tenantScope]
  | .detachedCall _ => [(detachedOpContext st.ctx).tenantScope, (st.step c ev).ctx.tenantScope]
  | .joined _ | .callReturn | .suspend => []

/-- The tenants there are when an event happens. -/
def PinEvent.tenants : PinEvent F → List String
  | .advance _ tenants | .resume _ tenants => tenants
  | _ => []

/-- The pin stays, or moves from the system tenant to another one that exists. -/
def PinMoves (tenants : List String) (old new : String) : Prop :=
  new = old ∨ (old = systemTenantSlug ∧ new ≠ systemTenantSlug ∧ new ≠ "" ∧ new ∈ tenants)

/-- The pin moves as it may, and every lookup is made under it. -/
def PinHeld (c : Codec F) (st : PinState F) (ev : PinEvent F) : Prop :=
  PinMoves ev.tenants st.ctx.tenantScope (st.step c ev).ctx.tenantScope ∧
    ∀ tenant ∈ st.lookups c ev, tenant = (st.step c ev).ctx.tenantScope

/-- The scope was entered with an envelope that names the pin, or under the system tenant with one
that names another tenant. -/
def PinState.Entered (c : Codec F) (st : PinState F) : Prop :=
  tenantAt c st.entry = st.ctx.tenantScope ∨
    st.ctx.tenantScope = systemTenantSlug ∧ tenantAt c st.entry ∉ ["", systemTenantSlug]

/-- A callee's scopes do not re-tenant it; an op is detached under a pin, or its input names no
tenant; and a run is suspended at a scope whose envelope names the pin, or a tenant that exists when
it is resumed. -/
def PinCarried (c : Codec F) (st : PinState F) : PinEvent F → Prop
  | .advance resp tenants =>
    st.callers = [] ∨ st.ctx.tenantScope ≠ systemTenantSlug ∨
      tenantAt c resp ∈ ["", systemTenantSlug] ∨ tenantAt c resp ∉ tenants
  | .detachedCall input => st.ctx.tenantScope ≠ "" ∨ tenantAt c input = ""
  | .suspend => st.waits = true ∨ st.callers ≠ [] ∨ st.Entered c
  | .resume _ tenants =>
    ∀ e, st.stored = some e → tenantAt c e ≠ st.ctx.tenantScope → tenantAt c e ∈ tenants
  | _ => True

def PinState.next (c : Codec F) (st : PinState F) (ev : PinEvent F) : Option (PinState F) :=
  some (st.step c ev)

/-- How often the pin moves. -/
def pinChanges (c : Codec F) : PinState F → List (PinEvent F) → Nat
  | _, [] => 0
  | st, ev :: evs =>
    (if (st.step c ev).ctx.tenantScope = st.ctx.tenantScope then 0 else 1) +
      pinChanges c (st.step c ev) evs

/-- Once set, the pin is that of every caller too, and the envelope left behind names it or a tenant
it may move to. -/
structure PinState.Inv (c : Codec F) (st : PinState F) : Prop where
  pinned : st.ctx.tenant.isSome
  callers : ∀ x ∈ st.callers, x.1.tenant = st.ctx.tenant
  stored : ∀ e, st.stored = some e → tenantAt c e = st.ctx.tenantScope ∨
    st.ctx.tenantScope = systemTenantSlug ∧ tenantAt c e ∉ ["", systemTenantSlug]

section

variable {c : Codec F}

theorem PinCtx.tenant_eq {ctx : PinCtx} (h : ctx.tenant.isSome) :
    ctx.tenant = some ctx.tenantScope := by
  rw [PinCtx.tenantScope]
  cases hc : ctx.tenant with
  | none => simp [hc] at h
  | some t => rfl

theorem runPins_tenant {ctx : PinCtx} (h : ctx.tenant.isSome) (raw : Envelope F) :
    (runPins c ctx raw).tenant = ctx.tenant := by
  rw [runPins]
  split
  · rfl
  · rw [ctx.tenant_eq h]
    rfl

theorem runPins_isSome (ctx : PinCtx) (raw : Envelope F)
    (h : ctx.snap = false ∨ ctx.tenant.isSome) :
    (runPins c ctx raw).tenant.isSome := by
  rw [runPins]
  split
  · next hsnap => exact h.resolve_left (by simp [hsnap])
  · rfl

theorem maybeRetenant_cases (tenants : List String) (ctx : PinCtx) (resp : Envelope F) :
    maybeRetenant c tenants ctx resp = ctx ∨
      (ctx.tenantScope = systemTenantSlug ∧ tenantAt c resp ≠ "" ∧
        tenantAt c resp ≠ systemTenantSlug ∧ tenantAt c resp ∈ tenants ∧
        (maybeRetenant c tenants ctx resp).tenant = some (tenantAt c resp)) := by
  rw [maybeRetenant]
  split
  · exact .inl rfl
  · next hsys =>
    dsimp only
    split
    · exact .inl rfl
    · next htarget =>
      split
      · exact .inl rfl
      · next hmem =>
        rw [not_or] at htarget
        exact .inr ⟨not_not.mp hsys, htarget.1, htarget.2, not_not.mp hmem, rfl⟩

theorem tenantAt_frameEnvelope (ctx : PinCtx) (input : Envelope F) :
    tenantAt c (frameEnvelope c ctx input) =
      if ctx.tenantScope ≠ "" then ctx.tenantScope else tenantAt c input := by
  rw [frameEnvelope]
  generalize (if ctx.tenantScope ≠ "" then ctx.tenantScope else tenantAt c input) = tenant
  by_cases hempty : tenant = "" <;>
    simp [tenantAt, Codec.strAt, Envelope.read, hempty, c.str_str]

theorem detached_tenant {ctx : PinCtx} (hpinned : ctx.tenant.isSome) {input : Envelope F}
    (h : ctx.tenantScope ≠ "" ∨ tenantAt c input = "") :
    (detachedOpContext ctx).tenantScope = ctx.tenantScope ∧
      (runPins c (detachedOpContext ctx)
        (frameEnvelope c (detachedOpContext ctx) input)).tenant = ctx.tenant := by
  have hscope : (detachedOpContext ctx).tenantScope = ctx.tenantScope := by
    rw [detachedOpContext, PinCtx.tenantScope]
    split
    · next hempty => exact hempty.symm
    · rfl
  refine ⟨hscope, ?_⟩
  rw [ctx.tenant_eq hpinned]
  by_cases hempty : ctx.tenantScope = ""
  · have hinput := h.resolve_left (not_not.mpr hempty)
    rw [runPins, if_neg (by simp [detachedOpContext]), tenantAt_frameEnvelope, hscope,
      if_neg (not_not.mpr hempty), hinput, hempty]
    simp [detachedOpContext, hempty]
  · have hsome : (detachedOpContext ctx).tenant = some ctx.tenantScope := by
      rw [detachedOpContext, if_neg hempty]
    rw [runPins_tenant (by rw [hsome]; rfl), hsome]

theorem PinCtx.tenantScope_congr {ctx ctx' : PinCtx} (h : ctx.tenant = ctx'.tenant) :
    ctx.tenantScope = ctx'.tenantScope := by
  rw [PinCtx.tenantScope, PinCtx.tenantScope, h]

namespace PinState

variable {st : PinState F}

private theorem held_of_same {ev : PinEvent F} (hpin : (st.step c ev).ctx.tenant = st.ctx.tenant)
    (hlook : ∀ tenant ∈ st.lookups c ev, tenant = st.ctx.tenantScope) : PinHeld c st ev := by
  have hscope := PinCtx.tenantScope_congr hpin
  exact ⟨.inl hscope, fun tenant ht => (hlook tenant ht).trans hscope.symm⟩

private theorem Inv.same (h : st.Inv c) {st' : PinState F} (hpin : st'.ctx.tenant = st.ctx.tenant)
    (hcallers : st'.callers = st.callers) (hstored : st'.stored = st.stored) : st'.Inv c := by
  have hscope := PinCtx.tenantScope_congr hpin
  refine ⟨hpin ▸ h.pinned, ?_, ?_⟩
  · rw [hcallers, hpin]
    exact h.callers
  · rw [hstored, hscope]
    exact h.stored

private theorem Inv.enter (h : st.Inv c) {ctx : PinCtx} {input : Envelope F}
    (hpin : (st.enter c ctx input).ctx.tenant = st.ctx.tenant) : (st.enter c ctx input).Inv c := by
  have hscope := PinCtx.tenantScope_congr hpin
  refine ⟨hpin ▸ h.pinned, ?_, ?_⟩
  · intro x hx
    rcases List.mem_cons.mp hx with rfl | hx
    · exact hpin.symm
    · exact (h.callers x hx).trans hpin.symm
  · rw [hscope]
    exact h.stored

theorem Inv.run (h : st.Inv c) (raw : Envelope F) :
    (st.step c (.run raw)).Inv c ∧ PinHeld c st (.run raw) := by
  cases hwaits : st.waits with
  | true =>
    have hsame : st.step c (.run raw) = st := by rw [PinState.step, if_pos hwaits]
    rw [hsame]
    exact ⟨h, held_of_same (by rw [hsame]) (by simp [lookups, hwaits])⟩
  | false =>
    have hstep : st.step c (.run raw) = { st with ctx := runPins c st.ctx raw, entry := raw } := by
      rw [PinState.step, hwaits, if_neg Bool.false_ne_true]
    have hpin : (st.step c (.run raw)).ctx.tenant = st.ctx.tenant := by
      rw [hstep]
      exact runPins_tenant h.pinned raw
    refine ⟨h.same hpin (by rw [hstep]) (by rw [hstep]), held_of_same hpin ?_⟩
    simp [lookups, hwaits, PinCtx.tenantScope_congr hpin]

theorem Inv.joined (h : st.Inv c) (merged : Envelope F) :
    (st.step c (.joined merged)).Inv c ∧ PinHeld c st (.joined merged) := by
  have hpin : (st.step c (.joined merged)).ctx.tenant = st.ctx.tenant := by
    rw [PinState.step]
    split <;> rfl
  refine ⟨h.same hpin ?_ ?_, held_of_same hpin (by simp [lookups])⟩
  · rw [PinState.step]
    split <;> rfl
  · rw [PinState.step]
    split <;> rfl

theorem Inv.call (h : st.Inv c) (input : Envelope F) :
    (st.step c (.call input)).Inv c ∧ PinHeld c st (.call input) := by
  have hpin : (st.step c (.call input)).ctx.tenant = st.ctx.tenant := runPins_tenant h.pinned _
  refine ⟨h.enter hpin, held_of_same hpin ?_⟩
  intro tenant ht
  simp only [lookups, List.mem_cons, List.not_mem_nil, or_false] at ht
  rcases ht with rfl | rfl
  · rfl
  · exact PinCtx.tenantScope_congr hpin

theorem Inv.detachedCall (h : st.Inv c) {input : Envelope F}
    (hc : PinCarried c st (.detachedCall input)) :
    (st.step c (.detachedCall input)).Inv c ∧ PinHeld c st (.detachedCall input) := by
  obtain ⟨hscope, hpin⟩ := detached_tenant h.pinned hc
  change (st.step c (.detachedCall input)).ctx.tenant = st.ctx.tenant at hpin
  refine ⟨h.enter hpin, held_of_same hpin ?_⟩
  intro tenant ht
  simp only [lookups, List.mem_cons, List.not_mem_nil, or_false] at ht
  rcases ht with rfl | rfl
  · exact hscope
  · exact PinCtx.tenantScope_congr hpin

theorem Inv.callReturn (h : st.Inv c) :
    (st.step c .callReturn).Inv c ∧ PinHeld c st .callReturn := by
  cases hcallers : st.callers with
  | nil =>
    have hsame : st.step c .callReturn = st := by rw [PinState.step, hcallers]
    rw [hsame]
    exact ⟨h, held_of_same (by rw [hsame]) (by simp [lookups])⟩
  | cons x callers =>
    have hpin : x.1.tenant = st.ctx.tenant := h.callers x (by simp [hcallers])
    have hstep : st.step c .callReturn = { st with ctx := x.1, entry := x.2, callers } := by
      rw [PinState.step, hcallers]
    rw [hstep]
    refine ⟨⟨hpin ▸ h.pinned, ?_, ?_⟩, held_of_same (by rw [hstep, ← hpin]) (by simp [lookups])⟩
    · intro y hy
      exact (h.callers y (by simp [hcallers, hy])).trans hpin.symm
    · rw [PinCtx.tenantScope_congr hpin]
      exact h.stored

theorem Inv.suspend (h : st.Inv c) (hc : PinCarried c st .suspend) :
    (st.step c .suspend).Inv c ∧ PinHeld c st .suspend := by
  rw [PinHeld, PinState.step]
  split
  · exact ⟨h, .inl rfl, by simp [lookups]⟩
  · next hroot =>
    rw [not_or] at hroot
    refine ⟨⟨h.pinned, h.callers, fun e he => ?_⟩, .inl rfl, by simp [lookups]⟩
    cases he
    exact (hc.resolve_left hroot.1).resolve_left hroot.2

theorem inv_retenant (hwaits : st.waits = false) {resp : Envelope F} {tenants : List String}
    (hc : PinCarried c st (.advance resp tenants))
    (hsys : st.ctx.tenantScope = systemTenantSlug) (hne : tenantAt c resp ≠ "")
    (hne' : tenantAt c resp ≠ systemTenantSlug) (hmem : tenantAt c resp ∈ tenants)
    (htarget : (maybeRetenant c tenants st.ctx resp).tenant = some (tenantAt c resp)) :
    (st.step c (.advance resp tenants)).Inv c ∧ PinHeld c st (.advance resp tenants) := by
  have hcallers : st.callers = [] := by
    rcases hc with hc | hc | hc | hc
    · exact hc
    · exact absurd hsys hc
    · simp [hne, hne'] at hc
    · exact absurd hmem hc
  have hstored : st.stored = none := by
    simpa [waits, hcallers] using hwaits
  have hstep : st.step c (.advance resp tenants) =
      { st with ctx := runPins c (maybeRetenant c tenants st.ctx resp) resp, entry := resp } := by
    rw [PinState.step, hwaits, if_neg Bool.false_ne_true]
  have hpin : (st.step c (.advance resp tenants)).ctx.tenant = some (tenantAt c resp) := by
    rw [hstep]
    dsimp only
    rw [runPins_tenant (by rw [htarget]; rfl), htarget]
  have hscope : (st.step c (.advance resp tenants)).ctx.tenantScope = tenantAt c resp := by
    rw [PinCtx.tenantScope, hpin]
    rfl
  refine ⟨⟨hpin ▸ rfl, ?_, ?_⟩, .inr ⟨hsys, ?_⟩, by simp [lookups, hwaits]⟩
  · intro x hx
    rw [hstep, hcallers] at hx
    cases hx
  · intro e he
    rw [hstep, hstored] at he
    cases he
  · rw [hscope]
    exact ⟨hne', hne, hmem⟩

theorem Inv.advance (h : st.Inv c) {resp : Envelope F} {tenants : List String}
    (hc : PinCarried c st (.advance resp tenants)) :
    (st.step c (.advance resp tenants)).Inv c ∧ PinHeld c st (.advance resp tenants) := by
  cases hwaits : st.waits with
  | true =>
    have hsame : st.step c (.advance resp tenants) = st := by rw [PinState.step, if_pos hwaits]
    rw [hsame]
    exact ⟨h, held_of_same (by rw [hsame]) (by simp [lookups, hwaits])⟩
  | false =>
    rcases maybeRetenant_cases (c := c) tenants st.ctx resp with hkeep |
      ⟨hsys, hne, hne', hmem, htarget⟩
    · have hstep : st.step c (.advance resp tenants) =
          { st with ctx := runPins c st.ctx resp, entry := resp } := by
        rw [PinState.step, hwaits, if_neg Bool.false_ne_true, hkeep]
      have hpin : (st.step c (.advance resp tenants)).ctx.tenant = st.ctx.tenant := by
        rw [hstep]
        exact runPins_tenant h.pinned resp
      refine ⟨h.same hpin (by rw [hstep]) (by rw [hstep]), held_of_same hpin ?_⟩
      simp [lookups, hwaits, PinCtx.tenantScope_congr hpin]
    · exact inv_retenant hwaits hc hsys hne hne' hmem htarget

theorem Inv.resume (h : st.Inv c) {snap : Bool} {tenants : List String}
    (hc : PinCarried c st (.resume snap tenants)) :
    (st.step c (.resume snap tenants)).Inv c ∧ PinHeld c st (.resume snap tenants) := by
  cases hstored : st.stored with
  | none =>
    have hsame : st.step c (.resume snap tenants) = st := by rw [PinState.step, hstored]
    rw [hsame]
    exact ⟨h, held_of_same (by rw [hsame]) (by simp [lookups, hstored])⟩
  | some e =>
    have hstep : st.step c (.resume snap tenants) = ⟨resumeContext c e snap, e, [], none⟩ := by
      rw [PinState.step, hstored]
    have hscope : (st.step c (.resume snap tenants)).ctx.tenantScope = tenantAt c e := by
      rw [hstep]
      rfl
    refine ⟨?_, ?_, by simp [lookups, hstored]⟩
    · rw [hstep]
      refine ⟨rfl, fun x hx => (by cases hx), fun e' he' => (by cases he')⟩
    · rw [hscope]
      rcases h.stored e hstored with hsame | ⟨hsys, hother⟩
      · exact .inl hsame
      · simp only [List.mem_cons, List.not_mem_nil, or_false, not_or] at hother
        exact .inr ⟨hsys, hother.2, hother.1, hc e hstored fun heq => hother.2 (heq.trans hsys)⟩

theorem Inv.step (h : st.Inv c) {ev : PinEvent F} (hc : PinCarried c st ev) :
    (st.step c ev).Inv c ∧ PinHeld c st ev := by
  cases ev with
  | run raw => exact h.run raw
  | joined merged => exact h.joined merged
  | advance resp tenants => exact h.advance hc
  | call input => exact h.call input
  | detachedCall input => exact h.detachedCall hc
  | callReturn => exact h.callReturn
  | suspend => exact h.suspend hc
  | resume snap tenants => exact h.resume hc

theorem inv_start (tenant : Option String) (raw : Envelope F) : (start c tenant raw).Inv c :=
  ⟨runPins_isSome _ _ (.inl rfl), fun x hx => (by cases hx), fun e he => (by cases he)⟩

theorem pinChanges_le_one {evs : List (PinEvent F)} (h : Along (next c) (PinHeld c) st evs) :
    pinChanges c st evs ≤ 1 ∧
    (st.ctx.tenantScope ≠ systemTenantSlug → pinChanges c st evs = 0) := by
  induction evs generalizing st with
  | nil => exact ⟨Nat.zero_le _, fun _ => rfl⟩
  | cons ev evs ih =>
    obtain ⟨⟨hmove, -⟩, hrest⟩ := h
    obtain ⟨hle, hzero⟩ := ih (hrest _ rfl)
    rw [pinChanges]
    rcases hmove with hsame | ⟨hsys, hne, -, -⟩
    · rw [if_pos hsame, Nat.zero_add]
      exact ⟨hle, fun hst => hzero (hsame ▸ hst)⟩
    · rw [hzero hne]
      refine ⟨?_, fun hst => absurd hsys hst⟩
      split <;> omega

end PinState

/-- In a run in which no call is re-tenanted and every scope it is suspended at was entered with the
pin on its envelope, the pin moves at most once, from the system tenant to one that exists, and all
lookups are made under it. -/
theorem tenant_pin_held (c : Codec F) (tenant : Option String) (raw : Envelope F)
    (evs : List (PinEvent F))
    (h : Along (PinState.next c) (PinCarried c) (.start c tenant raw) evs) :
    Along (PinState.next c) (PinHeld c) (.start c tenant raw) evs ∧
      pinChanges c (.start c tenant raw) evs ≤ 1 := by
  have hheld : Along (PinState.next c) (PinHeld c) (.start c tenant raw) evs := by
    refine Along.of_invariant (I := PinState.Inv c) ?_ ?_ (PinState.inv_start tenant raw) h
    · intro st ev st' hst hev hnext
      rw [PinState.next, Option.some.injEq] at hnext
      exact hnext ▸ (hst.step hev).1
    · exact fun st ev hst hev => (hst.step hev).2
  exact ⟨hheld, (PinState.pinChanges_le_one hheld).1⟩

end

def bootEnvelope (tenant : String) : Envelope Int :=
  some (.obj [("_txc", .obj [("tenant", .str tenant)])])

/-- A boot run that is routed to `tenant`, suspended there and resumed. -/
def routed (tenant : String) : List (PinEvent Int) :=
  [.advance (bootEnvelope tenant) ["acme"], .suspend, .resume true ["acme"]]

theorem tenant_pin_held_after_route :
    Along (PinState.next plainCodec) (PinHeld plainCodec)
        (.start plainCodec none (bootEnvelope "_sys")) (routed "acme") ∧
      pinChanges plainCodec (.start plainCodec none (bootEnvelope "_sys")) (routed "acme") ≤ 1 := by
  refine tenant_pin_held plainCodec none (bootEnvelope "_sys") (routed "acme") ⟨.inl rfl, ?_⟩
  intro st hst
  obtain rfl := Option.some.inj hst
  refine ⟨.inr (.inr (.inl (by decide))), fun st hst => ?_⟩
  obtain rfl := Option.some.inj hst
  refine ⟨fun e he hne => ?_, fun _ _ => trivial⟩
  obtain rfl := Option.some.inj he
  exact absurd (by decide) hne

/-- A route to a tenant that does not exist is refused, and taken by the next resume. -/
theorem tenant_pin_moved_by_resume :
    ¬ Along (PinState.next plainCodec) (PinHeld plainCodec)
      (.start plainCodec none (bootEnvelope "_sys")) (routed "ghost") := by
  rintro ⟨-, h⟩
  obtain ⟨-, h⟩ := h _ rfl
  obtain ⟨⟨hmove, -⟩, -⟩ := h _ rfl
  rw [PinMoves] at hmove
  revert hmove
  decide

end ThanksComputer.Scope
