import Mathlib.Algebra.Order.Group.Multiset
import ThanksComputer.Lib.Ownership
import ThanksComputer.Continuation.Protocol

/-! What the parties of a run hold, and the invariant of the store and of all that is held.  A run
has one pipeline at a time; a stage that is suspended and not yet claimed stands for the pipeline
that will resume there. -/

namespace ThanksComputer.Continuation

open Lib.CreateOnce Lib.Process

/-- Where a pipeline stands with deferred ops: it has marked an op as joined and not merged it yet,
it has merged the ops of a resumed join but for `es`, of which it has yet to mark `opc`, or it waits
for its dispatches, those of `todo` not started. -/
inductive Phase
  | run
  | won (opc : Opc)
  | resume (es : List Opc)
  | mark (opc : Opc) (es : List Opc)
  | await (todo all : List Opc)

namespace Phase

def ahead : Phase → List Opc
  | .resume es | .mark _ es => es
  | _ => []

/-- The ops a suspension may name though they are not joined. -/
def pending : Phase → List Opc
  | .resume es => es
  | .mark opc es => opc :: es
  | _ => []

end Phase

/-- `flows` are the pipelines with the ops they know to be joined, `wakers` will look at a stage
again, `guards` have yet to look at the stage they suspend for a join, `writers` have filed a
deferred op's terminal and will look where the run waits for it, `dispatching` may yet file a
terminal that nobody looks at. -/
@[ext] structure Purse where
  flows : Multiset (Phase × List Opc) := 0
  wakers : Multiset Stage := 0
  guards : Multiset Stage := 0
  writers : Multiset Opc := 0
  dispatching : Multiset Opc := 0

namespace Purse

instance : Add Purse where
  add a b := ⟨a.flows + b.flows, a.wakers + b.wakers, a.guards + b.guards, a.writers + b.writers,
    a.dispatching + b.dispatching⟩

instance : Zero Purse where
  zero := {}

@[simp] theorem flows_add (a b : Purse) : (a + b).flows = a.flows + b.flows := rfl
@[simp] theorem wakers_add (a b : Purse) : (a + b).wakers = a.wakers + b.wakers := rfl
@[simp] theorem guards_add (a b : Purse) : (a + b).guards = a.guards + b.guards := rfl
@[simp] theorem writers_add (a b : Purse) : (a + b).writers = a.writers + b.writers := rfl
@[simp] theorem dispatching_add (a b : Purse) :
    (a + b).dispatching = a.dispatching + b.dispatching := rfl
@[simp] theorem flows_zero : (0 : Purse).flows = 0 := rfl
@[simp] theorem wakers_zero : (0 : Purse).wakers = 0 := rfl
@[simp] theorem guards_zero : (0 : Purse).guards = 0 := rfl
@[simp] theorem writers_zero : (0 : Purse).writers = 0 := rfl
@[simp] theorem dispatching_zero : (0 : Purse).dispatching = 0 := rfl

instance : AddCommMonoid Purse where
  add_assoc a b c := by ext1 <;> simp [add_assoc]
  zero_add a := by ext1 <;> simp
  add_zero a := by ext1 <;> simp
  add_comm a b := by ext1 <;> simp [add_comm]
  nsmul := nsmulRec

@[simp] def flow (ph : Phase) (joined : List Opc) : Purse :=
  { flows := {(ph, joined)} }

@[simp] def waker (st : Stage) : Purse :=
  { wakers := {st} }

@[simp] def guard (st : Stage) : Purse :=
  { guards := {st} }

@[simp] def writer (opc : Opc) : Purse :=
  { writers := {opc} }

@[simp] def dispatcher (opc : Opc) : Purse :=
  { dispatching := {opc} }

end Purse

variable {s s' : Store Doc Event} {r r' : Purse}

/-- The stage is suspended and its resume is not claimed. -/
def Open (s : Store Doc Event) (st : Stage) (d : StageSuspended) : Prop :=
  s.docs (.stageSuspended st) = some d ∧ s.has (.resumeClaim st) = false

def Over (s : Store Doc Event) (r : Purse) : Prop :=
  r.flows = 0 ∧ ∀ st d, ¬Open s st d

def opcs (m : List OpManifestEntry) : List Opc :=
  m.filterMap OpManifestEntry.opc

def AllTerminal (s : Store Doc Event) (st : Stage) (m : List OpManifestEntry) : Prop :=
  ∀ e ∈ m, s.has (.terminal (e.place st)) = true

/-- Whoever does not look at the stage again filed its terminal while some other op had none. -/
def Rechecked (log : List (Entry Doc Event)) (st : Stage) (m : List OpManifestEntry) : Prop :=
  ∀ pre ref (d : OpTerminal) post, log = pre ++ .write (.terminal (.op st ref)) d true :: post →
    d.writer.rechecks = false →
    ∃ e ∈ m, e.ref ≠ ref ∧ .terminal (.op st e.ref) ∉ pre.filterMap Entry.created

/-- The deferred ops merged so far. -/
def mergedOpcs (log : List (Entry Doc Event)) : List Opc :=
  log.filterMap fun
    | .note (.merged opc) => some opc
    | .write _ _ _ => none

/-- One pipeline at a time. -/
structure Turn (s : Store Doc Event) (r : Purse) : Prop where
  one : r.flows.card ≤ 1
  busy : r.flows ≠ 0 → ∀ st d, ¬Open s st d
  alone : ∀ {st d st' d'}, Open s st d → Open s st' d' → st = st'
  ended : (s.has .result = true ∨ (∃ st, s.has (.stageFailed st) = true) ∨
    ∃ st d, .write (.stageSuspended st) d false ∈ s.log) → Over s r

structure Wake (s : Store Doc Event) (r : Purse) : Prop where
  shape : ∀ {st d}, s.docs (.stageSuspended st) = some d →
    d.manifest ≠ [] ∧ ((∀ e ∈ d.manifest, e.opc = none) ∨ ∀ e ∈ d.manifest, e.opc ≠ none)
  barrier : ∀ {st d}, s.has .runFailed = false → Open s st d →
    (∀ e ∈ d.manifest, e.opc = none) → AllTerminal s st d.manifest →
    Rechecked s.log st d.manifest → st ∈ r.wakers
  join : ∀ {st d}, s.has .runFailed = false → Open s st d →
    (∀ e ∈ d.manifest, e.opc ≠ none) → AllTerminal s st d.manifest →
    st ∈ r.wakers ∨ st ∈ r.guards ∨ ∃ o ∈ opcs d.manifest, o ∈ r.writers
  marked : ∀ {st d}, Open s st d →
    st ∈ r.guards ∨ ∀ o ∈ opcs d.manifest, s.has (.suspendedAt o) = true
  mark_eq : ∀ {st d o st'}, Open s st d → o ∈ opcs d.manifest →
    s.docs (.suspendedAt o) = some st' → st' = st

structure Joins (s : Store Doc Event) (r : Purse) : Prop where
  known : ∀ {ph J}, (ph, J) ∈ r.flows → ∀ o, s.has (.joined o) = true ↔ o ∈ J
  waiting : ∀ {st d}, Open s st d →
    (opcs d.manifest).Nodup ∧ ∀ o ∈ opcs d.manifest, s.has (.joined o) = false
  ahead : ∀ {ph J}, (ph, J) ∈ r.flows → ph.pending.Nodup ∧ ∀ o ∈ ph.ahead, o ∉ J
  won : ∀ {o J}, (.won o, J) ∈ r.flows → o ∉ mergedOpcs s.log ∧ o ∈ J
  flow_marks : ∀ {ph J}, (ph, J) ∈ r.flows → ∀ o, s.has (.suspendedAt o) = true →
    o ∈ J ∨ o ∈ ph.pending
  open_marks : ∀ {st d}, Open s st d → ∀ o, s.has (.suspendedAt o) = true →
    s.has (.joined o) = true ∨ o ∈ opcs d.manifest
  resumed : ∀ {st d}, s.docs (.stageSuspended st) = some d → s.has (.resumeClaim st) = true →
    ∀ o ∈ opcs d.manifest, s.has (.joined o) = true ∨
      (∃ ph J, (ph, J) ∈ r.flows ∧ o ∈ ph.pending) ∨ Over s r
  merged : ∀ o ∈ mergedOpcs s.log, s.has (.joined o) = true ∨ ∃ es J, (.mark o es, J) ∈ r.flows
  once : (mergedOpcs s.log).Nodup

structure Dispatches (s : Store Doc Event) (r : Purse) : Prop where
  distinct : r.dispatching.Nodup
  active : ∀ o ∈ r.dispatching, s.has (.returned o) = false ∧
    ∃ todo all J, (.await todo all, J) ∈ r.flows ∧ o ∈ all ∧ o ∉ todo
  todo : ∀ {todo all J}, (.await todo all, J) ∈ r.flows →
    todo.Nodup ∧ ∀ o ∈ todo, s.has (.returned o) = false

def Rule (pre : List (Entry Doc Event)) : Entry Doc Event → Prop
  | .write (.terminal (.op st _)) _ _ => .stageSuspended st ∈ pre.filterMap Entry.created
  | .write (.resumeClaim st) _ _ => .stageSuspended st ∈ pre.filterMap Entry.created
  | .write (.stageSuspended st) _ fresh =>
    (fresh = true ↔ .stageSuspended st ∉ pre.filterMap Entry.created) ∧
      (.stageSuspended st ∈ pre.filterMap Entry.created →
        .resumeClaim st ∈ pre.filterMap Entry.created) ∧
      .result ∉ pre.filterMap Entry.created ∧
      ∀ st', .stageFailed st' ∉ pre.filterMap Entry.created
  | .write .result _ _ => ∀ st', .stageFailed st' ∉ pre.filterMap Entry.created
  | _ => True

/-- `swept` says whether there is a sweeper. -/
structure Inv (swept : Prop) (s : Store Doc Event) (r : Purse) : Prop where
  order : Ordered Rule s.log
  lookups : ∀ {o lk}, s.docs (.opContinuation o) = some lk → lk.deferred = false →
    s.has (.stageSuspended lk.stage) = true
  failed : s.has .runFailed = true → swept
  turn : Turn s r
  wake : Wake s r
  joins : Joins s r
  dispatches : Dispatches s r

section Frame

theorem has_congr {k : Key} (h : s'.docs k = s.docs k) : s'.has k = s.has k := by
  rw [Store.has, Store.has, h]

theorem docs_create_of_rel (rel : Key → Bool) {k : Key} (hk : rel k = false) (d : Doc k) (k' : Key)
    (hk' : rel k' = true) : (s.create k d).docs k' = s.docs k' := by
  refine Store.docs_create_of_ne s d ?_
  rintro rfl
  rw [hk] at hk'
  cases hk'

def Key.turns : Key → Bool
  | .result | .stageFailed _ | .stageSuspended _ | .resumeClaim _ => true
  | _ => false

def Key.wakes : Key → Bool
  | .runFailed | .stageSuspended _ | .resumeClaim _ | .terminal _ | .suspendedAt _ => true
  | _ => false

def Key.joins : Key → Bool
  | .joined _ | .stageSuspended _ | .resumeClaim _ | .suspendedAt _ => true
  | _ => false

theorem open_congr {st : Stage} {d : StageSuspended}
    (hdoc : s'.docs (.stageSuspended st) = s.docs (.stageSuspended st))
    (hclaim : s'.docs (.resumeClaim st) = s.docs (.resumeClaim st)) :
      Open s' st d ↔ Open s st d := by
  rw [Open, Open, hdoc, has_congr hclaim]

theorem over_congr
    (hdoc : ∀ st, s'.docs (.stageSuspended st) = s.docs (.stageSuspended st))
    (hclaim : ∀ st, s'.docs (.resumeClaim st) = s.docs (.resumeClaim st))
    (hflows : r'.flows = r.flows) : Over s' r' ↔ Over s r := by
  simp only [Over, hflows, open_congr (hdoc _) (hclaim _)]

theorem Turn.frame (h : Turn s r) (hdocs : ∀ k, k.turns = true → s'.docs k = s.docs k)
    (hlog : ∀ st d, .write (.stageSuspended st) d false ∈ s'.log →
      .write (.stageSuspended st) d false ∈ s.log)
    (hcard : r'.flows.card = r.flows.card) : Turn s' r' := by
  have hopen : ∀ {st d}, Open s' st d ↔ Open s st d := open_congr (hdocs _ rfl) (hdocs _ rfl)
  have hzero : r'.flows = 0 ↔ r.flows = 0 := by
    rw [← Multiset.card_eq_zero, hcard, Multiset.card_eq_zero]
  constructor
  · rw [hcard]
    exact h.one
  · intro hne st d hop
    exact h.busy (fun hr => hne (hzero.mpr hr)) st d (hopen.mp hop)
  · intro st d st' d' hop hop'
    exact h.alone (hopen.mp hop) (hopen.mp hop')
  · intro hend
    have hover : Over s r := by
      refine h.ended ?_
      rcases hend with hres | ⟨st, hst⟩ | ⟨st, d, hst⟩
      · exact .inl ((has_congr (hdocs _ rfl)).symm.trans hres)
      · exact .inr (.inl ⟨st, (has_congr (hdocs _ rfl)).symm.trans hst⟩)
      · exact .inr (.inr ⟨st, d, hlog st d hst⟩)
    exact ⟨hzero.mpr hover.1, fun st d hop => hover.2 st d (hopen.mp hop)⟩

theorem Wake.frame (h : Wake s r) (hdocs : ∀ k, k.wakes = true → s'.docs k = s.docs k)
    (hlog : s.log <+: s'.log) (hwakers : r.wakers ⊆ r'.wakers) (hguards : r.guards ⊆ r'.guards)
    (hwriters : r.writers ⊆ r'.writers) : Wake s' r' := by
  have hopen : ∀ {st d}, Open s' st d ↔ Open s st d := open_congr (hdocs _ rfl) (hdocs _ rfl)
  have hterm : ∀ {st m}, AllTerminal s' st m ↔ AllTerminal s st m := by
    intro st m
    simp only [AllTerminal, has_congr (hdocs (.terminal _) rfl)]
  have hmark : ∀ {o}, s'.has (.suspendedAt o) = s.has (.suspendedAt o) := has_congr (hdocs _ rfl)
  constructor
  · intro st d hdoc
    rw [hdocs _ rfl] at hdoc
    exact h.shape hdoc
  · intro st d hfail hop hnone hall hrec
    rw [has_congr (hdocs _ rfl)] at hfail
    refine hwakers (h.barrier hfail (hopen.mp hop) hnone (hterm.mp hall) ?_)
    intro pre ref t post heq
    obtain ⟨post', hpost'⟩ := hlog
    exact hrec pre ref t (post ++ post') (by rw [← hpost', heq]; simp)
  · intro st d hfail hop hsome hall
    rw [has_congr (hdocs _ rfl)] at hfail
    rcases h.join hfail (hopen.mp hop) hsome (hterm.mp hall) with hw | hg | ⟨o, ho, hmem⟩
    · exact .inl (hwakers hw)
    · exact .inr (.inl (hguards hg))
    · exact .inr (.inr ⟨o, ho, hwriters hmem⟩)
  · intro st d hop
    rcases h.marked (hopen.mp hop) with hg | hall
    · exact .inl (hguards hg)
    · exact .inr fun o ho => hmark.trans (hall o ho)
  · intro st d o st' hop ho hdoc
    rw [hdocs _ rfl] at hdoc
    exact h.mark_eq (hopen.mp hop) ho hdoc

theorem Joins.frame (h : Joins s r) (hdocs : ∀ k, k.joins = true → s'.docs k = s.docs k)
    (hlog : mergedOpcs s'.log = mergedOpcs s.log) (hflows : r'.flows = r.flows) : Joins s' r' := by
  have hopen : ∀ {st d}, Open s' st d ↔ Open s st d := open_congr (hdocs _ rfl) (hdocs _ rfl)
  have hover : Over s' r' ↔ Over s r :=
    over_congr (fun _ => hdocs _ rfl) (fun _ => hdocs _ rfl) hflows
  have hjoined : ∀ {o}, s'.has (.joined o) = s.has (.joined o) := has_congr (hdocs _ rfl)
  have hmark : ∀ {o}, s'.has (.suspendedAt o) = s.has (.suspendedAt o) := has_congr (hdocs _ rfl)
  constructor
  · intro ph J hmem o
    rw [hflows] at hmem
    rw [hjoined]
    exact h.known hmem o
  · intro st d hop
    simpa only [hjoined] using h.waiting (hopen.mp hop)
  · intro ph J hmem
    rw [hflows] at hmem
    exact h.ahead hmem
  · intro o J hmem
    rw [hflows] at hmem
    rw [hlog]
    exact h.won hmem
  · intro ph J hmem o ho
    rw [hflows] at hmem
    exact h.flow_marks hmem o (hmark.symm.trans ho)
  · intro st d hop o ho
    rw [hjoined]
    exact h.open_marks (hopen.mp hop) o (hmark.symm.trans ho)
  · intro st d hdoc hclaim o ho
    rw [hdocs _ rfl] at hdoc
    rw [has_congr (hdocs _ rfl)] at hclaim
    rw [hjoined, hflows, hover]
    exact h.resumed hdoc hclaim o ho
  · intro o ho
    rw [hlog] at ho
    rw [hjoined, hflows]
    exact h.merged o ho
  · rw [hlog]
    exact h.once

theorem Dispatches.frame (h : Dispatches s r)
    (hdocs : ∀ o, s'.docs (.returned o) = s.docs (.returned o)) (hflows : r'.flows = r.flows)
    (hdisp : r'.dispatching = r.dispatching) : Dispatches s' r' := by
  constructor
  · rw [hdisp]
    exact h.distinct
  · intro o ho
    rw [hdisp] at ho
    rw [has_congr (hdocs o), hflows]
    exact h.active o ho
  · intro todo all J hmem
    rw [hflows] at hmem
    simpa only [has_congr (hdocs _)] using h.todo hmem

@[simp] theorem mergedOpcs_write (log : List (Entry Doc Event)) (k : Key) (d : Doc k)
    (fresh : Bool) :
    mergedOpcs (log ++ [.write k d fresh]) = mergedOpcs log := by
  simp [mergedOpcs]

@[simp] theorem mergedOpcs_note (log : List (Entry Doc Event)) (o : Opc) :
    mergedOpcs (log ++ [.note (.merged o)]) = mergedOpcs log ++ [o] := by
  simp [mergedOpcs]

end Frame

end ThanksComputer.Continuation
