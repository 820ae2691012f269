import ThanksComputer.Continuation.Ledger

/-! What each store operation of the protocol does to the invariant, with what its party gives up
and gets. -/

namespace ThanksComputer.Continuation

open Lib.CreateOnce Lib.Process

variable {swept : Prop} {s : Store Doc Event} {r r' f : Purse}

theorem Store.created_iff {k : Key} : k ∈ s.log.filterMap Entry.created ↔ s.has k = true :=
  Store.mem_keys

theorem stale_of_create {k : Key} {d : Doc k} {st : Stage} {x : StageSuspended}
    (hk : k.turns = false)
    (h : .write (.stageSuspended st) x false ∈ (s.create k d).log) :
    .write (.stageSuspended st) x false ∈ s.log := by
  rw [Store.log_create, List.mem_append, List.mem_singleton] at h
  rcases h with h | h
  · exact h
  · simp only [Entry.write.injEq] at h
    obtain ⟨rfl, -⟩ := h
    cases hk

theorem subset_add {α : Type} (x y : Multiset α) : y ⊆ x + y :=
  Multiset.subset_of_le (Multiset.le_add_left y x)

theorem prefix_create (s : Store Doc Event) (k : Key) (d : Doc k) : s.log <+: (s.create k d).log :=
  (Grows.create s k d).log

namespace Turn

theorem create (h : Turn s r) (k : Key) (d : Doc k) (hk : k.turns = false)
    (hcard : r'.flows.card = r.flows.card) : Turn (s.create k d) r' :=
  h.frame (docs_create_of_rel Key.turns hk d) (fun _ _ hst => stale_of_create hk hst) hcard

theorem flows_eq_zero {ph : Phase} {J : List Opc} (h : Turn s (.flow ph J + f)) : f.flows = 0 := by
  have hone := h.one
  simp only [Purse.flows_add, Purse.flow, Multiset.card_add, Multiset.card_singleton] at hone
  exact Multiset.card_eq_zero.mp (by omega)

theorem not_open {ph : Phase} {J : List Opc} (h : Turn s (.flow ph J + f)) (st : Stage)
    (d : StageSuspended) : ¬Open s st d :=
  h.busy (by simp) st d

theorem not_ended {ph : Phase} {J : List Opc} (h : Turn s (.flow ph J + f)) :
    s.has .result = false ∧ (∀ st, s.has (.stageFailed st) = false) ∧
      ∀ st d, .write (.stageSuspended st) d false ∉ s.log := by
  have hrun : ¬Over s (.flow ph J + f) := fun hover => by simp [Over] at hover
  refine ⟨?_, ?_, ?_⟩
  · exact Bool.eq_false_iff.mpr fun hres => hrun (h.ended (.inl hres))
  · exact fun st => Bool.eq_false_iff.mpr fun hst => hrun (h.ended (.inr (.inl ⟨st, hst⟩)))
  · exact fun st d hst => hrun (h.ended (.inr (.inr ⟨st, d, hst⟩)))

theorem mem_flows {ph ph' : Phase} {J J' : List Opc} (h : Turn s (.flow ph J + f)) :
    (ph', J') ∈ (Purse.flow ph J + f).flows ↔ ph' = ph ∧ J' = J := by
  simp [h.flows_eq_zero]

theorem flow_unique {x y : Phase × List Opc} (h : Turn s r) (hx : x ∈ r.flows) (hy : y ∈ r.flows) :
    x = y := by
  have hpos : 0 < r.flows.card := Multiset.card_pos_iff_exists_mem.mpr ⟨x, hx⟩
  obtain ⟨z, hz⟩ := Multiset.card_eq_one.mp (le_antisymm h.one hpos)
  rw [hz, Multiset.mem_singleton] at hx hy
  rw [hx, hy]

theorem flows_of_open {st : Stage} {d : StageSuspended} (h : Turn s r) (hop : Open s st d) :
    r.flows = 0 := by
  by_contra hne
  exact h.busy hne st d hop

end Turn

theorem Wake.create (h : Wake s r) (k : Key) (d : Doc k) (hk : k.wakes = false)
    (hwakers : r.wakers ⊆ r'.wakers) (hguards : r.guards ⊆ r'.guards)
    (hwriters : r.writers ⊆ r'.writers) : Wake (s.create k d) r' :=
  h.frame (docs_create_of_rel Key.wakes hk d) (prefix_create s k d) hwakers hguards hwriters

theorem Joins.create (h : Joins s r) (k : Key) (d : Doc k) (hk : k.joins = false)
    (hflows : r'.flows = r.flows) : Joins (s.create k d) r' :=
  h.frame (docs_create_of_rel Key.joins hk d) (by rw [Store.log_create, mergedOpcs_write]) hflows

theorem Dispatches.create (h : Dispatches s r) (k : Key) (d : Doc k) (hk : ∀ o, k ≠ .returned o)
    (hflows : r'.flows = r.flows) (hdisp : r'.dispatching = r.dispatching) :
    Dispatches (s.create k d) r' :=
  h.frame (fun o => Store.docs_create_of_ne s d (hk o).symm) hflows hdisp

namespace Inv

theorem created (h : Inv swept s r) (k : Key) (d : Doc k) (hlookup : ∀ o, k ≠ .opContinuation o)
    (hfail : k ≠ .runFailed) (hrule : Rule s.log (.write k d (!s.has k)))
    (turn : Turn (s.create k d) r') (wake : Wake (s.create k d) r')
    (joins : Joins (s.create k d) r') (dispatches : Dispatches (s.create k d) r') :
    Inv swept (s.create k d) r' := by
  refine ⟨?_, ?_, ?_, turn, wake, joins, dispatches⟩
  · rw [Store.log_create]
    exact h.order.snoc hrule
  · intro o lk hlk hdef
    rw [Store.docs_create_of_ne s d (hlookup o).symm] at hlk
    exact (Grows.create s k d).has (h.lookups hlk hdef)
  · intro hrun
    rw [Store.has_create_of_ne s d hfail.symm] at hrun
    exact h.failed hrun

end Inv

/-- The documents the invariant does not look at. -/
def Key.plain : Key → Bool
  | .runCreated | .opInput _ _ | .opCreated _ _ | .opAccepted _ _ | .output _ | .error _
  | .deferredInput _ | .deferredCreated _ | .pendingJoin _ => true
  | _ => false

theorem Inv.create_plain (h : Inv swept s r) {k : Key} (hk : k.plain = true) (d : Doc k) :
    Inv swept (s.create k d) r := by
  have hturns : k.turns = false := by cases k <;> first | rfl | cases hk
  have hwakes : k.wakes = false := by cases k <;> first | rfl | cases hk
  have hjoins : k.joins = false := by cases k <;> first | rfl | cases hk
  have hreturned : ∀ o, k ≠ .returned o := by
    rintro o rfl
    cases hk
  have hlookup : ∀ o, k ≠ .opContinuation o := by
    rintro o rfl
    cases hk
  have hfail : k ≠ .runFailed := by
    rintro rfl
    cases hk
  have hrule : Rule s.log (.write k d (!s.has k)) := by cases k <;> trivial
  exact h.created k d hlookup hfail hrule (h.turn.create k d hturns rfl)
    (h.wake.create k d hwakes (by simp) (by simp) (by simp)) (h.joins.create k d hjoins rfl)
    (h.dispatches.create k d hreturned rfl rfl)

theorem Inv.create_lookup (h : Inv swept s r) (o : Opc) (lk : OpContinuationLookup)
    (hlk : lk.deferred = false → s.has (.stageSuspended lk.stage) = true) :
    Inv swept (s.create (.opContinuation o) lk) r := by
  refine ⟨?_, ?_, ?_, h.turn.create _ _ rfl rfl,
    h.wake.create _ _ rfl (by simp) (by simp) (by simp), h.joins.create _ _ rfl rfl,
    h.dispatches.create _ _ (by simp) rfl rfl⟩
  · rw [Store.log_create]
    exact h.order.snoc trivial
  · intro o' lk' hdoc hdef
    have hgrows := Grows.create s (.opContinuation o) lk
    by_cases ho : o' = o
    · subst ho
      rw [Store.docs_create_self] at hdoc
      split at hdoc
      · exact hgrows.has (h.lookups hdoc hdef)
      · cases hdoc
        exact hgrows.has (hlk hdef)
    · have hne : Key.opContinuation o' ≠ .opContinuation o := by simpa using ho
      rw [Store.docs_create_of_ne s _ hne] at hdoc
      exact hgrows.has (h.lookups hdoc hdef)
  · simpa using h.failed

section Terminals

variable {p : Place} {t : OpTerminal}

theorem Wake.create_terminal (h : Wake s r) (hwakers : r.wakers ⊆ r'.wakers)
    (hguards : r.guards ⊆ r'.guards) (hwriters : r.writers ⊆ r'.writers)
    (hbarrier : ∀ st d e, Open s st d → (∀ e ∈ d.manifest, e.opc = none) →
      AllTerminal (s.create (.terminal p) t) st d.manifest →
      Rechecked (s.create (.terminal p) t).log st d.manifest → e ∈ d.manifest → e.place st = p →
      s.has (.terminal p) = false → st ∈ r'.wakers)
    (hjoin : ∀ st d e, Open s st d → (∀ e ∈ d.manifest, e.opc ≠ none) →
      e ∈ d.manifest → e.place st = p →
      st ∈ r'.wakers ∨ st ∈ r'.guards ∨ ∃ o ∈ opcs d.manifest, o ∈ r'.writers) :
    Wake (s.create (.terminal p) t) r' := by
  have hopen : ∀ {st d}, Open (s.create (.terminal p) t) st d ↔ Open s st d :=
    open_congr (by simp) (by simp)
  have hnew : ∀ {st m}, AllTerminal (s.create (.terminal p) t) st m → ¬AllTerminal s st m →
      ∃ e ∈ m, e.place st = p ∧ s.has (.terminal p) = false := by
    intro st m hall hnot
    simp only [AllTerminal, not_forall] at hnot
    obtain ⟨e, hmem, hfalse⟩ := hnot
    refine ⟨e, hmem, ?_⟩
    by_cases hp : e.place st = p
    · exact ⟨hp, by simpa [hp] using hfalse⟩
    · have hne : Key.terminal (e.place st) ≠ .terminal p := by simpa using hp
      have hold := hall e hmem
      rw [Store.has_create_of_ne s _ hne] at hold
      exact absurd hold hfalse
  constructor
  · intro st d hdoc
    rw [Store.docs_create_of_ne s _ (by simp)] at hdoc
    exact h.shape hdoc
  · intro st d hfail hop hnone hall hrec
    rw [Store.has_create_of_ne s _ (by simp)] at hfail
    by_cases hold : AllTerminal s st d.manifest
    · refine hwakers (h.barrier hfail (hopen.mp hop) hnone hold ?_)
      intro pre ref x post heq
      exact hrec pre ref x _ (by rw [Store.log_create, heq, List.append_assoc, List.cons_append])
    · obtain ⟨e, he, hp, hno⟩ := hnew hall hold
      exact hbarrier st d e (hopen.mp hop) hnone hall hrec he hp hno
  · intro st d hfail hop hsome hall
    rw [Store.has_create_of_ne s _ (by simp)] at hfail
    by_cases hold : AllTerminal s st d.manifest
    · rcases h.join hfail (hopen.mp hop) hsome hold with hw | hg | ⟨o, ho, hmem⟩
      · exact .inl (hwakers hw)
      · exact .inr (.inl (hguards hg))
      · exact .inr (.inr ⟨o, ho, hwriters hmem⟩)
    · obtain ⟨e, he, hp, -⟩ := hnew hall hold
      exact hjoin st d e (hopen.mp hop) hsome he hp
  · intro st d hop
    rcases h.marked (hopen.mp hop) with hg | hall
    · exact .inl (hguards hg)
    · exact .inr fun o ho => by simpa using hall o ho
  · intro st d o st' hop ho hdoc
    rw [Store.docs_create_of_ne s _ (by simp)] at hdoc
    exact h.mark_eq (hopen.mp hop) ho hdoc

theorem place_eq_op {e : OpManifestEntry} {st st' : Stage} {ref : OpRef}
    (h : e.place st = .op st' ref) : e.opc = none ∧ st = st' ∧ e.ref = ref := by
  rw [OpManifestEntry.place] at h
  split at h
  · cases h
  · next hnone =>
    cases h
    exact ⟨hnone, rfl, rfl⟩

theorem place_eq_deferred {e : OpManifestEntry} {st : Stage} {o : Opc}
    (h : e.place st = .deferred o) : e.opc = some o := by
  rw [OpManifestEntry.place] at h
  split at h
  · next hsome =>
    cases h
    exact hsome
  · cases h

theorem mem_opcs {m : List OpManifestEntry} {o : Opc} : o ∈ opcs m ↔ ∃ e ∈ m, e.opc = some o :=
  List.mem_filterMap

theorem Inv.create_terminal (h : Inv swept s r) (hrule : Rule s.log (.write (.terminal p) t
    (!s.has (.terminal p)))) (hflows : r'.flows = r.flows) (hdisp : r'.dispatching = r.dispatching)
    (wake : Wake (s.create (.terminal p) t) r') : Inv swept (s.create (.terminal p) t) r' :=
  h.created (.terminal p) t (by simp) (by simp) hrule
    (h.turn.create (.terminal p) t rfl (by rw [hflows])) wake
    (h.joins.create (.terminal p) t rfl hflows)
    (h.dispatches.create (.terminal p) t (by simp) hflows hdisp)

theorem Inv.file_rechecked (h : Inv swept s r) {st : Stage} {ref : OpRef}
    (hst : s.has (.stageSuspended st) = true) :
    Inv swept (s.create (.terminal (.op st ref)) t) (.waker st + r) := by
  refine h.create_terminal (Store.created_iff.mpr hst) (by simp) (by simp) ?_
  refine h.wake.create_terminal (subset_add _ _) (by simp) (by simp) ?_ ?_
  · intro st' d e _ _ _ _ _ hp _
    obtain ⟨-, rfl, -⟩ := place_eq_op hp
    simp
  · intro st' d e _ hsome he hp
    exact absurd (place_eq_op hp).1 (hsome e he)

theorem Inv.file_unchecked (h : Inv swept s r) {st : Stage} {ref : OpRef}
    (hst : s.has (.stageSuspended st) = true) (ht : t.writer.rechecks = false) :
    Inv swept (s.create (.terminal (.op st ref)) t) r := by
  refine h.create_terminal (Store.created_iff.mpr hst) rfl rfl ?_
  refine h.wake.create_terminal (by simp) (by simp) (by simp) ?_ ?_
  · intro st' d e _ hnone hall hrec he hp hno
    obtain ⟨-, rfl, rfl⟩ := place_eq_op hp
    have hlog : (s.create (.terminal (.op st' e.ref)) t).log =
        s.log ++ .write (.terminal (.op st' e.ref)) t true :: [] := by
      rw [Store.log_create, hno]
      rfl
    obtain ⟨e', he', hne, hmiss⟩ := hrec s.log e.ref t [] hlog ht
    have hplace : e'.place st' = .op st' e'.ref := by simp [OpManifestEntry.place, hnone e' he']
    have hthere := hall e' he'
    have hkey : Key.terminal (.op st' e'.ref) ≠ .terminal (.op st' e.ref) := by simpa using hne
    rw [hplace, Store.has_create_of_ne s _ hkey] at hthere
    exact absurd (Store.created_iff.mpr hthere) hmiss
  · intro st' d e _ hsome he hp
    exact absurd (place_eq_op hp).1 (hsome e he)

theorem Inv.file_deferred (h : Inv swept s r) {o : Opc} :
    Inv swept (s.create (.terminal (.deferred o)) t) (.writer o + r) := by
  refine h.create_terminal trivial (by simp) (by simp) ?_
  refine h.wake.create_terminal (by simp) (by simp) (subset_add _ _) ?_ ?_
  · intro st d e _ hnone _ _ he hp _
    simp [OpManifestEntry.place, hnone e he] at hp
  · intro st d e _ _ he hp
    exact .inr (.inr ⟨o, mem_opcs.mpr ⟨e, he, place_eq_deferred hp⟩, by simp⟩)

theorem Inv.file_deferred_unchecked (h : Inv swept s r) (hflow : r.flows ≠ 0) {o : Opc} :
    Inv swept (s.create (.terminal (.deferred o)) t) r := by
  refine h.create_terminal trivial rfl rfl ?_
  refine h.wake.create_terminal (by simp) (by simp) (by simp) ?_ ?_
  · intro st d e hop
    exact absurd hop (h.turn.busy hflow st d)
  · intro st d e hop
    exact absurd hop (h.turn.busy hflow st d)

end Terminals

section Stages

theorem has_of_pre {pre post : List (Entry Doc Event)} {e : Entry Doc Event} {k : Key}
    (hlog : s.log = pre ++ e :: post) (hk : k ∈ pre.filterMap Entry.created) : s.has k = true := by
  rw [← Store.created_iff, hlog, List.filterMap_append]
  exact List.mem_append_left _ hk

theorem Inv.suspended_of_claimed (h : Inv swept s r) {st : Stage}
    (hclaim : s.has (.resumeClaim st) = true) : s.has (.stageSuspended st) = true := by
  obtain ⟨d, hd⟩ := Store.docs_of_has hclaim
  obtain ⟨pre, post, hlog⟩ := List.append_of_mem ((s.docs_iff _ d).mp hd)
  exact has_of_pre hlog (h.order pre _ post hlog)

theorem Inv.suspended_of_terminal (h : Inv swept s r) {st : Stage} {ref : OpRef}
    (hterm : s.has (.terminal (.op st ref)) = true) : s.has (.stageSuspended st) = true := by
  obtain ⟨d, hd⟩ := Store.docs_of_has hterm
  obtain ⟨pre, post, hlog⟩ := List.append_of_mem ((s.docs_iff _ d).mp hd)
  exact has_of_pre hlog (h.order pre _ post hlog)

theorem Inv.claimed_of_flow {ph : Phase} {J : List Opc} (h : Inv swept s (.flow ph J + f))
    {st : Stage} (hst : s.has (.stageSuspended st) = true) : s.has (.resumeClaim st) = true := by
  obtain ⟨d, hd⟩ := Store.docs_of_has hst
  by_contra hclaim
  exact h.turn.not_open st d ⟨hd, by simpa using hclaim⟩

def Phase.marks : Phase → Bool
  | .mark _ _ => true
  | _ => false

def Phase.awaits : Phase → Bool
  | .await _ _ => true
  | _ => false

theorem Inv.merged_joined {ph : Phase} {J : List Opc} (h : Inv swept s (.flow ph J + f))
    (hph : ph.marks = false) : ∀ o ∈ mergedOpcs s.log, s.has (.joined o) = true := by
  intro o ho
  rcases h.joins.merged o ho with hjoined | ⟨es, J', hmem⟩
  · exact hjoined
  · obtain ⟨rfl, -⟩ := h.turn.mem_flows.mp hmem
    cases hph

theorem Inv.no_dispatching {ph : Phase} {J : List Opc} (h : Inv swept s (.flow ph J + f))
    (hph : ph.awaits = false) (o : Opc) : o ∉ f.dispatching := by
  intro ho
  obtain ⟨-, todo, all, J', hmem, -⟩ := h.dispatches.active o (by simpa using ho)
  obtain ⟨rfl, -⟩ := h.turn.mem_flows.mp hmem
  cases hph

theorem Inv.flow_resumed {ph : Phase} {J : List Opc} (h : Inv swept s (.flow ph J + f))
    {st : Stage} {d : StageSuspended} (hdoc : s.docs (.stageSuspended st) = some d) {o : Opc}
    (ho : o ∈ opcs d.manifest) : s.has (.joined o) = true ∨ o ∈ ph.pending := by
  have hclaim := h.claimed_of_flow (Store.has_of_docs hdoc)
  rcases h.joins.resumed hdoc hclaim o ho with hjoined | ⟨ph', J', hmem, hpend⟩ | hover
  · exact .inl hjoined
  · obtain ⟨rfl, -⟩ := h.turn.mem_flows.mp hmem
    exact .inr hpend
  · simp [Over] at hover

variable {J : List Opc} {st : Stage} {d : StageSuspended} {g : Purse}

theorem Inv.rule_suspend {ph : Phase} (h : Inv swept s (.flow ph J + f)) :
    Rule s.log (.write (.stageSuspended st) d (!s.has (.stageSuspended st))) := by
  obtain ⟨hres, hfail, -⟩ := h.turn.not_ended
  refine ⟨?_, ?_, ?_, ?_⟩
  · rw [Store.created_iff]
    simp
  · rw [Store.created_iff, Store.created_iff]
    exact h.claimed_of_flow
  · rw [Store.created_iff, hres]
    simp
  · intro st'
    rw [Store.created_iff, hfail st']
    simp

theorem open_suspend (hnone : ∀ st d, ¬Open s st d) {st' : Stage} {d' : StageSuspended}
    (hop : Open (s.create (.stageSuspended st) d) st' d') :
    st' = st ∧ d' = d ∧ s.has (.stageSuspended st) = false := by
  obtain ⟨hdoc, hclaim⟩ := hop
  rw [Store.has_create_of_ne s _ (by simp)] at hclaim
  by_cases hst : st' = st
  · subst hst
    rw [Store.docs_create_self] at hdoc
    split at hdoc
    · exact absurd ⟨hdoc, hclaim⟩ (hnone st' d')
    · next hno =>
      cases hdoc
      exact ⟨rfl, rfl, by simpa using hno⟩
  · have hne : Key.stageSuspended st' ≠ .stageSuspended st := by simpa using hst
    rw [Store.docs_create_of_ne s _ hne] at hdoc
    exact absurd ⟨hdoc, hclaim⟩ (hnone st' d')

/-- What a pipeline that knows `J` to be joined suspends with, and holds after. -/
structure Suspends (J : List Opc) (st : Stage) (d : StageSuspended) (g : Purse) : Prop where
  flows : g.flows = 0
  dispatching : g.dispatching = 0
  nonempty : d.manifest ≠ []
  shape : (∀ e ∈ d.manifest, e.opc = none) ∨ (∀ e ∈ d.manifest, e.opc ≠ none) ∧ st ∈ g.guards
  distinct : (opcs d.manifest).Nodup
  fresh : ∀ o ∈ opcs d.manifest, o ∉ J

theorem opcs_eq_nil {m : List OpManifestEntry} (h : ∀ e ∈ m, e.opc = none) : opcs m = [] := by
  rw [opcs, List.filterMap_eq_nil_iff]
  exact h

theorem Inv.turn_suspend (h : Inv swept s (.flow .run J + f)) (hd : Suspends J st d g) :
    Turn (s.create (.stageSuspended st) d) (g + f) := by
  obtain ⟨hres, hfail, hstale⟩ := h.turn.not_ended
  have hflows : (g + f).flows = 0 := by simp [hd.flows, h.turn.flows_eq_zero]
  constructor
  · simp [hflows]
  · exact fun hne => absurd hflows hne
  · intro st₁ d₁ st₂ d₂ hop₁ hop₂
    rw [(open_suspend h.turn.not_open hop₁).1, (open_suspend h.turn.not_open hop₂).1]
  · rintro (hend | ⟨st', hend⟩ | ⟨st', d', hend⟩)
    · rw [Store.has_create_of_ne s _ (by simp), hres] at hend
      cases hend
    · rw [Store.has_create_of_ne s _ (by simp), hfail] at hend
      cases hend
    · refine ⟨hflows, fun st₁ d₁ hop => ?_⟩
      have hno := (open_suspend h.turn.not_open hop).2.2
      rw [Store.log_create, hno, List.mem_append, List.mem_singleton] at hend
      rcases hend with hend | hend
      · exact hstale st' d' hend
      · simp at hend

theorem Inv.wake_suspend (h : Inv swept s (.flow .run J + f)) (hd : Suspends J st d g) :
    Wake (s.create (.stageSuspended st) d) (g + f) := by
  have hguard : st ∈ g.guards → st ∈ (g + f).guards := fun hmem => by simp [hmem]
  constructor
  · intro st' d' hdoc
    by_cases hst : st' = st
    · subst hst
      rw [Store.docs_create_self] at hdoc
      split at hdoc
      · exact h.wake.shape hdoc
      · cases hdoc
        exact ⟨hd.nonempty, hd.shape.imp_right And.left⟩
    · have hne : Key.stageSuspended st' ≠ .stageSuspended st := by simpa using hst
      rw [Store.docs_create_of_ne s _ hne] at hdoc
      exact h.wake.shape hdoc
  · intro st' d' _ hop hnone hall _
    obtain ⟨rfl, rfl, hno⟩ := open_suspend h.turn.not_open hop
    obtain ⟨e, he⟩ := List.exists_mem_of_ne_nil _ hd.nonempty
    have hterm := hall e he
    rw [Store.has_create_of_ne s _ (by simp)] at hterm
    rw [OpManifestEntry.place, hnone e he] at hterm
    rw [h.suspended_of_terminal hterm] at hno
    cases hno
  · intro st' d' _ hop hsome _
    obtain ⟨rfl, rfl, -⟩ := open_suspend h.turn.not_open hop
    obtain ⟨e, he⟩ := List.exists_mem_of_ne_nil _ hd.nonempty
    rcases hd.shape with hnone | ⟨-, hmem⟩
    · exact absurd (hnone e he) (hsome e he)
    · exact .inr (.inl (hguard hmem))
  · intro st' d' hop
    obtain ⟨rfl, rfl, -⟩ := open_suspend h.turn.not_open hop
    rcases hd.shape with hnone | ⟨-, hmem⟩
    · exact .inr (by simp [opcs_eq_nil hnone])
    · exact .inl (hguard hmem)
  · intro st' d' o st'' hop ho hdoc
    obtain ⟨rfl, rfl, -⟩ := open_suspend h.turn.not_open hop
    rw [Store.docs_create_of_ne s _ (by simp)] at hdoc
    rcases h.joins.flow_marks (h.turn.mem_flows.mpr ⟨rfl, rfl⟩) o (Store.has_of_docs hdoc) with
      hJ | hpend
    · exact absurd hJ (hd.fresh o ho)
    · cases hpend

theorem Inv.joins_suspend (h : Inv swept s (.flow .run J + f)) (hd : Suspends J st d g) :
    Joins (s.create (.stageSuspended st) d) (g + f) := by
  have hflows : (g + f).flows = 0 := by simp [hd.flows, h.turn.flows_eq_zero]
  have hown : (Phase.run, J) ∈ (Purse.flow .run J + f).flows := h.turn.mem_flows.mpr ⟨rfl, rfl⟩
  have hjoined : ∀ o, (s.create (.stageSuspended st) d).has (.joined o) = s.has (.joined o) :=
    fun o => Store.has_create_of_ne s _ (by simp)
  constructor
  · simp [hflows]
  · intro st' d' hop
    obtain ⟨rfl, rfl, -⟩ := open_suspend h.turn.not_open hop
    refine ⟨hd.distinct, fun o ho => ?_⟩
    rw [hjoined]
    exact Bool.eq_false_iff.mpr fun hj => hd.fresh o ho ((h.joins.known hown o).mp hj)
  · simp [hflows]
  · simp [hflows]
  · simp [hflows]
  · intro st' d' _ o ho
    rw [Store.has_create_of_ne s _ (by simp)] at ho
    rw [hjoined]
    rcases h.joins.flow_marks hown o ho with hJ | hpend
    · exact .inl ((h.joins.known hown o).mpr hJ)
    · cases hpend
  · intro st' d' hdoc hclaim o ho
    rw [Store.has_create_of_ne s _ (by simp)] at hclaim
    rw [hjoined]
    obtain ⟨d₀, hd₀⟩ := Store.docs_of_has (h.suspended_of_claimed hclaim)
    rw [(Grows.create s (.stageSuspended st) d).docs _ _ hd₀] at hdoc
    cases hdoc
    rcases h.flow_resumed hd₀ ho with hj | hpend
    · exact .inl hj
    · cases hpend
  · intro o ho
    rw [Store.log_create, mergedOpcs_write] at ho
    rw [hjoined]
    exact .inl (h.merged_joined rfl o ho)
  · rw [Store.log_create, mergedOpcs_write]
    exact h.joins.once

theorem Inv.suspend (h : Inv swept s (.flow .run J + f)) (hd : Suspends J st d g) :
    Inv swept (s.create (.stageSuspended st) d) (g + f) := by
  have hflows : (g + f).flows = 0 := by simp [hd.flows, h.turn.flows_eq_zero]
  refine h.created (.stageSuspended st) d (by simp) (by simp) h.rule_suspend (h.turn_suspend hd)
    (h.wake_suspend hd) (h.joins_suspend hd) ⟨?_, ?_, ?_⟩
  · simpa [hd.dispatching] using h.dispatches.distinct
  · intro o ho
    exact absurd (by simpa [hd.dispatching] using ho) (h.no_dispatching rfl o)
  · simp [hflows]

def Key.joined? : Key → Option Opc
  | .joined o => some o
  | _ => none

def joinedOpcs (s : Store Doc Event) : List Opc :=
  s.keys.filterMap Key.joined?

theorem mem_joinedOpcs {o : Opc} : o ∈ joinedOpcs s ↔ s.has (.joined o) = true := by
  rw [joinedOpcs, List.mem_filterMap, ← Store.mem_keys]
  constructor
  · rintro ⟨k, hk, heq⟩
    cases k <;> simp only [Key.joined?, Option.some.injEq, reduceCtorEq] at heq
    subst heq
    exact hk
  · intro h
    exact ⟨_, h, rfl⟩

theorem open_claim {now : Nat} {st' : Stage} {d' : StageSuspended} :
    Open (s.create (.resumeClaim st) now) st' d' ↔ Open s st' d' ∧ st' ≠ st := by
  rw [Open, Open, Store.docs_create_of_ne s _ (by simp)]
  by_cases hst : st' = st
  · subst hst
    simp
  · have hne : Key.resumeClaim st' ≠ .resumeClaim st := by simpa using hst
    rw [Store.has_create_of_ne s _ hne]
    simp [hst]

theorem Inv.claim {es : List Opc} {now : Nat} (h : Inv swept s (g + f)) (hg : g.flows = 0)
    (hgd : g.dispatching = 0) (hop : Open s st d) (hes : es.Perm (opcs d.manifest)) :
    Inv swept (s.create (.resumeClaim st) now) (.flow (.resume es) (joinedOpcs s) + f) := by
  have hzero : g.flows + f.flows = 0 := h.turn.flows_of_open hop
  have hf : f.flows = 0 := by simpa [hg] using hzero
  have hnone : ∀ st' d', ¬Open (s.create (.resumeClaim st) now) st' d' := by
    intro st' d' hop'
    rw [open_claim] at hop'
    exact hop'.2 (h.turn.alone hop'.1 hop)
  have hlive : ¬Over s (g + f) := fun hover => hover.2 st d hop
  have hmem : ∀ {ph J'}, (ph, J') ∈ (Purse.flow (.resume es) (joinedOpcs s) + f).flows ↔
      ph = .resume es ∧ J' = joinedOpcs s := by
    intro ph J'
    simp [hf]
  have hjoined : ∀ o, (s.create (.resumeClaim st) now).has (.joined o) = s.has (.joined o) :=
    fun o => Store.has_create_of_ne s _ (by simp)
  obtain ⟨hnodup, hunjoined⟩ := h.joins.waiting hop
  refine h.created (.resumeClaim st) now (by simp) (by simp)
    (Store.created_iff.mpr (Store.has_of_docs hop.1)) ⟨?_, ?_, ?_, ?_⟩ ⟨?_, ?_, ?_, ?_, ?_⟩
    ⟨?_, ?_, ?_, ?_, ?_, ?_, ?_, ?_, ?_⟩ ⟨?_, ?_, ?_⟩
  · simp [hf]
  · exact fun _ => hnone
  · exact fun hop' => absurd hop' (hnone _ _)
  · intro hend
    refine absurd (h.turn.ended ?_) hlive
    rcases hend with hend | ⟨st', hend⟩ | ⟨st', d', hend⟩
    · exact .inl (by simpa using hend)
    · exact .inr (.inl ⟨st', by simpa using hend⟩)
    · rw [Store.log_create, List.mem_append, List.mem_singleton] at hend
      exact .inr (.inr ⟨st', d', by simpa using hend⟩)
  · intro st' d' hdoc
    rw [Store.docs_create_of_ne s _ (by simp)] at hdoc
    exact h.wake.shape hdoc
  · exact fun _ hop' => absurd hop' (hnone _ _)
  · exact fun _ hop' => absurd hop' (hnone _ _)
  · exact fun hop' => absurd hop' (hnone _ _)
  · exact fun hop' => absurd hop' (hnone _ _)
  · intro ph J' hflow o
    obtain ⟨rfl, rfl⟩ := hmem.mp hflow
    rw [hjoined, mem_joinedOpcs]
  · exact fun hop' => absurd hop' (hnone _ _)
  · intro ph J' hflow
    obtain ⟨rfl, rfl⟩ := hmem.mp hflow
    refine ⟨hes.nodup_iff.mpr hnodup, fun o ho => ?_⟩
    rw [mem_joinedOpcs, hunjoined o (hes.mem_iff.mp ho)]
    simp
  · intro o J' hflow
    cases (hmem.mp hflow).1
  · intro ph J' hflow o ho
    obtain ⟨rfl, rfl⟩ := hmem.mp hflow
    rw [Store.has_create_of_ne s _ (by simp)] at ho
    rw [mem_joinedOpcs]
    exact (h.joins.open_marks hop o ho).imp_right hes.mem_iff.mpr
  · exact fun hop' => absurd hop' (hnone _ _)
  · intro st' d' hdoc hclaim o ho
    rw [Store.docs_create_of_ne s _ (by simp)] at hdoc
    rw [hjoined]
    by_cases hst : st' = st
    · subst hst
      rw [hop.1] at hdoc
      cases hdoc
      exact .inr (.inl ⟨_, _, hmem.mpr ⟨rfl, rfl⟩, hes.mem_iff.mpr ho⟩)
    · have hne : Key.resumeClaim st' ≠ .resumeClaim st := by simpa using hst
      rw [Store.has_create_of_ne s _ hne] at hclaim
      rcases h.joins.resumed hdoc hclaim o ho with hj | ⟨ph, J', hflow, -⟩ | hover
      · exact .inl hj
      · rw [Purse.flows_add, hzero] at hflow
        cases Multiset.notMem_zero _ hflow
      · exact absurd hover hlive
  · intro o ho
    rw [Store.log_create, mergedOpcs_write] at ho
    rw [hjoined]
    rcases h.joins.merged o ho with hj | ⟨es', J', hflow⟩
    · exact .inl hj
    · rw [Purse.flows_add, hzero] at hflow
      cases Multiset.notMem_zero _ hflow
  · rw [Store.log_create, mergedOpcs_write]
    exact h.joins.once
  · simpa [hgd] using h.dispatches.distinct
  · intro o ho
    obtain ⟨-, todo, all, J', hflow, -⟩ := h.dispatches.active o (by simpa [hgd] using ho)
    rw [Purse.flows_add, hzero] at hflow
    cases Multiset.notMem_zero _ hflow
  · intro todo all J' hflow
    cases (hmem.mp hflow).1

end Stages

section Tokens

variable {st : Stage} {g : Purse} {o : Opc}

theorem Inv.rewake (h : Inv swept s r) (hflows : r'.flows = r.flows)
    (hdisp : r'.dispatching = r.dispatching) (wake : Wake s r') : Inv swept s r' :=
  ⟨h.order, h.lookups, h.failed,
    h.turn.frame (fun _ _ => rfl) (fun _ _ hst => hst) (by rw [hflows]),
    wake, h.joins.frame (fun _ _ => rfl) rfl hflows, h.dispatches.frame (fun _ => rfl) hflows hdisp⟩

/-- The stage need not be looked at. -/
def Settled (s : Store Doc Event) (st : Stage) : Prop :=
  ∀ d, s.has .runFailed = false → Open s st d → ¬AllTerminal s st d.manifest

theorem Wake.drop_waker (h : Wake s (.waker st + f)) (hst : Settled s st) : Wake s (0 + f) := by
  have hwaker : ∀ {st' d}, s.has .runFailed = false → Open s st' d →
      AllTerminal s st' d.manifest → st' ∈ (Purse.waker st + f).wakers → st' ∈ f.wakers := by
    intro st' d hfail hop hall hmem
    simp only [Purse.wakers_add, Purse.waker, Multiset.mem_add, Multiset.mem_singleton] at hmem
    rcases hmem with rfl | hmem
    · exact absurd hall (hst d hfail hop)
    · exact hmem
  rw [zero_add]
  refine ⟨h.shape, ?_, ?_, ?_, h.mark_eq⟩
  · intro st' d hfail hop hnone hall hrec
    exact hwaker hfail hop hall (h.barrier hfail hop hnone hall hrec)
  · intro st' d hfail hop hsome hall
    simpa using (h.join hfail hop hsome hall).imp_left (hwaker hfail hop hall)
  · intro st' d hop
    simpa using h.marked hop

theorem Wake.drop_guard (h : Wake s (.guard st + f))
    (hmarks : ∀ d, Open s st d → ∀ o ∈ opcs d.manifest, s.has (.suspendedAt o) = true)
    (hst : st ∈ g.wakers ∨ Settled s st) : Wake s (g + f) := by
  refine ⟨h.shape, ?_, ?_, ?_, h.mark_eq⟩
  · intro st' d hfail hop hnone hall hrec
    have hmem := h.barrier hfail hop hnone hall hrec
    simp only [Purse.wakers_add, Purse.guard, zero_add] at hmem
    exact Multiset.mem_add.mpr (.inr hmem)
  · intro st' d hfail hop hsome hall
    rcases h.join hfail hop hsome hall with hw | hg | ⟨o, ho, hmem⟩
    · simp only [Purse.wakers_add, Purse.guard, zero_add] at hw
      exact .inl (Multiset.mem_add.mpr (.inr hw))
    · simp only [Purse.guards_add, Purse.guard, Multiset.mem_add, Multiset.mem_singleton] at hg
      rcases hg with rfl | hg
      · rcases hst with hst | hst
        · exact .inl (Multiset.mem_add.mpr (.inl hst))
        · exact absurd hall (hst d hfail hop)
      · exact .inr (.inl (Multiset.mem_add.mpr (.inr hg)))
    · simp only [Purse.writers_add, Purse.guard, zero_add] at hmem
      exact .inr (.inr ⟨o, ho, Multiset.mem_add.mpr (.inr hmem)⟩)
  · intro st' d hop
    rcases h.marked hop with hg | hall
    · simp only [Purse.guards_add, Purse.guard, Multiset.mem_add, Multiset.mem_singleton] at hg
      rcases hg with rfl | hg
      · exact .inr (hmarks d hop)
      · exact .inl (Multiset.mem_add.mpr (.inr hg))
    · exact .inr hall

/-- A writer that finds the run waiting at a stage will look there; one that finds no stage leaves
it to the guard. -/
theorem Wake.drop_writer (h : Wake s (.writer o + f))
    (hst : ∀ st, s.docs (.suspendedAt o) = some st → st ∈ g.wakers) : Wake s (g + f) := by
  refine ⟨h.shape, ?_, ?_, ?_, h.mark_eq⟩
  · intro st' d hfail hop hnone hall hrec
    have hmem := h.barrier hfail hop hnone hall hrec
    simp only [Purse.wakers_add, Purse.writer, zero_add] at hmem
    exact Multiset.mem_add.mpr (.inr hmem)
  · intro st' d hfail hop hsome hall
    rcases h.join hfail hop hsome hall with hw | hg | ⟨o', ho', hmem⟩
    · simp only [Purse.wakers_add, Purse.writer, zero_add] at hw
      exact .inl (Multiset.mem_add.mpr (.inr hw))
    · simp only [Purse.guards_add, Purse.writer, zero_add] at hg
      exact .inr (.inl (Multiset.mem_add.mpr (.inr hg)))
    · simp only [Purse.writers_add, Purse.writer, Multiset.mem_add, Multiset.mem_singleton] at hmem
      rcases hmem with rfl | hmem
      · rcases h.marked hop with hg | hmarks
        · simp only [Purse.guards_add, Purse.writer, zero_add] at hg
          exact .inr (.inl (Multiset.mem_add.mpr (.inr hg)))
        · obtain ⟨st'', hdoc⟩ := Store.docs_of_has (hmarks o' ho')
          have heq := h.mark_eq hop ho' hdoc
          subst heq
          exact .inl (Multiset.mem_add.mpr (.inl (hst _ hdoc)))
      · exact .inr (.inr ⟨o', ho', Multiset.mem_add.mpr (.inr hmem)⟩)
  · intro st' d hop
    simpa using (h.marked hop).imp_left fun hg => by
      simp only [Purse.guards_add, Purse.writer, zero_add] at hg
      exact Or.inr hg

theorem Inv.drop_waker (h : Inv swept s (.waker st + f)) (hst : Settled s st) :
    Inv swept s (0 + f) :=
  h.rewake (by simp) (by simp) (h.wake.drop_waker hst)

theorem Inv.drop_guard (h : Inv swept s (.guard st + f)) (hg : g.flows = 0)
    (hgd : g.dispatching = 0)
    (hmarks : ∀ d, Open s st d → ∀ o ∈ opcs d.manifest, s.has (.suspendedAt o) = true)
    (hst : st ∈ g.wakers ∨ Settled s st) : Inv swept s (g + f) :=
  h.rewake (by simp [hg]) (by simp [hgd]) (h.wake.drop_guard hmarks hst)

theorem Inv.drop_writer (h : Inv swept s (.writer o + f)) (hg : g.flows = 0)
    (hgd : g.dispatching = 0) (hst : ∀ st, s.docs (.suspendedAt o) = some st → st ∈ g.wakers) :
      Inv swept s (g + f) :=
  h.rewake (by simp [hg]) (by simp [hgd]) (h.wake.drop_writer hst)

theorem Inv.claim_late {now : Nat} (h : Inv swept s (.waker st + f))
    (hclaim : s.has (.resumeClaim st) = true) :
    Inv swept (s.create (.resumeClaim st) now) (0 + f) := by
  have hdocs : ∀ k, (s.create (.resumeClaim st) now).docs k = s.docs k :=
    Store.docs_create_of_has hclaim now
  have hstale : ∀ st' d, .write (.stageSuspended st') d false ∈
    (s.create (.resumeClaim st) now).log →
      .write (.stageSuspended st') d false ∈ s.log := by
    intro st' d hmem
    rw [Store.log_create, List.mem_append, List.mem_singleton] at hmem
    simpa using hmem
  have hlate : Inv swept (s.create (.resumeClaim st) now) (.waker st + f) :=
    h.created (.resumeClaim st) now (by simp) (by simp)
      (Store.created_iff.mpr (h.suspended_of_claimed hclaim))
      (h.turn.frame (fun k _ => hdocs k) hstale rfl)
      (h.wake.frame (fun k _ => hdocs k) (prefix_create s _ _) (by simp) (by simp) (by simp))
      (h.joins.frame (fun k _ => hdocs k) (by rw [Store.log_create, mergedOpcs_write]) rfl)
      (h.dispatches.frame (fun o => hdocs _) rfl rfl)
  refine hlate.drop_waker fun d _ hop _ => ?_
  have hno := hop.2
  simp at hno

end Tokens

section Marks

variable {st : Stage} {d : StageSuspended} {o : Opc}

theorem open_mark {st' : Stage} {d' : StageSuspended} :
    Open (s.create (.suspendedAt o) st) st' d' ↔ Open s st' d' :=
  open_congr (by simp) (by simp)

theorem has_mark {o' : Opc} (h : (s.create (.suspendedAt o) st).has (.suspendedAt o') = true) :
    o' = o ∨ s.has (.suspendedAt o') = true := by
  by_cases ho : o' = o
  · exact .inl ho
  · have hne : Key.suspendedAt o' ≠ .suspendedAt o := by simpa using ho
    rw [Store.has_create_of_ne s _ hne] at h
    exact .inr h

theorem docs_mark {o' : Opc} {st' : Stage}
    (h : (s.create (.suspendedAt o) st).docs (.suspendedAt o') = some st') :
    (o' = o ∧ st' = st) ∨ s.docs (.suspendedAt o') = some st' := by
  by_cases ho : o' = o
  · subst ho
    rw [Store.docs_create_self] at h
    split at h
    · exact .inr h
    · cases h
      exact .inl ⟨rfl, rfl⟩
  · have hne : Key.suspendedAt o' ≠ .suspendedAt o := by simpa using ho
    rw [Store.docs_create_of_ne s _ hne] at h
    exact .inr h

/-- An op of a stage that was suspended for a join: its join is done, or under way, or the stage is
the one that is open. -/
theorem Inv.open_or_resumed (h : Inv swept s r) (hdoc : s.docs (.stageSuspended st) = some d)
    (ho : o ∈ opcs d.manifest) : Open s st d ∨ s.has (.joined o) = true ∨
      (∃ ph J, (ph, J) ∈ r.flows ∧ o ∈ ph.pending) ∨ Over s r := by
  cases hclaim : s.has (.resumeClaim st) with
  | false => exact .inl ⟨hdoc, hclaim⟩
  | true => exact .inr (h.joins.resumed hdoc hclaim o ho)

/-- A suspended pipeline notes where it waits for an op.  Where its own manifest is not the one on
file the run is over. -/
theorem Inv.mark (h : Inv swept s r)
    (hst : (∃ d, s.docs (.stageSuspended st) = some d ∧ o ∈ opcs d.manifest) ∨ Over s r) :
    Inv swept (s.create (.suspendedAt o) st) r := by
  have hjoined : ∀ o', (s.create (.suspendedAt o) st).has (.joined o') = s.has (.joined o') :=
    fun o' => Store.has_create_of_ne s _ (by simp)
  have hover : Over (s.create (.suspendedAt o) st) r ↔ Over s r :=
    over_congr (by simp) (by simp) rfl
  refine h.created (.suspendedAt o) st (by simp) (by simp) trivial
    (h.turn.create (.suspendedAt o) st rfl rfl) ⟨?_, ?_, ?_, ?_, ?_⟩
    ⟨?_, ?_, h.joins.ahead, ?_, ?_, ?_, ?_, ?_, ?_⟩
    (h.dispatches.create (.suspendedAt o) st (by simp) rfl rfl)
  · intro st' d' hdoc
    rw [Store.docs_create_of_ne s _ (by simp)] at hdoc
    exact h.wake.shape hdoc
  · intro st' d' hfail hop hnone hall hrec
    rw [Store.has_create_of_ne s _ (by simp)] at hfail
    refine h.wake.barrier hfail (open_mark.mp hop) hnone (fun e he => by simpa using hall e he) ?_
    intro pre ref x post heq
    exact hrec pre ref x _ (by rw [Store.log_create, heq, List.append_assoc, List.cons_append])
  · intro st' d' hfail hop hsome hall
    rw [Store.has_create_of_ne s _ (by simp)] at hfail
    exact h.wake.join hfail (open_mark.mp hop) hsome fun e he => by simpa using hall e he
  · intro st' d' hop
    exact (h.wake.marked (open_mark.mp hop)).imp_right fun hmarks o' ho' =>
      (Grows.create s (.suspendedAt o) st).has (hmarks o' ho')
  · intro st' d' o' st'' hop ho' hdoc
    rw [open_mark] at hop
    rcases docs_mark hdoc with ⟨rfl, rfl⟩ | hold
    · rcases hst with ⟨d, hd, ho⟩ | hend
      · rcases h.open_or_resumed hd ho with hop' | hj | ⟨ph, J, hflow, -⟩ | hend
        · exact h.turn.alone hop' hop
        · rw [(h.joins.waiting hop).2 o' ho'] at hj
          cases hj
        · rw [h.turn.flows_of_open hop] at hflow
          cases Multiset.notMem_zero _ hflow
        · exact absurd hop (hend.2 st' d')
      · exact absurd hop (hend.2 st' d')
    · exact h.wake.mark_eq hop ho' hold
  · intro ph J hmem o'
    rw [hjoined]
    exact h.joins.known hmem o'
  · intro st' d' hop
    simpa only [hjoined] using h.joins.waiting (open_mark.mp hop)
  · intro o' J hmem
    rw [Store.log_create, mergedOpcs_write]
    exact h.joins.won hmem
  · intro ph J hmem o' ho'
    rcases has_mark ho' with rfl | hold
    · have hne : r.flows ≠ 0 :=
        Multiset.card_pos.mp (Multiset.card_pos_iff_exists_mem.mpr ⟨_, hmem⟩)
      rcases hst with ⟨d, hd, ho⟩ | hend
      · rcases h.open_or_resumed hd ho with hop | hj | ⟨ph', J', hflow, hpend⟩ | hend
        · exact absurd hop (h.turn.busy hne st d)
        · exact .inl ((h.joins.known hmem o').mp hj)
        · cases h.turn.flow_unique hmem hflow
          exact .inr hpend
        · exact absurd hend.1 hne
      · exact absurd hend.1 hne
    · exact h.joins.flow_marks hmem o' hold
  · intro st' d' hop o' ho'
    rw [open_mark] at hop
    rw [hjoined]
    rcases has_mark ho' with rfl | hold
    · rcases hst with ⟨d, hd, ho⟩ | hend
      · rcases h.open_or_resumed hd ho with hop' | hj | ⟨ph, J, hflow, -⟩ | hend
        · obtain rfl := h.turn.alone hop' hop
          rw [hop.1] at hd
          cases hd
          exact .inr ho
        · exact .inl hj
        · rw [h.turn.flows_of_open hop] at hflow
          cases Multiset.notMem_zero _ hflow
        · exact absurd hop (hend.2 st' d')
      · exact absurd hop (hend.2 st' d')
    · exact h.joins.open_marks hop o' hold
  · intro st' d' hdoc hclaim o' ho'
    rw [Store.docs_create_of_ne s _ (by simp)] at hdoc
    rw [Store.has_create_of_ne s _ (by simp)] at hclaim
    rw [hjoined, hover]
    exact h.joins.resumed hdoc hclaim o' ho'
  · intro o' ho'
    rw [Store.log_create, mergedOpcs_write] at ho'
    rw [hjoined]
    exact h.joins.merged o' ho'
  · rw [Store.log_create, mergedOpcs_write]
    exact h.joins.once

end Marks

end ThanksComputer.Continuation
