import ThanksComputer.Continuation.Moves

/-! The moves of a pipeline: it merges deferred ops, waits for its dispatches and comes to an
end. -/

namespace ThanksComputer.Continuation

open Lib.CreateOnce Lib.Process

variable {swept : Prop} {s : Store Doc Event} {f : Purse} {ph ph' : Phase} {J J' : List Opc}
    {o : Opc}
  {es : List Opc}

/-- What `Joins` says while a pipeline is at work. -/
structure Pipeline (s : Store Doc Event) (ph : Phase) (J : List Opc) : Prop where
  known : ∀ o, s.has (.joined o) = true ↔ o ∈ J
  ahead : ph.pending.Nodup ∧ ∀ o ∈ ph.ahead, o ∉ J
  won : ∀ o, ph = .won o → o ∉ mergedOpcs s.log ∧ o ∈ J
  marks : ∀ o, s.has (.suspendedAt o) = true → o ∈ J ∨ o ∈ ph.pending
  resumed : ∀ st d, s.docs (.stageSuspended st) = some d → s.has (.resumeClaim st) = true →
    ∀ o ∈ opcs d.manifest, o ∈ J ∨ o ∈ ph.pending
  merged : ∀ o ∈ mergedOpcs s.log, o ∈ J ∨ ∃ es, ph = .mark o es
  once : (mergedOpcs s.log).Nodup

theorem Inv.pipeline (h : Inv swept s (.flow ph J + f)) : Pipeline s ph J := by
  have hown : (ph, J) ∈ (Purse.flow ph J + f).flows := h.turn.mem_flows.mpr ⟨rfl, rfl⟩
  have hknown := h.joins.known hown
  refine ⟨hknown, h.joins.ahead hown, ?_, h.joins.flow_marks hown, ?_, ?_, h.joins.once⟩
  · rintro o rfl
    exact h.joins.won hown
  · intro st d hdoc _ o ho
    exact (h.flow_resumed hdoc ho).imp_left (hknown o).mp
  · intro o ho
    rcases h.joins.merged o ho with hj | ⟨es, J', hmem⟩
    · exact .inl ((hknown o).mp hj)
    · exact .inr ⟨es, (h.turn.mem_flows.mp hmem).1.symm⟩

theorem Pipeline.joins (h : Pipeline s ph J) (hf : f.flows = 0) (hopen : ∀ st d, ¬Open s st d) :
    Joins s (.flow ph J + f) := by
  have hmem : ∀ {ph' J'}, (ph', J') ∈ (Purse.flow ph J + f).flows ↔ ph' = ph ∧ J' = J := by
    intro ph' J'
    simp [hf]
  refine ⟨?_, fun hop => absurd hop (hopen _ _), ?_, ?_, ?_, fun hop => absurd hop (hopen _ _), ?_,
    ?_, h.once⟩
  · intro ph' J' hflow
    obtain ⟨rfl, rfl⟩ := hmem.mp hflow
    exact h.known
  · intro ph' J' hflow
    obtain ⟨rfl, rfl⟩ := hmem.mp hflow
    exact h.ahead
  · intro o J' hflow
    obtain ⟨hph, rfl⟩ := hmem.mp hflow
    exact h.won o hph.symm
  · intro ph' J' hflow
    obtain ⟨rfl, rfl⟩ := hmem.mp hflow
    exact h.marks
  · intro st d hdoc hclaim o ho
    rcases h.resumed st d hdoc hclaim o ho with hJ | hpend
    · exact .inl ((h.known o).mpr hJ)
    · exact .inr (.inl ⟨ph, J, hmem.mpr ⟨rfl, rfl⟩, hpend⟩)
  · intro o ho
    rcases h.merged o ho with hJ | ⟨es, rfl⟩
    · exact .inl ((h.known o).mpr hJ)
    · exact .inr ⟨es, J, hmem.mpr ⟨rfl, rfl⟩⟩

theorem has_join {o' : Opc} : (s.create (.joined o) ()).has (.joined o') = true ↔
    o' = o ∨ s.has (.joined o') = true := by
  by_cases ho : o' = o
  · subst ho
    simp
  · have hne : Key.joined o' ≠ .joined o := by simpa using ho
    rw [Store.has_create_of_ne s _ hne]
    simp [ho]

theorem Pipeline.win (h : Pipeline s .run J) (ho : o ∉ J) :
    Pipeline (s.create (.joined o) ()) (.won o) (o :: J) := by
  refine ⟨?_, by simp [Phase.pending, Phase.ahead], ?_, ?_, ?_, ?_, ?_⟩
  · intro o'
    rw [has_join, h.known, List.mem_cons]
  · rintro o' heq
    cases heq
    rw [Store.log_create, mergedOpcs_write]
    refine ⟨fun hmem => ?_, List.mem_cons_self⟩
    rcases h.merged o hmem with hJ | ⟨es, hph⟩
    · exact ho hJ
    · cases hph
  · intro o' ho'
    rw [Store.has_create_of_ne s _ (by simp)] at ho'
    exact (h.marks o' ho').imp_left (List.mem_cons_of_mem o)
  · intro st d hdoc hclaim o' ho'
    rw [Store.docs_create_of_ne s _ (by simp)] at hdoc
    rw [Store.has_create_of_ne s _ (by simp)] at hclaim
    exact (h.resumed st d hdoc hclaim o' ho').imp_left (List.mem_cons_of_mem o)
  · intro o' ho'
    rw [Store.log_create, mergedOpcs_write] at ho'
    rcases h.merged o' ho' with hJ | ⟨es, hph⟩
    · exact .inl (List.mem_cons_of_mem o hJ)
    · cases hph
  · rw [Store.log_create, mergedOpcs_write]
    exact h.once

theorem Pipeline.note_won (h : Pipeline s (.won o) J) : Pipeline (s.note (.merged o)) .run J := by
  obtain ⟨hnew, ho⟩ := h.won o rfl
  refine ⟨h.known, by simp [Phase.pending, Phase.ahead], nofun, h.marks, h.resumed, ?_, ?_⟩
  · intro o' ho'
    rw [Store.log_note, mergedOpcs_note, List.mem_append, List.mem_singleton] at ho'
    rcases ho' with ho' | rfl
    · rcases h.merged o' ho' with hJ | ⟨es, hph⟩
      · exact .inl hJ
      · cases hph
    · exact .inl ho
  · rw [Store.log_note, mergedOpcs_note]
    simpa using h.once.concat hnew

theorem Pipeline.note_resume (h : Pipeline s (.resume (o :: es)) J) :
    Pipeline (s.note (.merged o)) (.mark o es) J := by
  obtain ⟨hnodup, hahead⟩ := h.ahead
  have hold : ∀ o' ∈ mergedOpcs s.log, o' ∈ J := by
    intro o' ho'
    rcases h.merged o' ho' with hJ | ⟨es, hph⟩
    · exact hJ
    · cases hph
  have hnew : o ∉ mergedOpcs s.log := fun hmem => hahead o List.mem_cons_self (hold o hmem)
  refine ⟨h.known, ⟨hnodup, fun o' ho' => hahead o' (List.mem_cons_of_mem o ho')⟩, nofun, h.marks,
    h.resumed, ?_, ?_⟩
  · intro o' ho'
    rw [Store.log_note, mergedOpcs_note, List.mem_append, List.mem_singleton] at ho'
    rcases ho' with ho' | rfl
    · exact .inl (hold o' ho')
    · exact .inr ⟨es, rfl⟩
  · rw [Store.log_note, mergedOpcs_note]
    simpa using h.once.concat hnew

theorem Pipeline.join_mark (h : Pipeline s (.mark o es) J) :
    Pipeline (s.create (.joined o) ()) (.resume es) (o :: J) := by
  obtain ⟨hnodup, hahead⟩ := h.ahead
  have hcons : ∀ {o'}, o' ∈ J ∨ o' ∈ o :: es → o' ∈ o :: J ∨ o' ∈ es := by
    rintro o' (hJ | hmem)
    · exact .inl (List.mem_cons_of_mem o hJ)
    · rcases List.mem_cons.mp hmem with rfl | hmem
      · exact .inl List.mem_cons_self
      · exact .inr hmem
  refine ⟨?_, ⟨(List.nodup_cons.mp hnodup).2, ?_⟩, nofun, ?_, ?_, ?_, ?_⟩
  · intro o'
    rw [has_join, h.known, List.mem_cons]
  · intro o' ho'
    rw [List.mem_cons, not_or]
    exact ⟨fun heq => (List.nodup_cons.mp hnodup).1 (heq ▸ ho'), hahead o' ho'⟩
  · intro o' ho'
    rw [Store.has_create_of_ne s _ (by simp)] at ho'
    exact hcons (h.marks o' ho')
  · intro st d hdoc hclaim o' ho'
    rw [Store.docs_create_of_ne s _ (by simp)] at hdoc
    rw [Store.has_create_of_ne s _ (by simp)] at hclaim
    exact hcons (h.resumed st d hdoc hclaim o' ho')
  · intro o' ho'
    rw [Store.log_create, mergedOpcs_write] at ho'
    rcases h.merged o' ho' with hJ | ⟨es', hph⟩
    · exact .inl (List.mem_cons_of_mem o hJ)
    · cases hph
      exact .inl List.mem_cons_self
  · rw [Store.log_create, mergedOpcs_write]
    exact h.once

section Moves

theorem Inv.dispatches_of_not_awaits {s' : Store Doc Event} (h : Inv swept s (.flow ph J + f))
    (hph : ph.awaits = false) (hph' : ph'.awaits = false) : Dispatches s' (.flow ph' J' + f) := by
  refine ⟨?_, ?_, ?_⟩
  · simpa using h.dispatches.distinct
  · intro o ho
    exact absurd (by simpa using ho) (h.no_dispatching hph o)
  · intro todo all J₁ hmem
    simp only [Purse.flows_add, Purse.flow, h.turn.flows_eq_zero, add_zero, Multiset.mem_singleton,
      Prod.mk.injEq] at hmem
    obtain ⟨rfl, -⟩ := hmem
    cases hph'

theorem Inv.create_joined (h : Inv swept s (.flow ph J + f)) (hph : ph.awaits = false)
    (hph' : ph'.awaits = false) (hp : Pipeline (s.create (.joined o) ()) ph' J') :
    Inv swept (s.create (.joined o) ()) (.flow ph' J' + f) := by
  have hturn : Turn (s.create (.joined o) ()) (.flow ph' J' + f) :=
    h.turn.create (.joined o) () rfl (by simp)
  exact h.created (.joined o) () (by simp) (by simp) trivial hturn
    (h.wake.create (.joined o) () rfl (by simp) (by simp) (by simp))
    (hp.joins h.turn.flows_eq_zero hturn.not_open) (h.dispatches_of_not_awaits hph hph')

theorem Inv.win (h : Inv swept s (.flow .run J + f)) (ho : o ∉ J) :
    Inv swept (s.create (.joined o) ()) (.flow (.won o) (o :: J) + f) :=
  h.create_joined rfl rfl (h.pipeline.win ho)

theorem Inv.join_mark (h : Inv swept s (.flow (.mark o es) J + f)) :
    Inv swept (s.create (.joined o) ()) (.flow (.resume es) (o :: J) + f) :=
  h.create_joined rfl rfl h.pipeline.join_mark

theorem Inv.noted (h : Inv swept s (.flow ph J + f)) (hph : ph.awaits = false)
    (hph' : ph'.awaits = false) {e : Event} (hp : Pipeline (s.note e) ph' J) :
    Inv swept (s.note e) (.flow ph' J + f) := by
  have hturn : Turn (s.note e) (.flow ph' J + f) := by
    refine h.turn.frame (fun _ _ => rfl) ?_ (by simp)
    intro st d hst
    simpa using hst
  refine ⟨h.order.snoc trivial, h.lookups, h.failed, hturn, ?_,
    hp.joins h.turn.flows_eq_zero hturn.not_open, h.dispatches_of_not_awaits hph hph'⟩
  exact h.wake.frame (fun _ _ => rfl) (List.prefix_append _ _) (by simp) (by simp) (by simp)

theorem Inv.note_won (h : Inv swept s (.flow (.won o) J + f)) :
    Inv swept (s.note (.merged o)) (.flow .run J + f) :=
  h.noted rfl rfl h.pipeline.note_won

theorem Inv.note_resume (h : Inv swept s (.flow (.resume (o :: es)) J + f)) :
    Inv swept (s.note (.merged o)) (.flow (.mark o es) J + f) :=
  h.noted rfl rfl h.pipeline.note_resume

theorem Inv.over (h : Inv swept s (.flow ph J + f)) : Over s (0 + f) :=
  ⟨by simp [h.turn.flows_eq_zero], h.turn.not_open⟩

theorem Inv.drop_flow (h : Inv swept s (.flow ph J + f)) (hmark : ph.marks = false)
    (hwait : ph.awaits = false) : Inv swept s (0 + f) := by
  have hf : f.flows = 0 := h.turn.flows_eq_zero
  have hnone : ∀ st d, ¬Open s st d := h.turn.not_open
  refine ⟨h.order, h.lookups, h.failed, ⟨?_, ?_, ?_, ?_⟩,
    ⟨h.wake.shape, ?_, ?_, ?_, ?_⟩, ⟨?_, ?_, ?_, ?_, ?_, ?_, ?_, ?_, h.joins.once⟩, ⟨?_, ?_, ?_⟩⟩
  · simp [hf]
  · exact fun hne => absurd h.over.1 hne
  · exact fun hop => absurd hop (hnone _ _)
  · exact fun _ => h.over
  · exact fun _ hop => absurd hop (hnone _ _)
  · exact fun _ hop => absurd hop (hnone _ _)
  · exact fun hop => absurd hop (hnone _ _)
  · exact fun hop => absurd hop (hnone _ _)
  · simp [hf]
  · exact fun hop => absurd hop (hnone _ _)
  · simp [hf]
  · simp [hf]
  · simp [hf]
  · exact fun hop => absurd hop (hnone _ _)
  · exact fun _ _ _ _ => .inr (.inr h.over)
  · exact fun o ho => .inl (h.merged_joined hmark o ho)
  · simpa using h.dispatches.distinct
  · intro o ho
    exact absurd (by simpa using ho) (h.no_dispatching hwait o)
  · simp [hf]

theorem Inv.create_last {r : Purse} (h : Inv swept s r) (hover : Over s r) (k : Key) (d : Doc k)
    (hk : k = .result ∨ ∃ st, k = .stageFailed st) (hrule : Rule s.log (.write k d (!s.has k))) :
    Inv swept (s.create k d) r := by
  have hne : (∀ o, k ≠ .opContinuation o) ∧ k ≠ .runFailed ∧ k.wakes = false ∧ k.joins = false ∧
      (∀ o, k ≠ .returned o) ∧ (∀ st, k ≠ .stageSuspended st) ∧ ∀ st, k ≠ .resumeClaim st := by
    rcases hk with rfl | ⟨st, rfl⟩
    · simp [Key.wakes, Key.joins]
    · simp [Key.wakes, Key.joins]
  obtain ⟨hlookup, hfail, hwakes, hjoins, hreturned, hstage, hclaim⟩ := hne
  have hopen : ∀ {st d'}, Open (s.create k d) st d' ↔ Open s st d' :=
    open_congr (Store.docs_create_of_ne s d (hstage _).symm)
      (Store.docs_create_of_ne s d (hclaim _).symm)
  have hend : Over (s.create k d) r := ⟨hover.1, fun st d' hop => hover.2 st d' (hopen.mp hop)⟩
  refine h.created k d hlookup hfail hrule ⟨h.turn.one, fun _ => hend.2, ?_, fun _ => hend⟩
    (h.wake.create k d hwakes (by simp) (by simp) (by simp)) (h.joins.create k d hjoins rfl)
    (h.dispatches.create k d hreturned rfl rfl)
  exact fun hop => absurd hop (hend.2 _ _)

theorem Inv.write_result (h : Inv swept s (.flow ph J + f)) (hmark : ph.marks = false)
    (hwait : ph.awaits = false) (env : String) : Inv swept (s.create .result env) (0 + f) := by
  refine (h.drop_flow hmark hwait).create_last h.over .result env (.inl rfl) ?_
  intro st
  rw [Store.created_iff, h.turn.not_ended.2.1 st]
  simp

theorem Inv.fail_stage (h : Inv swept s (.flow ph J + f)) (hmark : ph.marks = false)
    (hwait : ph.awaits = false) (st : Stage) (reason : String) :
    Inv swept (s.create (.stageFailed st) reason) (0 + f) :=
  (h.drop_flow hmark hwait).create_last h.over (.stageFailed st) reason (.inr ⟨st, rfl⟩) trivial

theorem Inv.fail_run {r : Purse} (h : Inv swept s r) (hswept : swept) (reason : String) :
    Inv swept (s.create .runFailed reason) r := by
  have hdocs : ∀ k, k ≠ .runFailed → (s.create .runFailed reason).docs k = s.docs k :=
    fun k hk => Store.docs_create_of_ne s _ hk
  have hopen : ∀ {st d}, Open (s.create .runFailed reason) st d ↔ Open s st d :=
    open_congr (hdocs _ (by simp)) (hdocs _ (by simp))
  refine ⟨?_, ?_, fun _ => hswept, h.turn.create .runFailed reason rfl rfl, ⟨?_, ?_, ?_, ?_, ?_⟩,
    h.joins.create .runFailed reason rfl rfl,
    h.dispatches.create .runFailed reason (by simp) rfl rfl⟩
  · rw [Store.log_create]
    exact h.order.snoc trivial
  · intro o lk hlk hdef
    rw [hdocs _ (by simp)] at hlk
    simpa using h.lookups hlk hdef
  · intro st d hdoc
    rw [hdocs _ (by simp)] at hdoc
    exact h.wake.shape hdoc
  · intro st d hfail
    simp at hfail
  · intro st d hfail
    simp at hfail
  · intro st d hop
    simpa using h.wake.marked (hopen.mp hop)
  · intro st d o st' hop ho hdoc
    rw [hdocs _ (by simp)] at hdoc
    exact h.wake.mark_eq (hopen.mp hop) ho hdoc

theorem Pipeline.rephase (h : Pipeline s ph J) (hpend : ph.pending = []) (hmark : ph.marks = false)
    (hpend' : ph'.pending = []) (hwon : ∀ o, ph' ≠ .won o) : Pipeline s ph' J := by
  have hahead : ph'.ahead = [] := by
    cases ph' with
    | resume es => exact hpend'
    | mark o es => cases hpend'
    | run | won | await => rfl
  refine ⟨h.known, by simp [hpend', hahead], fun o ho => absurd ho (hwon o), ?_, ?_, ?_, h.once⟩
  · simpa [hpend, hpend'] using h.marks
  · simpa [hpend, hpend'] using h.resumed
  · intro o ho
    rcases h.merged o ho with hJ | ⟨es, rfl⟩
    · exact .inl hJ
    · cases hmark

theorem Inv.rephase (h : Inv swept s (.flow ph J + f)) (hp : Pipeline s ph' J')
    (hd : Dispatches s (.flow ph' J' + f)) : Inv swept s (.flow ph' J' + f) :=
  ⟨h.order, h.lookups, h.failed, h.turn.frame (fun _ _ => rfl) (fun _ _ hst => hst) (by simp),
    h.wake.frame (fun _ _ => rfl) List.prefix_rfl (by simp) (by simp) (by simp),
    hp.joins h.turn.flows_eq_zero h.turn.not_open, hd⟩

theorem Inv.resume_done (h : Inv swept s (.flow (.resume []) J + f)) :
    Inv swept s (.flow .run J + f) :=
  h.rephase (h.pipeline.rephase rfl rfl rfl nofun) (h.dispatches_of_not_awaits rfl rfl)

variable {todo all : List Opc}

theorem Inv.await_start (h : Inv swept s (.flow .run J + f)) (hnodup : todo.Nodup)
    (hnew : ∀ o ∈ todo, s.has (.returned o) = false) :
    Inv swept s (.flow (.await todo all) J + f) := by
  refine h.rephase (h.pipeline.rephase rfl rfl rfl nofun) ⟨?_, ?_, ?_⟩
  · simpa using h.dispatches.distinct
  · intro o ho
    exact absurd (by simpa using ho) (h.no_dispatching rfl o)
  · intro todo' all' J' hmem
    simp only [Purse.flows_add, Purse.flow, h.turn.flows_eq_zero, add_zero, Multiset.mem_singleton,
      Prod.mk.injEq, Phase.await.injEq] at hmem
    obtain ⟨⟨rfl, rfl⟩, rfl⟩ := hmem
    exact ⟨hnodup, hnew⟩

theorem Inv.await_active (h : Inv swept s (.flow (.await todo all) J + f))
    (ho : o ∈ f.dispatching) :
    s.has (.returned o) = false ∧ o ∈ all ∧ o ∉ todo := by
  obtain ⟨hret, todo', all', J', hmem, hall, htodo⟩ := h.dispatches.active o (by simpa using ho)
  obtain ⟨heq, -⟩ := h.turn.mem_flows.mp hmem
  cases heq
  exact ⟨hret, hall, htodo⟩

theorem Inv.await_fork (h : Inv swept s (.flow (.await (o :: todo) all) J + f)) (ho : o ∈ all) :
    Inv swept s (.dispatcher o + .flow (.await todo all) J + f) := by
  have hf : f.flows = 0 := h.turn.flows_eq_zero
  obtain ⟨hnodup, hnew⟩ := h.dispatches.todo (h.turn.mem_flows.mpr ⟨rfl, rfl⟩)
  have hone : Inv swept s (.flow (.await todo all) J + f) := by
    refine h.rephase (h.pipeline.rephase rfl rfl rfl nofun) ⟨?_, ?_, ?_⟩
    · simpa using h.dispatches.distinct
    · intro o' ho'
      obtain ⟨hret, hall, htodo⟩ := h.await_active (by simpa using ho')
      exact ⟨hret, todo, all, J, by simp, hall, fun hmem => htodo (List.mem_cons_of_mem o hmem)⟩
    · intro todo' all' J' hmem
      simp only [Purse.flows_add, Purse.flow, hf, add_zero, Multiset.mem_singleton,
        Prod.mk.injEq, Phase.await.injEq] at hmem
      obtain ⟨⟨rfl, rfl⟩, rfl⟩ := hmem
      exact ⟨(List.nodup_cons.mp hnodup).2, fun o' ho' => hnew o' (List.mem_cons_of_mem o ho')⟩
  refine ⟨hone.order, hone.lookups, hone.failed,
    hone.turn.frame (fun _ _ => rfl) (fun _ _ hst => hst) (by simp),
    hone.wake.frame (fun _ _ => rfl) List.prefix_rfl (by simp) (by simp) (by simp),
    hone.joins.frame (fun _ _ => rfl) rfl (by simp), ⟨?_, ?_, ?_⟩⟩
  · have hout : o ∉ f.dispatching := fun hmem =>
      (h.await_active hmem).2.2 List.mem_cons_self
    have hdist := h.dispatches.distinct
    simp only [Purse.dispatching_add, Purse.flow, zero_add] at hdist
    simpa [hout] using hdist
  · intro o' ho'
    simp only [Purse.dispatching_add, Purse.dispatcher, Purse.flow, add_zero, Multiset.mem_add,
      Multiset.mem_singleton] at ho'
    rcases ho' with rfl | ho'
    · exact ⟨hnew o' List.mem_cons_self, todo, all, J, by simp, ho, (List.nodup_cons.mp hnodup).1⟩
    · obtain ⟨hret, hall, htodo⟩ := hone.await_active ho'
      exact ⟨hret, todo, all, J, by simp, hall, htodo⟩
  · intro todo' all' J' hmem
    exact hone.dispatches.todo (by simpa using hmem)

theorem Inv.await_end (h : Inv swept s (.flow (.await todo all) J + f))
    (hall : ∀ o ∈ all, s.has (.returned o) = true) : Inv swept s (.flow .run J + f) := by
  refine h.rephase (h.pipeline.rephase rfl rfl rfl nofun) ⟨?_, ?_, ?_⟩
  · simpa using h.dispatches.distinct
  · intro o ho
    obtain ⟨hret, hmem, -⟩ := h.await_active (by simpa using ho)
    rw [hall o hmem] at hret
    cases hret
  · intro todo' all' J' hmem
    simp [h.turn.flows_eq_zero] at hmem

theorem Inv.returned (h : Inv swept s (.dispatcher o + f)) :
    Inv swept (s.create (.returned o) ()) (0 + f) := by
  have hdist := h.dispatches.distinct
  simp only [Purse.dispatching_add, Purse.dispatcher, Multiset.singleton_add,
    Multiset.nodup_cons] at hdist
  obtain ⟨-, todo, all, J, hown, -, htodo⟩ := h.dispatches.active o (by simp)
  have hret : ∀ o', o' ≠ o →
      (s.create (.returned o) ()).has (.returned o') = s.has (.returned o') := by
    intro o' ho'
    exact Store.has_create_of_ne s _ (by simpa using ho')
  refine h.created (.returned o) () (by simp) (by simp) trivial
    (h.turn.create (.returned o) () rfl (by simp))
    (h.wake.create (.returned o) () rfl (by simp) (by simp) (by simp))
    (h.joins.create (.returned o) () rfl (by simp)) ⟨?_, ?_, ?_⟩
  · simpa using hdist.2
  · intro o' ho'
    rw [zero_add] at ho'
    obtain ⟨hno, todo', all', J', hmem, hrest⟩ := h.dispatches.active o' (by simp [ho'])
    rw [hret o' fun heq => hdist.1 (heq ▸ ho')]
    exact ⟨hno, todo', all', J', by simpa using hmem, hrest⟩
  · intro todo' all' J' hmem
    have hold : (.await todo' all', J') ∈ (Purse.dispatcher o + f).flows := by simpa using hmem
    cases h.turn.flow_unique hown hold
    obtain ⟨hnodup, hnew⟩ := h.dispatches.todo hold
    refine ⟨hnodup, fun o' ho' => ?_⟩
    rw [hret o' fun heq => htodo (heq ▸ ho')]
    exact hnew o' ho'

end Moves

end ThanksComputer.Continuation
