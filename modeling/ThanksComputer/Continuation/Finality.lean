import ThanksComputer.Continuation.Suspension

/-! The run state is read off the documents there are.  A result settles it; a failure does as long
as no result comes in behind it. -/

namespace ThanksComputer.Continuation

open Lib.CreateOnce Lib.Process

variable {s s' : Store Doc Event} {m : Machine} {st : Stage}

section Derived

/-- What `StageState` makes of the documents. -/
def stageStateOf (s : Store Doc Event) (st : Stage) (manifest : List OpManifestEntry) : State :=
  if s.has .result then .completed
  else if s.has .runFailed || s.has (.stageFailed st) then .failed
  else if manifest.all fun e => s.has (.terminal (e.place st)) then .resumable
  else .waiting

theorem answer_exist {α : Type} (k : Key) (g : Bool → M α) :
    (exist k >>= g).answer s = (g (s.has k)).answer s := rfl

theorem answer_manifestState (st : Stage) (manifest : List OpManifestEntry) :
    (manifestState st manifest : M State).answer s =
      some (if manifest.all fun e => s.has (.terminal (e.place st)) then
        .resumable else .waiting) := by
  induction manifest with
  | nil => rfl
  | cons e es ih =>
    rw [manifestState, answer_exist, List.all_cons]
    cases hterm : s.has (.terminal (e.place st)) with
    | false => rfl
    | true => exact ih

theorem answer_stageState (st : Stage) (manifest : List OpManifestEntry) :
    (stageState st manifest : M State).answer s = some (stageStateOf s st manifest) := by
  rw [stageState, stageStateOf, answer_exist]
  cases s.has .result with
  | true => rfl
  | false =>
    simp only [Bool.false_eq_true, if_false]
    rw [answer_exist]
    cases s.has .runFailed with
    | true => rfl
    | false =>
      simp only [Bool.false_eq_true, if_false, Bool.false_or]
      rw [answer_exist]
      cases s.has (.stageFailed st) with
      | true => rfl
      | false => exact answer_manifestState st manifest

theorem answer_stageState_bind {α : Type} (st : Stage) (manifest : List OpManifestEntry)
    (g : State → M α) :
    (stageState st manifest >>= g).answer s = (g (stageStateOf s st manifest)).answer s := by
  exact (Prog.answer_bind s _ g).trans (by rw [answer_stageState]; rfl)

theorem answer_currentStage {α : Type} (m : Machine) (g : Option (Stage × StageSuspended) → M α) :
    (currentStage m >>= g).answer s = (g (latest (m.listing (suspendedStages s)))).answer s :=
  rfl

theorem derivedState_eq (m : Machine) (s : Store Doc Event) :
    derivedState m s =
      if s.has .result then some .completed
      else if s.has .runFailed then some .failed
      else match latest (m.listing (suspendedStages s)) with
        | some x => some (stageStateOf s x.1 x.2.manifest)
        | none => if s.has .runCreated then some .waiting else none := by
  rw [derivedState, runState, answer_exist]
  cases s.has .result with
  | true => rfl
  | false =>
    simp only [Bool.false_eq_true, if_false]
    rw [answer_exist]
    cases s.has .runFailed with
    | true => rfl
    | false =>
      simp only [Bool.false_eq_true, if_false]
      rw [answer_currentStage]
      cases latest (m.listing (suspendedStages s)) with
      | some x => exact congrArg Option.join (answer_stageState_bind x.1 x.2.manifest _)
      | none =>
        simp only
        rw [answer_exist]
        cases s.has .runCreated with
        | true => rfl
        | false => rfl

theorem derivedState_completed_iff : derivedState m s = some .completed ↔ s.has .result = true := by
  rw [derivedState_eq]
  cases hres : s.has .result with
  | true => simp
  | false =>
    cases s.has .runFailed with
    | true => simp
    | false =>
      cases latest (m.listing (suspendedStages s)) with
      | some x =>
        simp only [stageStateOf, hres, Bool.false_eq_true, if_false]
        grind
      | none => simp

def StageLost (m : Machine) (s : Store Doc Event) : Prop :=
  ∃ x, latest (m.listing (suspendedStages s)) = some x ∧ s.has (.stageFailed x.1) = true

theorem derivedState_failed_iff : derivedState m s = some .failed ↔
    s.has .result = false ∧ (s.has .runFailed = true ∨ StageLost m s) := by
  rw [derivedState_eq, StageLost]
  cases hres : s.has .result with
  | true => simp
  | false =>
    cases hrun : s.has .runFailed with
    | true => simp
    | false =>
      cases latest (m.listing (suspendedStages s)) with
      | some x =>
        simp only [stageStateOf, hres, hrun, Bool.false_eq_true, if_false, Bool.false_or]
        grind
      | none => simp

end Derived

section Later

variable {log ext : List (Entry Doc Event)}

theorem rule_after {e : Entry Doc Event} (h : Ordered Rule (log ++ ext)) (he : e ∈ ext) :
    ∃ pre, Rule (log ++ pre) e := by
  obtain ⟨pre, post, rfl⟩ := List.append_of_mem he
  exact ⟨pre, h (log ++ pre) e post (by simp)⟩

theorem nothing_after_stageFailed (h : Ordered Rule (log ++ ext))
    (hfail : .stageFailed st ∈ created log) :
    (∀ st', .stageSuspended st' ∉ created ext) ∧ .result ∉ created ext := by
  have hmem : ∀ pre, .stageFailed st ∈ created (log ++ pre) := by
    intro pre
    rw [created, List.filterMap_append]
    exact List.mem_append_left _ hfail
  refine ⟨?_, ?_⟩
  · intro st' hst
    obtain ⟨d, hd⟩ := mem_created hst
    obtain ⟨pre, hrule⟩ := rule_after h hd
    exact hrule.2.2.2 st (hmem pre)
  · intro hres
    obtain ⟨d, hd⟩ := mem_created hres
    obtain ⟨pre, hrule⟩ := rule_after h hd
    exact hrule st (hmem pre)

theorem suspendedStages_of_quiet (hs : Grows s s') (hlog : s'.log = s.log ++ ext)
    (hquiet : ∀ st', .stageSuspended st' ∉ created ext) :
    suspendedStages s' = suspendedStages s := by
  have hnone : (created ext).filterMap Key.stageSuspended? = [] := by
    rw [List.filterMap_eq_nil_iff]
    intro k hk
    cases k with
    | stageSuspended st' => exact absurd hk (hquiet st')
    | _ => rfl
  have hkeys : s'.keys = s.keys ++ created ext := by
    rw [Store.keys, hlog, List.filterMap_append]
    rfl
  rw [suspendedStages, suspendedStages, hkeys, List.filterMap_append, hnone, List.append_nil]
  refine List.filterMap_congr fun st' hst => ?_
  obtain ⟨k, hk, heq⟩ := List.mem_filterMap.mp hst
  cases k with
  | stageSuspended st'' =>
    cases heq
    obtain ⟨d, hd⟩ := Store.docs_of_has (Store.mem_keys.mp hk)
    rw [hd, hs.docs _ _ hd]
  | _ => cases heq

end Later

variable {env : String} {now : Nat} {sweepers : List (Nat × Nat)} {c c' : Pool Doc Event Task}

/-- A completed run stays so.  A failed run stays so unless its result comes in, which it does not
when a stage failed and the run as such did not. -/
theorem derivedState_final (h : Reach (code m) (arrival m st env now sweepers) c)
    (h' : Reach (code m) c c') :
    (derivedState m c.store = some .completed → derivedState m c'.store = some .completed) ∧
      (derivedState m c.store = some .failed →
        derivedState m c'.store = some (if c'.store.has .result then .completed else .failed) ∧
          (c.store.has .runFailed = false → c'.store.has .result = false)) := by
  have hs : Grows c.store c'.store := h'.grows
  obtain ⟨ext, hext⟩ := hs.log
  obtain ⟨r, hinv⟩ := inv_reach (h.trans h')
  have horder : Ordered Rule (c.store.log ++ ext) := hext ▸ hinv.order
  have hresult : ∀ st', c.store.has (.stageFailed st') = true → c.store.has .result = false →
      c'.store.has .result = false := by
    intro st' hfail hres
    by_contra hres'
    have hmem := Store.mem_keys.mpr (show c'.store.has .result = true by simpa using hres')
    rw [Store.keys, ← hext, List.filterMap_append, List.mem_append] at hmem
    rcases hmem with hmem | hmem
    · simp [Store.mem_keys.mp hmem] at hres
    · exact (nothing_after_stageFailed horder (Store.mem_keys.mpr hfail)).2 hmem
  refine ⟨?_, ?_⟩
  · rw [derivedState_completed_iff, derivedState_completed_iff]
    exact fun hres => hs.has hres
  · intro hfailed
    obtain ⟨hres, hwhy⟩ := derivedState_failed_iff.mp hfailed
    refine ⟨?_, ?_⟩
    · cases hres' : c'.store.has .result with
      | true => exact derivedState_completed_iff.mpr hres'
      | false =>
        refine derivedState_failed_iff.mpr ⟨hres', ?_⟩
        rcases hwhy with hrun | ⟨x, hx, hfail⟩
        · exact .inl (hs.has hrun)
        · refine .inr ⟨x, ?_, hs.has hfail⟩
          have hquiet := (nothing_after_stageFailed horder (Store.mem_keys.mpr hfail)).1
          rw [suspendedStages_of_quiet hs hext.symm hquiet]
          exact hx
    · intro hrun
      rcases hwhy with hrun' | ⟨x, -, hfail⟩
      · rw [hrun] at hrun'
        cases hrun'
      · exact hresult x.1 hfail hres

/-- No result is written behind the document of a run failure. -/
def NoLateResult (log : List (Entry Doc Event)) : Prop :=
  Ordered (fun pre e => e.created = some .result → .runFailed ∉ created pre) log

/-- Whatever final state a run has been in on the way to `c'`, it is in at `c'`. -/
def StaysFinal (m : Machine) (start c' : Pool Doc Event Task) : Prop :=
  ∀ c, Reach (code m) start c → Reach (code m) c c' →
    ∀ state, state = .failed ∨ state = .completed →
      derivedState m c.store = some state → derivedState m c'.store = some state

theorem noLateResult_of_final (h : Reach (code m) (arrival m st env now sweepers) c')
    (hfinal : StaysFinal m (arrival m st env now sweepers) c') : NoLateResult c'.store.log := by
  intro pre e post hlog hresult hfail
  obtain ⟨c, hc, hc', hpre⟩ := h.cut (List.nil_prefix (l := pre)) ⟨e :: post, hlog.symm⟩
  have honce := c'.store.once
  rw [hlog, List.filterMap_append, List.filterMap_cons_some hresult] at honce
  have hbefore : c.store.has .result = false := by
    rw [Bool.eq_false_iff, Ne, ← Store.mem_keys, Store.keys, hpre]
    intro hmem
    exact (List.nodup_append.mp honce).2.2 _ hmem _ List.mem_cons_self rfl
  have hafter : c'.store.has .result = true := by
    rw [← Store.mem_keys, Store.keys, hlog, List.filterMap_append, List.filterMap_cons_some hresult]
    exact List.mem_append_right _ List.mem_cons_self
  have hrun : c.store.has .runFailed = true := by
    rw [← Store.mem_keys, Store.keys, hpre]
    exact hfail
  have hfailed := hfinal c hc hc' .failed (.inl rfl)
    (derivedState_failed_iff.mpr ⟨hbefore, .inl hrun⟩)
  rw [derivedState_completed_iff.mpr hafter] at hfailed
  cases hfailed

theorem no_result_of_noLateResult (hs : Grows s s') (hlate : NoLateResult s'.log)
    (hrun : s.has .runFailed = true) (hres : s.has .result = false) : s'.has .result = false := by
  by_contra hres'
  obtain ⟨ext, hext⟩ := hs.log
  have hmem := Store.mem_keys.mpr (show s'.has .result = true by simpa using hres')
  rw [Store.keys, ← hext, List.filterMap_append, List.mem_append] at hmem
  rcases hmem with hmem | hmem
  · rw [Store.mem_keys.mp hmem] at hres
    cases hres
  · obtain ⟨e, he, hcreated⟩ := List.mem_filterMap.mp hmem
    obtain ⟨pre, post, rfl⟩ := List.append_of_mem he
    refine hlate (s.log ++ pre) e post (by rw [← hext, List.append_assoc]) hcreated ?_
    rw [created, List.filterMap_append]
    exact List.mem_append_left _ (Store.mem_keys.mpr hrun)

/-- A failed or completed run stays what it is exactly if no result is written behind its
failure. -/
theorem staysFinal_iff (h : Reach (code m) (arrival m st env now sweepers) c') :
    StaysFinal m (arrival m st env now sweepers) c' ↔ NoLateResult c'.store.log := by
  refine ⟨noLateResult_of_final h, fun hlate c hc hc' state hstate hderived => ?_⟩
  obtain ⟨hcompleted, hfailed⟩ := derivedState_final hc hc'
  rcases hstate with rfl | rfl
  · obtain ⟨hlater, hstage⟩ := hfailed hderived
    have hres := (derivedState_failed_iff.mp hderived).1
    have hres' : c'.store.has .result = false := by
      cases hrun : c.store.has .runFailed with
      | false => exact hstage hrun
      | true => exact no_result_of_noLateResult hc'.grows hlate hrun hres
    rw [hlater, hres']
    rfl
  · exact hcompleted hderived

theorem staysFinal_answered :
    derivedState still answered.store = some .completed ∧
      StaysFinal still (arrival still back empty 0 []) answered := by
  have hreach : Reach (code still) (arrival still back empty 0 []) answered := reach_play _ _
  refine ⟨by decide +kernel, (staysFinal_iff hreach).mpr fun pre e post hlog _ hfail => ?_⟩
  have hkeys : .runFailed ∉ answered.store.keys := by decide +kernel
  refine hkeys ?_
  rw [Store.keys, hlog, List.filterMap_append]
  exact List.mem_append_left _ hfail

def expiring : Pool Doc Event Task :=
  play (code still) (arrival still back empty 0 [(5, 10)])
    ((0, .barrier ⟨false, false⟩ back empty
      [⟨"ask", "", .async "opc" (.remote (.accepted "job"))⟩] (some 3) 0) :: (moves 6 0 ++
      moves 2 2 ++ [(3, .post "opc" done 1), (3, .stop), (3, .worker "opc"), (3, .stop)] ++
        moves 9 4 ++
      [(4, .resume back)] ++ moves 9 1))

def outlived : Pool Doc Event Task :=
  play (code still) expiring (moves 3 4 ++ [(4, .finish ⟨true, false⟩ empty), (4, .stop)])

/-- The sweeper fails a run and its result comes in later. -/
theorem failed_then_completed :
    ∃ c c', Reach (code still) (arrival still back empty 0 [(5, 10)]) c ∧ Reach (code still) c c' ∧
      derivedState still c.store = some .failed ∧
      derivedState still c'.store = some .completed := by
  refine ⟨expiring, outlived, reach_play _ _, reach_play _ _, ?_⟩
  decide +kernel

end ThanksComputer.Continuation
