import ThanksComputer.Continuation.Resumes

/-! The sweeper keeps the invariant too, and so it holds in every state of every run. -/

namespace ThanksComputer.Continuation

open Lib.CreateOnce Lib.Process Lib.Ownership

variable {swept : Prop} {s : Store Doc Event} {r : Purse} {α : Type} {st : Stage}

section Sweep

theorem safe_failRun {Q : Unit → Store Doc Event → Purse → Prop} (hswept : swept) (reason : String)
    (hnext : ∀ s', Q () s' r) : Safe (discipline swept) (failRun reason) Q s r :=
  safe_create (k := .runFailed) fun _ _ _ hinv => ⟨r, hinv.fail_run hswept reason, hnext _⟩

theorem safe_currentStage {m : Machine} {g : Option (Stage × StageSuspended) → M α}
    {Q : α → Store Doc Event → Purse → Prop}
    (h : ∀ x s', Safe (discipline swept) (g x) Q s' r) :
    Safe (discipline swept) (currentStage m >>= g) Q s r :=
  safe_bind fun s' _ _ hinv => ⟨r, hinv, h _ s'⟩

theorem safe_runState (m : Machine) {Q : Option State → Store Doc Event → Purse → Prop}
    (hnext : ∀ state s', Q state s' r) : Safe (discipline swept) (runState m) Q s r := by
  refine safe_exist fun s₁ f₁ _ hinv₁ => ⟨r, hinv₁, ?_⟩
  cases s₁.has .result with
  | true => exact hnext _ _
  | false =>
    refine safe_exist fun s₂ f₂ _ hinv₂ => ⟨r, hinv₂, ?_⟩
    cases s₂.has .runFailed with
    | true => exact hnext _ _
    | false =>
      refine safe_currentStage fun x s₃ => ?_
      cases x with
      | some x =>
        refine safe_bind (safe_stageState ?_ ?_)
        · exact fun s₄ _ _ => hnext _ _
        · exact fun state s₄ f₄ _ _ hinv₄ _ => ⟨r, hinv₄, hnext _ _⟩
      | none =>
        refine safe_exist fun s₄ f₄ _ hinv₄ => ⟨r, hinv₄, ?_⟩
        cases s₄.has .runCreated with
        | true => exact hnext _ _
        | false => exact hnext _ _

theorem safe_failStale {Q : Unit → Store Doc Event → Purse → Prop} (hswept : swept)
    (d : StageSuspended) (now staleAfter : Nat) (hnext : ∀ s', Q () s' r) :
    Safe (discipline swept) (failStale st d now staleAfter) Q s r := by
  refine safe_bind (safe_stageState ?_ ?_)
  · intro s₁ _ _
    refine safe_fetch fun s₂ f₂ _ hinv₂ => ⟨r, hinv₂, ?_⟩
    cases s₂.docs (.resumeClaim st) with
    | none => exact hnext s₂
    | some claimedAt =>
      by_cases hstale : staleAfter < now - claimedAt
      · simp only [hstale, if_true]
        exact safe_failRun hswept _ hnext
      · simp only [hstale, if_false]
        exact hnext s₂
  · intro state s₁ f₁ hstate _ hinv₁ _
    refine ⟨r, hinv₁, ?_⟩
    cases state with
    | resumable => exact absurd rfl hstate
    | waiting | completed | failed => exact hnext s₁

theorem safe_sweepRun (m : Machine) {Q : Unit → Store Doc Event → Purse → Prop} (hswept : swept)
    (now staleAfter : Nat) (hnext : ∀ s', Q () s' r) :
    Safe (discipline swept) (sweepRun m now staleAfter) Q s r := by
  refine safe_fetch fun s₁ f₁ _ hinv₁ => ⟨r, hinv₁, ?_⟩
  cases s₁.docs .runCreated with
  | none => exact hnext s₁
  | some rc =>
    refine safe_bind (safe_runState m fun state s₂ => ?_)
    cases state with
    | none => exact hnext s₂
    | some state =>
      cases hterm : state.terminal with
      | true =>
        simp only [hterm, if_true]
        exact hnext s₂
      | false =>
        cases hexp : expired rc now with
        | true =>
          simp only [hterm, Bool.false_eq_true, if_false, if_true]
          exact safe_failRun hswept _ hnext
        | false =>
          simp only [hterm, Bool.false_eq_true, if_false]
          refine safe_currentStage fun x s₃ => ?_
          cases x with
          | none => exact hnext s₃
          | some x => exact safe_failStale hswept x.2 now staleAfter hnext

end Sweep

theorem sound (swept : Prop) (m : Machine) : Sound (discipline swept) (code m) := by
  intro t s r hpre
  cases t with
  | run id st env now =>
    obtain ⟨J, rfl⟩ := hpre
    exact safe_run m id env now
  | dispatchDeferred id st env ops expires =>
    obtain ⟨J, rfl⟩ := hpre
    exact safe_dispatchDeferred id env ops expires
  | barrier id st env ops expires now =>
    obtain ⟨⟨J, rfl⟩, hops⟩ := hpre
    exact safe_suspendBarrierScope id env expires now hops
  | promote id st env op input call now =>
    obtain ⟨J, rfl⟩ := hpre
    exact safe_promoteContinuable id env op input call now
  | finish id env => exact safe_finish id env hpre
  | stop => exact hpre
  | sibling st ref call =>
    obtain ⟨hst, rfl⟩ := hpre
    exact safe_record_unchecked hst fun _ _ _ => rfl
  | dispatch st ref opc fate =>
    obtain ⟨hst, rfl⟩ := hpre
    exact safe_dispatch fate hst
  | detached st ref call now =>
    obtain ⟨hst, rfl⟩ := hpre
    exact safe_detachedTail now hst
  | dispatchRemote opc fate =>
    obtain rfl := hpre
    exact safe_dispatchRemote fate
  | detachedDeferred opc call now =>
    obtain rfl := hpre
    exact safe_detachedDeferredTail now
  | worker opc =>
    obtain rfl := hpre
    intro s' f _ hinv t ht
    cases t with
    | post => exact ⟨0, hinv, rfl⟩
    | stop => exact ⟨0, hinv, rfl⟩
    | _ => cases ht
  | post opc call now =>
    obtain rfl := hpre
    refine safe_spawn_free rfl fun s₁ _ s₂ f₂ _ hinv₂ t ht => ?_
    cases t with
    | worker => exact ⟨0, hinv₂, rfl⟩
    | _ => cases ht
  | callback opc call now =>
    obtain rfl := hpre
    exact safe_handleContinuationComplete now
  | drive st now =>
    obtain rfl := hpre
    exact safe_driveResume st now s
  | resume st =>
    obtain ⟨d, J, hdoc, rfl⟩ := hpre
    exact safe_resume m hdoc
  | sweep now staleAfter =>
    obtain ⟨hswept, rfl⟩ := hpre
    refine safe_bind (safe_sweepRun m hswept now staleAfter fun s₁ s₂ f₂ _ hinv₂ t ht => ?_)
    cases t with
    | sweep => exact ⟨0, hinv₂, hswept, rfl⟩
    | stop => exact ⟨0, hinv₂, rfl⟩
    | _ => cases ht

theorem inv_empty (swept : Prop) : Inv swept Store.empty (.flow .run []) := by
  have hhas : ∀ k, (Store.empty : Store Doc Event).has k = false := fun _ => rfl
  have hopen : ∀ st d, ¬Open (Store.empty : Store Doc Event) st d := fun _ _ h => nomatch h.1
  have hflow : ∀ {ph J}, (ph, J) ∈ (Purse.flow .run []).flows → ph = .run ∧ J = [] := by
    intro ph J h
    simpa using h
  refine ⟨ordered_nil Rule, nofun, nofun, ⟨by simp, fun _ => hopen, ?_, ?_⟩,
    ⟨nofun, ?_, ?_, ?_, ?_⟩,
      ⟨?_, ?_, ?_, ?_, ?_, ?_, nofun, nofun, by simp [mergedOpcs, Store.empty]⟩,
    ⟨by simp, by simp, ?_⟩⟩
  · exact fun h => absurd h (hopen _ _)
  · rintro (h | ⟨st, h⟩ | ⟨st, d, h⟩)
    · cases h
    · cases h
    · cases h
  · exact fun _ h => absurd h (hopen _ _)
  · exact fun _ h => absurd h (hopen _ _)
  · exact fun h => absurd h (hopen _ _)
  · exact fun h => absurd h (hopen _ _)
  · intro ph J h o
    simp [hhas, (hflow h).2]
  · exact fun h => absurd h (hopen _ _)
  · intro ph J h
    obtain ⟨rfl, rfl⟩ := hflow h
    simp [Phase.pending, Phase.ahead]
  · intro o J h
    cases (hflow h).1
  · intro ph J _ o h
    cases h
  · exact fun h => absurd h (hopen _ _)
  · intro todo all J h
    cases (hflow h).1

theorem held_arrival (m : Machine) (st : Stage) (env : String) (now : Nat)
    (sweepers : List (Nat × Nat)) :
    ∃ hands, Held (discipline (sweepers ≠ [])) (arrival m st env now sweepers) hands := by
  have hsum : ((sweepers.map fun x => (Task.sweep x.1 x.2, (0 : Purse))).map Prod.snd).sum = 0 := by
    refine List.sum_eq_zero fun r hr => ?_
    simp only [List.map_map, List.mem_map, Function.comp_apply] at hr
    obtain ⟨x, -, rfl⟩ := hr
    rfl
  have hheld := held_start (sound (sweepers ≠ []) m) (s := Store.empty)
    ((.run ⟨false, false⟩ st env now, .flow .run []) ::
      sweepers.map fun x => (.sweep x.1 x.2, 0)) ?_ ?_
  · rw [List.map_cons, List.map_map] at hheld
    exact ⟨_, hheld⟩
  · rw [List.map_cons, List.sum_cons, hsum, add_zero]
    exact inv_empty _
  · intro t ht
    rcases List.mem_cons.mp ht with rfl | ht
    · exact ⟨[], rfl⟩
    · obtain ⟨x, hx, rfl⟩ := List.mem_map.mp ht
      exact ⟨List.ne_nil_of_mem hx, rfl⟩

section Reach

variable {m : Machine} {env : String} {now : Nat} {sweepers : List (Nat × Nat)}
  {c : Pool Doc Event Task}

theorem inv_reach (h : Reach (code m) (arrival m st env now sweepers) c) :
    ∃ r, Inv (sweepers ≠ []) c.store r :=
  inv_of_reach (sound _ m) (held_arrival m st env now sweepers) h

theorem inv_idle (h : Reach (code m) (arrival m st env now sweepers) c) (hidle : c.idle = true) :
    Inv (sweepers ≠ []) c.store 0 :=
  inv_of_idle (sound _ m) (held_arrival m st env now sweepers) h hidle

end Reach

end ThanksComputer.Continuation
