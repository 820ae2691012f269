import ThanksComputer.Continuation.Soundness

/-! The pipeline keeps the invariant, at its joins and in its resumes. -/

namespace ThanksComputer.Continuation

open Lib.CreateOnce Lib.Process Lib.Ownership

variable {swept : Prop} {s : Store Doc Event} {r f : Purse} {α : Type} {J : List Opc} {st : Stage}

section Goto

variable {t : Task}

theorem Inv.goto_advances (h : Inv swept s (.flow .run J + f)) (id : Ident)
    (ht : t.advances id = true) :
    ∃ r', Inv swept s (r' + f) ∧ Pre swept t s r' := by
  cases t with
  | run id' st env now => exact ⟨_, h, J, rfl⟩
  | stop => exact ⟨0, h.drop_flow rfl rfl, rfl⟩
  | finish id' env =>
    cases hid : id'.known with
    | true => exact ⟨_, h, by simp only [Pre, hid, if_true]; exact ⟨J, rfl⟩⟩
    | false => exact ⟨0, h.drop_flow rfl rfl, by simp [Pre, hid]⟩
  | _ => cases ht

theorem Inv.goto_follows (h : Inv swept s (.flow .run J + f)) (id : Ident) (env : String)
    (ht : t.follows id env = true) :
    ∃ r', Inv swept s (r' + f) ∧ Pre swept t s r' := by
  cases t with
  | barrier id' st env' ops expires now =>
    simp only [Task.follows, Bool.and_eq_true] at ht
    exact ⟨_, h, ⟨J, rfl⟩, ht.2⟩
  | promote => exact ⟨_, h, J, rfl⟩
  | _ => exact h.goto_advances id ht

theorem Inv.goto_enters (h : Inv swept s (.flow .run J + f)) (id : Ident) (env : String)
    (ht : t.enters id st env = true) :
    ∃ r', Inv swept s (r' + f) ∧ Pre swept t s r' := by
  cases t with
  | dispatchDeferred => exact ⟨_, h, J, rfl⟩
  | _ => exact h.goto_follows id env ht

end Goto

section Joins

variable {waiting : List (Opc × PendingJoin)}

theorem opcs_joinManifest (waiting : List (Opc × PendingJoin)) :
    (opcs (joinManifest waiting)).Perm (waiting.map Prod.fst) := by
  have hopc : opcs (waiting.map entryOf) = waiting.map Prod.fst := by
    simp [opcs, Function.comp_def, entryOf]
  rw [← hopc]
  exact (List.mergeSort_perm _ entryOrder).filterMap _

theorem suspends_joins (hne : waiting ≠ []) (hnodup : (waiting.map Prod.fst).Nodup)
    (hnew : ∀ pj ∈ waiting, pj.1 ∉ J) (env : String) (now : Nat) :
    Suspends J st ⟨env, joinManifest waiting, now⟩ (.guard st) := by
  have hperm : (joinManifest waiting).Perm (waiting.map entryOf) := List.mergeSort_perm _ entryOrder
  refine ⟨rfl, rfl, ?_, .inr ⟨?_, by simp⟩, ?_, ?_⟩
  · intro hnil
    have hmap : (waiting.map entryOf).Perm [] :=
      (show joinManifest waiting = [] from hnil) ▸ hperm.symm
    exact hne (List.map_eq_nil_iff.mp hmap.eq_nil)
  · intro e he
    obtain ⟨pj, -, rfl⟩ := List.mem_map.mp (hperm.mem_iff.mp he)
    simp [entryOf]
  · exact (opcs_joinManifest waiting).nodup_iff.mpr hnodup
  · intro o ho
    obtain ⟨pj, hpj, rfl⟩ := List.mem_map.mp ((opcs_joinManifest waiting).mem_iff.mp ho)
    exact hnew pj hpj

theorem Inv.over_of_stale (h : Inv swept s r) {d : StageSuspended}
    (hst : .write (.stageSuspended st) d false ∈ s.log) : Over s r :=
  h.turn.ended (.inr (.inr ⟨st, d, hst⟩))

theorem safe_marks {d : StageSuspended} {Q : Unit → Store Doc Event → Purse → Prop}
    (hfiled : Filed s st d) (hopcs : ∀ pj ∈ waiting, pj.1 ∈ opcs d.manifest)
    (hnext : ∀ s', Grows s s' → (∀ pj ∈ waiting, s'.has (.suspendedAt pj.1) = true) → Q () s' r) :
    Safe (discipline swept)
      (Prog.each (fun pj => setDeferredSuspendedAt pj.1 st) waiting) Q s r := by
  induction waiting generalizing s with
  | nil => exact hnext s (Grows.refl s) (by simp)
  | cons pj pjs ih =>
    refine Safe.bind (safe_create fun s' f hs hinv => ⟨r, ?_, ?_⟩)
    · refine hinv.mark ?_
      rcases hfiled.grows hs with hdoc | hstale
      · exact .inl ⟨d, hdoc, hopcs pj List.mem_cons_self⟩
      · exact .inr (hinv.over_of_stale hstale)
    · have hs' := hs.trans (Grows.create s' (.suspendedAt pj.1) st)
      refine ih (hfiled.grows hs') (fun x hx => hopcs x (List.mem_cons_of_mem pj hx)) ?_
      intro s'' hs'' hall
      refine hnext s'' (hs'.trans hs'') fun x hx => ?_
      rcases List.mem_cons.mp hx with rfl | hx
      · exact hs''.has (Store.has_create_self _ _ _)
      · exact hall x hx

theorem safe_suspendForDeferredJoins (hne : waiting ≠ []) (hnodup : (waiting.map Prod.fst).Nodup)
    (hnew : ∀ pj ∈ waiting, pj.1 ∉ J) (env : String) (now : Nat) :
    Safe (discipline swept) (suspendForDeferredJoins st env waiting now) Ended s
      (.flow .run J) := by
  have hmem : ∀ {o}, o ∈ opcs (joinManifest waiting) ↔ o ∈ waiting.map Prod.fst :=
    (opcs_joinManifest waiting).mem_iff
  refine safe_suspendStage (suspends_joins hne hnodup hnew env now) fun s₁ hfiled _ => ?_
  refine safe_bind (safe_marks hfiled
    (fun pj hpj => hmem.mpr (List.mem_map_of_mem hpj)) fun s₂ hs₂ hmarks => ?_)
  have hfiled₂ := hfiled.grows hs₂
  have hdone : ∀ {s' f}, Grows s₂ s' → Inv swept s' (.guard st + f) →
      ∀ d, Open s' st d → ∀ o ∈ opcs d.manifest, s'.has (.suspendedAt o) = true := by
    intro s' f hs' hinv d hop o ho
    rcases hfiled₂.grows hs' with hdoc | hstale
    · rw [hop.1] at hdoc
      cases hdoc
      obtain ⟨pj, hpj, rfl⟩ := List.mem_map.mp (hmem.mp ho)
      exact hs'.has (hmarks pj hpj)
    · exact absurd hop ((hinv.over_of_stale hstale).2 st d)
  refine safe_bind (safe_stageState ?_ ?_)
  · intro s₃ hs₃ _
    refine safe_spawn fun s₄ f₄ hs₄ hinv₄ => ⟨.waker st, 0, ?_, rfl, rfl⟩
    rw [add_zero]
    exact hinv₄.drop_guard rfl rfl (hdone (hs₃.trans hs₄) hinv₄) (.inl (by simp))
  · intro state s₃ f₃ hstate hs₃ hinv₃ hblock
    refine ⟨0, hinv₃.drop_guard rfl rfl (hdone hs₃ hinv₃) (.inr ?_), ?_⟩
    · rcases hfiled₂.grows hs₃ with hdoc | hstale
      · exact hinv₃.settled hdoc hblock
      · exact fun d _ hop => absurd hop ((hinv₃.over_of_stale hstale).2 st d)
    · cases state with
      | resumable => exact absurd rfl hstate
      | waiting | completed | failed => rfl

theorem Inv.joined_iff {ph : Phase} {o : Opc} (h : Inv swept s (.flow ph J + f)) :
    s.has (.joined o) = true ↔ o ∈ J :=
  h.pipeline.known o

theorem safe_unjoined {pjs : List (Opc × PendingJoin)}
    {Q : List (Opc × PendingJoin) → Store Doc Event → Purse → Prop}
    (hnext : ∀ pjs' s', Grows s s' → pjs'.Sublist pjs → (∀ pj ∈ pjs', pj.1 ∉ J) →
      Q pjs' s' (.flow .run J)) :
    Safe (discipline swept) (unjoined pjs) Q s (.flow .run J) := by
  induction pjs generalizing s Q with
  | nil => exact hnext [] s (Grows.refl s) (List.Sublist.refl _) (by simp)
  | cons pj pjs ih =>
    refine safe_exist fun s' f hs hinv => ⟨.flow .run J, hinv, ?_⟩
    cases hj : s'.has (.joined pj.1) with
    | true =>
      refine ih fun pjs' s'' hs' hsub hnew => ?_
      exact hnext pjs' s'' (hs.trans hs') (hsub.cons pj) hnew
    | false =>
      have hout : pj.1 ∉ J := fun hmem => by simp [hinv.joined_iff.mpr hmem] at hj
      refine safe_bind (ih fun pjs' s'' hs' hsub hnew => ?_)
      exact hnext (pj :: pjs') s'' (hs.trans hs') (hsub.cons_cons pj) (by simpa [hout] using hnew)

theorem safe_readOutput {term : OpTerminal} {Q : Option String → Store Doc Event → Purse → Prop}
    (hsome : ∀ x s', Grows s s' → Q (some x) s' r)
    (hnone : ∀ s' f, Grows s s' → Inv swept s' (r + f) →
      ∃ r', Inv swept s' (r' + f) ∧ Q none s' r') :
    Safe (discipline swept) (readOutput term) Q s r := by
  rw [readOutput]
  split
  · exact hsome "" s (Grows.refl s)
  · next p _ =>
    refine safe_fetch (g := Prog.pure) fun s' f hs hinv => ?_
    cases s'.docs (.output p) with
    | none => exact hnone s' f hs hinv
    | some x => exact ⟨r, hinv, hsome x s' hs⟩

theorem safe_readError {term : OpTerminal} {Q : Option String → Store Doc Event → Purse → Prop}
    (h : ∀ x s', Grows s s' → Q x s' r) : Safe (discipline swept) (readError term) Q s r := by
  rw [readError]
  split
  · exact h none s (Grows.refl s)
  · exact fun s' f hs hinv => ⟨r, hinv, h _ s' hs⟩

theorem safe_resolveEach (m : Machine) (id : Ident) {pjs : List (Opc × PendingJoin)} {env : String}
    {Q : Option (String × List (Opc × PendingJoin)) → Store Doc Event → Purse → Prop}
    (hnodup : (pjs.map Prod.fst).Nodup) (hnew : ∀ pj ∈ pjs, pj.1 ∉ J)
    (hstop : ∀ s', Q none s' 0)
    (hgo : ∀ env' waiting J' s', waiting.Sublist pjs → (∀ pj ∈ waiting, pj.1 ∉ J') →
      (∀ o, o ∉ J → o ∉ pjs.map Prod.fst → o ∉ J') → Q (some (env', waiting)) s' (.flow .run J')) :
    Safe (discipline swept) (resolveEach m id env pjs) Q s (.flow .run J) := by
  induction pjs generalizing s J env Q with
  | nil =>
    exact hgo env [] J s (List.Sublist.refl _) (by simp) fun o ho _ => ho
  | cons pj pjs ih =>
    rw [List.map_cons, List.nodup_cons] at hnodup
    have hout : pj.1 ∉ J := hnew pj List.mem_cons_self
    refine safe_fetch fun s₁ f₁ _ hinv₁ => ⟨.flow .run J, hinv₁, ?_⟩
    cases s₁.docs (.terminal (.deferred pj.1)) with
    | none =>
      -- the join has to wait; the ops merged after it are others
      refine safe_bind (ih hnodup.2 (fun x hx => hnew x (List.mem_cons_of_mem pj hx)) hstop ?_)
      intro env' waiting J' s' hsub hwait hrest
      refine hgo env' (pj :: waiting) J' s' (hsub.cons_cons pj) ?_ ?_
      · simpa using ⟨hrest _ hout hnodup.1, fun o pj' hmem => hwait (o, pj') hmem⟩
      · intro o hJ hmap
        rw [List.map_cons, List.mem_cons, not_or] at hmap
        exact hrest o hJ hmap.2
    | some term =>
      by_cases hfailed : term.status = .failed
      · simp only [hfailed, if_true]
        refine safe_create fun s₂ f₂ _ hinv₂ => ?_
        cases hid : id.resuming with
        | true =>
          refine ⟨_, hinv₂.win hout, safe_bind (safe_readError fun eb s₃ _ => ?_)⟩
          simp only [if_true]
          exact safe_create fun s₄ f₄ _ hinv₄ => ⟨0, hinv₄.write_result rfl rfl _, hstop _⟩
        | false =>
          refine ⟨0, (hinv₂.win hout).drop_flow rfl rfl,
            safe_bind (safe_readError fun eb s₃ _ => ?_)⟩
          simp only [Bool.false_eq_true, if_false]
          exact hstop _
      · simp only [hfailed, if_false]
        refine safe_create fun s₂ f₂ _ hinv₂ => ⟨_, hinv₂.win hout, ?_⟩
        have hfresh : s₂.has (.joined pj.1) = false :=
          Bool.eq_false_iff.mpr fun hj => hout (hinv₂.joined_iff.mp hj)
        simp only [hfresh, Bool.not_false, if_true]
        have hmerge : ∀ ob s', Safe (discipline swept) (do
            Prog.say (.merged pj.1)
            resolveEach m id (m.join env term ob) pjs) Q s' (.flow (.won pj.1) (pj.1 :: J)) := by
          intro ob s' s₃ f₃ _ hinv₃
          refine ⟨_, hinv₃.note_won, ih hnodup.2 ?_ hstop ?_⟩
          · intro x hx hmem
            rcases List.mem_cons.mp hmem with heq | hJ
            · exact hnodup.1 (heq ▸ List.mem_map_of_mem hx)
            · exact hnew x (List.mem_cons_of_mem pj hx) hJ
          · intro env' waiting J' s'' hsub hwait hrest
            refine hgo env' waiting J' s'' (hsub.cons pj) hwait fun o hJ hmap => ?_
            rw [List.map_cons, List.mem_cons, not_or] at hmap
            exact hrest o (by simp [hmap.1, hJ]) hmap.2
        refine safe_bind (safe_readOutput (fun x s' _ => hmerge _ s') ?_)
        exact fun s' f' _ hinv' => ⟨_, hinv', hmerge _ s'⟩

theorem pendingJoins_nodup (s : Store Doc Event) : ((pendingJoins s).map Prod.fst).Nodup := by
  have hkeys : (s.keys.filterMap Key.pendingJoin?).Nodup := by
    refine s.once.filterMap ?_
    intro k k' o hk hk'
    cases k <;> simp only [Key.pendingJoin?, Option.mem_def, Option.some.injEq, reduceCtorEq] at hk
    cases k'
      <;> simp only [Key.pendingJoin?, Option.mem_def, Option.some.injEq, reduceCtorEq] at hk'
    rw [hk, hk']
  have hsub : ((pendingJoins s).map Prod.fst).Sublist (s.keys.filterMap Key.pendingJoin?) := by
    rw [pendingJoins]
    generalize s.keys.filterMap Key.pendingJoin? = os
    induction os with
    | nil => exact List.Sublist.refl _
    | cons o os ih =>
      rw [List.filterMap_cons]
      cases s.docs (.pendingJoin o) with
      | none => exact ih.cons o
      | some pj => exact ih.cons_cons o
  exact hkeys.sublist hsub

theorem safe_run (m : Machine) (id : Ident) (env : String) (now : Nat) :
    Safe (discipline swept) (run m id st env now) Ended s (.flow .run J) := by
  have hgoto : ∀ {env J s}, Safe (discipline swept) (.goto (Task.enters id st env)) Ended s
      (.flow .run J) := by
    intro env J s s' f _ hinv t ht
    exact hinv.goto_enters id env ht
  rw [run]
  cases id.deferred with
  | false => exact hgoto
  | true =>
    refine safe_bind ?_
    refine fun s₁ f₁ _ hinv₁ => ⟨.flow .run J, hinv₁, ?_⟩
    have hpjs := pendingJoins_nodup s₁
    change Safe (discipline swept) (unjoined ((pendingJoins s₁).filter fun pj => due st pj.2) >>=
      fun pjs => resolveEach m id env (pjs.mergeSort byOrdinal)) _ s₁ _
    refine safe_bind (safe_unjoined fun pjs s₂ _ hsub hnew => ?_)
    have hnodup : (pjs.map Prod.fst).Nodup :=
      hpjs.sublist ((hsub.trans List.filter_sublist).map Prod.fst)
    have hperm := List.mergeSort_perm pjs byOrdinal
    have hsorted := (hperm.map Prod.fst).nodup_iff.mpr hnodup
    refine safe_resolveEach m id hsorted ?_ (fun _ => rfl) ?_
    · exact fun pj hpj => hnew pj (hperm.mem_iff.mp hpj)
    · intro env' waiting J' s' hsub' hwait _
      cases waiting with
      | nil => exact hgoto
      | cons pj waiting =>
        exact safe_suspendForDeferredJoins (by simp) (hsorted.sublist (hsub'.map Prod.fst)) hwait
          env' now

end Joins

section Resume

variable {entries : List OpManifestEntry}

theorem safe_mergeDeferred (m : Machine) {env : String} {fuel : Int}
    {Q : Option String → Store Doc Event → Purse → Prop} (hopc : ∀ e ∈ entries, e.opc ≠ none)
    (hstop : ∀ s', Q none s' 0)
    (hgo : ∀ env' J' s', Q (some env') s' (.flow (.resume []) J')) :
    Safe (discipline swept) (mergeDeferred m st env fuel entries) Q s
      (.flow (.resume (opcs entries)) J) := by
  induction entries generalizing s J env fuel with
  | nil => exact hgo _ J s
  | cons e es ih =>
    obtain ⟨o, ho⟩ := Option.ne_none_iff_exists'.mp (hopc e List.mem_cons_self)
    have hes : opcs (e :: es) = o :: opcs es := by simp [opcs, ho]
    have hget : e.opc.getD "" = o := by simp [ho]
    rw [hes, mergeDeferred, hget]
    refine safe_fetch fun s₁ f₁ _ hinv₁ => ?_
    cases s₁.docs (.terminal (.deferred o)) with
    | none => exact ⟨0, hinv₁.drop_flow rfl rfl, hstop _⟩
    | some term =>
      refine ⟨_, hinv₁, ?_⟩
      by_cases hfailed : term.status = .failed
      · simp only [hfailed, if_true]
        exact safe_create fun s₂ f₂ _ hinv₂ => ⟨0, hinv₂.fail_stage rfl rfl _ _, hstop _⟩
      · simp only [hfailed, if_false]
        refine safe_bind (safe_readOutput ?_ ?_)
        · intro ob s₂ _ s₃ f₃ _ hinv₃
          refine ⟨_, hinv₃.note_resume, ?_⟩
          refine safe_create fun s₄ f₄ _ hinv₄ => ⟨_, hinv₄.join_mark, ?_⟩
          exact ih fun e' he' => hopc e' (List.mem_cons_of_mem e he')
        · exact fun s₂ f₂ _ hinv₂ => ⟨0, hinv₂.drop_flow rfl rfl, hstop _⟩

theorem safe_mergeBarrier (m : Machine) {env : String} {fuel : Int}
    {Q : Option String → Store Doc Event → Purse → Prop} (hstop : ∀ s', Q none s' 0)
    (hgo : ∀ env' s', Q (some env') s' (.flow (.resume []) J)) :
    Safe (discipline swept) (mergeBarrier m st env fuel entries) Q s (.flow (.resume []) J) := by
  induction entries generalizing s env fuel with
  | nil => exact hgo _ s
  | cons e es ih =>
    refine safe_fetch fun s₁ f₁ _ hinv₁ => ?_
    cases s₁.docs (.terminal (.op st e.ref)) with
    | none => exact ⟨0, hinv₁.drop_flow rfl rfl, hstop _⟩
    | some term =>
      refine ⟨_, hinv₁, ?_⟩
      by_cases hfailed : term.status = .failed
      · simp only [hfailed, if_true]
        exact safe_create fun s₂ f₂ _ hinv₂ => ⟨0, hinv₂.fail_stage rfl rfl _ _, hstop _⟩
      · simp only [hfailed, if_false]
        refine safe_bind (safe_readOutput (fun ob s₂ _ => ih) ?_)
        exact fun s₂ f₂ _ hinv₂ => ⟨0, hinv₂.drop_flow rfl rfl, hstop _⟩

theorem opcs_of_not_deferred {m : List OpManifestEntry} (h : isDeferredJoinManifest m = false) :
    ∀ e ∈ m, e.opc = none := by
  intro e he
  rw [isDeferredJoinManifest, List.any_eq_false] at h
  simpa using h e he

theorem safe_resume (m : Machine) {d : StageSuspended}
    (hdoc : s.docs (.stageSuspended st) = some d) :
    Safe (discipline swept) (resume m st) Ended s
      (.flow (.resume (opcs (d.manifest.mergeSort entryOrder))) J) := by
  have hperm := List.mergeSort_perm d.manifest entryOrder
  refine safe_fetch fun s₁ f₁ hs₁ hinv₁ => ⟨_, hinv₁, ?_⟩
  have hdoc₁ := hs₁.docs _ _ hdoc
  rw [hdoc₁]
  cases hdef : isDeferredJoinManifest d.manifest with
  | true =>
    have hsome : ∀ e ∈ d.manifest, e.opc ≠ none := by
      rcases (hinv₁.wake.shape hdoc₁).2 with hnone | hsome
      · obtain ⟨e, he, hopc⟩ := List.any_eq_true.mp hdef
        simp [hnone e he] at hopc
      · exact hsome
    simp only [hdef, if_true]
    refine safe_bind (safe_mergeDeferred m (fun e he => hsome e (hperm.mem_iff.mp he)) ?_ ?_)
    · exact fun _ => rfl
    intro env' J' s₂ s₃ f₃ _ hinv₃ t ht
    cases t with
    | run => exact ⟨_, hinv₃.resume_done, J', rfl⟩
    | stop => exact ⟨0, hinv₃.drop_flow rfl rfl, rfl⟩
    | _ => cases ht
  | false =>
    have hnone : ∀ e ∈ d.manifest.mergeSort entryOrder, e.opc = none :=
      fun e he => opcs_of_not_deferred hdef e (hperm.mem_iff.mp he)
    rw [opcs_eq_nil hnone]
    simp only [hdef, Bool.false_eq_true, if_false]
    refine safe_bind (safe_mergeBarrier m ?_ ?_)
    · exact fun _ => rfl
    intro env' s₂ s₃ f₃ _ hinv₃ t ht
    exact hinv₃.resume_done.goto_advances _ ht

theorem safe_finish (id : Ident) (env : String) (hr : Pre swept (.finish id env) s r) :
    Safe (discipline swept) (finish id env) Ended s r := by
  rw [Pre] at hr
  rw [finish]
  cases hid : id.known with
  | true =>
    simp only [hid, if_true] at hr ⊢
    obtain ⟨J, rfl⟩ := hr
    exact safe_create fun s' f _ hinv => ⟨0, hinv.write_result rfl rfl env, rfl⟩
  | false =>
    simp only [hid, Bool.false_eq_true, if_false] at hr ⊢
    exact hr

end Resume

section Dispatch

variable {todo all : List Opc}

theorem safe_createDeferredOp (ordinal : Nat) (op : DeferredOp) :
    Safe (discipline swept) (createDeferredOp st ordinal op) (Kept s r) s r := by
  refine safe_plain rfl fun _ s₁ hs₁ => ?_
  refine safe_plain rfl fun _ s₂ hs₂ => ?_
  refine safe_create fun s₃ f₃ hs₃ hinv₃ => ⟨r, hinv₃.create_lookup _ _ nofun, ?_⟩
  refine safe_plain rfl fun _ s₄ hs₄ => ⟨?_, rfl⟩
  exact ((hs₁.trans hs₂).trans hs₃).trans ((Grows.create s₃ _ _).trans hs₄)

theorem safe_dispatchEach {ops : List (DeferredOp × Nat)}
    {Q : Unit → Store Doc Event → Purse → Prop}
    (htodo : remoteOpcs (ops.map Prod.fst) = todo) (hall : ∀ o ∈ todo, o ∈ all)
    (hnext : ∀ s', Q () s' (.flow (.await [] all) J)) :
    Safe (discipline swept) (Prog.each (dispatchDeferredOp st) ops) Q s
      (.flow (.await todo all) J) := by
  subst htodo
  induction ops generalizing s with
  | nil => exact hnext s
  | cons x ops ih =>
    refine Safe.bind (safe_bind ((safe_createDeferredOp x.2 x.1).mono ?_))
    rintro _ s₁ r₁ ⟨-, rfl⟩
    obtain ⟨⟨name, input, joinAt, opc, mode⟩, ordinal⟩ := x
    cases mode with
    | remote fate =>
      have hcons : remoteOpcs (((⟨name, input, joinAt, opc, .remote fate⟩, ordinal) :: ops).map
          Prod.fst) = opc :: remoteOpcs (ops.map Prod.fst) := rfl
      rw [hcons] at hall ⊢
      refine safe_spawn (g := Prog.pure) fun s₂ f₂ _ hinv₂ => ⟨.dispatcher opc, _,
        hinv₂.await_fork (hall opc List.mem_cons_self), rfl, ?_⟩
      exact ih fun o ho => hall o (List.mem_cons_of_mem opc ho)
    | localAsync fate =>
      cases fate with
      | refused call =>
        refine safe_recordTerminal ?_ fun _ s' _ => ih hall
        intro s₂ f₂ t _ _ hinv₂
        exact ⟨_, hinv₂.file_deferred_unchecked (by simp), ih hall⟩
      | detached call now => exact safe_spawn_free (g := Prog.pure) rfl fun _ _ => ih hall

theorem returned_of_unused {o : Opc} (h : unused s o = true) : s.has (.returned o) = false := by
  rw [unused, List.all_eq_true] at h
  by_contra hret
  have hmem := Store.mem_keys.mpr (by simpa using hret)
  simpa [Key.opc] using h _ hmem

theorem safe_dispatchDeferred (id : Ident) (env : String) (ops : List DeferredOp)
    (expires : Option Nat) :
    Safe (discipline swept) (dispatchDeferred id st env ops expires) Ended s (.flow .run J) := by
  have hfst : ops.zipIdx.map Prod.fst = ops := by simp
  have hsub : (remoteOpcs ops).Sublist (ops.map DeferredOp.opc) :=
    List.filter_sublist.map DeferredOp.opc
  refine safe_ensureRun fun s₁ _ => ?_
  intro s₂ f₂ _ hinv₂ hmint
  rw [Bool.and_eq_true, List.all_eq_true, decide_eq_true_iff] at hmint
  refine ⟨.flow (.await (remoteOpcs ops) (remoteOpcs ops)) J, hinv₂.await_start ?_ ?_, ?_⟩
  · exact hmint.2.sublist hsub
  · exact fun o ho => returned_of_unused (hmint.1 o (hsub.subset ho))
  · refine safe_bind (p := Prog.each (dispatchDeferredOp st) ops.zipIdx)
      (safe_dispatchEach (by rw [hfst]) (fun o ho => ho) ?_)
    intro s₃ s₄ f₄ _ hinv₄ hret
    rw [List.all_eq_true] at hret
    refine ⟨.flow .run J, hinv₄.await_end hret, fun s₅ f₅ _ hinv₅ t ht => ?_⟩
    exact hinv₅.goto_follows _ env ht

end Dispatch

end ThanksComputer.Continuation
