import ThanksComputer.Continuation.Pipeline

/-! Every party keeps the invariant at each of its store operations. -/

namespace ThanksComputer.Continuation

open Lib.CreateOnce Lib.Process Lib.Ownership

/-- What a task is handed when it starts.  A request that has no run ends without a trace. -/
def Pre (swept : Prop) : Task → Store Doc Event → Purse → Prop
  | .run _ _ _ _, _, r | .dispatchDeferred _ _ _ _ _, _, r | .promote _ _ _ _ _ _ _, _, r =>
    ∃ J, r = .flow .run J
  | .finish id _, _, r => if id.known then ∃ J, r = .flow .run J else r = 0
  | .barrier _ _ _ ops _ _, _, r =>
    (∃ J, r = .flow .run J) ∧ (ops.any fun op => op.mode.isAsync) = true
  | .sibling st _ _, s, r | .dispatch st _ _ _, s, r | .detached st _ _ _, s, r =>
    s.has (.stageSuspended st) = true ∧ r = 0
  | .dispatchRemote o _, _, r => r = .dispatcher o
  | .drive st _, _, r => r = .waker st
  | .resume st, s, r => ∃ d J, s.docs (.stageSuspended st) = some d ∧
    r = .flow (.resume (opcs (d.manifest.mergeSort entryOrder))) J
  | .sweep _ _, _, r => swept ∧ r = 0
  | .stop, _, r | .detachedDeferred _ _ _, _, r | .worker _, _, r | .post _ _ _, _, r
  | .callback _ _ _, _, r => r = 0

theorem pre_grows (swept : Prop) (t : Task) (s s' : Store Doc Event) (r : Purse) (hs : Grows s s')
    (h : Pre swept t s r) : Pre swept t s' r := by
  cases t with
  | sibling st ref call => exact ⟨hs.has h.1, h.2⟩
  | dispatch st ref opc fate => exact ⟨hs.has h.1, h.2⟩
  | detached st ref call now => exact ⟨hs.has h.1, h.2⟩
  | resume st =>
    obtain ⟨d, J, hdoc, rfl⟩ := h
    exact ⟨d, J, hs.docs _ _ hdoc, rfl⟩
  | run | dispatchDeferred | promote | finish | barrier | dispatchRemote | drive | sweep | stop
  | detachedDeferred | worker | post | callback => exact h

def discipline (swept : Prop) : Discipline Doc Event Task Purse where
  inv := Inv swept
  pre := Pre swept
  pre_grows := pre_grows swept

variable {swept : Prop} {s : Store Doc Event} {r : Purse} {α : Type}
  {Q : α → Store Doc Event → Purse → Prop}

section Rules

theorem safe_create {k : Key} {d : Doc k} {g : Bool → M α}
    (h : ∀ s' f, Grows s s' → Inv swept s' (r + f) → ∃ r', Inv swept (s'.create k d) (r' + f) ∧
      Safe (discipline swept) (g (!s'.has k)) Q (s'.create k d) r') :
    Safe (discipline swept) (create k d >>= g) Q s r := h

theorem safe_plain {k : Key} {d : Doc k} {g : Bool → M α} (hk : k.plain = true)
    (h : ∀ b s', Grows s s' → Safe (discipline swept) (g b) Q s' r) :
    Safe (discipline swept) (create k d >>= g) Q s r := by
  refine safe_create fun s' f hs hinv => ⟨r, hinv.create_plain hk d, ?_⟩
  exact h _ _ (hs.trans (Grows.create s' k d))

theorem safe_fetch {k : Key} {g : Option (Doc k) → M α}
    (h : ∀ s' f, Grows s s' → Inv swept s' (r + f) → ∃ r', Inv swept s' (r' + f) ∧
      Safe (discipline swept) (g (s'.docs k)) Q s' r') :
    Safe (discipline swept) (fetch k >>= g) Q s r := h

theorem safe_exist {k : Key} {g : Bool → M α}
    (h : ∀ s' f, Grows s s' → Inv swept s' (r + f) → ∃ r', Inv swept s' (r' + f) ∧
      Safe (discipline swept) (g (s'.has k)) Q s' r') :
    Safe (discipline swept) (exist k >>= g) Q s r := h

theorem safe_bind {β : Type} {p : M β} {g : β → M α}
    (h : Safe (discipline swept) p (fun b s r => Safe (discipline swept) (g b) Q s r) s r) :
    Safe (discipline swept) (p >>= g) Q s r :=
  Safe.bind h

theorem safe_spawn {t : Task} {g : Unit → M α}
    (h : ∀ s' f, Grows s s' → Inv swept s' (r + f) → ∃ r₁ r₂, Inv swept s' (r₁ + r₂ + f) ∧
      Pre swept t s' r₁ ∧ Safe (discipline swept) (g ()) Q s' r₂) :
    Safe (discipline swept) (Prog.spawn t >>= g) Q s r := h

theorem safe_spawn_free {t : Task} {g : Unit → M α} (ht : Pre swept t s 0)
    (h : ∀ s', Grows s s' → Safe (discipline swept) (g ()) Q s' r) :
    Safe (discipline swept) (Prog.spawn t >>= g) Q s r := by
  refine safe_spawn fun s' f hs hinv => ⟨0, r, ?_, pre_grows swept t s s' 0 hs ht, h s' hs⟩
  rw [zero_add]
  exact hinv

theorem safe_recordTerminal {w : Writer} {p : Place} {call : Call}
    {g : Except RecordError Bool → M α}
    (hterm : ∀ s' f (t : OpTerminal), Grows s s' → t.writer = w → Inv swept s' (r + f) →
      ∃ r', Inv swept (s'.create (.terminal p) t) (r' + f) ∧
        Safe (discipline swept) (g (.ok (!s'.has (.terminal p)))) Q (s'.create (.terminal p) t) r')
    (herror : ∀ e s', Grows s s' → Safe (discipline swept) (g (.error e)) Q s' r) :
    Safe (discipline swept) (recordTerminal w p call >>= g) Q s r := by
  obtain ⟨status, info, payload, now⟩ := call
  cases status with
  | completed =>
    refine safe_plain (k := .output p) rfl fun _ s' hs => ?_
    exact safe_create (k := .terminal p) fun s'' f hs' hinv =>
      hterm s'' f _ (hs.trans hs') rfl hinv
  | failed =>
    refine safe_plain (k := .error p) rfl fun _ s' hs => ?_
    exact safe_create (k := .terminal p) fun s'' f hs' hinv =>
      hterm s'' f _ (hs.trans hs') rfl hinv
  | other text => exact herror _ s (Grows.refl s)

end Rules

section Drive

variable {st : Stage} {m : List OpManifestEntry}

/-- `StageState` finds that the stage is not resumable. -/
def Blocked (s : Store Doc Event) (st : Stage) (m : List OpManifestEntry) : Prop :=
  s.has .result = true ∨ s.has .runFailed = true ∨ s.has (.stageFailed st) = true ∨
    ∃ e ∈ m, s.has (.terminal (e.place st)) = false

theorem safe_manifestState {Q : State → Store Doc Event → Purse → Prop}
    (hready : ∀ s', Grows s s' → AllTerminal s' st m → Q .resumable s' r)
    (hwaiting : ∀ s' f, Grows s s' → Inv swept s' (r + f) → Blocked s' st m →
      ∃ r', Inv swept s' (r' + f) ∧ Q .waiting s' r') :
    Safe (discipline swept) (manifestState st m) Q s r := by
  induction m generalizing s with
  | nil => exact hready s (Grows.refl s) (by simp [AllTerminal])
  | cons e es ih =>
    refine safe_exist fun s' f hs hinv => ?_
    cases hterm : s'.has (.terminal (e.place st)) with
    | false =>
      exact hwaiting s' f hs hinv (.inr (.inr (.inr ⟨e, List.mem_cons_self, hterm⟩)))
    | true =>
      refine ⟨r, hinv, ih ?_ ?_⟩
      · intro s'' hs' hall
        refine hready s'' (hs.trans hs') fun e' he' => ?_
        rcases List.mem_cons.mp he' with rfl | he'
        · exact hs'.has hterm
        · exact hall e' he'
      · intro s'' f' hs' hinv' hblock
        refine hwaiting s'' f' (hs.trans hs') hinv' ?_
        rcases hblock with h | h | h | ⟨e', he', hno⟩
        · exact .inl h
        · exact .inr (.inl h)
        · exact .inr (.inr (.inl h))
        · exact .inr (.inr (.inr ⟨e', List.mem_cons_of_mem e he', hno⟩))

theorem safe_stageState {Q : State → Store Doc Event → Purse → Prop}
    (hready : ∀ s', Grows s s' → AllTerminal s' st m → Q .resumable s' r)
    (hother : ∀ state s' f, state ≠ .resumable → Grows s s' → Inv swept s' (r + f) →
      Blocked s' st m → ∃ r', Inv swept s' (r' + f) ∧ Q state s' r') :
    Safe (discipline swept) (stageState st m) Q s r := by
  refine safe_exist fun s₁ f₁ hs₁ hinv₁ => ?_
  cases hres : s₁.has .result with
  | true => exact hother .completed s₁ f₁ (by simp) hs₁ hinv₁ (.inl hres)
  | false =>
    refine ⟨r, hinv₁, ?_⟩
    refine safe_exist fun s₂ f₂ hs₂ hinv₂ => ?_
    have hs₂ := hs₁.trans hs₂
    cases hfail : s₂.has .runFailed with
    | true => exact hother .failed s₂ f₂ (by simp) hs₂ hinv₂ (.inr (.inl hfail))
    | false =>
      refine ⟨r, hinv₂, ?_⟩
      refine safe_exist fun s₃ f₃ hs₃ hinv₃ => ?_
      have hs₃ := hs₂.trans hs₃
      cases hstage : s₃.has (.stageFailed st) with
      | true => exact hother .failed s₃ f₃ (by simp) hs₃ hinv₃ (.inr (.inr (.inl hstage)))
      | false =>
        refine ⟨r, hinv₃, safe_manifestState ?_ ?_⟩
        · exact fun s' hs' hall => hready s' (hs₃.trans hs') hall
        · exact fun s' f' hs' hinv' hblock =>
            hother .waiting s' f' (by simp) (hs₃.trans hs') hinv' hblock

theorem Inv.settled {f : Purse} (h : Inv swept s (r + f)) {d : StageSuspended}
    (hdoc : s.docs (.stageSuspended st) = some d) (hblock : Blocked s st d.manifest) :
    Settled s st := by
  intro d' hfail hop hall
  rw [hop.1] at hdoc
  cases hdoc
  rcases hblock with hres | hrun | hstage | ⟨e, he, hno⟩
  · exact (h.turn.ended (.inl hres)).2 st d hop
  · rw [hrun] at hfail
    cases hfail
  · exact (h.turn.ended (.inr (.inl ⟨st, hstage⟩))).2 st d hop
  · rw [hall e he] at hno
    cases hno

theorem safe_driveResume (st : Stage) (now : Nat) (s : Store Doc Event) :
    Safe (discipline swept) (driveResume st now) Ended s (.waker st) := by
  refine safe_fetch fun s₁ f₁ _ hinv₁ => ?_
  cases hdoc : s₁.docs (.stageSuspended st) with
  | none =>
    refine ⟨0, hinv₁.drop_waker ?_, rfl⟩
    intro d _ hop
    rw [hop.1] at hdoc
    cases hdoc
  | some d =>
    refine ⟨.waker st, hinv₁, safe_bind (safe_stageState ?_ ?_)⟩
    · intro s₂ hs₂ hall
      have hdoc₂ := hs₂.docs _ _ hdoc
      refine safe_create fun s₃ f₃ hs₃ hinv₃ => ?_
      have hdoc₃ := hs₃.docs _ _ hdoc₂
      cases hclaim : s₃.has (.resumeClaim st) with
      | true => exact ⟨0, hinv₃.claim_late hclaim, rfl⟩
      | false =>
        have hperm : (opcs (d.manifest.mergeSort entryOrder)).Perm (opcs d.manifest) :=
          (List.mergeSort_perm d.manifest entryOrder).filterMap _
        refine ⟨_, hinv₃.claim rfl rfl ⟨hdoc₃, hclaim⟩ hperm, ?_⟩
        intro s₄ f₄ hs₄ hinv₄ t ht
        cases t with
        | resume st' =>
          obtain rfl : st' = st := by simpa [Task.resumes] using ht
          refine ⟨_, hinv₄, d, _, ?_, rfl⟩
          exact hs₄.docs _ _ ((Grows.create s₃ _ _).docs _ _ hdoc₃)
        | _ => cases ht
    · intro state s₂ f₂ hne hs₂ hinv₂ hblock
      refine ⟨0, hinv₂.drop_waker (hinv₂.settled (hs₂.docs _ _ hdoc) hblock), ?_⟩
      cases state with
      | resumable => exact absurd rfl hne
      | waiting | completed | failed => rfl

theorem safe_driveIfSuspended (o : Opc) (now : Nat) (s : Store Doc Event) :
    Safe (discipline swept) (driveIfSuspended o now) Ended s (.writer o) := by
  refine safe_fetch fun s₁ f₁ _ hinv₁ => ?_
  cases hdoc : s₁.docs (.suspendedAt o) with
  | none =>
    refine ⟨0, hinv₁.drop_writer rfl rfl ?_, rfl⟩
    intro st hst
    rw [hdoc] at hst
    cases hst
  | some st =>
    refine ⟨.waker st, hinv₁.drop_writer rfl rfl ?_, safe_driveResume st now s₁⟩
    intro st' hst'
    rw [hdoc] at hst'
    cases hst'
    simp

end Drive

section Writers

variable {st : Stage} {ref : OpRef} {o : Opc} {call : Call} {g : Except RecordError Bool → M α}

theorem Inv.file_late {p : Place} {t : OpTerminal} (h : Inv swept s r)
    (hterm : s.has (.terminal p) = true)
    (hrule : Rule s.log (.write (.terminal p) t (!s.has (.terminal p)))) :
    Inv swept (s.create (.terminal p) t) r :=
  h.create_terminal hrule rfl rfl (h.wake.frame
    (fun k _ => Store.docs_create_of_has hterm t k) (prefix_create s _ _) (by simp) (by simp)
    (by simp))

theorem safe_record_unchecked (hst : s.has (.stageSuspended st) = true)
    (hnext : ∀ res s', Grows s s' → Safe (discipline swept) (g res) Q s' r) :
    Safe (discipline swept) (recordTerminal .dispatch (.op st ref) call >>= g) Q s r := by
  refine safe_recordTerminal ?_ fun e s' hs => hnext _ s' hs
  intro s' f t hs ht hinv
  refine ⟨r, hinv.file_unchecked (hs.has hst) (by rw [ht]; rfl), ?_⟩
  exact hnext _ _ (hs.trans (Grows.create s' (.terminal (.op st ref)) t))

theorem safe_detachedTail (now : Nat) (hst : s.has (.stageSuspended st) = true) :
    Safe (discipline swept) (detachedTail st ref call now) Ended s 0 := by
  refine safe_recordTerminal ?_ fun _ _ _ => rfl
  intro s' f t hs _ hinv
  rw [zero_add] at hinv
  exact ⟨.waker st, hinv.file_rechecked (hs.has hst), safe_driveResume st now _⟩

theorem safe_detachedDeferredTail (now : Nat) :
    Safe (discipline swept) (detachedDeferredTail o call now) Ended s 0 := by
  refine safe_recordTerminal ?_ fun _ _ _ => rfl
  intro s' f t _ _ hinv
  rw [zero_add] at hinv
  exact ⟨.writer o, hinv.file_deferred, safe_driveIfSuspended o now _⟩

theorem safe_handleDeferredComplete (now : Nat) :
    Safe (discipline swept) (handleDeferredComplete o call now) Ended s 0 := by
  refine safe_recordTerminal ?_ fun _ _ _ => rfl
  intro s' f t _ _ hinv
  cases hterm : s'.has (.terminal (.deferred o)) with
  | true => exact ⟨0, hinv.file_late hterm trivial, rfl⟩
  | false =>
    rw [zero_add] at hinv
    exact ⟨.writer o, hinv.file_deferred, safe_driveIfSuspended o now _⟩

theorem safe_handleContinuationComplete (now : Nat) :
    Safe (discipline swept) (handleContinuationComplete o call now) Ended s 0 := by
  refine safe_fetch fun s₁ f₁ _ hinv₁ => ?_
  cases hlookup : s₁.docs (.opContinuation o) with
  | none => exact ⟨0, hinv₁, rfl⟩
  | some lk =>
    refine ⟨0, hinv₁, ?_⟩
    cases hdef : lk.deferred with
    | true =>
      simp only [hdef, if_true]
      exact safe_handleDeferredComplete now
    | false =>
      simp only [hdef, Bool.false_eq_true, if_false]
      have hst := hinv₁.lookups hlookup hdef
      refine safe_recordTerminal ?_ fun _ _ _ => rfl
      intro s₂ f₂ t hs₂ _ hinv₂
      cases hterm : s₂.has (.terminal (.op lk.stage lk.ref)) with
      | true =>
        exact ⟨0, hinv₂.file_late hterm (Store.created_iff.mpr (hs₂.has hst)), rfl⟩
      | false =>
        rw [zero_add] at hinv₂
        exact ⟨.waker lk.stage, hinv₂.file_rechecked (hs₂.has hst), safe_driveResume _ now _⟩

theorem safe_dispatch (fate : RemoteFate) (hst : s.has (.stageSuspended st) = true) :
    Safe (discipline swept) (dispatch st ref o fate) Ended s 0 := by
  cases fate with
  | accepted jobID =>
    refine safe_spawn_free rfl fun s' _ => ?_
    exact safe_plain rfl fun _ _ _ => rfl
  | failed posted call =>
    cases posted with
    | true =>
      refine safe_spawn_free rfl fun s' hs => ?_
      exact safe_record_unchecked (hs.has hst) fun _ _ _ => rfl
    | false => exact safe_record_unchecked hst fun _ _ _ => rfl

theorem safe_returned (s : Store Doc Event) :
    Safe (discipline swept) (do let _ ← create (.returned o) (); pure ()) Ended s
      (.dispatcher o) :=
  safe_create fun _ _ _ hinv => ⟨0, hinv.returned, rfl⟩

theorem safe_record_dispatching :
    Safe (discipline swept) (do
      let _ ← recordTerminal .dispatch (.deferred o) call
      let _ ← create (.returned o) ()) Ended s (.dispatcher o) := by
  refine safe_recordTerminal ?_ fun _ s' _ => safe_returned s'
  intro s' f t _ _ hinv
  have hflow : (Purse.dispatcher o + f).flows ≠ 0 := by
    obtain ⟨-, todo, all, J, hmem, -⟩ := hinv.dispatches.active o (by simp)
    exact Multiset.card_pos.mp (Multiset.card_pos_iff_exists_mem.mpr ⟨_, hmem⟩)
  exact ⟨.dispatcher o, hinv.file_deferred_unchecked hflow, safe_returned _⟩

theorem safe_dispatchRemote (fate : RemoteFate) :
    Safe (discipline swept) (dispatchRemote o fate) Ended s (.dispatcher o) := by
  cases fate with
  | accepted jobID => exact safe_spawn_free rfl fun s' _ => safe_returned s'
  | failed posted call =>
    cases posted with
    | true => exact safe_spawn_free rfl fun _ _ => safe_record_dispatching
    | false => exact safe_record_dispatching

end Writers

section Suspends

variable {st : Stage} {J : List Opc}

def Kept (s : Store Doc Event) (r : Purse) (_ : Unit) (s' : Store Doc Event) (r' : Purse) : Prop :=
  Grows s s' ∧ r' = r

theorem safe_each {β : Type} {f : β → M Unit} {xs : List β}
    {Q : Unit → Store Doc Event → Purse → Prop}
    (h : ∀ x ∈ xs, ∀ s', Grows s s' → Safe (discipline swept) (f x) (Kept s' r) s' r)
    (hnext : ∀ s', Grows s s' → Q () s' r) : Safe (discipline swept) (Prog.each f xs) Q s r := by
  induction xs generalizing s with
  | nil => exact hnext s (Grows.refl s)
  | cons x xs ih =>
    refine Safe.bind ((h x List.mem_cons_self s (Grows.refl s)).mono ?_)
    rintro _ s' r' ⟨hs, rfl⟩
    refine ih (fun y hy s'' hs' => ?_) fun s'' hs' => hnext s'' (hs.trans hs')
    exact h y (List.mem_cons_of_mem x hy) s'' (hs.trans hs')

theorem safe_ensureRun {id : Ident} {expires : Option Nat} {p : M α}
    (h : ∀ s', Grows s s' → Safe (discipline swept) p Q s' r) :
    Safe (discipline swept) (if id.known = true then p else createRun st expires >>= fun _ => p) Q s
      r := by
  split
  · exact h s (Grows.refl s)
  · exact safe_plain (k := .runCreated) rfl fun _ s' hs => h s' hs

theorem safe_createOpRecord (x : OpRef × ScopeOp) (hst : s.has (.stageSuspended st) = true) :
    Safe (discipline swept) (createOpRecord st x) (Kept s r) s r := by
  refine safe_plain (k := .opInput st x.1) rfl fun _ s₁ hs₁ => ?_
  refine safe_plain (k := .opCreated st x.1) rfl fun _ s₂ hs₂ => ?_
  have hs₂ := hs₁.trans hs₂
  cases x.2.mode.opc with
  | none => exact ⟨hs₂, rfl⟩
  | some o =>
    refine safe_create fun s₃ f₃ hs₃ hinv₃ => ⟨r, hinv₃.create_lookup o _ ?_, ?_⟩
    · exact fun _ => (hs₂.trans hs₃).has hst
    · exact ⟨(hs₂.trans hs₃).trans (Grows.create s₃ _ _), rfl⟩

theorem safe_dispatchOp (x : OpRef × ScopeOp) (hst : s.has (.stageSuspended st) = true) :
    Safe (discipline swept) (dispatchOp st x) (Kept s 0) s 0 := by
  rw [dispatchOp]
  cases x.2.mode with
  | sync call => exact safe_spawn_free ⟨hst, rfl⟩ fun s' hs => ⟨hs, rfl⟩
  | async opc mode =>
    cases mode with
    | remote fate => exact safe_spawn_free ⟨hst, rfl⟩ fun s' hs => ⟨hs, rfl⟩
    | localAsync fate =>
      cases fate with
      | refused call => exact safe_record_unchecked hst fun _ s' hs => ⟨hs, rfl⟩
      | detached call now => exact safe_spawn_free ⟨hst, rfl⟩ fun s' hs => ⟨hs, rfl⟩

theorem suspends_barrier {ops : List ScopeOp} (hops : (ops.any fun op => op.mode.isAsync) = true)
    (env : String) (now : Nat) : Suspends J st ⟨env, manifestOf ops, now⟩ 0 := by
  have hnone : ∀ e ∈ manifestOf ops, e.opc = none := by
    intro e he
    obtain ⟨x, -, rfl⟩ := List.mem_map.mp he
    rfl
  refine ⟨rfl, rfl, ?_, .inl hnone, ?_, ?_⟩
  · obtain ⟨op, hop, -⟩ := List.any_eq_true.mp hops
    have hne : ops ≠ [] := List.ne_nil_of_mem hop
    simpa [manifestOf, numbered] using hne
  · simp [opcs_eq_nil hnone]
  · simp [opcs_eq_nil hnone]

def Filed (s : Store Doc Event) (st : Stage) (d : StageSuspended) : Prop :=
  s.docs (.stageSuspended st) = some d ∨ .write (.stageSuspended st) d false ∈ s.log

theorem Filed.grows {d : StageSuspended} {s' : Store Doc Event} (h : Filed s st d)
    (hs : Grows s s') : Filed s' st d :=
  h.imp (hs.docs _ _) fun hmem => hs.log.subset hmem

theorem filed_create (s : Store Doc Event) (st : Stage) (d : StageSuspended) :
    Filed (s.create (.stageSuspended st) d) st d := by
  cases hst : s.has (.stageSuspended st) with
  | true =>
    refine .inr ?_
    rw [Store.log_create, hst]
    simp
  | false => exact .inl (Store.docs_create_of_not_has hst d)

theorem safe_suspendStage {d : StageSuspended} {g : Purse} {next : Unit → M α}
    (hd : Suspends J st d g)
    (hnext : ∀ s', Filed s' st d → s'.has (.stageSuspended st) = true →
      Safe (discipline swept) (next ()) Q s' g) :
    Safe (discipline swept) (suspendStage st d.scopeEnvelope d.manifest d.suspendedAt >>= next) Q s
      (.flow .run J) :=
  safe_create (k := .stageSuspended st) fun s' _ _ hinv =>
    ⟨g, hinv.suspend hd, hnext _ (filed_create s' st d) (Store.has_create_self _ _ _)⟩

theorem safe_suspendBarrierScope (id : Ident) (env : String) {ops : List ScopeOp}
    (expires : Option Nat) (now : Nat) (hops : (ops.any fun op => op.mode.isAsync) = true) :
    Safe (discipline swept) (suspendBarrierScope id st env ops expires now) Ended s
      (.flow .run J) := by
  refine safe_ensureRun fun s₁ _ => ?_
  refine safe_suspendStage (suspends_barrier hops env now) fun s₂ _ hst => ?_
  refine safe_bind (safe_each (fun x _ s' hs' => safe_createOpRecord x (hs'.has hst)) ?_)
  intro s₃ hs₃
  refine safe_each (fun x _ s' hs' => safe_dispatchOp x (hs'.has (hs₃.has hst))) ?_
  exact fun _ _ => rfl

theorem safe_promoteContinuable (id : Ident) (env op input : String) (call : Call) (now : Nat) :
    Safe (discipline swept) (promoteContinuable id st env op input call now) Ended s
      (.flow .run J) := by
  have hd : Suspends J st ⟨env, [{ ref := ⟨0, op⟩, async := true }], now⟩ 0 :=
    ⟨rfl, rfl, by simp, .inl (by simp), by simp [opcs], by simp [opcs]⟩
  refine safe_ensureRun fun s₁ _ => ?_
  refine safe_suspendStage hd fun s₂ _ hst => ?_
  refine safe_plain rfl fun _ s₃ hs₃ => ?_
  refine safe_plain rfl fun _ s₄ hs₄ => ?_
  exact safe_spawn_free ⟨hs₄.has (hs₃.has hst), rfl⟩ fun _ _ => rfl

end Suspends

end ThanksComputer.Continuation
