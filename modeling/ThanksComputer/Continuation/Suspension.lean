import ThanksComputer.Continuation.Reachable

/-! What a suspension can rely on: that its document is the one on file, and that its resume is
claimed once its ops are done. -/

namespace ThanksComputer.Continuation

open Lib.CreateOnce Lib.Process

variable {m : Machine} {st : Stage} {env : String} {now : Nat} {sweepers : List (Nat × Nat)}
  {c : Pool Doc Event Task} {st' : Stage} {d : StageSuspended}
  {log pre post : List (Entry Doc Event)} {fresh : Bool}

/-- The keys created in a history. -/
def created (log : List (Entry Doc Event)) : List Key :=
  log.filterMap Entry.created

/-- The run has not suspended at the stage so far. -/
def FirstAt (pre : List (Entry Doc Event)) (st : Stage) : Prop :=
  ∀ d fresh, .write (.stageSuspended st) d fresh ∉ pre

section History

theorem mem_created {k : Key} (h : k ∈ created log) : ∃ d, .write k d true ∈ log := by
  obtain ⟨e, he, hk⟩ := List.mem_filterMap.mp h
  cases e with
  | note e => cases hk
  | write k' d fresh =>
    cases fresh with
    | false => cases hk
    | true =>
      cases hk
      exact ⟨d, he⟩

theorem Ordered.before {R : List (Entry Doc Event) → Entry Doc Event → Prop} {e : Entry Doc Event}
    (h : Ordered R log) (hlog : log = pre ++ e :: post) : Ordered R pre := by
  intro pre' e' post' heq
  exact h pre' e' (post' ++ e :: post) (by rw [hlog, heq]; simp)

theorem rule_of_mem {e : Entry Doc Event} (h : Ordered Rule log) (he : e ∈ log) :
    ∃ pre post, log = pre ++ e :: post ∧ Rule pre e := by
  obtain ⟨pre, post, heq⟩ := List.append_of_mem he
  exact ⟨pre, post, heq, h pre e post heq⟩

theorem created_of_suspends (h : Ordered Rule log)
    (hmem : .write (.stageSuspended st) d fresh ∈ log) :
    .stageSuspended st ∈ created log := by
  obtain ⟨pre, post, rfl, hrule⟩ := rule_of_mem h hmem
  rw [created, List.filterMap_append, List.mem_append]
  cases fresh with
  | true => exact .inr (by simp [Entry.created])
  | false =>
    refine .inl ?_
    by_contra hno
    cases hrule.1.mpr hno

theorem firstAt_iff (h : Ordered Rule log) : FirstAt log st ↔ .stageSuspended st ∉ created log := by
  constructor
  · intro hfirst hmem
    obtain ⟨d, hd⟩ := mem_created hmem
    exact hfirst d true hd
  · intro hno d fresh hmem
    exact hno (created_of_suspends h hmem)

theorem unclaimed_of_first (h : Ordered Rule log) (hfirst : FirstAt log st) :
    .resumeClaim st ∉ created log := by
  intro hmem
  obtain ⟨at', hat⟩ := mem_created hmem
  obtain ⟨pre, post, rfl, hrule⟩ := rule_of_mem h hat
  refine (firstAt_iff h).mp hfirst ?_
  rw [created, List.filterMap_append]
  exact List.mem_append_left _ hrule

theorem unrecorded_of_first (h : Ordered Rule log) (hfirst : FirstAt log st) (ref : OpRef) :
    .terminal (.op st ref) ∉ created log := by
  intro hmem
  obtain ⟨t, ht⟩ := mem_created hmem
  obtain ⟨pre, post, rfl, hrule⟩ := rule_of_mem h ht
  refine (firstAt_iff h).mp hfirst ?_
  rw [created, List.filterMap_append]
  exact List.mem_append_left _ hrule

theorem claimed_of_not_first (h : Ordered Rule log)
    (hlog : log = pre ++ .write (.stageSuspended st) d fresh :: post) (hnot : ¬FirstAt pre st) :
    .resumeClaim st ∈ created pre := by
  have hrule := h pre _ post hlog
  refine hrule.2.1 ?_
  rw [firstAt_iff (Ordered.before h hlog), not_not] at hnot
  exact hnot

theorem docs_of_first {s : Store Doc Event} (h : Ordered Rule s.log)
    (hlog : s.log = pre ++ .write (.stageSuspended st) d fresh :: post) (hfirst : FirstAt pre st) :
    s.docs (.stageSuspended st) = some d := by
  have hrule := h pre _ post hlog
  have hfresh := hrule.1.mpr ((firstAt_iff (Ordered.before h hlog)).mp hfirst)
  rw [s.docs_iff, hlog, hfresh]
  simp

end History

/-- The document on file is that of the suspension, and nothing was filed for the stage before. -/
structure Holds (s : Store Doc Event) (pre : List (Entry Doc Event)) (st : Stage)
    (d : StageSuspended) : Prop where
  stored : ∃ d', s.docs (.stageSuspended st) = some d' ∧ d'.scopeEnvelope = d.scopeEnvelope ∧
    d'.manifest = d.manifest
  unclaimed : .resumeClaim st ∉ created pre
  unrecorded : ∀ ref, .terminal (.op st ref) ∉ created pre

section Scenes

/-- The envelopes of the runs below are empty, so that nothing is merged. -/
def still : Machine := ⟨fun env _ _ => env, fun env _ => env, id, id⟩

def empty : String := "\x7b\x7d"

def done : Call := ⟨.completed, {}, empty, 0⟩

def front : Stage := ⟨"web", 0⟩

def back : Stage := ⟨"web", 100⟩

/-- The process in place `i` makes `n` moves that leave it no choice. -/
def moves (n i : Nat) : List (Nat × Task) :=
  List.replicate n (i, .stop)

/-- The worker of the only op calls back. -/
def answered : Pool Doc Event Task :=
  play (code still) (arrival still back empty 0 [])
    ((0, .barrier ⟨false, false⟩ back empty
      [⟨"ask", "", .async "opc" (.remote (.accepted "job"))⟩] none 0) :: (moves 6 0 ++ moves 2 1 ++
      [(2, .post "opc" done 1), (2, .stop), (2, .worker "opc"), (2, .stop)] ++ moves 9 3 ++
      [(3, .resume back)] ++ moves 3 3 ++ [(3, .finish ⟨true, false⟩ empty), (3, .stop)]))

/-- The worker of the only op is not there. -/
def refused : Pool Doc Event Task :=
  play (code still) (arrival still back empty 0 [])
    ((0, .barrier ⟨false, false⟩ back empty
      [⟨"ask", "", .async "opc" (.remote (.failed false ⟨.failed, {}, "refused", 0⟩))⟩] none 0) ::
      (moves 6 0 ++ moves 2 1))

def joinOp (opc : Opc) : DeferredOp :=
  ⟨"ask", "", 100, opc, .localAsync (.detached done 1)⟩

/-- An op is dispatched at the front and joined at the back, and the join is resumed. -/
def joining : List (Nat × Task) :=
  (0, .dispatchDeferred ⟨false, false⟩ front empty [joinOp "one"] none) :: (moves 8 0 ++
    (0, .run ⟨false, true⟩ back empty 2) ::
      (moves 9 0 ++ moves 9 1 ++ (1, .resume back) :: moves 5 1))

def joinedOnce : Pool Doc Event Task :=
  play (code still) (arrival still front empty 0 []) (joining ++ moves 1 1)

def joinedTwice : Pool Doc Event Task :=
  play (code still) (arrival still front empty 0 [])
    (joining ++ (1, .run ⟨true, true⟩ back empty 3) :: (moves 2 1 ++
    (1, .run ⟨true, true⟩ front empty 4) :: (moves 1 1 ++
    (1, .dispatchDeferred ⟨true, true⟩ front empty [joinOp "two"] none) :: (moves 7 1 ++
    (1, .run ⟨true, true⟩ back empty 5) :: (moves 10 1 ++ moves 9 2)))))

def joinDoc (opc : Opc) (suspendedAt : Nat) : StageSuspended :=
  ⟨empty, [⟨⟨0, "ask"⟩, true, some opc⟩], suspendedAt⟩

theorem log_joinedOnce : joinedOnce.store.log = joinedOnce.store.log.take 5 ++
    .write (.stageSuspended back) (joinDoc "one" 2) true :: joinedOnce.store.log.drop 6 := by
  decide +kernel

theorem log_joinedTwice : joinedTwice.store.log = joinedTwice.store.log.take 16 ++
    .write (.stageSuspended back) (joinDoc "two" 5) false :: joinedTwice.store.log.drop 17 := by
  decide +kernel

end Scenes

/-- A suspension has the stage to itself exactly when it is the run's first there. -/
theorem suspension_holds_iff (h : Reach (code m) (arrival m st env now sweepers) c)
    (hlog : c.store.log = pre ++ .write (.stageSuspended st') d fresh :: post) :
    Holds c.store pre st' d ↔ FirstAt pre st' := by
  obtain ⟨r, hinv⟩ := inv_reach h
  have hpre : Ordered Rule pre := Ordered.before hinv.order hlog
  constructor
  · intro hholds
    by_contra hnot
    exact hholds.unclaimed (claimed_of_not_first hinv.order hlog hnot)
  · intro hfirst
    exact ⟨⟨d, docs_of_first hinv.order hlog hfirst, rfl, rfl⟩, unclaimed_of_first hpre hfirst,
      unrecorded_of_first hpre hfirst⟩

theorem suspension_holds_joinedOnce :
    Reach (code still) (arrival still front empty 0 []) joinedOnce ∧
      (Holds joinedOnce.store (joinedOnce.store.log.take 5) back (joinDoc "one" 2) ↔
        FirstAt (joinedOnce.store.log.take 5) back) :=
  ⟨reach_play _ _, suspension_holds_iff (reach_play _ _) log_joinedOnce⟩

/-- The second join at a stage finds the document, and the claim, of the first. -/
theorem second_join_not_stored :
    ∃ c pre d fresh post, Reach (code still) (arrival still front empty 0 []) c ∧
      c.store.log = pre ++ .write (.stageSuspended back) d fresh :: post ∧
      c.store.docs (.stageSuspended back) = some (joinDoc "one" 2) ∧
      d.manifest = [⟨⟨0, "ask"⟩, true, some "two"⟩] ∧ ¬Holds c.store pre back d := by
  refine ⟨joinedTwice, _, joinDoc "two" 5, false, _, reach_play _ _, log_joinedTwice,
    by decide +kernel, rfl, fun hholds => hholds.unclaimed ?_⟩
  decide +kernel

section Recheck

variable {m : List OpManifestEntry}

def unchecked (st : Stage) : Entry Doc Event → Option OpRef
  | .write (.terminal (.op st' ref)) t true =>
    if st' = st ∧ t.writer.rechecks = false then some ref else none
  | _ => none

def othersLeft (pre : List (Entry Doc Event)) (st : Stage) (m : List OpManifestEntry)
    (ref : OpRef) : Bool :=
  m.any fun e => e.ref != ref && decide (.terminal (.op st e.ref) ∉ created pre)

theorem unchecked_eq_some {e : Entry Doc Event} {ref : OpRef} (h : unchecked st e = some ref) :
    ∃ t : OpTerminal, e = .write (.terminal (.op st ref)) t true ∧ t.writer.rechecks = false := by
  fun_cases unchecked st e with
  | case1 st' ref' t hcond =>
    simp only [unchecked, hcond, and_self, if_true, Option.some.injEq] at h
    subst h
    exact ⟨t, by rw [hcond.1], hcond.2⟩
  | case2 st' ref' t hcond =>
    simp only [unchecked, hcond, if_false] at h
    cases h
  | case3 => simp [unchecked] at h

theorem rechecked_iff : Rechecked log st m ↔
    ∀ i : Fin log.length, (unchecked st log[i]).all (othersLeft (log.take i) st m) = true := by
  constructor
  · intro h i
    cases hu : unchecked st log[i] with
    | none => rfl
    | some ref =>
      obtain ⟨t, ht, hw⟩ := unchecked_eq_some hu
      have hlog : log = log.take i ++ log[i.1] :: log.drop (i + 1) := by
        rw [List.cons_getElem_drop_succ, List.take_append_drop]
      obtain ⟨e, he, hne, hno⟩ := h _ ref t _ (ht ▸ hlog) hw
      rw [Option.all_some, othersLeft, List.any_eq_true]
      exact ⟨e, he, by simp only [bne_iff_ne.mpr hne, Bool.true_and]; exact decide_eq_true hno⟩
  · intro h pre ref t post heq hw
    subst heq
    have hi := h ⟨pre.length, by simp⟩
    simp only [Fin.getElem_fin, List.getElem_append_right (Nat.le_refl _), Nat.sub_self,
      List.getElem_cons_zero, unchecked, hw, and_self, if_true, List.take_left', Option.all_some,
      othersLeft, List.any_eq_true, Bool.and_eq_true, bne_iff_ne, decide_eq_true_eq] at hi
    obtain ⟨e, he, hne, hno⟩ := hi
    exact ⟨e, he, hne, hno⟩

instance : Decidable (Rechecked log st m) :=
  decidable_of_iff _ rechecked_iff.symm

instance {s : Store Doc Event} : Decidable (AllTerminal s st m) :=
  inferInstanceAs (Decidable (∀ e ∈ m, s.has (.terminal (e.place st)) = true))

end Recheck

section Claims

theorem runFailed_unswept {s : Store Doc Event} {r : Purse}
    (h : Inv (([] : List (Nat × Nat)) ≠ []) s r) :
    s.has .runFailed = false := by
  cases hfail : s.has .runFailed with
  | false => rfl
  | true => exact absurd rfl (h.failed hfail)

theorem count_claim {s : Store Doc Event} (h : s.has (.resumeClaim st) = true) :
    s.keys.count (.resumeClaim st) = 1 :=
  List.count_eq_one_of_mem s.once (Store.mem_keys.mpr h)

theorem count_claims {s : Store Doc Event}
    (hlog : s.log = pre ++ .write (.stageSuspended st) d fresh :: post) :
    s.keys.count (.resumeClaim st) =
      (created pre).count (.resumeClaim st) + (created post).count (.resumeClaim st) := by
  rw [Store.keys, hlog, List.filterMap_append, List.count_append]
  cases fresh with
  | true => exact congrArg _ (List.count_cons_of_ne (by simp))
  | false => rfl

end Claims

/-- In a run at rest a barrier whose ops are done has been claimed, provided that whoever recorded a
terminal and did not look again left another op to be done. -/
theorem barrier_claimed_once (h : Reach (code m) (arrival m st env now []) c)
    (hidle : c.idle = true) (hdoc : c.store.docs (.stageSuspended st') = some d)
    (hbarrier : isDeferredJoinManifest d.manifest = false)
    (hall : AllTerminal c.store st' d.manifest) (hrec : Rechecked c.store.log st' d.manifest) :
    c.store.keys.count (.resumeClaim st') = 1 := by
  have hinv := inv_idle h hidle
  refine count_claim ?_
  by_contra hclaim
  have hop : Open c.store st' d := ⟨hdoc, by simpa using hclaim⟩
  have hwaker := hinv.wake.barrier (runFailed_unswept hinv) hop (opcs_of_not_deferred hbarrier)
    hall hrec
  simp at hwaker

theorem barrier_claimed_answered :
    Reach (code still) (arrival still back empty 0 []) answered ∧
      answered.store.keys.count (.resumeClaim back) = 1 :=
  ⟨reach_play _ _, barrier_claimed_once (d := ⟨empty, [⟨⟨0, "ask"⟩, true, none⟩], 0⟩)
    (reach_play _ _) (by decide +kernel) (by decide +kernel) (by decide +kernel) (by decide +kernel)
    (by decide +kernel)⟩

/-- The only op of a barrier could not be dispatched: nobody claims its resume. -/
theorem refused_not_claimed :
    ∃ c d, Reach (code still) (arrival still back empty 0 []) c ∧ c.idle = true ∧
      c.store.docs (.stageSuspended back) = some d ∧ isDeferredJoinManifest d.manifest = false ∧
      AllTerminal c.store back d.manifest ∧ c.store.keys.count (.resumeClaim back) = 0 := by
  refine ⟨refused, ⟨empty, [⟨⟨0, "ask"⟩, true, none⟩], 0⟩, reach_play _ _, ?_⟩
  decide

/-- A deferred op is merged once.  In a run at rest a join whose ops are done has been claimed once
exactly when the run had not suspended at the stage before. -/
theorem deferred_merged_claimed_once (h : Reach (code m) (arrival m st env now []) c) :
    (mergedOpcs c.store.log).Nodup ∧
      ∀ pre st' d fresh post, c.idle = true →
        c.store.log = pre ++ .write (.stageSuspended st') d fresh :: post →
        isDeferredJoinManifest d.manifest = true → AllTerminal c.store st' d.manifest →
        ((created post).count (.resumeClaim st') = 1 ↔ FirstAt pre st') := by
  refine ⟨?_, ?_⟩
  · obtain ⟨r, hinv⟩ := inv_reach h
    exact hinv.joins.once
  · intro pre st' d fresh post hidle hlog hjoin hall
    have hinv := inv_idle h hidle
    have hcount := count_claims hlog
    have honce : c.store.keys.count (.resumeClaim st') ≤ 1 :=
      List.nodup_iff_count_le_one.mp c.store.once _
    constructor
    · intro hpost
      by_contra hnot
      have hpre := List.count_pos_iff.mpr (claimed_of_not_first hinv.order hlog hnot)
      omega
    · intro hfirst
      have hdoc := docs_of_first hinv.order hlog hfirst
      have hsome : ∀ e ∈ d.manifest, e.opc ≠ none := by
        rcases (hinv.wake.shape hdoc).2 with hnone | hsome
        · obtain ⟨e, he, hopc⟩ := List.any_eq_true.mp hjoin
          simp [hnone e he] at hopc
        · exact hsome
      have hclaim : c.store.has (.resumeClaim st') = true := by
        by_contra hclaim
        have hop : Open c.store st' d := ⟨hdoc, by simpa using hclaim⟩
        have hwake := hinv.wake.join (runFailed_unswept hinv) hop hsome hall
        simp at hwake
      have hpre : (created pre).count (.resumeClaim st') = 0 :=
        List.count_eq_zero.mpr (unclaimed_of_first (Ordered.before hinv.order hlog) hfirst)
      have hone := count_claim hclaim
      omega

theorem deferred_merged_claimed_joinedOnce :
    Reach (code still) (arrival still front empty 0 []) joinedOnce ∧
      (mergedOpcs joinedOnce.store.log).Nodup ∧
      ((created (joinedOnce.store.log.drop 6)).count (.resumeClaim back) = 1 ↔
        FirstAt (joinedOnce.store.log.take 5) back) := by
  have h := deferred_merged_claimed_once (reach_play (arrival still front empty 0 [])
    (joining ++ moves 1 1))
  refine ⟨reach_play _ _, h.1, h.2 _ back (joinDoc "one" 2) true _ ?_ log_joinedOnce rfl ?_⟩
  · decide +kernel
  · decide +kernel

/-- The second join at a stage is not claimed though its op is done. -/
theorem second_join_not_claimed :
    ∃ c pre d fresh post, Reach (code still) (arrival still front empty 0 []) c ∧ c.idle = true ∧
      c.store.log = pre ++ .write (.stageSuspended back) d fresh :: post ∧
      isDeferredJoinManifest d.manifest = true ∧ AllTerminal c.store back d.manifest ∧
      (created post).count (.resumeClaim back) = 0 := by
  refine ⟨joinedTwice, _, joinDoc "two" 5, false, _, reach_play _ _, ?_, log_joinedTwice, rfl, ?_⟩
  · decide +kernel
  · decide +kernel

end ThanksComputer.Continuation
