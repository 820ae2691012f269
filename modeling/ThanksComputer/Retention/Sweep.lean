import ThanksComputer.Retention.Purge

/-! A pass of the sweeper over the continuation store.  A failed read makes it pass a run by, but
for the first read, of run-created: a run for which that fails is purged. -/

namespace ThanksComputer.Retention

variable {α β : Type}

section Derived

inductive State
  | waiting
  | resumable
  | completed
  | failed
  deriving DecidableEq

def State.terminal : State → Bool
  | .completed => true
  | .failed => true
  | _ => false

def OpManifestEntry.terminalKey (runID stage : String) (m : OpManifestEntry) : String :=
  if m.opContinuationID ≠ "" then deferredTerminalKey runID m.opContinuationID
  else opTerminalKey runID stage m.ordinal m.op

def manifestState (runID stage : String) : List OpManifestEntry → Act State
  | [] => pure .resumable
  | m :: ms => do
    let ok ← exist (m.terminalKey runID stage)
    if ok then manifestState runID stage ms else pure .waiting

def stageState (runID stage : String) (manifest : List OpManifestEntry) : Act State := do
  let done ← exist (resultKey runID)
  if done then pure .completed
  else do
    let failed ← exist (runFailedKey runID)
    if failed then pure .failed
    else do
      let stageFailed ← exist (stageFailedKey runID stage)
      if stageFailed then pure .failed else manifestState runID stage manifest

def later (latest : Option StageSuspended) (d : StageSuspended) : StageSuspended :=
  match latest with
  | none => d
  | some l => if l.suspendedAt < d.suspendedAt then d else l

/-- The loop of `CurrentStage`. -/
def readStages : List String → Option StageSuspended → Act (Option StageSuspended)
  | [], latest => pure latest
  | k :: ks, latest => do
    let d ← get k
    match d with
    | .stageSuspended d => readStages ks (some (later latest d))
    | _ => Act.throw .decode

def currentStage (runID : String) : Act (Option StageSuspended) := do
  let keys ← list (runDir runID ++ "/stages")
  readStages (keys.filter fun k => hasSuffix k "/stage-suspended.json") none

def runState (runID : String) : Act State := do
  let done ← exist (resultKey runID)
  if done then pure .completed
  else do
    let failed ← exist (runFailedKey runID)
    if failed then pure .failed
    else do
      let cur ← currentStage runID
      match cur with
      | some cur => stageState runID cur.stage cur.manifest
      | none => do
        let created ← exist (runCreatedKey runID)
        if created then pure .waiting else Act.throw .notFound

/-- What the documents say about a run. -/
def derived (docs : List (String × Doc)) (runID : String) : Except StoreError State :=
  (runState runID noFaults ⟨docs, 0⟩).1

end Derived

section Pass

/-- The clock reading and the settings of a pass, and what `AppendEvent` puts into its keys. -/
structure Pass where
  now : Int
  retention : Int
  staleAfter : Int
  stamp : String
  suffix : String

/-- What the pass did about a run. -/
inductive Visit
  | orphan
  | passed
  | purged (failed : Bool)
  | kept
  | expired
  | stale
  deriving DecidableEq

/-- `PurgeRun` was called. -/
def Visit.purges : Visit → Bool
  | .orphan => true
  | .purged _ => true
  | _ => false

def readResumeClaim (runID stage : String) : Act (Option Int) := do
  let d ← Act.attempt (get (resumeClaimKey runID stage))
  match d with
  | .ok (.claim claimedAt) => pure (some claimedAt)
  | .ok _ => Act.throw .decode
  | .error .notFound => pure none
  | .error e => Act.throw e

def sweepClaim (c : Pass) (runID : String) (cur : StageSuspended) : Act Visit := do
  let state ← stageState runID cur.stage cur.manifest
  if state ≠ .resumable then pure .passed
  else do
    let claim ← readResumeClaim runID cur.stage
    match claim with
    | none => pure .passed
    | some claimedAt =>
      if c.staleAfter < c.now - claimedAt then do
        let _ ← Act.attempt (failRun runID "resumer-stale")
        let _ ← Act.attempt
          (appendEvent runID c.stamp c.suffix "run.resumer_stale" [("stage", cur.stage)])
        pure .stale
      else pure .passed

def sweepStage (c : Pass) (runID : String) : Act Visit := do
  let cur ← currentStage runID
  match cur with
  | none => pure .passed
  | some cur => sweepClaim c runID cur

def sweepTerminal (c : Pass) (runID : String) (rc : RunCreated) : Act Visit :=
  match rc.expiresAt with
  | none => pure .kept
  | some expires =>
    if expires + c.retention < c.now then do
      let r ← Act.attempt (purgeRun runID)
      pure (.purged (!r.isOk))
    else pure .kept

def sweepLive (c : Pass) (runID : String) (rc : RunCreated) : Act Visit :=
  if rc.expiresAt.any fun expires => expires < c.now then do
    let _ ← Act.attempt (failRun runID "expired")
    let _ ← Act.attempt (appendEvent runID c.stamp c.suffix "run.expired"
      [("expires_at", rc.expiresAt.elim "" toString)])
    pure .expired
  else do
    let r ← Act.attempt (sweepStage c runID)
    match r with
    | .ok visit => pure visit
    | .error _ => pure .passed

def sweepState (c : Pass) (runID : String) (rc : RunCreated) : Except StoreError State → Act Visit
  | .error _ => pure .passed
  | .ok state => if state.terminal then sweepTerminal c runID rc else sweepLive c runID rc

/-- The body of the loop of `sweep`. -/
def sweepRun (c : Pass) (runID : String) : Act Visit := do
  let rc ← Act.attempt (readRunCreated runID)
  match rc with
  | .error _ => do
    let _ ← Act.attempt (purgeRun runID)
    pure .orphan
  | .ok rc => do
    let state ← Act.attempt (runState runID)
    sweepState c runID rc state

/-- The world when the loop has been through these runs; it stops at none of them. -/
def sweepEach (c : Pass) (faults : Nat → Bool) : World → List String → World
  | w, [] => w
  | w, id :: ids => sweepEach c faults (sweepRun c id faults w).2 ids

/-- The run of a key in `runs/`. -/
def runIDOf (key : String) : Option String :=
  match key.toList.splitOn '/' with
  | dir :: id :: _ => if dir = "runs".toList ∧ id ≠ [] then some (String.ofList id) else none
  | _ => none

def listRunIDs : Act (List String) := do
  let keys ← list "runs"
  pure ((keys.filterMap runIDOf).eraseDups)

/-- The runs that a pass gets to before it is cancelled, after `n` of them at most, and the world at
the first of them; a listing that fails ends the pass. -/
def passRuns (faults : Nat → Bool) (w : World) (n : Nat) : World × List String :=
  match listRunIDs faults w with
  | (.ok ids, w) => (w, ids.take n)
  | (.error _, w) => (w, [])

def sweep (c : Pass) (faults : Nat → Bool) (w : World) (n : Nat) : World :=
  sweepEach c faults (passRuns faults w n).1 (passRuns faults w n).2

/-- It is the run's turn in the pass. -/
def Turn (c : Pass) (faults : Nat → Bool) (w : World) (n : Nat) (id : String) (v : World) : Prop :=
  ∃ pre post, (passRuns faults w n).2 = pre ++ id :: post ∧
    v = sweepEach c faults (passRuns faults w n).1 pre

end Pass

section Spec

/-- The run is completed or failed and its expiry and the retention time have passed. -/
def Due (c : Pass) (docs : List (String × Doc)) (id : String) : Prop :=
  ∃ rc state expires, docs.lookup (runCreatedKey id) = some (.runCreated rc) ∧
    derived docs id = .ok state ∧ state.terminal = true ∧ rc.expiresAt = some expires ∧
    expires + c.retention < c.now

/-- The visit calls `PurgeRun`. -/
def Purges (c : Pass) (faults : Nat → Bool) (v : World) (id : String) : Prop :=
  ∃ visit, (sweepRun c id faults v).1 = .ok visit ∧ visit.purges = true

/-- In the whole pass a run whose run-created document is there is purged only if it is due. -/
def PurgesOnlyDue (c : Pass) (faults : Nat → Bool) (w : World) (n : Nat) : Prop :=
  ∀ id v, Turn c faults w n id v → (v.docs.lookup (runCreatedKey id)).isSome = true →
    Purges c faults v id → Due c v.docs id

/-- In the whole pass the read of a run-created document that is there succeeds, or the run is
due. -/
def CreatedRead (c : Pass) (faults : Nat → Bool) (w : World) (n : Nat) : Prop :=
  ∀ id v, Turn c faults w n id v → (v.docs.lookup (runCreatedKey id)).isSome = true →
    (∃ rc, Reads faults v id rc) ∨ Due c v.docs id

end Spec

section Honest

/-- What the action answers when it succeeds, it answers without failures too; it changes
nothing. -/
def Honest (m : Act α) : Prop :=
  ∀ faults w a w', m faults w = (.ok a, w') → w'.docs = w.docs ∧
    ∀ n, (m noFaults ⟨w.docs, n⟩).1 = .ok a ∧ (m noFaults ⟨w.docs, n⟩).2.docs = w.docs

theorem honest_pure (a : α) : Honest (pure a : Act α) := by
  intro faults w b w' h
  obtain ⟨rfl, rfl⟩ := pure_ok h
  exact ⟨rfl, fun n => ⟨rfl, rfl⟩⟩

theorem honest_throw (e : StoreError) : Honest (Act.throw e : Act α) := by
  intro faults w b w' h
  cases h

theorem honest_bind {m : Act α} {f : α → Act β} (hm : Honest m) (hf : ∀ a, Honest (f a)) :
    Honest (m >>= f) := by
  intro faults w b w' h
  obtain ⟨a, v, ha, hb⟩ := bind_ok h
  obtain ⟨hv, hm'⟩ := hm faults w a v ha
  obtain ⟨hw', hf'⟩ := hf a faults v b w' hb
  refine ⟨hw'.trans hv, fun n => ?_⟩
  obtain ⟨hfst, hdocs⟩ := hm' n
  have hbind : (m >>= f) noFaults ⟨w.docs, n⟩ = Act.bind m f noFaults ⟨w.docs, n⟩ := rfl
  rw [hbind, Act.bind]
  cases hrun : m noFaults ⟨w.docs, n⟩ with
  | mk r u =>
    rw [hrun] at hfst hdocs
    dsimp only at hfst hdocs
    subst hfst
    obtain ⟨docs, k⟩ := u
    dsimp only at hdocs
    rw [hdocs, ← hv]
    exact hf' k

theorem honest_op {f : List (String × Doc) → Except StoreError α × List (String × Doc)}
    (hf : ∀ docs, (f docs).2 = docs) : Honest (Act.op f) := by
  intro faults w a w' h
  obtain ⟨-, ha, rfl⟩ := op_ok h
  refine ⟨hf w.docs, fun n => ?_⟩
  rw [Act.op]
  exact ⟨ha, hf w.docs⟩

theorem honest_get (key : String) : Honest (get key) :=
  honest_op fun _ => rfl

theorem honest_exist (key : String) : Honest (exist key) :=
  honest_op fun _ => rfl

theorem honest_list (dir : String) : Honest (list dir) :=
  honest_op fun _ => rfl

theorem honest_branch {m₁ m₂ : Act α} (key : String) (h₁ : Honest m₁) (h₂ : Honest m₂) :
    Honest (do let ok ← exist key; if ok then m₁ else m₂) := by
  refine honest_bind (honest_exist key) fun ok => ?_
  split
  · exact h₁
  · exact h₂

theorem honest_manifestState (runID stage : String) (ms : List OpManifestEntry) :
    Honest (manifestState runID stage ms) := by
  induction ms with
  | nil => exact honest_pure _
  | cons m ms ih => exact honest_branch _ ih (honest_pure _)

theorem honest_stageState (runID stage : String) (ms : List OpManifestEntry) :
    Honest (stageState runID stage ms) :=
  honest_branch _ (honest_pure _) (honest_branch _ (honest_pure _)
    (honest_branch _ (honest_pure _) (honest_manifestState runID stage ms)))

theorem honest_readStages (ks : List String) (latest : Option StageSuspended) :
    Honest (readStages ks latest) := by
  induction ks generalizing latest with
  | nil => exact honest_pure _
  | cons k ks ih =>
    refine honest_bind (honest_get k) fun d => ?_
    cases d with
    | stageSuspended d => exact ih _
    | runCreated | runLookup | requestLookup | opLookup | opCreated | deferredCreated | pendingJoin
      | claim | note | blob | garbled => exact honest_throw _

theorem honest_currentStage (runID : String) : Honest (currentStage runID) :=
  honest_bind (honest_list _) fun _ => honest_readStages _ _

theorem honest_runState (runID : String) : Honest (runState runID) := by
  refine honest_branch _ (honest_pure _) (honest_branch _ (honest_pure _) ?_)
  refine honest_bind (honest_currentStage runID) fun cur => ?_
  cases cur with
  | some cur => exact honest_stageState runID _ _
  | none => exact honest_branch _ (honest_pure _) (honest_throw _)

end Honest

section Visits

variable {c : Pass} {faults : Nat → Bool} {v : World} {id : String}

theorem attempt_bind {m : Act α} {f : Except StoreError α → Act β} (faults : Nat → Bool)
    (w : World) :
    (Act.attempt m >>= f) faults w = f (m faults w).1 faults (m faults w).2 :=
  rfl

theorem sweepClaim_ok {cur : StageSuspended} {visit : Visit} {w : World}
    (h : (sweepClaim c id cur faults v) = (.ok visit, w)) : visit.purges = false := by
  obtain ⟨state, u, -, h⟩ := bind_ok h
  split at h
  · obtain ⟨rfl, -⟩ := pure_ok h
    rfl
  · obtain ⟨claim, u', -, h⟩ := bind_ok h
    split at h
    · obtain ⟨rfl, -⟩ := pure_ok h
      rfl
    · split at h
      · rw [attempt_bind, attempt_bind] at h
        obtain ⟨rfl, -⟩ := pure_ok h
        rfl
      · obtain ⟨rfl, -⟩ := pure_ok h
        rfl

theorem sweepStage_ok {visit : Visit} {w : World} (h : sweepStage c id faults v = (.ok visit, w)) :
    visit.purges = false := by
  obtain ⟨cur, u, -, h⟩ := bind_ok h
  split at h
  · obtain ⟨rfl, -⟩ := pure_ok h
    rfl
  · exact sweepClaim_ok h

theorem sweepLive_ok {rc : RunCreated} {visit : Visit} {w : World}
    (h : sweepLive c id rc faults v = (.ok visit, w)) : visit.purges = false := by
  rw [sweepLive] at h
  split at h
  · rw [attempt_bind, attempt_bind] at h
    obtain ⟨rfl, -⟩ := pure_ok h
    rfl
  · rw [attempt_bind] at h
    cases hstage : sweepStage c id faults v with
    | mk r u =>
      rw [hstage] at h
      cases r with
      | ok visit' =>
        obtain ⟨rfl, -⟩ := pure_ok h
        exact sweepStage_ok hstage
      | error e =>
        obtain ⟨rfl, -⟩ := pure_ok h
        rfl

theorem sweepTerminal_ok {rc : RunCreated} {visit : Visit} {w : World}
    (h : sweepTerminal c id rc faults v = (.ok visit, w)) (hp : visit.purges = true) :
    ∃ expires, rc.expiresAt = some expires ∧ expires + c.retention < c.now := by
  rw [sweepTerminal] at h
  cases hexp : rc.expiresAt with
  | none =>
    rw [hexp] at h
    obtain ⟨rfl, -⟩ := pure_ok h
    cases hp
  | some expires =>
    rw [hexp] at h
    dsimp only at h
    split at h
    · next hdue => exact ⟨expires, rfl, hdue⟩
    · obtain ⟨rfl, -⟩ := pure_ok h
      cases hp

theorem due_of_reads {rc : RunCreated} (hrc : Reads faults v id rc) (h : Purges c faults v id) :
    Due c v.docs id := by
  obtain ⟨visit, hvisit, hp⟩ := h
  obtain ⟨hworld, hiff⟩ := readRunCreated_eq faults v id
  have hrun : sweepRun c id faults v = sweepState c id rc
      (runState id faults ⟨v.docs, v.ops + 1⟩).1 faults
        (runState id faults ⟨v.docs, v.ops + 1⟩).2 := by
    rw [sweepRun, attempt_bind, (hiff rc).mpr hrc, hworld]
    rfl
  rw [hrun] at hvisit
  cases hstate : runState id faults ⟨v.docs, v.ops + 1⟩ with
  | mk r u =>
    rw [hstate] at hvisit
    cases r with
    | error e =>
      cases hvisit
      cases hp
    | ok state =>
      dsimp only [sweepState] at hvisit
      split at hvisit
      · next hterm =>
        obtain ⟨expires, hexp, hdue⟩ := sweepTerminal_ok (Prod.ext hvisit rfl) hp
        refine ⟨rc, state, expires, ?_, ?_, hterm, hexp, hdue⟩
        · rw [Reads, readAt] at hrc
          split at hrc
          · cases hrc
          · cases hlook : v.docs.lookup (runCreatedKey id) with
            | none =>
              rw [hlook] at hrc
              cases hrc
            | some d =>
              rw [hlook] at hrc
              exact congrArg some (Except.ok.inj hrc)
        · exact (((honest_runState id) faults _ state u hstate).2 0).1
      · rw [sweepLive_ok (Prod.ext hvisit rfl)] at hp
        cases hp

theorem purges_of_not_reads (h : ∀ rc, ¬Reads faults v id rc) : Purges c faults v id := by
  obtain ⟨-, hiff⟩ := readRunCreated_eq faults v id
  cases hread : (readRunCreated id faults v).1 with
  | ok rc => exact absurd ((hiff rc).mp hread) (h rc)
  | error e =>
    refine ⟨.orphan, ?_, rfl⟩
    rw [sweepRun, attempt_bind, hread]
    rfl

end Visits

/-- In a pass every run that is purged is due exactly if each read of a run-created document that is
there succeeds, those of runs that are due apart. -/
theorem purgesOnlyDue_iff (c : Pass) (faults : Nat → Bool) (w : World) (n : Nat) :
    PurgesOnlyDue c faults w n ↔ CreatedRead c faults w n := by
  refine forall₄_congr fun id v _ _ => ?_
  constructor
  · intro hdue
    by_cases hread : ∃ rc, Reads faults v id rc
    · exact .inl hread
    · exact .inr (hdue (purges_of_not_reads fun rc hrc => hread ⟨rc, hrc⟩))
  · rintro (⟨rc, hrc⟩ | hdue) hpurges
    · exact due_of_reads hrc hpurges
    · exact hdue

section Scenes

/-- A run that waits for an op and expires in an hour. -/
def waitingRun : World :=
  ⟨(after do
    createRun "run_1" "rc_1" "acme" "site" "" "site/100" "req_1" 0 (some 3600)
    suspendStage "run_1" "site/100" "[]" "" [⟨1, "render", true, ""⟩] 1).docs, 0⟩

def hourly : Pass :=
  ⟨60, 604800, 600, "20260101T000000.000000000Z", "x"⟩

/-- The listing succeeds and the read after it fails. -/
def oneFault : Nat → Bool := fun n => n == 1

end Scenes

/-- One failed read of run-created, and a run that waits is purged. -/
theorem not_purgesOnlyDue_waiting :
    ¬PurgesOnlyDue hourly oneFault waitingRun 1 ∧ derived waitingRun.docs "run_1" = .ok .waiting ∧
      (sweep hourly oneFault waitingRun 1).docs = [] := by
  have hstate : derived waitingRun.docs "run_1" = .ok .waiting := by decide +kernel
  refine ⟨fun h => ?_, hstate, by decide +kernel⟩
  have hturn : Turn hourly oneFault waitingRun 1 "run_1" (passRuns oneFault waitingRun 1).1 :=
    ⟨[], [], by decide +kernel, rfl⟩
  have hdocs : (passRuns oneFault waitingRun 1).1.docs = waitingRun.docs := by decide +kernel
  obtain ⟨rc, state, expires, -, hderived, hterm, -⟩ :=
    h "run_1" _ hturn (by decide +kernel) ⟨.orphan, by decide +kernel, rfl⟩
  rw [hdocs, hstate] at hderived
  cases hderived
  cases hterm

end ThanksComputer.Retention
