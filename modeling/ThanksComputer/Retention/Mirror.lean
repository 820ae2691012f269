import ThanksComputer.Continuation.Finality
import ThanksComputer.Retention.Sweep

/-! The state of a run as the sweeper reads it off the keys of the store is the one that the run's
own protocol reads off its documents. -/

namespace ThanksComputer.Retention

open Lib.CreateOnce

variable {id : String} {docs : List (String × Doc)} {m : Continuation.Machine}
  {s : Store Continuation.Doc Continuation.Event} {version : Continuation.Stage → String}

section Keys

def stageText (st : Continuation.Stage) : String :=
  st.stack ++ "/" ++ toString st.scope

def terminalPath (id : String) : Continuation.Place → String
  | .op st ref => opTerminalKey id (stageText st) ref.ordinal ref.op
  | .deferred opc => deferredTerminalKey id opc

def entryOf (e : Continuation.OpManifestEntry) : OpManifestEntry where
  ordinal := e.ref.ordinal
  op := e.ref.op
  async := e.async
  opContinuationID := e.opc.getD ""

def suspendedOf (version : Continuation.Stage → String)
    (x : Continuation.Stage × Continuation.StageSuspended) : StageSuspended where
  stage := stageText x.1
  scopeEnvelope := x.2.scopeEnvelope
  manifest := x.2.manifest.map entryOf
  stackVersion := version x.1
  suspendedAt := x.2.suspendedAt

def stateOf : Continuation.State → State
  | .waiting => .waiting
  | .resumable => .resumable
  | .completed => .completed
  | .failed => .failed

def Named (manifest : List Continuation.OpManifestEntry) : Prop :=
  ∀ e ∈ manifest, e.opc ≠ some ""

def suspensions (id : String) (docs : List (String × Doc)) : List String :=
  ((docs.map Prod.fst).filter (under (runDir id ++ "/stages"))).filter fun k =>
    hasSuffix k "/stage-suspended.json"

structure Mirrors (id : String) (docs : List (String × Doc)) (version : Continuation.Stage → String)
    (m : Continuation.Machine) (s : Store Continuation.Doc Continuation.Event) : Prop where
  runCreated : (docs.lookup (runCreatedKey id)).isSome = s.has .runCreated
  result : (docs.lookup (resultKey id)).isSome = s.has .result
  runFailed : (docs.lookup (runFailedKey id)).isSome = s.has .runFailed
  stageFailed : ∀ st, (docs.lookup (stageFailedKey id (stageText st))).isSome =
    s.has (.stageFailed st)
  terminal : ∀ p, (docs.lookup (terminalPath id p)).isSome = s.has (.terminal p)
  suspended : (suspensions id docs).map (fun k => docs.lookup k) =
    (m.listing (Continuation.suspendedStages s)).map fun x =>
      some (.stageSuspended (suspendedOf version x))
  named : ∀ x ∈ m.listing (Continuation.suspendedStages s), Named x.2.manifest

theorem terminalKey_entryOf {e : Continuation.OpManifestEntry} (h : e.opc ≠ some "")
    (st : Continuation.Stage) :
    (entryOf e).terminalKey id (stageText st) = terminalPath id (e.place st) := by
  cases hopc : e.opc with
  | none => simp [OpManifestEntry.terminalKey, entryOf, Continuation.OpManifestEntry.place,
      terminalPath, hopc]
  | some opc =>
    rw [hopc, Ne, Option.some.injEq] at h
    simp [OpManifestEntry.terminalKey, entryOf, Continuation.OpManifestEntry.place, terminalPath,
      hopc, h]

end Keys

section States

theorem exist_bind {α : Type} (key : String) (f : Bool → Act α) (n : Nat) :
    (exist key >>= f) noFaults ⟨docs, n⟩ = f (docs.lookup key).isSome noFaults ⟨docs, n + 1⟩ :=
  rfl

theorem get_bind {α : Type} {key : String} {d : Doc} (h : docs.lookup key = some d)
    (f : Doc → Act α) (n : Nat) : (get key >>= f) noFaults ⟨docs, n⟩ = f d noFaults ⟨docs, n + 1⟩ := by
  have hget : get key noFaults ⟨docs, n⟩ = (.ok d, ⟨docs, n + 1⟩) := by
    change ((docs.lookup key).elim (Except.error StoreError.notFound) Except.ok, _) = _
    rw [h]
    rfl
  change Act.bind _ _ _ _ = _
  rw [Act.bind, hget]

theorem manifestState_mirrors (h : Mirrors id docs version m s) (st : Continuation.Stage)
    {manifest : List Continuation.OpManifestEntry} (hnamed : Named manifest) (n : Nat) :
    (manifestState id (stageText st) (manifest.map entryOf) noFaults ⟨docs, n⟩).1 =
      .ok (if manifest.all fun e => s.has (.terminal (e.place st)) then .resumable
        else .waiting) := by
  induction manifest generalizing n with
  | nil => rfl
  | cons e es ih =>
    rw [List.map_cons, manifestState, exist_bind,
      terminalKey_entryOf (hnamed e List.mem_cons_self), h.terminal, List.all_cons]
    cases s.has (.terminal (e.place st)) with
    | false => rfl
    | true => exact ih (fun e he => hnamed e (List.mem_cons_of_mem _ he)) (n + 1)

theorem stageState_mirrors (h : Mirrors id docs version m s) (st : Continuation.Stage)
    {manifest : List Continuation.OpManifestEntry} (hnamed : Named manifest) (n : Nat) :
    (stageState id (stageText st) (manifest.map entryOf) noFaults ⟨docs, n⟩).1 =
      .ok (stateOf (Continuation.stageStateOf s st manifest)) := by
  rw [stageState, exist_bind, h.result, Continuation.stageStateOf]
  cases s.has .result with
  | true => rfl
  | false =>
    simp only [Bool.false_eq_true, if_false]
    rw [exist_bind, h.runFailed]
    cases s.has .runFailed with
    | true => rfl
    | false =>
      simp only [Bool.false_eq_true, if_false]
      rw [exist_bind, h.stageFailed]
      cases s.has (.stageFailed st) with
      | true => rfl
      | false =>
        simp only [Bool.false_eq_true, if_false, Bool.or_false]
        rw [manifestState_mirrors h st hnamed]
        split
        · rfl
        · rfl

theorem readStages_eq {ks : List String} {ds : List StageSuspended}
    (h : ks.map (fun k => docs.lookup k) = ds.map fun d => some (Doc.stageSuspended d))
    (latest : Option StageSuspended) (n : Nat) :
    (readStages ks latest noFaults ⟨docs, n⟩).1 =
      .ok (ds.foldl (fun l d => some (later l d)) latest) := by
  induction ks generalizing ds latest n with
  | nil =>
    rw [List.map_nil, eq_comm, List.map_eq_nil_iff] at h
    rw [h]
    rfl
  | cons k ks ih =>
    cases ds with
    | nil => cases h
    | cons d ds =>
      rw [List.map_cons, List.map_cons, List.cons.injEq] at h
      rw [readStages, get_bind h.1]
      exact ih h.2 _ _

theorem foldl_later (x : Continuation.Stage × Continuation.StageSuspended)
    (xs : List (Continuation.Stage × Continuation.StageSuspended)) :
    (xs.map (suspendedOf version)).foldl (fun l d => some (later l d))
        (some (suspendedOf version x)) =
      some (suspendedOf version
        (xs.foldl (fun l y => if l.2.suspendedAt < y.2.suspendedAt then y else l) x)) := by
  induction xs generalizing x with
  | nil => rfl
  | cons y ys ih =>
    have hlater : later (some (suspendedOf version x)) (suspendedOf version y) =
        suspendedOf version (if x.2.suspendedAt < y.2.suspendedAt then y else x) := by
      by_cases hlt : x.2.suspendedAt < y.2.suspendedAt
      · simp [later, suspendedOf, hlt]
      · simp [later, suspendedOf, hlt]
    rw [List.map_cons, List.foldl_cons, List.foldl_cons, hlater, ih]

theorem mem_of_latest {x : Continuation.Stage × Continuation.StageSuspended}
    {xs : List (Continuation.Stage × Continuation.StageSuspended)}
    (h : Continuation.latest xs = some x) : x ∈ xs := by
  cases xs with
  | nil => cases h
  | cons y ys =>
    cases h
    induction ys generalizing y with
    | nil => exact List.mem_cons_self
    | cons z zs ih =>
      rw [List.foldl_cons]
      split
      · exact List.mem_cons_of_mem _ (ih z)
      · rcases List.mem_cons.mp (ih y) with heq | hmem
        · rw [heq]
          exact List.mem_cons_self
        · exact List.mem_cons_of_mem _ (List.mem_cons_of_mem _ hmem)

theorem currentStage_mirrors (h : Mirrors id docs version m s) (n : Nat) :
    (currentStage id noFaults ⟨docs, n⟩).1 =
      .ok ((Continuation.latest (m.listing (Continuation.suspendedStages s))).map
        (suspendedOf version)) := by
  have hlist : currentStage id noFaults ⟨docs, n⟩ =
      readStages (suspensions id docs) none noFaults ⟨docs, n + 1⟩ := rfl
  have hread : (suspensions id docs).map (fun k => docs.lookup k) =
      ((m.listing (Continuation.suspendedStages s)).map (suspendedOf version)).map
        fun d => some (Doc.stageSuspended d) := by
    rw [h.suspended, List.map_map]
    rfl
  rw [hlist, readStages_eq hread]
  cases m.listing (Continuation.suspendedStages s) with
  | nil => rfl
  | cons x xs =>
    rw [List.map_cons, List.foldl_cons, Continuation.latest, Option.map_some, ← foldl_later]
    rfl

theorem derived_mirrors (h : Mirrors id docs version m s) :
    derived docs id =
      ((Continuation.derivedState m s).map stateOf).elim (.error .notFound) .ok := by
  rw [derived, runState, exist_bind, h.result, Continuation.derivedState_eq]
  cases s.has .result with
  | true => rfl
  | false =>
    simp only [Bool.false_eq_true, if_false]
    rw [exist_bind, h.runFailed]
    cases s.has .runFailed with
    | true => rfl
    | false =>
      simp only [Bool.false_eq_true, if_false]
      have hcur := currentStage_mirrors h 2
      cases hrun : currentStage id noFaults ⟨docs, 2⟩ with
      | mk r w =>
        rw [hrun] at hcur
        cases hcur
        obtain ⟨hdocs, -⟩ := honest_currentStage id noFaults ⟨docs, 2⟩ _ w hrun
        obtain ⟨docs', n⟩ := w
        obtain rfl : docs' = docs := hdocs
        change (Act.bind _ _ _ _).1 = _
        rw [Act.bind, hrun]
        cases hlatest : Continuation.latest (m.listing (Continuation.suspendedStages s)) with
        | some x => exact stageState_mirrors h x.1 (h.named x (mem_of_latest hlatest)) n
        | none =>
          dsimp only [Option.map_none]
          rw [exist_bind, h.runCreated]
          cases s.has .runCreated with
          | true => rfl
          | false => rfl

end States

end ThanksComputer.Retention
