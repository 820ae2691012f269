import ThanksComputer.Retention.Docs

/-! What `PurgeRun` leaves.  It finds the lookups of a run through the documents that name them; a
lookup that no document it reads names stays behind. -/

namespace ThanksComputer.Retention

variable {α β : Type} {faults : Nat → Bool} {w w' : World} {runID : String}

section Acts

theorem bind_ok {m : Act α} {f : α → Act β} {b : β} (h : (m >>= f) faults w = (.ok b, w')) :
    ∃ a v, m faults w = (.ok a, v) ∧ f a faults v = (.ok b, w') := by
  have hbind : (m >>= f) faults w = Act.bind m f faults w := rfl
  rw [hbind, Act.bind] at h
  split at h
  · cases h
  · next a v hm => exact ⟨a, v, hm, h⟩

theorem pure_ok {a b : α} (h : (pure a : Act α) faults w = (.ok b, w')) : b = a ∧ w' = w := by
  cases h
  exact ⟨rfl, rfl⟩

theorem attempt_ok {m : Act α} {r : Except StoreError α}
    (h : Act.attempt m faults w = (.ok r, w')) : m faults w = (r, w') := by
  cases h
  rfl

theorem op_ok {f : List (String × Doc) → Except StoreError α × List (String × Doc)} {a : α}
    (h : Act.op f faults w = (.ok a, w')) :
    faults w.ops = false ∧ (f w.docs).1 = .ok a ∧ w' = ⟨(f w.docs).2, w.ops + 1⟩ := by
  rw [Act.op] at h
  split at h
  · cases h
  · next hok =>
    have h1 := congrArg Prod.fst h
    have h2 := congrArg Prod.snd h
    exact ⟨eq_false_of_ne_true hok, h1, h2.symm⟩

theorem list_ok {dir : String} {keys : List String} (h : list dir faults w = (.ok keys, w')) :
    keys = (w.docs.map Prod.fst).filter (under dir) ∧ w' = ⟨w.docs, w.ops + 1⟩ := by
  obtain ⟨-, hkeys, rfl⟩ := op_ok h
  cases hkeys
  exact ⟨rfl, rfl⟩

theorem delete_ok {key : String} (h : delete key faults w = (.ok (), w')) :
    w' = ⟨w.docs.filter fun e => e.1 ≠ key, w.ops + 1⟩ :=
  (op_ok h).2.2

theorem deleteEach_ok {keys : List String} (h : deleteEach keys faults w = (.ok (), w')) :
    w'.docs = w.docs.filter fun e => e.1 ∉ keys := by
  induction keys generalizing w with
  | nil =>
    obtain ⟨-, rfl⟩ := pure_ok h
    simp
  | cons k ks ih =>
    obtain ⟨_, v, hk, hks⟩ := bind_ok h
    rw [ih hks, delete_ok hk, List.filter_filter]
    refine List.filter_congr fun e _ => ?_
    rw [Bool.eq_iff_iff]
    simp [not_or, and_comm]

theorem get_eq (key : String) (faults : Nat → Bool) (w : World) :
    get key faults w =
      (if faults w.ops then .error .backend else (w.docs.lookup key).elim (.error .notFound) .ok,
        ⟨w.docs, w.ops + 1⟩) := by
  rw [get, Act.op]
  split
  · rfl
  · rfl

end Acts

section Reads

/-- The answer of the read that is the `n`th operation. -/
def readAt (faults : Nat → Bool) (docs : List (String × Doc)) (n : Nat) (key : String) :
    Except StoreError Doc :=
  if faults n then .error .backend else (docs.lookup key).elim (.error .notFound) .ok

def opCreatedKeys (keys : List String) : List String :=
  keys.filter fun k => hasSuffix k "/op-created.json"

/-- The ids that are read from documents, one operation after the other from the `n`th on. -/
def readOpcs (faults : Nat → Bool) (docs : List (String × Doc)) : Nat → List String → List String
  | _, [] => []
  | n, k :: ks => (opcOf (readAt faults docs n k)).toList ++ readOpcs faults docs (n + 1) ks

theorem collect_ok {keys opcs : List String} (h : collect keys faults w = (.ok opcs, w')) :
    opcs = readOpcs faults w.docs w.ops (opCreatedKeys keys) ∧ w'.docs = w.docs := by
  induction keys generalizing w opcs with
  | nil =>
    obtain ⟨rfl, rfl⟩ := pure_ok h
    exact ⟨rfl, rfl⟩
  | cons k ks ih =>
    rw [collect] at h
    split at h
    · next hk =>
      rw [opCreatedKeys, List.filter_cons_of_neg (by rw [hk]; exact Bool.false_ne_true)]
      exact ih h
    · next hk =>
      obtain ⟨d, v, hd, h⟩ := bind_ok h
      obtain ⟨opcs', v', hrest, h⟩ := bind_ok h
      obtain ⟨rfl, rfl⟩ := pure_ok h
      have hget := attempt_ok hd
      rw [get_eq] at hget
      have hd : d = readAt faults w.docs w.ops k := (congrArg Prod.fst hget).symm
      have hv : v = ⟨w.docs, w.ops + 1⟩ := (congrArg Prod.snd hget).symm
      subst hd hv
      obtain ⟨rfl, hdocs⟩ := ih hrest
      have hkeys : opCreatedKeys (k :: ks) = k :: opCreatedKeys ks :=
        List.filter_cons_of_pos (by simpa using hk)
      refine ⟨?_, hdocs⟩
      rw [hkeys]
      rfl

theorem mem_readOpcs {docs : List (String × Doc)} {n : Nat} {keys : List String} {opc : String} :
    opc ∈ readOpcs faults docs n keys ↔
      ∃ i k, keys[i]? = some k ∧ opcOf (readAt faults docs (n + i) k) = some opc := by
  induction keys generalizing n with
  | nil => simp [readOpcs]
  | cons k ks ih =>
    rw [readOpcs, List.mem_append, Option.mem_toList, ih]
    constructor
    · rintro (h | ⟨i, k', hk', h⟩)
      · exact ⟨0, k, rfl, h⟩
      · refine ⟨i + 1, k', hk', ?_⟩
        rwa [Nat.add_right_comm] at h
    · rintro ⟨i, k', hk', h⟩
      cases i with
      | zero =>
        cases hk'
        exact .inl h
      | succ i =>
        refine .inr ⟨i, k', hk', ?_⟩
        rwa [Nat.add_right_comm]

end Reads

section Purge

/-- A document of the run: one in its directory, or a lookup that resolves to it. -/
def Belongs (runID key : String) (d : Doc) : Prop :=
  under (runDir runID) key = true ∨ d.resolves = some runID

/-- Nothing of the run is left. -/
def Gone (runID : String) (docs : List (String × Doc)) : Prop :=
  ∀ key d, (key, d) ∈ docs → ¬Belongs runID key d

def runKeys (docs : List (String × Doc)) (runID : String) : List String :=
  (docs.map Prod.fst).filter (under (runDir runID))

/-- The run-created document is there and its read, the first operation of the purge, succeeds. -/
def Reads (faults : Nat → Bool) (w : World) (runID : String) (rc : RunCreated) : Prop :=
  readAt faults w.docs w.ops (runCreatedKey runID) = .ok (.runCreated rc)

/-- An op-created document of the run records the id, and its read succeeds: the first two
operations of the purge are the read of run-created and the listing. -/
def Records (faults : Nat → Bool) (w : World) (runID opc : String) : Prop :=
  opc ≠ "" ∧ ∃ i k d, (opCreatedKeys (runKeys w.docs runID))[i]? = some k ∧
    readAt faults w.docs (w.ops + 2 + i) k = .ok d ∧ d.opContinuationID = opc

/-- Every lookup of the run is at the key of an id that a document of the run names, in a read that
succeeds: run-created for the run's own lookups, an op-created document for an op's. -/
def Traced (faults : Nat → Bool) (w : World) (runID : String) : Prop :=
  ∀ key d, (key, d) ∈ w.docs → d.resolves = some runID → under (runDir runID) key = false →
    (∃ rc, Reads faults w runID rc ∧ key ∈ runLookups rc) ∨
      ∃ opc, Records faults w runID opc ∧ key = opContinuationKey opc

theorem opcOf_eq_some {r : Except StoreError Doc} {opc : String} :
    opcOf r = some opc ↔ opc ≠ "" ∧ ∃ d, r = .ok d ∧ d.opContinuationID = opc := by
  cases r with
  | error e => simp [opcOf]
  | ok d =>
    rw [opcOf]
    split
    · next hne =>
      constructor
      · rintro ⟨⟩
        exact ⟨hne, d, rfl, rfl⟩
      · rintro ⟨-, d', hd, rfl⟩
        cases hd
        rfl
    · next heq =>
      refine iff_of_false (by simp) ?_
      rintro ⟨hne, d', hd, rfl⟩
      cases hd
      exact heq hne

theorem readRunCreated_eq (faults : Nat → Bool) (w : World) (runID : String) :
    (readRunCreated runID faults w).2 = ⟨w.docs, w.ops + 1⟩ ∧
      ∀ rc, (readRunCreated runID faults w).1 = .ok rc ↔ Reads faults w runID rc := by
  obtain ⟨k, hbind, hcreated, hother⟩ : ∃ k : Doc → Act RunCreated,
      readRunCreated runID faults w = Act.bind (get (runCreatedKey runID)) k faults w ∧
        (∀ rc, k (.runCreated rc) = pure rc) ∧ ∀ d, (∀ rc, d ≠ .runCreated rc) →
          k d = Act.throw .decode := by
    refine ⟨_, rfl, fun rc => rfl, fun d hd => ?_⟩
    cases d with
    | runCreated rc => exact absurd rfl (hd rc)
    | runLookup | requestLookup | opLookup | stageSuspended | opCreated | deferredCreated
    | pendingJoin
      | claim | note | blob | garbled => rfl
  have hget : get (runCreatedKey runID) faults w =
      (readAt faults w.docs w.ops (runCreatedKey runID), ⟨w.docs, w.ops + 1⟩) := get_eq _ faults w
  rw [hbind, Act.bind, hget]
  unfold Reads
  cases readAt faults w.docs w.ops (runCreatedKey runID) with
  | error e => exact ⟨rfl, fun rc => iff_of_false (by simp) (by simp)⟩
  | ok d =>
    cases d with
    | runCreated rc' =>
      refine ⟨by dsimp only; rw [hcreated]; rfl, fun rc => ?_⟩
      have hfst : (pure rc' : Act RunCreated) faults ⟨w.docs, w.ops + 1⟩ =
        (.ok rc', ⟨w.docs, w.ops + 1⟩) :=
        rfl
      dsimp only
      rw [hcreated, hfst]
      simp
    | runLookup | requestLookup | opLookup | stageSuspended | opCreated | deferredCreated
    | pendingJoin
      | claim | note | blob | garbled =>
      dsimp only
      rw [hother _ (by rintro rc ⟨⟩)]
      exact ⟨rfl, fun rc => iff_of_false (by rintro ⟨⟩) (by simp)⟩

theorem mem_deleteEach {keys : List String} (h : deleteEach keys faults w = (.ok (), w'))
    (e : String × Doc) : e ∈ w'.docs ↔ e ∈ w.docs ∧ e.1 ∉ keys := by
  rw [deleteEach_ok h, List.mem_filter, decide_eq_true_eq]

theorem mem_deleteLookups {r : Except StoreError RunCreated}
    (h : deleteLookups r faults w = (.ok (), w')) (e : String × Doc) :
    e ∈ w'.docs ↔ e ∈ w.docs ∧ ∀ rc, r = .ok rc → e.1 ∉ runLookups rc := by
  cases r with
  | ok rc =>
    rw [mem_deleteEach h e]
    simp
  | error err =>
    obtain ⟨-, rfl⟩ := pure_ok h
    simp

theorem mem_collected {opcs : List String} {w v : World} {key : String}
    (hw : w = ⟨v.docs, v.ops + 2⟩)
    (h : opcs = readOpcs faults w.docs w.ops (opCreatedKeys (runKeys w.docs runID))) :
    key ∈ opcs.map opContinuationKey ↔
      ∃ opc, Records faults v runID opc ∧ key = opContinuationKey opc := by
  subst hw h
  constructor
  · intro hkey
    obtain ⟨opc, hopc, rfl⟩ := List.mem_map.mp hkey
    obtain ⟨i, k, hk, hread⟩ := mem_readOpcs.mp hopc
    obtain ⟨hne, d, hd, hid⟩ := opcOf_eq_some.mp hread
    exact ⟨opc, ⟨hne, i, k, d, hk, hd, hid⟩, rfl⟩
  · rintro ⟨opc, ⟨hne, i, k, d, hk, hd, hid⟩, rfl⟩
    refine List.mem_map_of_mem (mem_readOpcs.mpr ⟨i, k, hk, ?_⟩)
    exact opcOf_eq_some.mpr ⟨hne, d, hd, hid⟩

theorem mem_purgeRun (h : purgeRun runID faults w = (.ok (), w')) (e : String × Doc) :
    e ∈ w'.docs ↔ e ∈ w.docs ∧ under (runDir runID) e.1 = false ∧
      (∀ rc, Reads faults w runID rc → e.1 ∉ runLookups rc) ∧
      ¬∃ opc, Records faults w runID opc ∧ e.1 = opContinuationKey opc := by
  obtain ⟨r, v₁, hr, h⟩ := bind_ok h
  obtain ⟨keys, v₂, hlist, h⟩ := bind_ok h
  obtain ⟨opcs, v₃, hcollect, h⟩ := bind_ok h
  obtain ⟨_, v₄, hopcs, h⟩ := bind_ok h
  obtain ⟨_, v₅, hlookups, hkeys⟩ := bind_ok h
  have hread := attempt_ok hr
  obtain ⟨hworld, hrc⟩ := readRunCreated_eq faults w runID
  rw [hread] at hworld hrc
  dsimp only at hworld hrc
  obtain ⟨rfl, hv₂⟩ := list_ok hlist
  subst hworld
  obtain ⟨hopcs', hdocs⟩ := collect_ok hcollect
  subst hv₂
  rw [mem_deleteEach hkeys, mem_deleteLookups hlookups, mem_deleteEach hopcs, hdocs,
    mem_collected (w := ⟨w.docs, w.ops + 2⟩) (v := w) rfl hopcs']
  simp only [hrc, List.mem_filter, List.mem_map, Prod.exists]
  constructor
  · rintro ⟨⟨⟨hmem, hopc⟩, hrun⟩, hkey⟩
    refine ⟨hmem, eq_false_of_ne_true fun hunder => ?_, hrun, hopc⟩
    exact hkey ⟨⟨e.1, e.2, hmem, rfl⟩, hunder⟩
  · rintro ⟨hmem, hunder, hrun, hopc⟩
    refine ⟨⟨⟨hmem, hopc⟩, hrun⟩, fun hkey => ?_⟩
    rw [hunder] at hkey
    cases hkey.2

/-- After a purge that reports no error nothing of the run is left exactly if each of its lookups is
named by a document of the run that the purge could read. -/
theorem gone_iff (h : purgeRun runID faults w = (.ok (), w')) :
    Gone runID w'.docs ↔ Traced faults w runID := by
  constructor
  · intro hgone key d hmem hresolves hunder
    by_contra hnot
    rw [not_or, not_exists] at hnot
    refine hgone key d ((mem_purgeRun h (key, d)).mpr ⟨hmem, hunder, ?_, hnot.2⟩) (.inr hresolves)
    exact fun rc hrc hkey => hnot.1 rc ⟨hrc, hkey⟩
  · rintro htraced key d hmem hbelongs
    obtain ⟨hmem, hunder, hrun, hopc⟩ := (mem_purgeRun h (key, d)).mp hmem
    rcases hbelongs with hdir | hresolves
    · rw [hdir] at hunder
      cases hunder
    · rcases htraced key d hmem hresolves hunder with ⟨rc, hrc, hkey⟩ | htr
      · exact hrun rc hrc hkey
      · exact hopc htr

end Purge

section Scenes

instance (runID : String) (docs : List (String × Doc)) : Decidable (Gone runID docs) :=
  decidable_of_iff (∀ e ∈ docs, ¬(under (runDir runID) e.1 = true ∨ e.2.resolves = some runID))
    ⟨fun h key d hmem => h (key, d) hmem, fun h e he => h e.1 e.2 he⟩

def noFaults : Nat → Bool := fun _ => false

/-- The world after an action on an empty store. -/
def after (m : Act Unit) : World :=
  (m noFaults ⟨[], 0⟩).2

/-- A run that waited for one async op and has its result. -/
def barrier : World :=
  after do
    createRun "run_1" "rc_1" "acme" "site" "" "site/100" "req_1" 0 (some 60)
    suspendStage "run_1" "site/100" "[]" "" [⟨1, "render", true, ""⟩] 1
    createOpRecords "run_1" "site/100" 1 [⟨1, "render", true, "opc_1", "hash", "[]", some 60⟩]
    let _ ← recordTerminal "run_1" "site/100" 1 "render" "completed" "[]"
    writeResult "run_1" "[]"

/-- A run that dispatched one deferred op and has its result. -/
def deferral : World :=
  after do
    createRun "run_1" "rc_1" "acme" "site" "" "site/100" "req_1" 0 (some 60)
    createDeferredOp "run_1" 1
      ⟨"opc_1", "render", 1, 200, "", "site/100", "site", "hash", "[]", some 60⟩
    let _ ← recordDeferredTerminal "run_1" "opc_1" "completed" "[]"
    writeResult "run_1" "[]"

end Scenes

theorem gone_barrier :
    (purgeRun "run_1" noFaults barrier).1 = .ok () ∧ Traced noFaults barrier "run_1" ∧
      Gone "run_1" (purgeRun "run_1" noFaults barrier).2.docs := by
  have hends : (purgeRun "run_1" noFaults barrier).1 = .ok () ∧
      Gone "run_1" (purgeRun "run_1" noFaults barrier).2.docs := by
    decide +kernel
  rcases hrun : purgeRun "run_1" noFaults barrier with ⟨res, w⟩
  rw [hrun] at hends
  obtain ⟨rfl, hgone⟩ := hends
  exact ⟨rfl, (gone_iff hrun).mp hgone, hgone⟩

/-- The lookup of a deferred op survives the purge and resolves to the purged run. -/
theorem not_gone_deferral :
    (purgeRun "run_1" noFaults deferral).1 = .ok () ∧
      (purgeRun "run_1" noFaults deferral).2.docs = [("op-continuations/opc_1.json",
        .opLookup ⟨"run_1", "", "render", 1, "hash", some 60, true⟩)] ∧
      ¬Gone "run_1" (purgeRun "run_1" noFaults deferral).2.docs := by
  decide +kernel

end ThanksComputer.Retention
