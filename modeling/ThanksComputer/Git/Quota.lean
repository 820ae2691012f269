import ThanksComputer.Git.Push
import ThanksComputer.Lib.Runs

/-! `Commit` (`git/staging.go`) beside other commits: the size of the repository is read in one
step, and the objects are indexed in a later one. -/

namespace ThanksComputer.Git

open Net Lib.Runs

section Steps

variable (G : GoGit) (L : Limits) (db : Db) (p : Push)

/-- The cap in force for a repository; zero is none. -/
def Repo.cap (repo : Repo) : Nat :=
  (L.within repo.quotas).maxRepoBytes

def Push.freshBytes : Nat :=
  ((p.rows G).map ObjectRow.size).sum

def Push.measure (fault : Bool) : Except Str Unit :=
  if 0 < p.repo.cap L ∧ fault = true then .error notStoredText
  else if 0 < p.repo.cap L ∧ p.repo.cap L < db.storedBytes p.repo.id + p.freshBytes G then
    .error ("repository over its cap of ".toList ++ number L.maxRepoBytes ++ " bytes".toList)
  else .ok ()

/-- Behind the check: `SetEncodedObjects`. -/
def Push.index (fault : Bool) : Except Str Db :=
  if 0 < (L.within p.repo.quotas).maxObjectBytes ∧
      (p.rows G).any (fun o => (L.within p.repo.quotas).maxObjectBytes < o.size) then
    .error (objectOverText L)
  else if p.rows G ≠ [] ∧ fault = true then .error notStoredText
  else .ok (db.putObjects (p.rows G))

end Steps

section Sizes

variable (db : Db) (repo : Nat)

theorem storedBytes_putObject_le (o : ObjectRow) :
    (db.putObject o).storedBytes repo ≤ db.storedBytes repo + o.size := by
  rw [Db.putObject]
  split
  · exact Nat.le_add_right _ _
  · rw [Db.storedBytes, Db.storedBytes, List.filter_append, List.map_append, List.sum_append]
    refine Nat.add_le_add_left ?_ _
    rw [List.filter_cons]
    split
    · exact (Nat.add_zero _).le
    · exact Nat.zero_le _

theorem storedBytes_putObjects_le (objs : List ObjectRow) :
    (db.putObjects objs).storedBytes repo ≤ db.storedBytes repo +
      (objs.map ObjectRow.size).sum := by
  induction objs generalizing db with
  | nil => exact Nat.le_refl _
  | cons o objs ih =>
    rw [List.map_cons, List.sum_cons]
    calc ((db.putObject o).putObjects objs).storedBytes repo
      _ ≤ (db.putObject o).storedBytes repo + (objs.map ObjectRow.size).sum := ih _
      _ ≤ db.storedBytes repo + o.size + (objs.map ObjectRow.size).sum :=
        Nat.add_le_add_right (storedBytes_putObject_le db repo o) _
      _ = db.storedBytes repo + (o.size + (objs.map ObjectRow.size).sum) := Nat.add_assoc _ _ _

end Sizes

section Commits

/-- Where a `Commit` is; `measured` has the size it read. -/
inductive CommitStage
  | begun
  | measured (size : Nat)
  | ended (error : Option Str)
  deriving DecidableEq

structure Committing where
  push : Push
  stage : CommitStage
  deriving DecidableEq

structure Commits where
  db : Db
  commits : List Committing
  deriving DecidableEq

inductive CommitEvent
  | begin (p : Push)
  | measure (i : Nat) (fault : Bool)
  | index (i : Nat) (fault : Bool)
  deriving DecidableEq

variable (G : GoGit) (L : Limits) (repo : Repo)

def Commits.measure (w : Commits) (i : Nat) (c : Committing) (fault : Bool) : Commits :=
  match c.push.measure G L w.db fault with
  | .ok _ => { w with commits := w.commits.set i ⟨c.push, .measured (w.db.storedBytes repo.id)⟩ }
  | .error text => { w with commits := w.commits.set i ⟨c.push, .ended (some text)⟩ }

def Commits.index (w : Commits) (i : Nat) (c : Committing) (fault : Bool) : Commits :=
  match c.push.index G L w.db fault with
  | .ok db => ⟨db, w.commits.set i ⟨c.push, .ended none⟩⟩
  | .error text => { w with commits := w.commits.set i ⟨c.push, .ended (some text)⟩ }

/-- One step of one commit to `repo`. -/
def Commits.next (w : Commits) : CommitEvent → Option Commits
  | .begin p =>
    if p.repo = repo then some { w with commits := w.commits ++ [⟨p, .begun⟩] } else none
  | .measure i fault => match w.commits[i]? with
    | some ⟨p, .begun⟩ => some (w.measure G L repo i ⟨p, .begun⟩ fault)
    | _ => none
  | .index i fault => match w.commits[i]? with
    | some ⟨p, .measured size⟩ => some (w.index G L i ⟨p, .measured size⟩ fault)
    | _ => none

/-- A commit that begins to index finds the repository at the size it read. -/
def Unmoved (w : Commits) : CommitEvent → Prop
  | .index i _ => ∀ p size, w.commits[i]? = some ⟨p, .measured size⟩ →
    w.db.storedBytes repo.id = size
  | _ => True

instance (w : Commits) (e : CommitEvent) : Decidable (Unmoved repo w e) :=
  match e with
  | .index i _ => match h : w.commits[i]? with
    | some ⟨p, .measured size⟩ =>
      decidable_of_iff (w.db.storedBytes repo.id = size) (by simp [Unmoved, h])
    | some ⟨p, .begun⟩ | some ⟨p, .ended _⟩ | none => .isTrue (by simp [Unmoved, h])
  | .begin _ | .measure _ _ => .isTrue trivial

/-- The repository is within its cap, and so is what each commit measured, its objects beside it. -/
structure WithinCap (w : Commits) : Prop where
  db : w.db.storedBytes repo.id ≤ repo.cap L
  repos : ∀ c ∈ w.commits, c.push.repo = repo
  measured : ∀ c ∈ w.commits, ∀ size, c.stage = .measured size →
    size + c.push.freshBytes G ≤ repo.cap L

variable {G L repo} {w w' : Commits}

theorem WithinCap.set (h : WithinCap G L repo w) {i : Nat} {c : Committing}
    (hi : w.commits[i]? = some c) (stage : CommitStage)
    (hstage : ∀ size, stage = .measured size → size + c.push.freshBytes G ≤ repo.cap L) :
    WithinCap G L repo { w with commits := w.commits.set i ⟨c.push, stage⟩ } := by
  have hc := List.mem_of_getElem? hi
  refine ⟨h.db, fun d hd => ?_, fun d hd size hsize => ?_⟩
  · rcases List.mem_or_eq_of_mem_set hd with hd | rfl
    · exact h.repos d hd
    · exact h.repos c hc
  · rcases List.mem_or_eq_of_mem_set hd with hd | rfl
    · exact h.measured d hd size hsize
    · exact hstage size hsize

theorem measure_ok (hcap : 0 < repo.cap L) {db : Db} {p : Push} (hp : p.repo = repo) {fault : Bool}
    {u : Unit} (h : p.measure G L db fault = .ok u) :
      db.storedBytes repo.id + p.freshBytes G ≤ repo.cap L := by
  rw [Push.measure, hp] at h
  split at h
  · cases h
  split at h
  · cases h
  next hfits =>
  exact Nat.not_lt.mp fun hlt => hfits ⟨hcap, hlt⟩

theorem index_ok {db db' : Db} {p : Push} {fault : Bool} (h : p.index G L db fault = .ok db') :
    db' = db.putObjects (p.rows G) := by
  rw [Push.index] at h
  split at h
  · cases h
  split at h
  · cases h
  cases h
  rfl

theorem WithinCap.measure (hcap : 0 < repo.cap L) (h : WithinCap G L repo w) {i : Nat}
    {c : Committing} (hi : w.commits[i]? = some c) (fault : Bool) :
      WithinCap G L repo (w.measure G L repo i c fault) := by
  rw [Commits.measure]
  split
  · next hok =>
    refine h.set hi _ fun size hsize => ?_
    cases hsize
    exact measure_ok hcap (h.repos c (List.mem_of_getElem? hi)) hok
  · exact h.set hi _ fun size hsize => by cases hsize

theorem WithinCap.index (h : WithinCap G L repo w) {i : Nat} {p : Push} {size : Nat}
    (hi : w.commits[i]? = some ⟨p, .measured size⟩) (hsize : w.db.storedBytes repo.id = size)
    (fault : Bool) :
    WithinCap G L repo (w.index G L i ⟨p, .measured size⟩ fault) := by
  rw [Commits.index]
  split
  · next db' hok =>
    have hset := h.set hi (.ended none) fun size hsize => by cases hsize
    refine ⟨?_, hset.repos, hset.measured⟩
    rw [index_ok hok]
    calc (w.db.putObjects (p.rows G)).storedBytes repo.id
      _ ≤ w.db.storedBytes repo.id + p.freshBytes G := storedBytes_putObjects_le _ _ _
      _ = size + p.freshBytes G := by rw [hsize]
      _ ≤ repo.cap L := h.measured _ (List.mem_of_getElem? hi) size rfl
  · exact h.set hi _ fun size hsize => by cases hsize

theorem WithinCap.next (hcap : 0 < repo.cap L) (h : WithinCap G L repo w) {e : CommitEvent}
    (he : Unmoved repo w e) (hnext : w.next G L repo e = some w') : WithinCap G L repo w' := by
  cases e with
  | begin p =>
    rw [Commits.next] at hnext
    split at hnext
    · next hp =>
      cases hnext
      refine ⟨h.db, fun c hc => ?_, fun c hc size hsize => ?_⟩
      · rcases List.mem_append.mp hc with hc | hc
        · exact h.repos c hc
        · exact List.mem_singleton.mp hc ▸ hp
      · rcases List.mem_append.mp hc with hc | hc
        · exact h.measured c hc size hsize
        · rw [List.mem_singleton.mp hc] at hsize
          cases hsize
    · cases hnext
  | measure i fault =>
    rw [Commits.next] at hnext
    split at hnext
    · next p hi =>
      cases hnext
      exact h.measure hcap hi fault
    · cases hnext
  | index i fault =>
    rw [Commits.next] at hnext
    split at hnext
    · next p size hi =>
      cases hnext
      exact h.index hi (he p size hi) fault
    · cases hnext

/-- Where no commit begins to index behind another's back, the repository stays within its cap. -/
theorem storedBytes_le_cap (G : GoGit) (L : Limits) (repo : Repo) (hcap : 0 < repo.cap L) (db : Db)
    (hdb : db.storedBytes repo.id ≤ repo.cap L) (es : List CommitEvent)
    (hsteps : Along (Commits.next G L repo) (Unmoved repo) ⟨db, []⟩ es) (w : Commits)
    (hrun : es.foldlM (Commits.next G L repo) ⟨db, []⟩ = some w) :
      w.db.storedBytes repo.id ≤ repo.cap L := by
  have hstart : WithinCap G L repo ⟨db, []⟩ := ⟨hdb, List.forall_mem_nil _, List.forall_mem_nil _⟩
  have hstep : ∀ s e s', WithinCap G L repo s → Unmoved repo s e → s.next G L repo e = some s' →
      WithinCap G L repo s' := fun s e s' h he hnext => h.next hcap he hnext
  exact (hsteps.ends hstep hstart hrun).db

section Sample

/-- A cap of 500 bytes. -/
def smallRepo : Repo :=
  ⟨0, "acme".toList, "site".toList, .stack, .text, "refs/heads/main".toList, ⟨0, 500, 0⟩⟩

/-- A push that brings a blob of two bytes, its tree and its commit. -/
def bringing (objs : List Oid) : Push :=
  { openPush smallRepo "p1" "c1" [] true with staged := objs, reachable := objs, phase := .walked }

def emptyDb : Db :=
  ⟨[smallRepo], [], [], [], 1⟩

def noCaps : Limits :=
  ⟨0, 0, 0, 0, true⟩

/-- The second push is refused: 402 bytes are there. -/
def oneByOne : List CommitEvent :=
  [.begin (bringing [1, 2, 3]), .begin (bringing [4, 5, 6]), .measure 0 false, .index 0 false,
    .measure 1 false]

theorem storedBytes_oneByOne :
    ∃ w, oneByOne.foldlM (Commits.next sampleGit noCaps smallRepo) ⟨emptyDb, []⟩ = some w ∧
      w.db.storedBytes smallRepo.id = 402 ∧
      w.db.storedBytes smallRepo.id ≤ smallRepo.cap noCaps := by
  have hrun : (oneByOne.foldlM (Commits.next sampleGit noCaps smallRepo) ⟨emptyDb, []⟩).map
      (fun w => w.db.storedBytes smallRepo.id) = some 402 := by decide
  obtain ⟨w, hw, hbytes⟩ := Option.map_eq_some_iff.mp hrun
  exact ⟨w, hw, hbytes, storedBytes_le_cap sampleGit noCaps smallRepo (by decide) emptyDb
    (by decide) oneByOne
    (by decide) w hw⟩

def together : List CommitEvent :=
  [.begin (bringing [1, 2, 3]), .begin (bringing [4, 5, 6]), .measure 0 false, .measure 1 false,
    .index 0 false,
    .index 1 false]

theorem not_storedBytes_le_cap_together :
    ¬∀ (G : GoGit) (L : Limits) (repo : Repo) (db : Db) (es : List CommitEvent) (w : Commits),
      0 < repo.cap L →
      db.storedBytes repo.id ≤ repo.cap L → es.foldlM (Commits.next G L repo) ⟨db, []⟩ = some w →
        w.db.storedBytes repo.id ≤ repo.cap L := by
  intro h
  have hrun : (together.foldlM (Commits.next sampleGit noCaps smallRepo) ⟨emptyDb, []⟩).map
      (fun w => w.db.storedBytes smallRepo.id) = some 804 := by decide
  obtain ⟨w, hw, hbytes⟩ := Option.map_eq_some_iff.mp hrun
  have hle := h sampleGit noCaps smallRepo emptyDb together w (by decide) (by decide) hw
  rw [hbytes] at hle
  exact absurd hle (by decide)

end Sample

end Commits

end ThanksComputer.Git
