import Mathlib.Data.List.Sort
import ThanksComputer.Lib.Runs
import ThanksComputer.Net.Text

/-! The versions of a stack and their files (`admin/stacks.go`): drafts, edits and activations, one
transaction a step.  The status check of a patch or a delete is a step of its own. -/

namespace ThanksComputer.Admin

open Net Lib.Runs

section Rows

/-- What the handlers hash with, and whether the engine's `LIKE` is blind to case. -/
structure Engine where
  sha256Hex : Str → Str
  manifest : List (Str × Str) → Str
  nocase : Bool

/-- A row of `stack_files`. -/
structure File where
  path : Str
  content : Str
  hash : Str
  deriving DecidableEq

inductive Status
  | draft
  | superseded
  | revoked
  deriving DecidableEq

/-- A row of `stack_versions`, with its files. -/
structure Version where
  id : Nat
  number : Nat
  status : Status
  files : List File
  manifest : Str
  activated : Bool
  deriving DecidableEq

variable (E : Engine)

def File.digest (f : File) : Str :=
  if f.hash = [] then E.sha256Hex f.content else f.hash

def computeManifestHash (files : List (Str × Str)) : Str :=
  E.manifest (files.insertionSort fun a b => textLe a.1 b.1)

def Version.hashes (v : Version) : List (Str × Str) :=
  v.files.map fun f => (f.path, f.digest E)

/-- `recomputeManifestHash`. -/
def Version.recompute (v : Version) : Version :=
  { v with manifest := computeManifestHash E (v.hashes E) }

def packDirs : List Str :=
  ["VECTORS/", "KV/", "BLOBS/", "CALENDARS/", "CONTACTS/"].map String.toList

/-- `path LIKE 'VECTORS/%' OR …`. -/
def isPack (path : Str) : Bool :=
  packDirs.any fun dir =>
    if E.nocase then (path.take dir.length).map Char.toLower == dir.map Char.toLower
      else dir.isPrefixOf path

end Rows

section Edits

/-- A file of a put: bytes, or the hash of bytes in the content store. -/
structure PutFile where
  path : Str
  content : Str
  cas : Option Str
  deriving DecidableEq

inductive Manage
  | code
  | data
  | all
  deriving DecidableEq

/-- A patch with its new content, or a delete. -/
structure Mutation where
  path : Str
  baseHash : Str
  content : Option Str
  deriving DecidableEq

variable (E : Engine)

/-- `filecas.ShardKey`. -/
def isHash (h : Str) : Bool :=
  h.length == 64 && h.all fun c => decide ('0' ≤ c ∧ c ≤ '9' ∨ 'a' ≤ c ∧ c ≤ 'f')

/-- What a put stores. -/
def PutFile.row (f : PutFile) : File :=
  match f.cas with
  | none => ⟨f.path, f.content, E.sha256Hex f.content⟩
  | some h => ⟨f.path, [], h⟩

/-- The checks of a put on its files: no path twice, and hashes that are some. -/
def putOk (files : List PutFile) : Bool :=
  decide (files.map (·.path)).Nodup && files.all fun f => f.cas.all isHash

def kept (manage : Manage) (files : List File) : List File :=
  match manage with
  | .code => files.filter fun f => isPack E f.path
  | .data => files.filter fun f => !isPack E f.path
  | .all => []

/-- The transaction of `handlePutDraftFiles`; a path that is there already is a unique violation. -/
def Version.put (v : Version) (manage : Manage) (files : List PutFile) : Option Version :=
  if v.status = .draft ∧ putOk files then
    let old := kept E manage v.files
    let new := files.map (PutFile.row E)
    if old.any fun f => new.any (·.path == f.path) then none
    else
      some { v with
        files := old ++ new
        manifest := computeManifestHash E (new.map fun f => (f.path, f.hash)) }
  else none

/-- The transaction of `handlePatchDraftFile`, and of `handleDeleteDraftFile`. -/
def Version.mutate (v : Version) (m : Mutation) : Option Version :=
  match v.files.find? (·.path == m.path), m.content with
  | none, none => none
  | none, some content =>
    if m.baseHash ≠ [] then none
    else some
      (Version.recompute E { v with files := v.files ++ [⟨m.path, content, E.sha256Hex content⟩] })
  | some f, some content =>
    if m.baseHash = [] ∨ m.baseHash ≠ f.digest E then none
    else
      some (Version.recompute E { v with
        files := v.files.map fun g => if g.path = m.path then ⟨m.path, content, E.sha256Hex content⟩
          else g })
  | some f, none =>
    if m.baseHash ≠ f.digest E then none
    else some (Version.recompute E { v with files := v.files.filter (·.path != m.path) })

end Edits

section Runs

/-- The stack, and the patches and deletes past their status check. -/
structure World where
  active : Option Nat
  versions : List Version
  pending : List (Nat × Mutation)
  minted : Nat
  deriving DecidableEq

/-- A version from before the hashes were kept. -/
structure Backfilled where
  files : List (Str × Str)
  nodup : (files.map Prod.fst).Nodup

def Backfilled.version (b : Backfilled) (i : Nat) : Version :=
  ⟨i, i + 1, .superseded, b.files.map fun f => ⟨f.1, f.2, []⟩, [], true⟩

def World.start (old : List Backfilled) (active : Option Nat) : World :=
  ⟨active, old.zipIdx.map fun b => b.1.version b.2, [], old.length⟩

/-- A draft is made from the active version or from a numbered one. -/
inductive Event
  | draft (source : Option Nat)
  | put (n : Nat) (manage : Manage) (files : List PutFile)
  | check (n : Nat) (m : Mutation)
  | commit (i : Nat)
  | drop (i : Nat)
  | activate (n : Nat) (expected : Option Nat)
  | diff (n₁ n₂ : Nat)
  deriving DecidableEq

variable (E : Engine) (w : World)

def World.lookupVersion (n : Nat) : Option Version :=
  w.versions.find? (·.number == n)

def World.byId (id : Nat) : Option Version :=
  w.versions.find? (·.id == id)

/-- A row of `stack_versions` is written, the one with this id. -/
def World.write (v : Version) : World :=
  { w with versions := w.versions.map fun u => if u.id = v.id then v else u }

/-- `handleCreateDraft`, for a source that exists. -/
def World.createDraft (source : Option Version) : World :=
  let number := (w.versions.map (·.number)).foldr max 0 + 1
  { w with
    versions :=
      w.versions ++ [⟨w.minted, number, .draft, (source.map (·.files)).getD [], [], false⟩]
    minted := w.minted + 1 }

def World.activeNumber : Nat :=
  ((w.active.bind w.byId).map (·.number)).getD 0

/-- One step; a refused request is no step. -/
def World.next : Event → Option World
  | .draft none => some (w.createDraft (w.active.bind w.byId))
  | .draft (some n) => (w.lookupVersion n).map fun v => w.createDraft (some v)
  | .put n manage files =>
    (w.lookupVersion n).bind fun v => (v.put E manage files).map w.write
  | .check n m =>
    (w.lookupVersion n).bind fun v =>
      if v.status = .draft ∧ (m.content.isSome ∨ m.baseHash ≠ []) then
        some { w with pending := w.pending ++ [(v.id, m)] }
      else none
  | .commit i =>
    w.pending[i]?.bind fun p => (w.byId p.1).bind fun v => (v.mutate E p.2).map fun v =>
      { w.write v with pending := w.pending.eraseIdx i }
  | .drop i => some { w with pending := w.pending.eraseIdx i }
  | .activate n expected =>
    (w.lookupVersion n).bind fun v =>
      if v.status = .revoked ∨ expected.any (· != w.activeNumber) then none
      else some { w.write { v with status := .superseded, activated := true } with
        active := some v.id }
  | .diff _ _ => some w

variable {E w} {w' : World}

inductive Rewrites (E : Engine) (w : World) : Event → Version → Version → Prop
  | put {n : Nat} {manage : Manage} {files : List PutFile} {v v' : Version}
    (found : w.lookupVersion n = some v) (draft : v.status = .draft)
    (h : v.put E manage files = some v') : Rewrites E w (.put n manage files) v v'
  | mutate {i : Nat} {p : Nat × Mutation} {v v' : Version} (pending : w.pending[i]? = some p)
    (found : w.byId p.1 = some v) (h : v.mutate E p.2 = some v') : Rewrites E w (.commit i) v v'
  | activate {n : Nat} {expected : Option Nat} (v : Version) :
    Rewrites E w (.activate n expected) v { v with status := .superseded, activated := true }

/-- A version that a step adds: a draft without a digest, with the files of another or none. -/
structure World.Adds (w : World) (v : Version) : Prop where
  id : v.id = w.minted
  status : v.status = .draft
  activated : v.activated = false
  manifest : v.manifest = []
  files : v.files = [] ∨ ∃ u ∈ w.versions, v.files = u.files

inductive World.Steps (E : Engine) (w : World) (e : Event) (w' : World) : Prop
  | same (versions : w'.versions = w.versions) (minted : w'.minted = w.minted)
  | adds (v : Version) (h : w.Adds v) (versions : w'.versions = w.versions ++ [v])
    (minted : w'.minted = w.minted + 1)
  | rewrites (v v' : Version) (mem : v ∈ w.versions) (h : Rewrites E w e v v')
    (versions : w'.versions = (w.write v').versions) (minted : w'.minted = w.minted)

theorem World.lookupVersion_mem {n : Nat} {v : Version} (h : w.lookupVersion n = some v) :
    v ∈ w.versions :=
  List.mem_of_find?_eq_some h

theorem World.byId_mem {id : Nat} {v : Version} (h : w.byId id = some v) : v ∈ w.versions :=
  List.mem_of_find?_eq_some h

theorem World.createDraft_steps {e : Event} {source : Option Version}
    (h : ∀ v, source = some v → v ∈ w.versions) :
    w.Steps E e (w.createDraft source) := by
  refine .adds _ ⟨rfl, rfl, rfl, rfl, ?_⟩ rfl rfl
  cases source with
  | none => exact .inl rfl
  | some v => exact .inr ⟨v, h v rfl, rfl⟩

theorem Version.put_some {v v' : Version} {manage : Manage} {files : List PutFile}
    (h : v.put E manage files = some v') :
    v.status = .draft ∧ putOk files = true ∧
      (∀ f ∈ kept E manage v.files, ∀ g ∈ files.map (PutFile.row E), g.path ≠ f.path) ∧
      v' = { v with
        files := kept E manage v.files ++ files.map (PutFile.row E)
        manifest := computeManifestHash E
          ((files.map (PutFile.row E)).map fun f => (f.path, f.hash)) } := by
  simp only [Version.put] at h
  split at h
  · next hok =>
    split at h
    · cases h
    · next hfree =>
      refine ⟨hok.1, hok.2, fun f hf g hg heq => hfree ?_, (Option.some.inj h).symm⟩
      exact List.any_eq_true.mpr ⟨f, hf, List.any_eq_true.mpr ⟨g, hg, beq_iff_eq.mpr heq⟩⟩
  · cases h

theorem World.next_steps {e : Event} (h : w.next E e = some w') : w.Steps E e w' := by
  cases e with
  | draft source =>
    cases source with
    | none =>
      cases h
      refine createDraft_steps fun v hv => ?_
      obtain ⟨id, -, hv⟩ := Option.bind_eq_some_iff.mp hv
      exact byId_mem hv
    | some n =>
      obtain ⟨v, hv, rfl⟩ := Option.map_eq_some_iff.mp h
      exact createDraft_steps fun u hu => Option.some.inj hu ▸ lookupVersion_mem hv
  | put n manage files =>
    obtain ⟨v, hv, h⟩ := Option.bind_eq_some_iff.mp h
    obtain ⟨v', hput, rfl⟩ := Option.map_eq_some_iff.mp h
    exact .rewrites v v' (lookupVersion_mem hv) (.put hv (Version.put_some hput).1 hput) rfl rfl
  | check n m =>
    obtain ⟨v, -, h⟩ := Option.bind_eq_some_iff.mp h
    split at h
    · cases h
      exact .same rfl rfl
    · cases h
  | commit i =>
    obtain ⟨p, hp, h⟩ := Option.bind_eq_some_iff.mp h
    obtain ⟨v, hv, h⟩ := Option.bind_eq_some_iff.mp h
    obtain ⟨v', hmutate, rfl⟩ := Option.map_eq_some_iff.mp h
    exact .rewrites v v' (byId_mem hv) (.mutate hp hv hmutate) rfl rfl
  | drop i =>
    cases h
    exact .same rfl rfl
  | activate n expected =>
    obtain ⟨v, hv, h⟩ := Option.bind_eq_some_iff.mp h
    split at h
    · cases h
    · cases h
      exact .rewrites v _ (lookupVersion_mem hv) (.activate v) rfl rfl
  | diff n₁ n₂ =>
    cases h
    exact .same rfl rfl

theorem Version.put_id {v v' : Version} {manage : Manage} {files : List PutFile}
    (h : v.put E manage files = some v') :
    v'.id = v.id ∧ v'.activated = v.activated ∧ v'.status = v.status := by
  obtain ⟨-, -, -, rfl⟩ := Version.put_some h
  exact ⟨rfl, rfl, rfl⟩

theorem Version.mutate_id {v v' : Version} {m : Mutation} (h : v.mutate E m = some v') :
    v'.id = v.id ∧ v'.activated = v.activated ∧ v'.status = v.status := by
  unfold Version.mutate at h
  split at h
  · cases h
  all_goals
    split at h
    · cases h
    · cases h
      exact ⟨rfl, rfl, rfl⟩

theorem Rewrites.id {e : Event} {v v' : Version} (h : Rewrites E w e v v') : v'.id = v.id := by
  cases h with
  | put _ _ h => exact (Version.put_id h).1
  | mutate _ _ h => exact (Version.mutate_id h).1
  | activate => rfl

structure World.Inv (w : World) : Prop where
  ids : ∀ v ∈ w.versions, v.id < w.minted
  nodup : (w.versions.map (·.id)).Nodup
  draft : ∀ v ∈ w.versions, v.status = .draft → v.activated = false

theorem World.mem_write {v u : Version} : u ∈ (w.write v).versions ↔
    ∃ u₀ ∈ w.versions, (if u₀.id = v.id then v else u₀) = u :=
  List.mem_map

theorem World.map_write_id {v : Version} :
    (w.write v).versions.map (·.id) = w.versions.map (·.id) := by
  simp only [World.write, List.map_map]
  refine List.map_congr_left fun u _ => ?_
  simp only [Function.comp]
  split
  · next h => exact h.symm
  · rfl

theorem World.Inv.next (h : w.Inv) {e : Event} (hnext : w.next E e = some w') : w'.Inv := by
  cases next_steps hnext with
  | same hversions hminted =>
    refine ⟨?_, ?_, ?_⟩
    · rw [hversions, hminted]
      exact h.ids
    · rw [hversions]
      exact h.nodup
    · rw [hversions]
      exact h.draft
  | adds v hadds hversions hminted =>
    refine ⟨?_, ?_, ?_⟩
    · rw [hversions, hminted]
      intro u hu
      rcases List.mem_append.mp hu with hu | hu
      · exact Nat.lt_succ_of_lt (h.ids u hu)
      · rw [List.mem_singleton.mp hu, hadds.id]
        exact Nat.lt_succ_self _
    · rw [hversions, List.map_append, List.nodup_append]
      refine ⟨h.nodup, List.nodup_singleton _, fun id hid id' hid' => ?_⟩
      obtain ⟨u, hu, rfl⟩ := List.mem_map.mp hid
      rw [List.mem_singleton.mp hid']
      simp only [hadds.id]
      exact Nat.ne_of_lt (h.ids u hu)
    · rw [hversions]
      intro u hu hdraft
      rcases List.mem_append.mp hu with hu | hu
      · exact h.draft u hu hdraft
      · rw [List.mem_singleton.mp hu]
        exact hadds.activated
  | rewrites v v' hmem hrewrites hversions hminted =>
    have hid : ∀ u ∈ w'.versions, u ∈ w.versions ∨ u = v' := by
      rw [hversions]
      intro u hu
      obtain ⟨u₀, hu₀, rfl⟩ := mem_write.mp hu
      split
      · exact .inr rfl
      · exact .inl hu₀
    refine ⟨fun u hu => ?_, ?_, fun u hu hdraft => ?_⟩
    · rw [hminted]
      rcases hid u hu with hu | rfl
      · exact h.ids u hu
      · rw [hrewrites.id]
        exact h.ids v hmem
    · rw [hversions, map_write_id]
      exact h.nodup
    · rcases hid u hu with hu | rfl
      · exact h.draft u hu hdraft
      · cases hrewrites with
        | put _ _ hput =>
          have hsame := Version.put_id hput
          rw [hsame.2.1]
          exact h.draft v hmem (hsame.2.2 ▸ hdraft)
        | mutate _ _ hmutate =>
          have hsame := Version.mutate_id hmutate
          rw [hsame.2.1]
          exact h.draft v hmem (hsame.2.2 ▸ hdraft)
        | activate => cases hdraft

theorem World.start_inv (old : List Backfilled) (active : Option Nat) :
    (World.start old active).Inv := by
  have hids : (World.start old active).versions.map (·.id) = List.range' 0 old.length := by
    rw [World.start, List.map_map, ← List.zipIdx_map_snd 0 old]
    rfl
  refine ⟨fun v hv => ?_, ?_, fun v hv hdraft => ?_⟩
  · have hmem := List.mem_map_of_mem (f := (·.id)) hv
    rw [hids, List.mem_range'_1] at hmem
    have hlt := hmem.2
    rwa [Nat.zero_add] at hlt
  · rw [hids]
    exact List.nodup_range'
  · obtain ⟨b, -, rfl⟩ := List.mem_map.mp hv
    cases hdraft

end Runs

end ThanksComputer.Admin
