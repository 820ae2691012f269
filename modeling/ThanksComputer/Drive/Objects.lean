import Mathlib.Logic.Function.Basic
import ThanksComputer.Drive.Index

/-! The two stores of a drive (drive/resources.go, drive/objects.go, drive/sweep.go): the steps in
which puts and copies store their objects and commit their rows, and in which a sweep reclaims what
no row has.  Each object write, object deletion, query and transaction is one step; other calls on
the index and the clock may come between any two. -/

namespace ThanksComputer.Drive

section ObjectStore

/-- What an object store knows of an object; no time is the zero time. -/
structure Object where
  key : String
  modTime : Option Int
  deriving DecidableEq

def statObject (objects : List Object) (key : String) : Option Object :=
  objects.find? fun o => o.key == key

def deleteObject (objects : List Object) (key : String) : List Object :=
  objects.filter fun o => o.key != key

end ObjectStore

section Jobs

structure Putting where
  collID : String
  path : Path
  size : Int
  opts : WriteOpts

/-- One duplicated row of a copy: `rowID` and `srcKey` are the source's. -/
structure Copied where
  rowID : String
  srcKey : Option String
  newID : String
  newKey : Option String

/-- A copy past its snapshot: the rows it has still to duplicate, and those it has, the latest
first. -/
structure Copying where
  srcID : String
  source : Path
  collID : String
  target : Path
  overwrite : Bool
  todo : List Resource
  copies : List Copied

def Copying.newKeys (c : Copying) : List String :=
  c.copies.filterMap Copied.newKey

/-- `copies[r.ResourceID]` -/
def Copying.copyOf (c : Copying) (rowID : String) : Option Copied :=
  c.copies.find? fun cp => cp.rowID == rowID

/-- The row has a duplicate, and its bytes are the row's. -/
def Copying.has (c : Copying) (r : Resource) : Bool :=
  (c.copyOf r.resourceID).any fun cp => cp.srcKey == r.objectKey

def Copying.names (c : Copying) (rowID : String) : String × String :=
  match c.copyOf rowID with
  | some cp => (cp.newID, cp.newKey.getD "")
  | none => ("", "")

/-- What a caller is in the middle of. -/
inductive Job
  | idle
  /-- a put that has not stored its body -/
  | put (p : Putting)
  /-- a put between its body and its row -/
  | stored (p : Putting) (up : Upload)
  | copy (c : Copying)
  /-- the objects of a put or a copy that came to nothing -/
  | discard (keys : List String)
  /-- a sweep before it purges resources, and then collections: the retention and the grace
  cutoff -/
  | purge (retention grace : Int)
  | purgeCollections (retention grace : Int)
  /-- a sweep between two objects: the grace cutoff -/
  | walk (grace : Int)
  /-- a sweep that found an object not younger than its cutoff -/
  | lookup (grace : Int) (key : String)
  /-- a sweep that found no live row of the object -/
  | reclaim (grace : Int) (key : String)

/-- The objects a job has stored and no row has yet. -/
def Job.holds : Job → List String
  | .stored _ up => [up.key]
  | .copy c => c.newKeys
  | _ => []

def Job.dooms : Job → List String
  | .discard keys => keys
  | .reclaim _ key => [key]
  | _ => []

inductive Action
  | startPut (collID : String) (p : Option Path) (size : Int) (opts : WriteOpts)
  | startCopy (srcID : String) (source : Option Path) (collID : String) (target : Option Path)
      (overwrite : Bool)
  | startSweep (grace tombstoneRetention : Int)
  /-- store the body of a put, under a new key -/
  | store (body : Body) (newID key : String)
  /-- duplicate a row of a copy, by a hard link or byte by byte -/
  | dup (newID key : String) (linked : Bool)
  | commit (now : Int)
  | list (key : String)
  | query
  | delete
  /-- an error of either store -/
  | fail
  | crash

end Jobs

section Steps

/-- `timed` tells whether the object store keeps the time of a write. -/
structure Setup extends Config where
  timed : Bool

/-- What the callers share; `given` are the keys ever drawn, and a drawn key is new. -/
structure Shared where
  clock : Int
  index : Index
  objects : List Object
  given : List String

def Shared.putObject (sh : Shared) (key : String) (modTime : Option Int) : Shared :=
  { sh with objects := sh.objects ++ [⟨key, modTime⟩], given := key :: sh.given }

def Shared.stamp (cfg : Setup) (sh : Shared) : Option Int :=
  if cfg.timed then some sh.clock else none

/-- A body that is not as declared is stored and then discarded. -/
def Shared.store (cfg : Setup) (sh : Shared) (p : Putting) (body : Body) (newID key : String) :
    Shared × Job :=
  match putBody cfg.limits p.size body with
  | .ok size => (sh.putObject key (sh.stamp cfg), .stored p ⟨newID, key, size, body.etag⟩)
  | .error _ => (sh.putObject key (sh.stamp cfg), .discard [key])

def Shared.commitPut (cfg : Setup) (sh : Shared) (p : Putting) (up : Upload) : Shared × Job :=
  match sh.index.putCommit cfg.limits p.collID p.path p.opts up with
  | .ok db =>
    if (sh.index.getResource p.collID p.path).any fun r =>
      r.etag == up.etag && r.size == up.size then
      (sh, .discard [up.key])
    else ({ sh with index := db }, .idle)
  | .error _ => (sh, .discard [up.key])

/-- `dup`: a hard link has the time of what it links to. -/
def Shared.dup (cfg : Setup) (sh : Shared) (c : Copying) (r : Resource) (todo : List Resource)
    (newID key : String) (linked : Bool) : Shared × Job :=
  match r.kind with
  | .dir =>
    (sh, .copy
      { c with todo := todo, copies := ⟨r.resourceID, r.objectKey, newID, none⟩ :: c.copies })
  | .file =>
    match r.objectKey.bind (statObject sh.objects) with
    | none => (sh, .discard c.newKeys)
    | some o =>
      (sh.putObject key (if linked then o.modTime else sh.stamp cfg),
        .copy
          { c with
            todo := todo
            copies := ⟨r.resourceID, r.objectKey, newID, some key⟩ :: c.copies })

/-- The transaction of a copy: rows that have changed since are duplicated again first. -/
def Shared.commitCopy (cfg : Setup) (sh : Shared) (c : Copying) (now : Int) : Shared × Job :=
  match sh.index.copySource c.srcID c.source with
  | .error _ => (sh, .discard c.newKeys)
  | .ok rows =>
    if rows.all c.has then
      match sh.index.copyCommit cfg.limits c.srcID c.source c.collID c.target c.overwrite
        c.names now with
      | .ok db => ({ sh with index := db }, .idle)
      | .error _ => (sh, .discard c.newKeys)
    else (sh, .copy { c with todo := rows.filter fun r => !c.has r })

def Index.purgeResources (db : Index) (cutoff : Int) : Index :=
  { db with resources := db.resources.filter fun r => !r.deletedAt.any (· < cutoff) }

def Index.purgeCollections (db : Index) (cutoff : Int) : Index :=
  { db with collections := db.collections.filter fun c => !c.deletedAt.any (· < cutoff) }

/-- `SELECT 1 FROM drive_resources WHERE object_key = ? AND deleted_at IS NULL` -/
def Index.references (db : Index) (key : String) : Bool :=
  db.resources.any fun r => r.live && r.objectKey == some key

/-- An error ends a put or a copy, and a sweep before its walk; it only skips an object. -/
def Job.fail : Job → Job
  | .stored _ up => .discard [up.key]
  | .copy c => .discard c.newKeys
  | .discard keys => .discard keys.tail
  | .lookup grace _ => .walk grace
  | .reclaim grace _ => .walk grace
  | _ => .idle

/-- One step of a job. -/
def Shared.act (cfg : Setup) (sh : Shared) : Job → Action → Option (Shared × Job)
  | .idle, .startPut collID p size opts =>
    match sh.index.putPrepare cfg.nfc cfg.limits collID p size opts with
    | .ok q => some (sh, .put ⟨collID, q, size, opts⟩)
    | .error _ => some (sh, .idle)
  | .idle, .startCopy srcID source collID target overwrite =>
    match sh.index.copyPrepare cfg.nfc srcID source collID target with
    | .ok (s, t, snapshot) => some (sh, .copy ⟨srcID, s, collID, t, overwrite, snapshot, []⟩)
    | .error _ => some (sh, .idle)
  | .idle, .startSweep grace retention =>
    if 0 < retention then some (sh, .purge (sh.clock - retention) (sh.clock - grace))
    else some (sh, .walk (sh.clock - grace))
  | .put p, .store body newID key =>
    if key ∈ sh.given then none else some (sh.store cfg p body newID key)
  | .stored p up, .commit _ => some (sh.commitPut cfg p up)
  | .copy c, .dup newID key linked =>
    match c.todo with
    | [] => none
    | r :: todo => if key ∈ sh.given then none else some (sh.dup cfg c r todo newID key linked)
  | .copy c, .commit now => if c.todo = [] then some (sh.commitCopy cfg c now) else none
  | .discard (key :: keys), .delete =>
    some ({ sh with objects := deleteObject sh.objects key }, .discard keys)
  | .discard [], .delete => some (sh, .idle)
  | .purge retention grace, .commit _ =>
    some ({ sh with index := sh.index.purgeResources retention }, .purgeCollections retention grace)
  | .purgeCollections retention grace, .commit _ =>
    some ({ sh with index := sh.index.purgeCollections retention }, .walk grace)
  | .walk grace, .list key =>
    match statObject sh.objects key with
    | none => none
    | some o => some (sh, if o.modTime.any (grace < ·) then .walk grace else .lookup grace key)
  | .lookup grace key, .query =>
    some (sh, if sh.index.references key then .walk grace else .reclaim grace key)
  | .reclaim grace key, .delete =>
    some ({ sh with objects := deleteObject sh.objects key }, .walk grace)
  | job, .fail => some (sh, job.fail)
  | _, .crash => some (sh, .idle)
  | _, _ => none

def Call.rowsOnly : Call → Bool
  | .put .. => false
  | .copyBetween .. => false
  | _ => true

inductive Event
  | tick (d : Nat)
  | call (call : Call)
  | act (i : Nat) (action : Action)

/-- The callers, by number. -/
structure State extends Shared where
  jobs : Nat → Job

def State.next (cfg : Setup) (st : State) : Event → Option State
  | .tick d => some { st with clock := st.clock + d }
  | .call call =>
    if call.rowsOnly then some { st with index := st.index.step cfg.toConfig call } else none
  | .act i action =>
    (st.toShared.act cfg (st.jobs i) action).map fun (sh, job) =>
      ⟨sh, Function.update st.jobs i job⟩

def State.init (clock : Int) : State :=
  ⟨⟨clock, .empty, [], []⟩, fun _ => .idle⟩

/-- The objects of the live files are there. -/
def Backed (st : State) : Prop :=
  ∀ r ∈ st.index.resources, r.live = true → r.kind = .file →
    ∃ o ∈ st.objects, r.objectKey = some o.key

instance (st : State) : Decidable (Backed st) :=
  inferInstanceAs (Decidable (∀ r ∈ _, _))

end Steps

end ThanksComputer.Drive
