import Mathlib.Data.Char
import Mathlib.Data.List.Lex
import ThanksComputer.Drive.Preconditions
import ThanksComputer.Lib.Table

/-! The index of a drive (drive/resources.go, drive/collections.go): its collections, its resources,
and the transactions of each call.  A call that is refused, or that the database aborts, leaves no
trace. -/

namespace ThanksComputer.Drive

open Lib (byteLen)
open Lib.Table

inductive Kind
  | file
  | dir
  deriving DecidableEq

/-- A `drive_resources` row. -/
structure Resource where
  resourceID : String
  collectionID : String
  path : Path
  parentPath : Path
  depth : Int
  kind : Kind
  objectKey : Option String
  size : Nat
  etag : List Char
  modSeq : Nat
  deletedAt : Option Int
  deriving DecidableEq

def Resource.live (r : Resource) : Bool :=
  r.deletedAt.isNone

/-- A `drive_collections` row. -/
structure Collection where
  id : String
  tenant : String
  name : List Char
  syncToken : Nat
  bytesUsed : Int
  resourceCount : Int
  deletedAt : Option Int
  deriving DecidableEq

structure Index where
  collections : List Collection
  resources : List Resource
  deriving DecidableEq

/-- Zero is unlimited. -/
structure Limits where
  maxFileBytes : Nat
  maxCollectionBytes : Nat
  maxResources : Nat

def Resource.liveIn (collID : String) (r : Resource) : Bool :=
  r.collectionID == collID && r.live

section Queries

/-- `getCollectionByID` and `lockCollection`. -/
def Index.lockCollection (db : Index) (id : String) : Except DriveError Collection :=
  match db.collections.find? fun c => c.id == id && c.deletedAt.isNone with
  | some c => .ok c
  | none => .error .notFound

/-- The live row at a path. -/
def Index.getResource (db : Index) (collID : String) (p : Path) : Option Resource :=
  db.resources.find? fun r => r.liveIn collID && r.path == p

def Index.getResourceByID (db : Index) (collID resID : String) : Option Resource :=
  db.resources.find? fun r => r.liveIn collID && r.resourceID == resID

def Index.requireParent (db : Index) (collID : String) (p : Path) : Except DriveError Unit :=
  if parentOf p = [] then .ok ()
  else
    match db.getResource collID (parentOf p) with
    | none => .error .noParent
    | some row => if row.kind = .dir then .ok () else .error .notDirectory

def Index.listQ (db : Index) (collID : String) (p : Path) : List Resource :=
  (db.resources.filter fun r => r.liveIn collID && likeBelow p r.path).mergeSort
    fun r r' => decide (r.path ≤ r'.path)

end Queries

section Statements

def livePathsUnique (rows : List Resource) : Prop :=
  ((rows.filter Resource.live).map fun r => (r.collectionID, r.path)).Nodup

instance (rows : List Resource) : Decidable (livePathsUnique rows) :=
  inferInstanceAs (Decidable (List.Nodup _))

/-- `INSERT INTO drive_resources`. -/
def insertRow (rows : List Resource) (r : Resource) : Except DriveError (List Resource) :=
  if rows.any fun q => q.resourceID == r.resourceID || q.liveIn r.collectionID &&
    q.path == r.path then
    .error .exists
  else .ok (rows ++ [r])

/-- `UPDATE drive_resources`, refused where it would put two live rows at one path. -/
def updateRows (cond : Resource → Bool) (set : Resource → Resource) (rows : List Resource) :
    Except DriveError (List Resource) :=
  if livePathsUnique (update cond set rows) then .ok (update cond set rows) else .error .exists

def Index.advance (db : Index) (c : Collection) : Index :=
  { db with
    collections := update (fun row => row.id == c.id) (fun row =>
      { row with
        syncToken := c.syncToken
        bytesUsed := c.bytesUsed
        resourceCount := c.resourceCount }) db.collections }

/-- The rows `tombstoneSubtree` is about. -/
def inSubtree (collID : String) (p : Path) (kind : Kind) (r : Resource) : Bool :=
  r.liveIn collID && (r.path == p || kind == .dir && likeBelow p r.path)

def Resource.tombstone (token : Nat) (now : Int) (r : Resource) : Resource :=
  { r with deletedAt := some now, modSeq := token }

theorem live_tombstone (token : Nat) (now : Int) (r : Resource) :
    (r.tombstone token now).live = false := rfl

/-- The rows and bytes that are removed, and the rows after. -/
def tombstoneSubtree (rows : List Resource) (collID : String) (p : Path) (kind : Kind) (token : Nat)
    (now : Int) : Nat × Nat × List Resource :=
  let hit := rows.filter (inSubtree collID p kind)
  (hit.length, (hit.map Resource.size).sum,
    update (inSubtree collID p kind) (Resource.tombstone token now) rows)

end Statements

section Calls

variable (nfc : Path → Path)

def normalizeNonRoot (reason : String) (p : Option Path) : Except DriveError Path := do
  let p ← normalizePath nfc p
  if p = [] then throw (.badPath reason)
  return p

/-- The body of a put: how much of it there is, and the hash of its bytes. -/
structure Body where
  length : Nat
  etag : List Char

/-- The conditional headers of a put or a delete. -/
structure WriteOpts where
  ifMatch : List Char
  ifNoneMatch : List Char

/-- The checks of `Put` before its body streams; a negative `size` is an unknown one. -/
def Index.putPrepare (db : Index) (limits : Limits) (collID : String) (p : Option Path) (size : Int)
    (opts : WriteOpts) : Except DriveError Path := do
  let p ← normalizeNonRoot nfc "the root is not a file" p
  if 0 ≤ size ∧ 0 < limits.maxFileBytes ∧ limits.maxFileBytes < size then throw .tooLarge
  if 0 ≤ size ∧ 0 < limits.maxCollectionBytes ∧ limits.maxCollectionBytes < size then throw .quota
  let _ ← db.lockCollection collID
  db.requireParent collID p
  let pre := db.getResource collID p
  if pre.any fun r => r.kind == .dir then throw .isDirectory
  checkPreconditions opts.ifMatch opts.ifNoneMatch pre.isSome (pre.elim [] Resource.etag)
  return p

/-- What is stored of a body: at most one byte past what is allowed is read. -/
def putBody (limits : Limits) (size : Int) (body : Body) : Except DriveError Nat :=
  if 0 ≤ size then
    if (min (body.length : Int) (size + 1)) ≠ size then .error .sizeMismatch else .ok size.toNat
  else if 0 < limits.maxFileBytes ∧ limits.maxFileBytes < body.length then .error .tooLarge
  else .ok body.length

/-- A stored body, on its way to a row: the row's new id, if there is none yet, and the object's
key. -/
structure Upload where
  newID : String
  key : String
  size : Nat
  etag : List Char

/-- The transaction of `Put`; an unchanged body changes nothing. -/
def Index.putCommit (db : Index) (limits : Limits) (collID : String) (p : Path) (opts : WriteOpts)
    (up : Upload) : Except DriveError Index := do
  let c ← db.lockCollection collID
  db.requireParent collID p
  let cur := db.getResource collID p
  if cur.any fun r => r.kind == .dir then throw .isDirectory
  checkPreconditions opts.ifMatch opts.ifNoneMatch cur.isSome (cur.elim [] Resource.etag)
  if cur.any fun r => r.etag == up.etag && r.size == up.size then return db
  let newBytes : Int := c.bytesUsed + up.size - cur.elim 0 Resource.size
  if 0 < limits.maxCollectionBytes ∧ limits.maxCollectionBytes < newBytes then throw .quota
  if cur.isNone ∧ 0 < limits.maxResources ∧
    limits.maxResources < c.resourceCount + 1 then throw .quota
  let c := { c with syncToken := c.syncToken + 1, bytesUsed := newBytes }
  match cur with
  | some cur =>
    let rows := update (fun r => r.resourceID == cur.resourceID) (fun r =>
      { r with objectKey := some up.key, size := up.size, etag := up.etag, modSeq := c.syncToken })
        db.resources
    return { db with resources := rows }.advance c
  | none =>
    let rows ← insertRow db.resources
      ⟨up.newID, collID, p, parentOf p, depthOf p, .file, some up.key, up.size, up.etag,
        c.syncToken, none⟩
    return { db with resources := rows }.advance { c with resourceCount := c.resourceCount + 1 }

def Index.put (db : Index) (limits : Limits) (collID : String) (p : Option Path) (size : Int)
    (body : Body) (opts : WriteOpts) (newID key : String) : Except DriveError Index := do
  let p ← db.putPrepare nfc limits collID p size opts
  let size ← putBody limits size body
  db.putCommit limits collID p opts ⟨newID, key, size, body.etag⟩

def Index.mkdir (db : Index) (limits : Limits) (collID : String) (p : Option Path) (id : String) :
    Except DriveError Index := do
  let p ← normalizeNonRoot nfc "the root already exists" p
  let c ← db.lockCollection collID
  db.requireParent collID p
  if (db.getResource collID p).isSome then throw .exists
  if 0 < limits.maxResources ∧ limits.maxResources < c.resourceCount + 1 then throw .quota
  let c := { c with syncToken := c.syncToken + 1, resourceCount := c.resourceCount + 1 }
  let rows ← insertRow db.resources
    ⟨id, collID, p, parentOf p, depthOf p, .dir, none, 0, [], c.syncToken, none⟩
  return { db with resources := rows }.advance c

def Index.deleteWhere (db : Index) (collID : String) (opts : WriteOpts) (cur : Option Resource)
    (now : Int) : Except DriveError Index := do
  let c ← db.lockCollection collID
  match cur with
  | none => throw .notFound
  | some cur =>
    checkPreconditions opts.ifMatch opts.ifNoneMatch true cur.etag
    let token := c.syncToken + 1
    let (n, bytes, rows) := tombstoneSubtree db.resources collID cur.path cur.kind token now
    return { db with resources := rows }.advance
      { c with
        syncToken := token
        resourceCount := max 0 (c.resourceCount - n)
        bytesUsed := max 0 (c.bytesUsed - bytes) }

def Index.delete (db : Index) (collID : String) (p : Option Path) (opts : WriteOpts) (now : Int) :
    Except DriveError Index := do
  let p ← normalizeNonRoot nfc "the root cannot be deleted" p
  db.deleteWhere collID opts (db.getResource collID p) now

def Index.deleteByID (db : Index) (collID resID : String) (opts : WriteOpts) (now : Int) :
    Except DriveError Index :=
  db.deleteWhere collID opts (db.getResourceByID collID resID) now

def checkMoveCopyPaths (source target : Option Path) : Except DriveError (Path × Path) := do
  let source ← normalizePath nfc source
  let target ← normalizePath nfc target
  if source = [] ∨ target = [] then throw (.badPath "the root cannot be moved or copied")
  if source = target ∨ isInside target source then throw .cycle
  return (source, target)

/-- Whatever is live at the target goes first, if it may. -/
def replaceDestination (db : Index) (c : Collection) (target : Path) (overwrite : Bool)
    (now : Int) :
    Except DriveError (Collection × Index) :=
  match db.getResource c.id target with
  | none => .ok (c, db)
  | some dst =>
    if !overwrite then .error .exists
    else
      let (n, bytes, rows) := tombstoneSubtree db.resources c.id target dst.kind c.syncToken now
      .ok ({ c with resourceCount := c.resourceCount - n, bytesUsed := c.bytesUsed - bytes },
        { db with resources := rows })

/-- `SUBSTR`, which counts characters from one. -/
def substr (p : Path) (n : Nat) : Path :=
  p.drop (n - 1)

/-- The row of a descendant under its new name; `byteLen source` is the length the caller
computes. -/
def Resource.relocate (source target : Path) (token : Nat) (r : Resource) : Resource :=
  { r with
    path := target ++ substr r.path (byteLen source + 1)
    parentPath := target ++ substr r.parentPath (byteLen source + 1)
    depth := r.depth + (depthOf target - depthOf source)
    modSeq := token }

def Resource.placeAt (target : Path) (token : Nat) (r : Resource) : Resource :=
  { r with path := target, parentPath := parentOf target, depth := depthOf target, modSeq := token }

/-- The two updates of a move: those below the source, then the source. -/
def moveRows (rows : List Resource) (collID : String) (src : Resource) (source target : Path)
    (token : Nat) : Except DriveError (List Resource) := do
  let rows ←
    if src.kind = .dir then
      updateRows (fun r => r.liveIn collID && likeBelow source r.path)
        (Resource.relocate source target token) rows
    else pure rows
  updateRows (fun r => r.resourceID == src.resourceID) (Resource.placeAt target token) rows

def Index.move (db : Index) (collID : String) (source target : Option Path) (overwrite : Bool)
    (now : Int) : Except DriveError Index := do
  let (source, target) ← checkMoveCopyPaths nfc source target
  let c ← db.lockCollection collID
  match db.getResource collID source with
  | none => throw .notFound
  | some src =>
    db.requireParent collID target
    let (c, db) ← replaceDestination db { c with syncToken := c.syncToken + 1 } target overwrite now
    let rows ← moveRows db.resources collID src source target c.syncToken
    return { db with resources := rows }.advance c

/-- `p[n:]`, which counts bytes. -/
def dropBytes : Nat → Path → Path
  | 0, p => p
  | _ + 1, [] => []
  | n + 1, c :: p => dropBytes (n + 1 - c.utf8Size) p

/-- The source and target of a copy; between two collections there is no cycle. -/
def copyPaths (srcID collID : String) (source target : Option Path) :
    Except DriveError (Path × Path) := do
  if srcID = collID then checkMoveCopyPaths nfc source target
  else
    let source ← normalizePath nfc source
    let target ← normalizePath nfc target
    if source = [] ∨ target = [] then throw (.badPath "the root cannot be moved or copied")
    return (source, target)

def Index.copySource (db : Index) (srcID : String) (source : Path) :
    Except DriveError (List Resource) :=
  match db.getResource srcID source with
  | none => .error .notFound
  | some src => .ok (src :: if src.kind = .dir then db.listQ srcID source else [])

/-- `copyBetween` before its objects are copied: the paths, and the rows as they are now. -/
def Index.copyPrepare (db : Index) (srcID : String) (source : Option Path) (collID : String)
    (target : Option Path) : Except DriveError (Path × Path × List Resource) := do
  let (source, target) ← copyPaths nfc srcID collID source target
  let coll ← db.lockCollection collID
  if srcID ≠ collID then
    let srcColl ← db.lockCollection srcID
    if srcColl.tenant ≠ coll.tenant then throw .notFound
  let snapshot ← db.copySource srcID source
  db.requireParent collID target
  return (source, target, snapshot)

/-- The row of a copy: `copies` has the new id and the new object of each row. -/
def Resource.copyTo (collID : String) (source target : Path) (token : Nat)
    (copies : String → String × String) (r : Resource) : Resource :=
  let np := target ++ dropBytes (byteLen source) r.path
  ⟨(copies r.resourceID).1, collID, np, parentOf np, depthOf np, r.kind,
    if r.kind = .file then some (copies r.resourceID).2 else none, r.size, r.etag, token, none⟩

/-- The transaction of `copyBetween`. -/
def Index.copyCommit (db : Index) (limits : Limits) (srcID : String) (source : Path)
    (collID : String) (target : Path) (overwrite : Bool) (copies : String → String × String)
    (now : Int) :
    Except DriveError Index := do
  let c ← db.lockCollection collID
  let rows ← db.copySource srcID source
  db.requireParent collID target
  let addCount : Int := rows.length
  let addBytes : Int := (rows.map Resource.size).sum
  if 0 < limits.maxCollectionBytes ∧ limits.maxCollectionBytes < c.bytesUsed + addBytes then
    throw .quota
  if 0 < limits.maxResources ∧ limits.maxResources < c.resourceCount + addCount then throw .quota
  let (c, db) ← replaceDestination db { c with syncToken := c.syncToken + 1 } target overwrite now
  let inserted ← (rows.map (Resource.copyTo collID source target c.syncToken copies)).foldlM
    insertRow
    db.resources
  return { db with resources := inserted }.advance
    { c with resourceCount := c.resourceCount + addCount, bytesUsed := c.bytesUsed + addBytes }

/-- `Copy`, and `CopyAcross` between two collections. -/
def Index.copyBetween (db : Index) (limits : Limits) (srcID : String) (source : Option Path)
    (collID : String) (target : Option Path) (overwrite : Bool) (copies : String → String × String)
    (now : Int) : Except DriveError Index := do
  let (source, target, _) ← db.copyPrepare nfc srcID source collID target
  db.copyCommit limits srcID source collID target overwrite copies now

end Calls

section Collections

def nameChar (c : Char) : Bool :=
  c.isAlphanum || c ∈ ['.', '_', '~', '-']

def validCollectionName : List Char → Bool
  | [] => false
  | c :: cs => c.isAlphanum && cs.all nameChar && decide (cs.length ≤ 127)

def Index.ensureCollection (db : Index) (tenant : String) (name : List Char) (id : String) :
    Except DriveError Index :=
  let name := Guard.trimSpace name
  if tenant = "" ∨ !validCollectionName name then .error .badName
  else if db.collections.any fun c => c.tenant == tenant && c.name == name &&
    c.deletedAt.isNone then
    .ok db
  else if db.collections.any fun c => c.id == id then .error .exists
  else .ok { db with collections := db.collections ++ [⟨id, tenant, name, 0, 0, 0, none⟩] }

def Index.deleteCollection (db : Index) (tenant : String) (name : List Char) (force : Bool)
    (now : Int) : Except DriveError Index :=
  let named (c : Collection) : Bool :=
    c.tenant == tenant && c.name == Guard.trimSpace name && c.deletedAt.isNone
  match db.collections.find? named with
  | none => .ok db
  | some c =>
    if 0 < c.resourceCount ∧ !force then .error .notEmpty
    else
      .ok
        { resources := update (Resource.liveIn c.id) (Resource.tombstone (c.syncToken + 1) now)
            db.resources
          collections := update (fun row => row.id == c.id) (fun row =>
            { row with
              deletedAt := some now
              syncToken := c.syncToken + 1
              bytesUsed := 0
              resourceCount := 0 }) db.collections }

end Collections

section Listing

structure ListOpts where
  path : Option Path
  recursive : Bool
  sinceModSeq : Nat
  includeDeleted : Bool
  limit : Nat
  after : Path

/-- The listing of a directory, by path; a zero `sinceModSeq` or `limit` and an empty `after` ask
for nothing. -/
def Index.list (nfc : Path → Path) (db : Index) (collID : String) (opts : ListOpts) :
    Except DriveError (List Resource) := do
  let p ← normalizePath nfc opts.path
  let wanted (r : Resource) : Bool :=
    r.collectionID == collID &&
      (if !opts.recursive then r.parentPath == p else p == [] || likeBelow p r.path) &&
      (opts.includeDeleted || r.live) &&
        (opts.sinceModSeq == 0 || decide (opts.sinceModSeq < r.modSeq)) &&
      (opts.after == [] || decide (opts.after < r.path))
  let rows := (db.resources.filter wanted).mergeSort fun r r' => decide (r.path ≤ r'.path)
  return if opts.limit = 0 then rows else rows.take opts.limit

end Listing

/-- A call on the drive, with the ids and keys it draws. -/
inductive Call
  | ensureCollection (tenant : String) (name : List Char) (id : String)
  | deleteCollection (tenant : String) (name : List Char) (force : Bool) (now : Int)
  | put (collID : String) (p : Option Path) (size : Int) (body : Body) (opts : WriteOpts)
      (newID key : String)
  | mkdir (collID : String) (p : Option Path) (id : String)
  | delete (collID : String) (p : Option Path) (opts : WriteOpts) (now : Int)
  | deleteByID (collID resID : String) (opts : WriteOpts) (now : Int)
  | move (collID : String) (source target : Option Path) (overwrite : Bool) (now : Int)
  | copyBetween (srcID : String) (source : Option Path) (collID : String) (target : Option Path)
      (overwrite : Bool) (copies : String → String × String) (now : Int)

/-- What the stores of a drive are set up with. -/
structure Config where
  nfc : Path → Path
  limits : Limits

def Index.call (cfg : Config) (db : Index) : Call → Except DriveError Index
  | .ensureCollection tenant name id => db.ensureCollection tenant name id
  | .deleteCollection tenant name force now => db.deleteCollection tenant name force now
  | .put collID p size body opts newID key =>
    db.put cfg.nfc cfg.limits collID p size body opts newID key
  | .mkdir collID p id => db.mkdir cfg.nfc cfg.limits collID p id
  | .delete collID p opts now => db.delete cfg.nfc collID p opts now
  | .deleteByID collID resID opts now => db.deleteByID collID resID opts now
  | .move collID source target overwrite now => db.move cfg.nfc collID source target overwrite now
  | .copyBetween srcID source collID target overwrite copies now =>
    db.copyBetween cfg.nfc cfg.limits srcID source collID target overwrite copies now

/-- A call that is refused leaves the index as it is. -/
def Index.step (cfg : Config) (db : Index) (call : Call) : Index :=
  match db.call cfg call with
  | .ok db' => db'
  | .error _ => db

def Index.empty : Index :=
  ⟨[], []⟩

end ThanksComputer.Drive
