import ThanksComputer.Lib.Assoc
import ThanksComputer.Net.Text

/-! The static index (`server/static`): the layers of a stack, the tenants' part of it built from
file rows, and the lookups of a request. -/

namespace ThanksComputer.Static

open Net Lib.Assoc

section Paths

def safe (seg : Str) : Bool :=
  !seg.isEmpty && seg != ['.'] && seg != ['.', '.'] && seg.head? != some '.'

/-- `safeRel`: the clean relative path, or nothing. -/
def safeRel (p : Str) : Str :=
  let p := trimPrefix ['/'] (clean ('/' :: trimPrefix ['/'] p))
  if p = [] ∨ p = ['.'] then [] else if (p.splitOn '/').all safe then p else []

def safeSeg (s : Str) : Str :=
  if safe s && !s.contains '/' then s else []

def safeStack (s : Str) : Str :=
  if s = [] then [] else if (s.splitOn '/').all safe then s else []

/-- `strings.Trim` leaves nothing of the root. -/
def isRootPath (reqPath : Str) : Bool :=
  (clean ('/' :: reqPath)).all (· == '/')

/-- `PrivateRoot`: the path up to the end of its first segment with an underscore. -/
def privateRoot (rel : Str) : Str :=
  go [] (rel.splitOn '/')
where
  go (front : List Str) : List Str → Str
    | [] => []
    | seg :: rest =>
      if seg.head? = some '_' then ['/'].intercalate (front ++ [seg]) else go (front ++ [seg]) rest

def lastSegHasDot (rel : Str) : Bool :=
  (rel.reverse.takeWhile (· != '/')).contains '.'

end Paths

section Marks

inductive Mark
  | pub
  | immutable
  deriving DecidableEq

def markerDir : Str := "_txco".toList
def markerLeaf : Str := "_txco_mark".toList

def parseMarker (rel : Str) : Option (Mark × Str) := do
  let rest ← cutPrefix (markerDir ++ ['/']) rel
  let rest ← cutSuffix ('/' :: markerLeaf) rest
  let (kind, target) ← cut '/' rest
  let first := target.takeWhile (· != '/')
  if target = [] ∨ first = markerDir then none
  else if kind = "public".toList then some (.pub, target)
  else if kind = "immutable".toList then some (.immutable, target)
  else none

def isMarker (rel : Str) : Bool :=
  (parseMarker rel).isSome

/-- A layer's markers: roots that may be served, and prefixes with the slash at their end. -/
structure Marks where
  pub : List Str
  immutable : List Str
  deriving DecidableEq

/-- `marks.add`. -/
def Marks.add (m : Marks) (rel : Str) : Marks :=
  match parseMarker rel with
  | some (.pub, target) => { m with pub := target :: m.pub }
  | some (.immutable, target) => { m with immutable := m.immutable ++ [target ++ ['/']] }
  | none => m

def Marks.isPublic (m : Marks) (root : Str) : Bool :=
  m.pub.contains root

def Marks.isImmutable (m : Marks) (rel : Str) : Bool :=
  m.immutable.any (·.isPrefixOf rel)

end Marks

section Layers

/-- What a file's type is looked up in: `unicode.ToLower` and the environment's `mime` table. -/
structure Mime where
  toLower : Char → Char
  typeByExtension : Str → Str

def byExt : List (String × String) :=
  [(".html", "text/html; charset=utf-8"), (".htm", "text/html; charset=utf-8"),
    (".css", "text/css; charset=utf-8"), (".js", "text/javascript; charset=utf-8"),
    (".mjs", "text/javascript; charset=utf-8"), (".cjs", "text/javascript; charset=utf-8"),
    (".json", "application/json"), (".map", "application/json"), (".xml", "application/xml"),
    (".txt", "text/plain; charset=utf-8"), (".md", "text/markdown; charset=utf-8"),
    (".csv", "text/csv; charset=utf-8"), (".webmanifest", "application/manifest+json"),
    (".wasm", "application/wasm"), (".pdf", "application/pdf"), (".ico", "image/x-icon"),
    (".svg", "image/svg+xml"), (".png", "image/png"), (".jpg", "image/jpeg"),
      (".jpeg", "image/jpeg"),
    (".gif", "image/gif"), (".webp", "image/webp"), (".avif", "image/avif"), (".woff", "font/woff"),
    (".woff2", "font/woff2"), (".ttf", "font/ttf"), (".otf", "font/otf"),
    (".eot", "application/vnd.ms-fontobject")]

/-- `contentType` of a file whose bytes are not at hand. -/
def contentType (M : Mime) (name : Str) : Str :=
  let e := (ext name).map M.toLower
  match byExt.lookup (String.ofList e) with
  | some ct => ct.toList
  | none =>
    let ct := M.typeByExtension e
    if ct ≠ [] then ct else "application/octet-stream".toList

/-- A cached file. -/
structure Entry where
  body : List UInt8
  ctype : Str
  etag : Str
  deriving DecidableEq

structure MetaEntry where
  hash : Str
  size : Int
  ctype : Str
  deriving DecidableEq

/-- A source of files: the files by path, its top-level directories and its markers. -/
structure Layer (α : Type) where
  files : List (Str × α)
  dirs : List Str
  marks : Marks
  deriving DecidableEq

def emptyLayer {α : Type} : Layer α := ⟨[], [], ⟨[], []⟩⟩

/-- A file goes into its layer, and its first directory with it. -/
def Layer.insert {α : Type} (l : Layer α) (rel : Str) (a : α) : Layer α :=
  { l with
    files := (rel, a) :: l.files
    dirs := match cut '/' rel with
      | some (seg, _) => seg :: l.dirs
      | none => l.dirs }

end Layers

section Tenants

/-- A row of `stack_files` of an active version, with its tenant's slug and its stack's name. -/
structure FileRow where
  slug : Str
  name : Str
  path : Str
  hash : Str
  size : Int
  deriving DecidableEq

/-- `LIKE 'FILES/%'`; `LIKE` is blind to the case of ASCII letters. -/
def FileRow.underFiles (r : FileRow) : Bool :=
  (r.path.take 6).map Char.toLower == "files/".toList

def FileRow.rel (r : FileRow) : Str :=
  safeRel (trimPrefix "FILES/".toList r.path)

/-- The tenant and the stack that a row is indexed under. -/
def FileRow.key (r : FileRow) : Str × Str :=
  (safeSeg r.slug, safeStack r.name)

def FileRow.indexed (r : FileRow) : Bool :=
  r.underFiles && !r.rel.isEmpty && !r.key.1.isEmpty && !r.key.2.isEmpty &&
    (!r.hash.isEmpty || isMarker r.rel)

variable (M : Mime)

def FileRow.addTo (r : FileRow) (l : Layer MetaEntry) : Layer MetaEntry :=
  if isMarker r.rel then { l with marks := l.marks.add r.rel }
  else l.insert r.rel ⟨r.hash, r.size, contentType M r.rel⟩

abbrev Tenants := List ((Str × Str) × Layer MetaEntry)

def rebuildRow (out : Tenants) (r : FileRow) : Tenants :=
  if r.indexed then upsert r.key (fun l => r.addTo M (l.getD emptyLayer)) out else out

def rebuildTenant (rows : List FileRow) : Tenants :=
  rows.foldl (rebuildRow M) []

end Tenants

section Lookups

structure Result where
  found : Bool
  owned : Bool
  body : List UInt8
  hash : Str
  size : Int
  ctype : Str
  etag : Str
  immutable : Bool
  deriving DecidableEq

/-- `Result{}`. -/
def miss : Result := ⟨false, false, [], [], 0, [], [], false⟩

/-- The operator's layers: those of the stacks, the chassis-wide one and the embedded one. -/
structure Operator where
  perStack : List (Str × Layer Entry)
  chassis : Layer Entry
  embedded : Layer Entry
  deriving DecidableEq

structure Index where
  operator : Operator
  tenant : Tenants
  deriving DecidableEq

def Layer.servable {α : Type} (l : Layer α) (rel : Str) : Option α :=
  if privateRoot rel ≠ [] ∧ l.marks.isPublic (privateRoot rel) = false then none
    else l.files.lookup rel

def inlineHit (rel : Str) (ls : List (Layer Entry)) : Option Result :=
  ls.findSome? fun l => (l.servable rel).map fun e =>
    { miss with
      found := true, body := e.body, ctype := e.ctype, etag := e.etag,
      immutable := l.marks.isImmutable rel }

def tenantHit (rel : Str) (l : Layer MetaEntry) : Option Result :=
  (l.servable rel).map fun e =>
    { miss with
      found := true
      hash := e.hash
      size := e.size
      ctype := e.ctype
      etag := ['"'] ++ e.hash ++ ['"']
      immutable := l.marks.isImmutable rel }

/-- `lookupServable`: the operator's layers, the tenant's, then the defaults. -/
def lookupServable (rel : Str) (opLayers : List (Layer Entry)) (tl : Option (Layer MetaEntry))
    (defaults : List (Layer Entry)) : Option Result :=
  if rel = [] then none
  else (inlineHit rel opLayers).or ((tl.bind (tenantHit rel)).or (inlineHit rel defaults))

def indexCandidates (rel : Str) : List Str :=
  if rel = [] then ["index.html".toList]
  else if lastSegHasDot rel then [rel]
  else [rel, rel ++ ".html".toList, rel ++ "/index.html".toList]

def markdownCandidates (rel : Str) : List Str :=
  if rel = [] then ["index.md".toList]
  else if ".md".toList.isSuffixOf rel then [rel]
  else if lastSegHasDot rel then []
  else [rel ++ ".md".toList, rel ++ "/index.md".toList]

def Operator.stackLayers (op : Operator) (stack : Str) : List (Layer Entry) :=
  if safeStack stack ≠ [] then (op.perStack.lookup (safeStack stack)).toList else []

def Operator.layers (op : Operator) (stack : Str) : List (Layer Entry) :=
  op.stackLayers stack ++ [op.chassis]

variable (ix : Index) (tenant stack reqPath : Str)

def Index.tenantLayer : Option (Layer MetaEntry) :=
  if safeSeg tenant ≠ [] ∧
    safeStack stack ≠ [] then ix.tenant.lookup (safeSeg tenant, safeStack stack) else none

def publicIn (root : Str) (inline : List (Layer Entry)) (tl : Option (Layer MetaEntry)) : Bool :=
  inline.any (·.marks.isPublic root) || tl.any (·.marks.isPublic root)

def ownedIn (rel : Str) (inline : List (Layer Entry)) (tl : Option (Layer MetaEntry)) : Bool :=
  match cut '/' rel with
  | some (seg, _) =>
    ext rel != [] && (inline.any (·.dirs.contains seg) || tl.any (·.dirs.contains seg))
  | none => false

/-- The answer where no file resolved: a private path that no layer made public is a plain miss. -/
def missed (rel : Str) (inline : List (Layer Entry)) (tl : Option (Layer MetaEntry)) : Result :=
  if privateRoot rel ≠ [] ∧ publicIn (privateRoot rel) inline tl = false then miss
  else if ownedIn rel inline tl then { miss with owned := true }
  else miss

def Index.lookup : Result :=
  let rel := safeRel reqPath
  if rel = [] ∧ !isRootPath reqPath then miss
  else
    let opLayers := ix.operator.layers stack
    let tl := ix.tenantLayer tenant stack
    match (indexCandidates rel).findSome? fun cand =>
      lookupServable cand opLayers tl [ix.operator.embedded] with
    | some r => r
    | none => missed rel (opLayers ++ [ix.operator.embedded]) tl

def Index.markdownLayers : List (Layer Entry) × Option (Layer MetaEntry) :=
  (ix.operator.stackLayers stack, ix.tenantLayer tenant stack)

/-- `lookupMarkdown`, `LookupMarkdown`. -/
def Index.lookupMarkdown : Result :=
  let rel := safeRel reqPath
  if rel = [] ∧ !isRootPath reqPath then miss
  else
    let (opLayers, tl) := ix.markdownLayers tenant stack
    ((markdownCandidates rel).findSome? fun cand => lookupServable cand opLayers tl []).getD miss

def Index.markdownFile : Result :=
  let rel := safeRel reqPath
  if ".md".toList.isSuffixOf rel then
    let (opLayers, tl) := ix.markdownLayers tenant stack
    (lookupServable rel opLayers tl []).getD miss
  else miss

end Lookups

end ThanksComputer.Static
