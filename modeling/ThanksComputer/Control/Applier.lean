import ThanksComputer.Control.Events

/-! The applier (`chassis/controlapply`): a pass polls the feed behind the stored cursor and applies
the events it is handed one by one.  The runtime database holds the cursor and the record of applied
events beside the tables, the auth database is another one. -/

namespace ThanksComputer.Control

inductive Stmt
  | replace (table : String) (row : Row)
  | delete (table : String) (conds : Row)
  deriving DecidableEq

structure StackRow where
  stackID : String
  tenantID : String
  name : String
  activeVersion : Option Int
  createdAt : String
  deriving DecidableEq

structure VersionRow where
  versionID : Int
  stackID : String
  versionNumber : Int
  status : String
  createdBy : String
  createdAt : String
  activatedAt : Option String
  manifestHash : String
  deriving DecidableEq

structure FileRow where
  versionID : Int
  path : String
  content : Bytes
  contentHash : String
  deriving DecidableEq

/-- The tables of the runtime database; `rest` are those that only statements and activations
reach. -/
structure Tables (T : Type) where
  stackRows : List StackRow
  versions : List VersionRow
  files : List FileRow
  rest : T
  deriving DecidableEq

structure AppliedRow where
  eventID : String
  controlVersion : Nat
  appliedAt : String
  deriving DecidableEq

/-- The runtime database: the cursor of `varvals`, `applied_events`, and the tables. -/
structure Runtime (T : Type) where
  cursor : Option Nat
  applied : List AppliedRow
  tables : Tables T
  deriving DecidableEq

/-- What the applier is built on: SQLite, JSON, SHA-256 and the admin's activation.  `authExec` is
there when the node has an auth database. -/
structure Node (T A : Type) where
  sha256Hex : Bytes → String
  decodeStack : Bytes → Except String StackActivatedArtifact
  decodeRows : Bytes → Except String RowsArtifact
  decodeAbort : Bytes → Except String Unit
  decodeB64 : String → Option Bytes
  hasTable : T → String → Bool
  exec : Stmt → T → Except String T
  authHasTable : A → String → Bool
  authExec : Option (Stmt → A → Except String A)
  authPostgres : Bool
  applyStackVersion : String → String → Int → String → Tables T → Except String (Tables T)
  ackable : Bool

/-- What one call of `applyOne` finds outside: the artifact store's answer, the clock, new ids, and
the database calls that fail. -/
structure Draw where
  seen : Option String
  artifact : Except String Bytes
  probe : Option String
  now : String
  stackID : String
  versionID : Int
  tx : Option String

variable {T A : Type}

/-- `readCursor`; `failed` is the error of the query.  Any error leaves `val` empty. -/
def readCursor (rt : Runtime T) (failed : Option String) : Nat :=
  match failed with
  | some _ => 0
  | none => rt.cursor.getD 0

def writeCursor (rt : Runtime T) (cv : Nat) : Runtime T :=
  { rt with cursor := some cv }

def Runtime.alreadyApplied (rt : Runtime T) (eventID : String) : Bool :=
  eventID != "" && rt.applied.any fun r => r.eventID == eventID

/-- `INSERT OR IGNORE`. -/
def markApplied (rt : Runtime T) (ev : Event) (now : String) : Except String (Runtime T) :=
  if ev.eventID = "" then .error "markApplied: empty event_id"
  else if rt.applied.any fun r => r.eventID == ev.eventID then .ok rt
  else .ok { rt with applied := rt.applied ++ [⟨ev.eventID, ev.controlVersion, now⟩] }

/-- The end of a transaction on the runtime database. -/
def commit (failed : Option String) (rt : Runtime T) : Except String (Runtime T) :=
  match failed with
  | some err => .error err
  | none => .ok rt

def advanceCursorAndMark (rt : Runtime T) (ev : Event) (now : String) (tx : Option String) :
    Except String (Runtime T) :=
  (markApplied (writeCursor rt ev.controlVersion) ev now).bind (commit tx)

/-- `coerce`, of one value. -/
def coerce (decodeB64 : String → Option Bytes) : Value → Value
  | .bool true => .number "1"
  | .bool false => .number "0"
  | .wrapped enc => ((decodeB64 enc).map Value.blob).getD (.wrapped enc)
  | v => v

def upsertRow (decodeB64 : String → Option Bytes) (table : String) (row : Row) :
    Except String Stmt :=
  if row = [] then .error ("empty row for " ++ table)
  else .ok (.replace table (row.map fun kv => (kv.1, coerce decodeB64 kv.2)))

def deleteRow (decodeB64 : String → Option Bytes) (table : String) (pk : List String) (row : Row) :
    Except String Stmt :=
  if pk = [] then .error ("delete on " ++ table ++ " requires pk")
  else .ok (.delete table (pk.map fun k => (k, coerce decodeB64 ((row.lookup k).getD .null))))

def execRows {D : Type} (decodeB64 : String → Option Bytes) (exec : Stmt → D → Except String D)
    (art : RowsArtifact) (db : D) : Except String D :=
  art.rows.foldlM (fun db row =>
    (if art.op = "upsert" then upsertRow decodeB64 art.table row
      else deleteRow decodeB64 art.table art.pk row).bind fun stmt => exec stmt db) db

/-- The `stacks` row of an artifact, made if it is not there. -/
def upsertStack (art : StackActivatedArtifact) (d : Draw) (t : Tables T) : String × Tables T :=
  match t.stackRows.find? fun s => s.tenantID == art.tenantID && s.name == art.stack with
  | some s => (s.stackID, t)
  | none => (d.stackID,
      { t with stackRows := t.stackRows ++ [⟨d.stackID, art.tenantID, art.stack, none, d.now⟩] })

def upsertVersion (art : StackActivatedArtifact) (d : Draw) (stackID : String) (t : Tables T) :
    Int × Tables T :=
  match t.versions.find? fun v => v.stackID == stackID && v.versionNumber == art.version with
  | some v => (v.versionID, t)
  | none => (d.versionID,
      { t with versions := t.versions ++
        [⟨d.versionID, stackID, art.version, "draft", "controlapply", d.now, none, ""⟩] })

/-- The primary key of `stack_files` is the version and the path. -/
def insertFile (sha256Hex : Bytes → String) (versionID : Int) (t : Tables T)
    (f : StackArtifactFile) :
    Except String (Tables T) :=
  if t.files.any fun r => r.versionID == versionID && r.path == f.path then
    .error ("insert file " ++ f.path ++ ": UNIQUE constraint failed")
  else
    let stored := f.stored sha256Hex
    .ok { t with files := t.files ++ [⟨versionID, f.path, stored.1, stored.2⟩] }

/-- What the transaction of `applyStackActivated` does to the tables. -/
def activateTables (node : Node T A) (art : StackActivatedArtifact) (d : Draw) (t : Tables T) :
    Except String (Tables T) :=
  if art.tenantID = "" ∨ art.stack = "" ∨ art.version ≤ 0 then
    .error "stack artifact missing tenant/stack/version"
  else
    let (stackID, t) := upsertStack art d t
    let (versionID, t) := upsertVersion art d stackID t
    let t := { t with files := t.files.filter fun r => r.versionID != versionID }
    (art.files.foldlM (insertFile node.sha256Hex versionID) t).bind fun t =>
      node.applyStackVersion art.tenantID art.stack art.version d.now t

def applyStackActivated (node : Node T A) (rt : Runtime T) (ev : Event)
    (art : StackActivatedArtifact) (d : Draw) : Except String (Runtime T) :=
  (activateTables node art d rt.tables).bind fun t =>
    (markApplied (writeCursor { rt with tables := t } ev.controlVersion) ev d.now).bind
      (commit d.tx)

/-- What the transaction of `applyRows` does to the tables of the runtime database. -/
def rowsTables (node : Node T A) (art : RowsArtifact) (t : Tables T) : Except String (Tables T) :=
  (execRows node.decodeB64 node.exec art t.rest).map fun rest => { t with rest := rest }

/-- What a transaction has left behind when `applyOne` comes to the end of it. -/
inductive Outcome (T A : Type)
  | skipped
  | runtime (rt : Runtime T)
  | auth (a : A)

/-- `applyRows`, up to its first commit.  An auth event's own transaction comes first, the cursor
and the record follow in another. -/
def applyRows (node : Node T A) (rt : Runtime T) (a : A) (ev : Event) (art : RowsArtifact)
    (d : Draw) :
    Except String (Outcome T A) :=
  let advance := (advanceCursorAndMark rt ev d.now d.tx).map Outcome.runtime
  if !tableAllowed art.db art.table then
    .error ("table " ++ art.table.quote ++ " in db " ++ art.db.quote ++ " is not syncable")
  else if art.op ≠ "upsert" ∧ art.op ≠ "delete" then .error ("unknown op " ++ art.op.quote)
  else if art.db = "runtime" then
    match d.probe with
    | some err => .error err
    | none =>
      if !node.hasTable rt.tables.rest art.table then advance
      else (rowsTables node art rt.tables).bind fun t =>
        (markApplied (writeCursor { rt with tables := t } ev.controlVersion) ev d.now).bind
          fun rt =>
          (commit d.tx rt).map Outcome.runtime
  else match node.authExec with
    | none => advance
    | some exec =>
      if node.authPostgres then
        .error "control-event: auth-row sync is unsupported against a Postgres auth store"
      else match d.probe with
        | some err => .error err
        | none =>
          if !node.authHasTable a art.table then advance
          else (execRows node.decodeB64 exec art a).bind fun a =>
            match d.tx with
            | some err => .error err
            | none => .ok (.auth a)

/-- The bytes of the event's artifact, checked against its seal (`Validate` has seen its
`sha256:`). -/
def fetch (node : Node T A) (ev : Event) (d : Draw) : Except String Bytes :=
  if ev.artifactRef = "" then .ok []
  else match d.artifact with
    | .error err => .error ("fetch artifact " ++ ev.artifactRef.quote ++ ": " ++ err)
    | .ok data =>
      if "sha256:" ++ node.sha256Hex data = ev.checksum then .ok data
      else .error ("checksum mismatch (event=" ++ ev.checksum ++ " actual=sha256:" ++
        node.sha256Hex data ++ ")")

/-- `applyOne`, up to its first commit; `cursor` is the pass's own. -/
def applyOne (node : Node T A) (rt : Runtime T) (a : A) (ev : Event) (cursor : Nat) (d : Draw) :
    Except String (Outcome T A) :=
  if ev.controlVersion ≤ cursor then .ok .skipped
  else ev.validate.bind fun _ =>
    match d.seen with
    | some err => .error ("applied_events check: " ++ err)
    | none =>
      if rt.alreadyApplied ev.eventID then
        (advanceCursorAndMark rt ev d.now d.tx).map Outcome.runtime
      else (fetch node ev d).bind fun data =>
        match ev.type with
        | .stackActivated =>
          match node.decodeStack data with
          | .error err => .error ("decode stack artifact: " ++ err)
          | .ok art => (applyStackActivated node rt ev art d).map Outcome.runtime
        | .systemOpstack => (advanceCursorAndMark rt ev d.now d.tx).map Outcome.runtime
        | .runAbort =>
          match node.decodeAbort data with
          | .error err => .error ("decode run.abort artifact: " ++ err)
          | .ok _ => (advanceCursorAndMark rt ev d.now d.tx).map Outcome.runtime
        | _ =>
          match node.decodeRows data with
          | .error err => .error ("decode rows artifact: " ++ err)
          | .ok art => applyRows node rt a ev art d

/-- Where a pass stands with the event at its head: still to be applied, its auth rows committed, or
settled. -/
inductive Stage
  | apply
  | advance
  | ack
  deriving DecidableEq

structure Pass where
  cursor : Nat
  rest : List Event
  stage : Stage
  deriving DecidableEq

structure System (T A : Type) where
  runtime : Runtime T
  auth : A
  pass : Option Pass
  acked : List Event
  deriving DecidableEq

/-- The steps of `pollOnce`, a commit at a time, and the loss of a pass in a crash. -/
inductive Step
  | poll (failed : Option String) (polled : Except String (List Event))
  | apply (d : Draw)
  | advance (now : String) (tx : Option String)
  | ack (failed : Bool)
  | crash

/-- The pass after `applyOne` has come to a commit or to its end. -/
def System.applied (sys : System T A) (cursor : Nat) (ev : Event) (rest : List Event) :
    Except String (Outcome T A) → System T A
  | .error _ => { sys with pass := none }
  | .ok .skipped => { sys with pass := some ⟨cursor, ev :: rest, .ack⟩ }
  | .ok (.runtime rt) =>
    { sys with runtime := rt, pass := some ⟨ev.controlVersion, ev :: rest, .ack⟩ }
  | .ok (.auth a) => { sys with auth := a, pass := some ⟨cursor, ev :: rest, .advance⟩ }

def System.next (node : Node T A) (sys : System T A) : Step → Option (System T A)
  | .poll failed polled =>
    match sys.pass, polled with
    | some _, _ => none
    | none, .error _ => some sys
    | none, .ok events =>
      some { sys with pass := some ⟨readCursor sys.runtime failed, events, .apply⟩ }
  | .apply d =>
    match sys.pass with
    | some ⟨_, [], .apply⟩ => some { sys with pass := none }
    | some ⟨cursor, ev :: rest, .apply⟩ =>
      some (sys.applied cursor ev rest (applyOne node sys.runtime sys.auth ev cursor d))
    | _ => none
  | .advance now tx =>
    match sys.pass with
    | some ⟨cursor, ev :: rest, .advance⟩ =>
      some (sys.applied cursor ev rest
        ((advanceCursorAndMark sys.runtime ev now tx).map Outcome.runtime))
    | _ => none
  | .ack failed =>
    match sys.pass with
    | some ⟨cursor, ev :: rest, .ack⟩ =>
      some { sys with
        pass := some ⟨cursor, rest, .apply⟩
        acked := if node.ackable && !failed then sys.acked ++ [ev] else sys.acked }
    | _ => none
  | .crash => some { sys with pass := none }

end ThanksComputer.Control
