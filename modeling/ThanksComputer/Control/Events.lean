import Mathlib.Data.List.Basic

/-! Control events (`chassis/controlevent`): the notifications a fleet applies, and the artifacts
they name. -/

namespace ThanksComputer.Control

/-- Bytes, of an artifact or of a file. -/
abbrev Bytes := List UInt8

/-- The event types; a name that is none of them is kept as it came. -/
inductive EventType
  | stackActivated
  | tenantCreated
  | hostnameBound
  | hostnameVerified
  | hostnameRevoked
  | actorChanged
  | keyChanged
  | membershipChanged
  | entitlementUpdated
  | systemOpstack
  | dnsZoneUpserted
  | dnsRecordUpserted
  | dnsSettingsUpserted
  | cronSettingsUpserted
  | secretChanged
  | secretRevoked
  | runAbort
  | unknown (name : String)
  deriving DecidableEq

structure Event where
  eventID : String
  type : EventType
  tenantID : String
  stackID : String
  version : Int
  artifactRef : String
  checksum : String
  controlVersion : Nat
  deriving DecidableEq

def invalid (reason : String) : String :=
  "controlevent: invalid event: " ++ reason

/-- `Event.Validate`. -/
def Event.validate (ev : Event) : Except String Unit :=
  if ev.eventID = "" then .error (invalid "empty event_id")
  else if ev.type = .unknown "" then .error (invalid "empty type")
  else match ev.type with
    | .unknown name => .error (invalid ("unknown type " ++ name.quote))
    | type =>
      if ev.controlVersion = 0 then .error (invalid "control_version must be > 0")
      else if ev.checksum ≠ "" ∧ ¬ev.checksum.startsWith "sha256:" then
        .error (invalid "checksum must be sha256:-prefixed")
      else if ev.artifactRef ≠ "" ∧ ev.checksum = "" then
        .error (invalid "artifact_ref without checksum")
      else if type = .stackActivated ∧ (ev.tenantID = "" ∨ ev.stackID = "" ∨ ev.version = 0) then
        .error (invalid "stack.activated requires tenant_id, stack_id, version")
      else .ok ()

structure StackArtifactFile where
  path : String
  content : Bytes
  contentHash : String
  deriving DecidableEq

structure StackActivatedArtifact where
  tenantID : String
  stack : String
  version : Int
  files : List StackArtifactFile
  deriving DecidableEq

/-- A JSON value of a row; `wrapped` is a `$b64` object, and `blob` only what `coerce` makes of
it. -/
inductive Value
  | null
  | bool (b : Bool)
  | number (text : String)
  | text (s : String)
  | wrapped (b64 : String)
  | blob (b : Bytes)
  | other (json : String)
  deriving DecidableEq

/-- A row: its columns in ascending order. -/
abbrev Row := List (String × Value)

structure RowsArtifact where
  db : String
  table : String
  op : String
  pk : List String
  rows : List Row
  deriving DecidableEq

/-- `tableWhitelist`, the tables the feed may write. -/
def tableWhitelist : String → List String
  | "runtime" => ["tenants", "tenant_hostnames", "tenant_runtime_state", "dns_zones", "dns_records",
      "dns_settings", "cron_settings", "tenant_secrets", "tenant_secret_versions"]
  | "auth" => ["actors", "actor_keys", "actor_memberships", "invitations"]
  | _ => []

def tableAllowed (db table : String) : Bool :=
  (tableWhitelist db).contains table

def casDirs : List String :=
  ["FILES/", "VECTORS/", "KV/", "BLOBS/", "CALENDARS/", "CONTACTS/", "SOURCES/",
    "DATASETS/", "OUTLETS/",
    "SANDBOXES/", "CAPS/", "CALLS/", "PROVIDERS/", "CONNECTIONS/", "COMPUTES/", "STACKDIR/"]

def isCasPath (path : String) : Bool :=
  casDirs.any fun dir => path.startsWith dir

/-- What an activation stores of a file: not its bytes, if the content-addressed store has them. -/
def StackArtifactFile.stored (sha256Hex : Bytes → String) (f : StackArtifactFile) :
    Bytes × String :=
  if isCasPath f.path ∧ f.contentHash ≠ "" then ([], f.contentHash)
  else if f.contentHash = "" then (f.content, sha256Hex f.content)
  else (f.content, f.contentHash)

end ThanksComputer.Control
