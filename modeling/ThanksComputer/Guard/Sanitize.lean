import Mathlib.Data.List.Infix
import ThanksComputer.Json.Edit

/-! The output sanitizer of txcguard.go: an author's output keeps its own members, and under `_txc`
only what it has at the allowlisted paths. -/

universe u

namespace ThanksComputer.Guard

variable {F : Type u}

def authorWritable : List String :=
  ["web.res", "lmtp.res", "dns.res", "imap.res", "source.res", "calendar.res", "contacts.res",
    "git.res", "tcp.res", "goto", "halt", "delete", "telemetry", "llm.reject", "llm.upstream",
    "llm.headers", "llm.context", "grant.res"]

def trustedWritable : List String :=
  ["chat", "computed"]

def workspaceWritable : List String :=
  ["workspace"]

def transportAuthorControlled : String → Bool
  | "txco" | "ai" | "goto" | "noop" | "outlet" => false
  | _ => true

/-- The path of an allowlist entry under the control plane, as sjson reads it. -/
def txcPath (p : String) : List Char :=
  "_txc.".toList ++ p.toList

def entryKeys (p : String) : List String :=
  ((splitPath p.toList).getD []).map PathSeg.name

variable (L : JsonLib F)

/-- `gjson.Get(raw, "_txc").Exists()`. -/
def hasTxc (t : Text F) : Bool :=
  match parse t with
  | some o => (o.find? "_txc").isSome
  | none => (L.getOther t "_txc".toList).isSome

/-- `gjson.Get(raw, "_txc."+p)`, its bytes and its value. -/
def getTxc (t : Text F) (p : String) : Option (String × Json F) :=
  match parse t with
  | some o =>
    (o.find? "_txc").bind fun m =>
      (m.val.getPath (entryKeys p)).map fun v => (L.sliceRaw m.raw (entryKeys p), v)
  | none => L.getOther t (txcPath p)

/-- `sjson.Delete(raw, "_txc")`. -/
def deleteTxc (t : Text F) : Option (Text F) :=
  match parse t with
  | some o => some (o.delete "_txc").render
  | none => L.deleteOther t "_txc".toList

def copyAllowed (raw out : Text F) (p : String) : Text F :=
  match getTxc L raw p with
  | some (r, v) => (L.setRaw out (txcPath p) r v).getD out
  | none => out

def projectTxcAllowed (raw : Text F) (allow : List String) : Text F :=
  if raw.isEmpty then raw
  else if !hasTxc L raw then raw
  else
    match deleteTxc L raw with
    | none => raw
    | some out => allow.foldl (copyAllowed L raw) out

def sanitizeAuthorOutput (raw : Text F) : Text F :=
  projectTxcAllowed L raw authorWritable

/-- The paths a transport may carry past the sanitizer. -/
def allowFor (transport : String) : List String :=
  if transport = "workspace" then authorWritable ++ workspaceWritable else authorWritable

def sanitizeAuthorOutputFor (transport : String) (raw : Text F) : Text F :=
  if transport = "workspace" then projectTxcAllowed L raw (authorWritable ++ workspaceWritable)
  else sanitizeAuthorOutput L raw

def sanitizeTrustedOutput (raw : Text F) : Text F :=
  projectTxcAllowed L raw (authorWritable ++ trustedWritable)

def sanitizeTerminalOutput (transport : String) (raw : Text F) : Text F :=
  if transportAuthorControlled transport then sanitizeAuthorOutputFor L transport raw
  else sanitizeTrustedOutput L raw

theorem sanitizeAuthorOutputFor_eq (transport : String) (raw : Text F) :
    sanitizeAuthorOutputFor L transport raw = projectTxcAllowed L raw (allowFor transport) := by
  rw [sanitizeAuthorOutputFor, allowFor]
  split <;> rfl

def opDebugField : String := "_txc_op_debug"

/-- The op-debug strip: the first member of the name goes, where the text spells it out. -/
def extractOpDebug (raw : Text F) : Text F :=
  if opDebugField.toList <:+: (bytes raw).toList then
    match parse raw with
    | some o => if (o.find? opDebugField).isSome then (o.delete opDebugField).render else raw
    | none =>
      if (L.getOther raw opDebugField.toList).isSome then
        (L.deleteOther raw opDebugField.toList).getD raw
      else raw
  else raw

end ThanksComputer.Guard
