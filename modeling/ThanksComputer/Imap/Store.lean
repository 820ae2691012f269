import Mathlib.Algebra.Ring.Int.Defs
import Mathlib.Algebra.Ring.Nat
import Mathlib.Data.Char
import Mathlib.Data.List.Lex
import Mathlib.Data.List.Sort
import ThanksComputer.Guard.Paths
import ThanksComputer.Lib.Table

/-! The IMAP index (`chassis/imap`): mailboxes and the messages in them, and the transactions that
change them. -/

namespace ThanksComputer.Imap

open Lib.Table

/-- Names, usernames and flags, rune by rune. -/
abbrev Name := List Char

/-- `strings.ReplaceAll(name, "//", "/")`, until there is none. -/
def collapse : Name → Name
  | '/' :: '/' :: rest => collapse ('/' :: rest)
  | c :: rest => c :: collapse rest
  | [] => []

def trimSlashes (name : Name) : Name :=
  ((name.dropWhile (· == '/')).reverse.dropWhile (· == '/')).reverse

def inbox : Name := "INBOX".toList

def normalizeMailboxName (name : Name) : Name :=
  let name := collapse (trimSlashes (Guard.trimSpace name))
  if name.map Char.toLower = inbox.map Char.toLower then inbox else name

/-- `NormalizeUsername`; `lower` is `strings.ToLower`. -/
def normalizeUsername (lower : Name → Name) (username : Name) : Name :=
  lower (Guard.trimSpace username)

def systemFlags : List (String × String) :=
  [("\\seen", "\\Seen"), ("\\answered", "\\Answered"), ("\\flagged", "\\Flagged"),
    ("\\deleted", "\\Deleted"), ("\\draft", "\\Draft"), ("\\recent", "\\Recent"),
    ("seen", "\\Seen"), ("answered", "\\Answered"), ("flagged", "\\Flagged"),
    ("deleted", "\\Deleted"), ("draft", "\\Draft"), ("recent", "\\Recent")]

def canonFlag (lower : Name → Name) (flag : Name) : Name :=
  match systemFlags.find? fun kv => kv.1.toList == lower flag with
  | some kv => kv.2.toList
  | none => flag

/-- The flags still to come, without those that are `seen` already. -/
def dedupeFlags (lower : Name → Name) (seen : List Name) : List Name → List Name
  | [] => []
  | flag :: flags =>
    let flag := canonFlag lower (Guard.trimSpace flag)
    if flag = [] ∨ lower flag = "\\recent".toList ∨
      lower flag ∈ seen then dedupeFlags lower seen flags
    else flag :: dedupeFlags lower (lower flag :: seen) flags

def normalizeFlags (lower : Name → Name) (flags : List Name) : List Name :=
  (dedupeFlags lower [] flags).insertionSort fun a b => a ≤ b

def hasDeleted (flags : List Name) : Bool :=
  flags.any fun f => f.map Char.toLower == "\\deleted".toList

structure Mailbox where
  id : String
  tenant : String
  username : Name
  name : Name
  uidvalidity : Nat
  uidnext : Nat
  modseq : Nat
  deletedAt : Option Int
  deriving DecidableEq

structure Message where
  objectKey : String
  kind : String
  sha256 : String
  size : Int
  internalDate : Int
  flags : List Name
  deriving DecidableEq

/-- A row of `imap_messages`.  `serial` counts the rows ever inserted and is no column: it tells one
message from another. -/
structure Row extends Message where
  mailboxID : String
  uid : Nat
  modseq : Nat
  serial : Nat
  deriving DecidableEq

/-- What a session holds of a message. -/
structure MessageHead where
  uid : Nat
  flags : List Name
  size : Int
  internalDate : Int
  modseq : Nat
  serial : Nat
  deriving DecidableEq

/-- The index.  `births` is the UIDVALIDITY each message was appended under, by serial; no table. -/
structure Store where
  mailboxes : List Mailbox
  messages : List Row
  births : List Nat
  deriving DecidableEq

inductive Error
  | emptyName
  | mailboxExists
  | mailboxNotFound
  | inbox
  | underItself
  | emptyID
  | needsKindAndSha
  | messageNotFound (uid : Nat)
  | uidsExhausted
  | uniqueViolation
  | failed
  deriving DecidableEq

def Mailbox.live (mb : Mailbox) : Bool :=
  mb.deletedAt.isNone

namespace Store

def empty : Store := ⟨[], [], []⟩

variable (st : Store)

def getMailbox (tenant : String) (username name : Name) : Option Mailbox :=
  st.mailboxes.find? fun mb =>
    mb.live && (mb.tenant == tenant && (mb.username == username && mb.name == name))

def getMailboxByID (id : String) : Option Mailbox :=
  st.mailboxes.find? fun mb => mb.live && mb.id == id

/-- `uint32(now.Unix())`, never 0. -/
def uidvalidityAt (now : Int) : Nat :=
  let uidv := (now % 2 ^ 32).toNat
  if uidv = 0 then 1 else uidv

/-- The row of a new mailbox; its id is a key, its name one among the live mailboxes. -/
def insertMailbox (tenant : String) (username name : Name) (id : String) (now : Int) :
    Except Error Store :=
  if (st.mailboxes.any fun mb => mb.id == id) ∨ (st.getMailbox tenant username name).isSome then
    .error .uniqueViolation
  else .ok { st with
    mailboxes := st.mailboxes ++ [⟨id, tenant, username, name, uidvalidityAt now, 1, 0, none⟩] }

def ensureMailbox (lower : Name → Name) (tenant : String) (username name : Name) (id : String)
    (now : Int) : Except Error Store :=
  let username := normalizeUsername lower username
  let name := normalizeMailboxName name
  if name = [] then .error .emptyName
  else if (st.getMailbox tenant username name).isSome then .ok st
  else st.insertMailbox tenant username name id now

def createMailbox (lower : Name → Name) (tenant : String) (username name : Name) (id : String)
    (now : Int) : Except Error Store :=
  let username := normalizeUsername lower username
  let name := normalizeMailboxName name
  if name = [] then .error .emptyName
  else if (st.getMailbox tenant username name).isSome then .error .mailboxExists
  else st.insertMailbox tenant username name id now

def deleteMailbox (lower : Name → Name) (tenant : String) (username name : Name) (now : Int) :
    Except Error Store :=
  let username := normalizeUsername lower username
  let name := normalizeMailboxName name
  if name = inbox then .error .inbox
  else match st.getMailbox tenant username name with
    | none => .error .mailboxNotFound
    | some mb => .ok { st with
        mailboxes :=
          update (fun q => q.id == mb.id && q.live) (fun q => { q with deletedAt := some now })
          st.mailboxes }

/-- The name of a mailbox in the subtree of `old`, or of `old` itself, once it is `new`. -/
def renamed (old new name : Name) : Name :=
  new ++ name.drop old.length

/-- The mailboxes a rename of `mb` names anew. -/
def renames (mb q : Mailbox) : Bool :=
  q.id == mb.id || (q.live && (q.tenant == mb.tenant && (q.username == mb.username &&
    (mb.name ++ ['/']).isPrefixOf q.name)))

def NamesApart (mailboxes : List Mailbox) : Prop :=
  ∀ a ∈ mailboxes, ∀ b ∈ mailboxes, a.live = true ∧ b.live = true ∧ a.tenant = b.tenant ∧
    a.username = b.username ∧ a.name = b.name → a.id = b.id

instance (mailboxes : List Mailbox) : Decidable (NamesApart mailboxes) :=
  inferInstanceAs (Decidable (∀ a ∈ mailboxes, _))

def renameMailbox (lower : Name → Name) (tenant : String) (username old new : Name) :
    Except Error Store :=
  let username := normalizeUsername lower username
  let old := normalizeMailboxName old
  let new := normalizeMailboxName new
  if old = inbox ∨ new = inbox then .error .inbox
  else if new = [] then .error .emptyName
  else if new = old then
    if (st.getMailbox tenant username old).isSome then .ok st else .error .mailboxNotFound
  else if (old ++ ['/']).isPrefixOf new then .error .underItself
  else match st.getMailbox tenant username old with
    | none => .error .mailboxNotFound
    | some mb =>
      if (st.getMailbox tenant username new).isSome then .error .mailboxExists
      else
        let mailboxes := update (renames mb) (fun q => { q with name := renamed old new q.name })
          st.mailboxes
        if NamesApart mailboxes then .ok { st with mailboxes := mailboxes }
        else .error .uniqueViolation

/-- The UIDVALIDITY of a reset: the second, or the next value if that is not past the present
one. -/
def resetValidity (uidvalidity : Nat) (now : Int) : Nat :=
  let uidv := (now % 2 ^ 32).toNat
  if uidv ≤ uidvalidity then (uidvalidity + 1) % 2 ^ 32 else uidv

def resetTo (id : String) (uidv : Nat) : Store :=
  { st with
    mailboxes := update (fun q => q.id == id)
      (fun q => { q with uidvalidity := uidv, uidnext := 1, modseq := q.modseq + 1 }) st.mailboxes
    messages := st.messages.filter fun r => r.mailboxID != id }

def resetMailbox (id : String) (now : Int) : Except Error Store :=
  match st.getMailboxByID id with
  | none => .error .mailboxNotFound
  | some mb => .ok (st.resetTo id (resetValidity mb.uidvalidity now))

end Store

structure AppendResult where
  uid : Nat
  uidvalidity : Nat
  noop : Bool
  replacedUID : Option Nat
  deriving DecidableEq

namespace Store

variable (st : Store)

def dropMessage (id : String) (uid : Nat) : Store :=
  { st with messages := st.messages.filter fun r => !(r.mailboxID == id && r.uid == uid) }

/-- The uid is taken from the mailbox row, where it is counted up and never back. -/
def insertMessage (lower : Name → Name) (mb : Mailbox) (m : Message) : Except Error Store :=
  if 2 ^ 32 ≤ mb.uidnext then .error .uidsExhausted
  else if st.messages.any fun r => r.mailboxID == mb.id && (r.uid == mb.uidnext ||
      (m.objectKey != "" && r.objectKey == m.objectKey)) then .error .uniqueViolation
  else .ok {
    mailboxes := update (fun q => q.id == mb.id)
      (fun q => { q with uidnext := q.uidnext + 1, modseq := q.modseq + 1 }) st.mailboxes
    messages := st.messages ++
      [⟨{ m with flags := normalizeFlags lower m.flags }, mb.id, mb.uidnext, mb.modseq + 1,
        st.births.length⟩]
    births := st.births ++ [mb.uidvalidity] }

def getMessageByKey (id objectKey : String) : Option Row :=
  if objectKey = "" then none
  else st.messages.find? fun r => r.mailboxID == id && r.objectKey == objectKey

def appendOnce (lower : Name → Name) (id : String) (m : Message) :
    Except Error (AppendResult × Store) :=
  match st.getMailboxByID id with
  | none => .error .mailboxNotFound
  | some mb =>
    match st.getMessageByKey id m.objectKey with
    | none => (st.insertMessage lower mb m).map fun st' =>
        (⟨mb.uidnext, mb.uidvalidity, false, none⟩, st')
    | some old =>
      if old.sha256 = m.sha256 then .ok (⟨old.uid, mb.uidvalidity, true, none⟩, st)
      else ((st.dropMessage id old.uid).insertMessage lower mb m).map fun st' =>
        (⟨mb.uidnext, mb.uidvalidity, false, some old.uid⟩, st')

def appendMessage (lower : Name → Name) (id : String) (m : Message) :
    Except Error (AppendResult × Store) :=
  if id = "" then .error .emptyID
  else if m.sha256 = "" ∨ m.kind = "" then .error .needsKindAndSha
  else st.appendOnce lower id m

def getMessage (id : String) (uid : Nat) : Option Row :=
  st.messages.find? fun r => r.mailboxID == id && r.uid == uid

def copyMessage (lower : Name → Name) (srcID : String) (uid : Nat) (destID : String) :
    Except Error (AppendResult × Store) :=
  match st.getMessage srcID uid with
  | none => .error (.messageNotFound uid)
  | some r =>
    let m := r.toMessage
    st.appendMessage lower destID
      (if (st.getMessageByKey destID m.objectKey).isSome then { m with objectKey := "" } else m)

def Row.head (r : Row) : MessageHead :=
  ⟨r.uid, r.flags, r.size, r.internalDate, r.modseq, r.serial⟩

def listHeads (id : String) : List MessageHead :=
  ((st.messages.filter fun r => r.mailboxID == id).map Row.head).insertionSort
    fun a b => a.uid ≤ b.uid

def bump (id : String) : Store :=
  { st with
    mailboxes := update (fun q => q.id == id) (fun q => { q with modseq := q.modseq + 1 })
      st.mailboxes }

/-- The rows a removal takes: those of `uids` (all, when it is empty and only the deleted go). -/
def doomed (uids : List Nat) (onlyDeleted : Bool) (r : Row) : Bool :=
  (uids.isEmpty || uids.contains r.uid) && (!onlyDeleted || hasDeleted r.flags)

def removeRows (id : String) (uids : List Nat) (onlyDeleted : Bool) : Except Error Store :=
  if !st.mailboxes.any fun mb => mb.id == id then .error .mailboxNotFound
  else if !st.messages.any fun r => r.mailboxID == id && doomed uids onlyDeleted r then .ok st
  else .ok { st.bump id with
    messages := st.messages.filter fun r => !(r.mailboxID == id && doomed uids onlyDeleted r) }

/-- `SetFlags`; a deleted mailbox is not refused. -/
def setFlags (lower : Name → Name) (id : String) (uid : Nat) (flags : List Name) :
    Except Error Store :=
  match st.mailboxes.find? fun mb => mb.id == id with
  | none => .error .mailboxNotFound
  | some mb =>
    if !st.messages.any fun r => r.mailboxID == id && r.uid == uid then
      .error (.messageNotFound uid)
    else .ok { st.bump id with
      messages := update (fun r => r.mailboxID == id && r.uid == uid)
        (fun r => { r with flags := normalizeFlags lower flags, modseq := mb.modseq + 1 })
          st.messages }

end Store

/-- `strings.ToLower`, of ASCII. -/
def lowerAscii (name : Name) : Name :=
  name.map Char.toLower

def letter (sha256 : String) : Message :=
  ⟨"", "mail", sha256, 1024, 1700000000, []⟩

end ThanksComputer.Imap
