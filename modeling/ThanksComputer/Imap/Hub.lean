import ThanksComputer.Imap.Store

/-! The hub (`server/personality/imap/hub.go`): a snapshot of every mailbox that sessions of this
node have selected, moved by syncs that read the mailbox and its heads and report the difference. -/

namespace ThanksComputer.Imap

/-- One update of a tracker. -/
inductive Update
  | expunge (seq : Nat)
  | numMessages (n : Nat)
  | flags (seq uid : Nat) (flags : List Name)
  deriving DecidableEq

/-- The loop of `diff` from places `i` and `j` on: the former numbers of the messages gone, and the
updates for those whose flags changed. -/
def diffLoop (i j : Nat) : List MessageHead → List MessageHead → Option (List Nat × List Update)
  | [], _ => some ([], [])
  | _ :: old, [] => (diffLoop (i + 1) j old []).map fun (expunged, flags) =>
    ((i + 1) :: expunged, flags)
  | o :: old, n :: new =>
    if o.uid < n.uid then
      (diffLoop (i + 1) j old (n :: new)).map fun (expunged, flags) => ((i + 1) :: expunged, flags)
    else if n.uid < o.uid then none
    else (diffLoop (i + 1) (j + 1) old new).map fun (expunged, flags) =>
      (expunged, if n.modseq = o.modseq then flags else .flags (j + 1) n.uid n.flags :: flags)

def diff (old new : List MessageHead) : Option (List Update) :=
  (diffLoop 0 0 old new).map fun (expunged, flags) =>
    expunged.reverse.map Update.expunge ++
      (List.range' (old.length - expunged.length + 1)
        (new.length - (old.length - expunged.length))).map
        Update.numMessages ++ flags

/-- A session's tracker: what was queued for it.  `entered` are the messages that came to its view,
each with the modseq it had then; no part of the tracker. -/
structure Session where
  id : Nat
  queue : List Update
  entered : List (Nat × Nat)
  deriving DecidableEq

/-- A sync under way, behind its read of the mailbox; `commits` is how many commits to the mailbox
there had been. -/
structure Sync where
  opens : Bool
  mb : Mailbox
  commits : Nat
  heads : Option (List MessageHead)
  deriving DecidableEq

/-- `mailboxState`.  `sync` is the sync that holds its lock, `synced` the commits there had been
when the last one that came to an end began; neither is a field. -/
structure MailboxState where
  id : String
  registered : Bool
  initialised : Bool
  uidvalidity : Nat
  modseq : Nat
  heads : List MessageHead
  gone : Bool
  suppress : List (Nat × Nat)
  count : Nat
  sessions : List Session
  sync : Option Sync
  synced : Option Nat
  deriving DecidableEq

namespace MailboxState

/-- What `open` makes for a mailbox that is not selected yet. -/
def fresh (id : String) : MailboxState :=
  ⟨id, true, false, 0, 0, [], false, [], 1, [], none, none⟩

variable (st : MailboxState)

/-- `hub.close`. -/
def close : MailboxState :=
  { st with count := st.count - 1, registered := st.registered && decide (1 < st.count) }

/-- `takeSuppress` and the queueing of one update; the session that is its source gets none. -/
def queue : Update → MailboxState
  | .flags seq uid flags =>
    let src := st.suppress.lookup uid
    { st with
      suppress := st.suppress.filter fun e => e.1 != uid
      sessions := st.sessions.map fun s =>
        if src = some s.id then s else { s with queue := s.queue ++ [.flags seq uid flags] } }
  | u => { st with sessions := st.sessions.map fun s => { s with queue := s.queue ++ [u] } }

def apply (ups : List Update) : MailboxState :=
  ups.foldl queue st

/-- `markGoneLocked`, at the end of a sync. -/
def markGone : MailboxState :=
  { st with gone := true, registered := false, sync := none }

/-- A sync that comes to nothing: the session it was to open is closed, a state it was to initialise
is gone. -/
def abandon (opens : Bool) : MailboxState :=
  let st := if st.initialised then { st with sync := none } else st.markGone
  if opens then st.close else st

/-- The end of a sync that read `mb`: a session that is being opened starts from the heads. -/
def finish (session : Nat) (sync : Sync) : MailboxState :=
  { st with
    sync := none
    synced := some sync.commits
    sessions := if sync.opens then
        st.sessions ++ [⟨session, [], st.heads.map fun h => (h.uid, h.modseq)⟩]
      else st.sessions }

/-- `initLocked` and the front of `syncLocked`: the mailbox is read.  Only the session that made the
state initialises it; one that comes before it is turned away. -/
def readMailbox (store : Store) (commits session : Nat) (opens inits : Bool) : MailboxState :=
  if st.gone then st.abandon opens
  else if !st.initialised && !inits then if opens then st.close else st
  else match store.getMailboxByID st.id with
    | none => st.markGone.abandon opens
    | some mb =>
      if !st.initialised then { st with sync := some ⟨opens, mb, commits, none⟩ }
      else if mb.uidvalidity ≠ st.uidvalidity then st.markGone.abandon opens
      else if mb.modseq = st.modseq then st.finish session ⟨opens, mb, commits, none⟩
      else { st with sync := some ⟨opens, mb, commits, none⟩ }

/-- The sessions see the messages of `new` that `old` has not. -/
def enter (old new : List MessageHead) (s : Session) : Session :=
  { s with
    entered := s.entered ++ ((new.filter fun h => !old.any fun o => o.uid == h.uid).map
      fun h => (h.uid, h.modseq)) }

/-- The rest of `initLocked` or `syncLocked`, with the heads read. -/
def takeHeads (session : Nat) (sync : Sync) (heads : List MessageHead) : MailboxState :=
  if !st.initialised then
    { st with
      initialised := true, uidvalidity := sync.mb.uidvalidity, modseq := sync.mb.modseq
      heads := heads : MailboxState }.finish session sync
  else match diff st.heads heads with
    | none => st.markGone.abandon sync.opens
    | some ups =>
      let st' := st.apply ups
      { st' with
        heads := heads, modseq := sync.mb.modseq
        sessions := st'.sessions.map (enter st.heads heads) : MailboxState }.finish session sync

end MailboxState

inductive ChangeKind
  | append
  | expunge
  | flags
  deriving DecidableEq

/-- A change to tell the hub of; `origin` is the session that made it. -/
structure Change where
  mailboxID : String
  kind : ChangeKind
  uid : Nat
  origin : Option Nat
  deriving DecidableEq

/-- `onChange`, for the state that is registered.  The poke that follows lets the worker sync, which
it may do at any time. -/
def MailboxState.onChange (st : MailboxState) (c : Change) : MailboxState :=
  if st.registered && st.id == c.mailboxID && c.kind == .flags then
    match c.origin with
    | some src => { st with suppress := (c.uid, src) :: st.suppress.filter fun e => e.1 != c.uid }
    | none => st
  else st

/-- The transactions on the index.  A reset comes with the UIDVALIDITY it made out before. -/
inductive Commit
  | insert (tenant : String) (username name : Name) (id : String) (now : Int)
  | delete (id : String) (now : Int)
  | reset (id : String) (uidvalidity : Nat)
  | append (id : String) (m : Message)
  | remove (id : String) (uids : List Nat) (onlyDeleted : Bool)
  | setFlags (id : String) (uid : Nat) (flags : List Name)

def Commit.mailboxID : Commit → String
  | .insert _ _ _ id _ | .delete id _ | .reset id _ | .append id _ | .remove id _ _
  | .setFlags id _ _ => id

def Commit.writer (origin : Option Nat) (here : Bool) : Commit → Option Nat
  | .setFlags _ _ _ => if here then origin else none
  | _ => none

def Store.deleteByID (store : Store) (id : String) (now : Int) : Store :=
  { store with
    mailboxes := Lib.Table.update (fun q => q.id == id && q.live)
      (fun q => { q with deletedAt := some now }) store.mailboxes }

def Store.commit (lower : Name → Name) (store : Store) : Commit → Except Error Store
  | .insert tenant username name id now => store.insertMailbox tenant username name id now
  | .delete id now => .ok (store.deleteByID id now)
  | .reset id uidvalidity => .ok (store.resetTo id uidvalidity)
  | .append id m => (store.appendMessage lower id m).map Prod.snd
  | .remove id uids onlyDeleted => store.removeRows id uids onlyDeleted
  | .setFlags id uid flags => store.setFlags lower id uid flags

/-- The changes a commit emits: the rows gone, from the last to the first, then the row appended. -/
def changesOf (lower : Name → Name) (store : Store) (origin : Option Nat) : Commit → List Change
  | .insert _ _ _ _ _ | .delete _ _ | .reset _ _ => []
  | .append id m =>
    match store.appendMessage lower id m with
    | .error _ => []
    | .ok (res, _) =>
      if res.noop then []
      else (res.replacedUID.toList.map fun uid => ⟨id, .expunge, uid, none⟩) ++
        [⟨id, .append, res.uid, none⟩]
  | .remove id uids onlyDeleted =>
    ((((store.messages.filter fun r => r.mailboxID == id && Store.doomed uids onlyDeleted r).map
      Store.Row.head).insertionSort fun a b => a.uid ≤ b.uid).reverse).map fun h =>
        ⟨id, .expunge, h.uid, origin⟩
  | .setFlags id uid _ => [⟨id, .flags, uid, origin⟩]

/-- The flags a message had once; `writer` is the session of this node that set them. -/
structure Version where
  mailboxID : String
  uid : Nat
  modseq : Nat
  flags : List Name
  writer : Option Nat
  deriving DecidableEq

/-- The index, the changes still to be told, and the hub of one node.  `commits` are the mailboxes
of the commits so far and `versions` all flags there have been; both are for the record. -/
structure System where
  store : Store
  changes : List Change
  states : List MailboxState
  opened : Nat
  commits : List String
  versions : List Version
  deriving DecidableEq

def System.start : System :=
  ⟨.empty, [], [], 0, [], []⟩

def writtenRow (lower : Name → Name) (before after : Store) : Commit → Option Row
  | .insert _ _ _ _ _ | .delete _ _ | .reset _ _ | .remove _ _ _ => none
  | .append id m =>
    match before.appendMessage lower id m with
    | .error _ => none
    | .ok (res, _) => if res.noop then none else after.getMessage id res.uid
  | .setFlags id uid _ => after.getMessage id uid

def newVersions (lower : Name → Name) (before after : Store) (writer : Option Nat) (c : Commit) :
    List Version :=
  (writtenRow lower before after c).toList.map fun r =>
    ⟨r.mailboxID, r.uid, r.modseq, r.flags, writer⟩

inductive Step
  /-- A commit, by a session of this node or by anyone else, here or on another node. -/
  | commit (c : Commit) (origin : Option Nat) (here : Bool)
  | notify (k : Nat)
  /-- A session comes to a mailbox. -/
  | select (id : String)
  | read (i : Nat) (opens inits : Bool)
  | readHeads (i : Nat)
  | finish (i : Nat)
  /-- A read fails. -/
  | abandon (i : Nat)
  | close (i : Nat) (session : Nat)

namespace System

variable (sys : System)

def setState (i : Nat) (st : MailboxState) : System :=
  { sys with states := sys.states.set i st }

/-- The state of a mailbox in the hub's map. -/
def registered (id : String) : Option Nat :=
  sys.states.findIdx? fun st => st.registered && st.id == id

def next (lower : Name → Name) (sys : System) : Step → Option System
  | .commit c origin here =>
    match sys.store.commit lower c with
    | .error _ => some sys
    | .ok store => some { sys with
        store := store
        changes := sys.changes ++ if here then changesOf lower sys.store origin c else []
        commits := sys.commits ++ [c.mailboxID]
        versions := sys.versions ++ newVersions lower sys.store store (c.writer origin here) c }
  | .notify k =>
    match sys.changes[k]? with
    | none => none
    | some c => some { sys with
        changes := sys.changes.eraseIdx k, states := sys.states.map (MailboxState.onChange · c) }
  | .select id =>
    match sys.registered id with
    | some i => sys.states[i]?.map fun st => sys.setState i { st with count := st.count + 1 }
    | none => some { sys with states := sys.states ++ [.fresh id] }
  | .read i opens inits =>
    match sys.states[i]? with
    | none => none
    | some st =>
      match st.sync with
      | some _ => none
      | none => some { sys.setState i (st.readMailbox sys.store (sys.commits.count st.id) sys.opened
          opens inits) with opened := sys.opened + 1 }
  | .readHeads i =>
    match sys.states[i]? with
    | none => none
    | some st =>
      match st.sync with
      | some ⟨opens, mb, commits, none⟩ =>
        some (sys.setState i
          { st with sync := some ⟨opens, mb, commits, some (sys.store.listHeads st.id)⟩ })
      | _ => none
  | .finish i =>
    match sys.states[i]? with
    | none => none
    | some st =>
      match st.sync with
      | some ⟨opens, mb, commits, some heads⟩ =>
        some { sys.setState i (st.takeHeads sys.opened ⟨opens, mb, commits, none⟩ heads) with
          opened := sys.opened + 1 }
      | _ => none
  | .abandon i =>
    match sys.states[i]? with
    | none => none
    | some st =>
      match st.sync with
      | some sync => some (sys.setState i (st.abandon sync.opens))
      | none => none
  | .close i session =>
    match sys.states[i]? with
    | none => none
    | some st => some (sys.setState i
        { st with sessions := st.sessions.filter fun s => s.id != session : MailboxState }.close)

end System

end ThanksComputer.Imap
