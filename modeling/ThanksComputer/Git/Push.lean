import ThanksComputer.Git.Store
import ThanksComputer.Guard.Paths
import ThanksComputer.Lib.Assoc

/-! A push (`server/personality/git/receive.go`), step by step, with its staging (`git/staging.go`)
and what the lane answers (`lanes.go`). -/

namespace ThanksComputer.Git

open Net Guard Lib

section Texts

def utf8 (s : Str) : List UInt8 :=
  s.flatMap String.utf8EncodeChar

/-- At most 200 bytes without a control character. -/
def oneLine (s : Str) : List UInt8 :=
  let line := trimSpace (s.map fun c => if c.toNat < 0x20 ∨ c.toNat = 0x7f then ' ' else c)
  let cut := (utf8 line).take 200
  if cut = [] then utf8 "refused".toList else cut

def number (n : Nat) : Str :=
  (toString n).toList

def hexDigit (n : Nat) : Char :=
  if n < 10 then Char.ofNat (48 + n) else Char.ofNat (87 + n)

def hex (o : Oid) : Str :=
  (List.range 40).map fun i => hexDigit (o.toNat / 16 ^ (39 - i) % 16)

def shortHash (o : Oid) : Str :=
  if o = zeroOID then "(none)".toList else (hex o).take 12

def pathText (path : List Str) : Str :=
  ['/'].intercalate path

inductive Refusal
  | invalidCommand
  | applicationRef
  | notABranch
  | nameTooLong
  | notPrintable
  | invalidName
  | defaultBranch
  | missingObjects
  | notACommit (short : Str)
  | unreadableTree
  | noDiff
  | symlink (path : List Str)
  | executable (path : List Str)
  | submodule (path : List Str)
  | tooLarge (path : List Str) (size cap : Nat)
  | unreadable (path : List Str)
  | notText (path : List Str)
  | unpackFailed
  | atomic
  | refMoved (expected current : Str)
  | declined (msg : Str)
  deriving DecidableEq

def Refusal.text : Refusal → Str
  | .invalidCommand => "invalid command".toList
  | .applicationRef => "refs/txco/* is read-only: the application moves it".toList
  | .notABranch => "only branches (refs/heads/*) may be pushed here".toList
  | .nameTooLong => "ref name too long".toList
  | .notPrintable => "ref name must be printable ASCII".toList
  | .invalidName => "invalid ref name".toList
  | .defaultBranch => "the default branch cannot be deleted".toList
  | .missingObjects => "missing necessary objects".toList
  | .notACommit short => short ++ " must point at a commit".toList
  | .unreadableTree => "unreadable tree".toList
  | .noDiff => "could not diff the trees".toList
  | .symlink path => pathText path ++ " is a symlink; only regular text files are accepted".toList
  | .executable path =>
    pathText path ++ " is executable; only regular text files are accepted".toList
  | .submodule path =>
    pathText path ++ " is a submodule; only regular text files are accepted".toList
  | .tooLarge path size cap =>
    pathText path ++ " is ".toList ++ number size ++ " bytes; the cap is ".toList ++ number cap
  | .unreadable path => pathText path ++ " could not be read".toList
  | .notText path => pathText path ++ " is not text (UTF-8 without NUL)".toList
  | .unpackFailed => "unpack failed".toList
  | .atomic => "atomic push failure".toList
  | .refMoved expected current =>
    "ref moved: expected ".toList ++ expected ++ ", is ".toList ++ current
  | .declined msg => msg

end Texts

section Pushes

abbrev Command := RefUpdate

inductive Op
  | add
  | modify
  | delete
  deriving DecidableEq

structure Change where
  file : File
  size : Nat
  op : Op
  text : Bool
  type : Str
  deriving DecidableEq

/-- What a command changes, and the tree that it was compared with. -/
structure Inspected where
  against : Option Oid
  changes : List Change
  deriving DecidableEq

/-- How far a push is.  `walking` has the commands still to walk; `inspecting` one that was
walked. -/
inductive Phase
  | opened
  | checked
  | walking (todo : List Command)
  | inspecting (cmd : Command) (todo : List Command)
  | walked
  | kept
  | asked
  | done (moved : Bool)
  deriving DecidableEq

structure Push where
  repo : Repo
  actor : Actor
  reportStatus : Bool
  commands : List Command
  tips : List Oid
  staged : List Oid
  reachable : List Oid
  changes : List (Str × Inspected)
  refused : List (Str × Refusal)
  unpack : Str
  phase : Phase
  deriving DecidableEq

def okText : Str :=
  "ok".toList

variable (p : Push)

def Push.isRefused (name : Str) : Bool :=
  (p.refused.lookup name).isSome

def Push.refuse (name : Str) (why : Refusal) : Push :=
  if p.isRefused name then p else { p with refused := p.refused ++ [(name, why)] }

def Push.pending : Nat :=
  p.commands.countP fun cmd => !p.isRefused cmd.name

def Push.refuseRest (why : Refusal) : Push :=
  p.commands.foldl (fun p cmd => p.refuse cmd.name why) p

/-- `Changes`, as the envelope has it for a ref. -/
def Push.changesOf (name : Str) : List Change :=
  match p.changes.lookup name with
  | none => []
  | some inspected => inspected.changes

inductive Action
  | create
  | update
  | delete
  | invalid
  deriving DecidableEq

def RefUpdate.action (cmd : Command) : Action :=
  if cmd.old = zeroOID then if cmd.new = zeroOID then .invalid else .create
  else if cmd.new = zeroOID then .delete else .update

structure EnvCommand where
  ref : Str
  old : Oid
  new : Oid
  op : Action
  changes : List Change
  deriving DecidableEq

/-- The commands of `buildEnvelope`. -/
def Push.envelope : List EnvCommand :=
  p.commands.map fun cmd => ⟨cmd.name, cmd.old, cmd.new, cmd.action, p.changesOf cmd.name⟩

structure CommandStatus where
  name : Str
  status : List UInt8
  deriving DecidableEq

structure Report where
  unpackStatus : Str
  commandStatuses : List CommandStatus
  deriving DecidableEq

def Push.status (name : Str) : List UInt8 :=
  match p.refused.lookup name with
  | none => utf8 okText
  | some why => oneLine why.text

def Push.report : Option Report :=
  match p.phase, p.reportStatus with
  | .done _, true => some ⟨p.unpack, p.commands.map fun cmd => ⟨cmd.name, p.status cmd.name⟩⟩
  | _, _ => none

end Pushes

section Head

/-- The head's caps; zero is none. -/
structure Limits where
  maxPackBytes : Nat
  maxObjectBytes : Nat
  maxObjects : Nat
  maxRepoBytes : Nat
  textOnly : Bool
  deriving DecidableEq

/-- The caps of one repository, as its staging has them. -/
def Limits.within (L : Limits) (q : Quotas) : Limits :=
  { L with
    maxObjectBytes := if 0 < q.maxObjectBytes then q.maxObjectBytes else L.maxObjectBytes
    maxRepoBytes := if 0 < q.maxRepoBytes then q.maxRepoBytes else L.maxRepoBytes
    maxObjects := if 0 < q.maxObjects then q.maxObjects else L.maxObjects }

variable (G : GoGit) (L : Limits)

def checkCommand (repo : Repo) (cmd : Command) : Option Refusal :=
  if cmd.action = .invalid then some .invalidCommand
  else if "refs/txco/".toList.isPrefixOf cmd.name then some .applicationRef
  else if !"refs/heads/".toList.isPrefixOf cmd.name then some .notABranch
  else if 255 < (utf8 cmd.name).length then some .nameTooLong
  else if (utf8 cmd.name).any (fun b => b < 0x21 || 0x7f ≤ b) then some .notPrintable
  else if !G.validName cmd.name then some .invalidName
  else if cmd.new = zeroOID ∧ cmd.name = repo.head then some .defaultBranch
  else none

def openPush (repo : Repo) (principal credential : String) (commands : List Command)
    (reportStatus : Bool) : Push where
  repo := repo
  actor := ⟨principal, credential, "push", ""⟩
  reportStatus := reportStatus
  commands := commands
  tips := []
  staged := []
  reachable := []
  changes := []
  refused := []
  unpack := okText
  phase := .opened

def Push.checkCommands (p : Push) : Push :=
  p.commands.foldl
    (fun p cmd => match checkCommand G p.repo cmd with
      | none => p
      | some why => p.refuse cmd.name why) p

def Push.readRefs (p : Push) (db : Db) : Push :=
  { p.checkCommands G with
    tips := (db.listRefs p.repo.id).map RefRow.oid
    unpack := if p.commands = [] then "no commands".toList else okText
    phase := .checked }

inductive Ending
  | whole
  | unreadable
  | broken
  | over
  deriving DecidableEq

/-- What comes for a pack: nothing, too little, too much, something else, or a pack. -/
inductive Pack
  | absent
  | truncated
  | over
  | foreign
  | pack (version count : Nat) (objects : List Oid) (ending : Ending)
  deriving DecidableEq

inductive StageError
  | objectTooLarge
  | tooManyObjects
  deriving DecidableEq

/-- The parser's writes to the staging, up to the first that is over a cap. -/
def stage (G : GoGit) (R : Limits) : List Oid → List Oid → List Oid × Option StageError
  | staged, [] => (staged, none)
  | staged, o :: objects =>
    if 0 < R.maxObjectBytes ∧ R.maxObjectBytes < G.size o then (staged, some .objectTooLarge)
    else if 0 < R.maxObjects ∧ R.maxObjects ≤ staged.length then (staged, some .tooManyObjects)
    else stage G R (staged ++ [o]) objects

def tooLargeText : Str :=
  "pack too large: over ".toList ++ number L.maxPackBytes ++ " bytes".toList

def objectOverText : Str :=
  "an object is over ".toList ++ number L.maxObjectBytes ++ " bytes".toList

def Pack.unpack (R : Limits) : Pack → Str × List Oid
  | .absent => (okText, [])
  | .truncated => ("truncated pack".toList, [])
  | .over => (tooLargeText L, [])
  | .foreign => ("not a pack".toList, [])
  | .pack version count objects ending =>
    if version ≠ 2 then ("unsupported pack version ".toList ++ number version, [])
    else if 0 < L.maxObjects ∧ L.maxObjects < count then
      ("too many objects: ".toList ++ number count ++ " > ".toList ++ number L.maxObjects, [])
    else if count = 0 then (okText, [])
    else if ending = .unreadable then ("unreadable pack".toList, [])
    else match stage G R [] objects with
      | (staged, some .objectTooLarge) => (objectOverText L, staged)
      | (staged, some .tooManyObjects) =>
        ("too many objects: more than ".toList ++ number L.maxObjects, staged)
      | (staged, none) => match ending with
        | .whole => (okText, staged)
        | .over => (tooLargeText L, staged)
        | .broken | .unreadable => ("pack could not be parsed".toList, staged)

/-- The pack, if a command wants one; without it, or with one that is well, the walks are next. -/
def Push.receive (p : Push) (pack : Pack) : Push :=
  let (text, staged) :=
    if p.commands.any (·.new != zeroOID) ∧ p.unpack = okText then
      pack.unpack G L (L.within p.repo.quotas)
    else (p.unpack, [])
  { p with
    unpack := text, staged := staged,
    phase := .walking (if text = okText then p.commands else []) }

/-- What can be read through the staging; reads of `lost` fail in the store. -/
def Push.has (p : Push) (db : Db) (lost : List Oid) (o : Oid) : Bool :=
  p.staged.contains o || (db.indexed p.repo.id o && !lost.contains o)

/-- The walk of the next command; behind the last one anything refused refuses the rest. -/
def Push.walk (p : Push) (has : Oid → Bool) : List Command → Push
  | [] =>
    let p := { p with phase := .walked }
    if p.unpack ≠ okText then p.refuseRest .unpackFailed
    else if p.refused ≠ [] then p.refuseRest .atomic
    else p
  | cmd :: todo =>
    if p.isRefused cmd.name ∨ cmd.new = zeroOID then { p with phase := .walking todo }
    else match G.revlistObjects has cmd.new p.tips with
      | none => { p.refuse cmd.name .missingObjects with phase := .walking todo }
      | some objs => { p with reachable := p.reachable ++ objs, phase := .inspecting cmd todo }

end Head

section Inspect

variable (G : GoGit) (L : Limits)

/-- `blobFacts`: whether it is text, and its media type. -/
def blobFacts (has : Oid → Bool) (o : Oid) : Option (Bool × Str) :=
  match has o, G.object o with
  | true, .blob content => some (isText content, G.sniffType content)
  | _, _ => none

def checkFile (policy : ContentPolicy) (has : Oid → Bool) (op : Op) (f : File) :
    Except Refusal Change :=
  if L.textOnly ∧ f.mode = .symlink then .error (.symlink f.path)
  else if L.textOnly ∧ f.mode = .executable then .error (.executable f.path)
  else if L.textOnly ∧ f.mode = .submodule then .error (.submodule f.path)
  else if has f.hash ∧ 0 < L.maxObjectBytes ∧ L.maxObjectBytes < G.size f.hash then
    .error (.tooLarge f.path (G.size f.hash) L.maxObjectBytes)
  else match blobFacts G has f.hash with
    | none => .error (.unreadable f.path)
    | some (text, type) =>
      if L.textOnly ∧ !text ∧ policy ≠ .stack then .error (.notText f.path)
      else .ok ⟨f, if has f.hash then G.size f.hash else 0, op, text, type⟩

def changeOf (policy : ContentPolicy) (has : Oid → Bool) (d : TreeChange) : Except Refusal Change :=
  match d.before, d.after with
  | none, none => .error .noDiff
  | some f, none => .ok ⟨f, 0, .delete, false, []⟩
  | none, some f => checkFile G L policy has .add f
  | some _, some f => checkFile G L policy has .modify f

def newTree (has : Oid → Bool) (cmd : Command) : Except Refusal Oid :=
  match has cmd.new, G.object cmd.new with
  | true, .commit _ _ => match G.commitTree has cmd.new with
    | some t => .ok t
    | none => .error .unreadableTree
  | _, _ => .error (.notACommit (G.short cmd.name))

/-- The tree of the old tip; one that cannot be read counts as none. -/
def oldTree (has : Oid → Bool) (cmd : Command) : Option Oid :=
  if cmd.old = zeroOID then none else G.commitTree has cmd.old

def inspect (policy : ContentPolicy) (has : Oid → Bool) (cmd : Command) :
    Except Refusal Inspected := do
  let new ← newTree G has cmd
  match G.diffTree has (oldTree G has cmd) new with
  | none => .error .noDiff
  | some ds => return ⟨oldTree G has cmd, ← ds.mapM (changeOf G L policy has)⟩

def Push.look (p : Push) (has : Oid → Bool) (cmd : Command) (todo : List Command) : Push :=
  match inspect G L p.repo.policyContent has cmd with
  | .error why => { p.refuse cmd.name why with phase := .walking todo }
  | .ok inspected =>
    { p with
      changes := Assoc.upsert cmd.name (fun _ => inspected) p.changes,
      phase := .walking todo }

end Inspect

section Moving

variable (G : GoGit) (L : Limits) (db : Db) (p : Push)

/-- The kept objects that are new. -/
def Push.fresh : List Oid :=
  p.reachable.eraseDups.filter p.staged.contains

def Push.rows : List ObjectRow :=
  p.fresh.map fun o => ⟨p.repo.id, o, G.size o⟩

/-- Where `Commit` may fail: reading the repository's size, or writing the objects. -/
inductive CommitFault
  | size
  | write
  deriving DecidableEq

def notStoredText : Str :=
  "could not store the objects".toList

/-- `Commit`: the objects that the refs will reach are kept, or why not. -/
def Push.commit (fault : Option CommitFault) : Except Str Db :=
  let R := L.within p.repo.quotas
  let rows := p.rows G
  if 0 < R.maxRepoBytes ∧ fault = some .size then .error notStoredText
  else if 0 < R.maxRepoBytes ∧
      R.maxRepoBytes < db.storedBytes p.repo.id + (rows.map ObjectRow.size).sum then
    .error ("repository over its cap of ".toList ++ number L.maxRepoBytes ++ " bytes".toList)
  else if 0 < R.maxObjectBytes ∧ rows.any (fun o => R.maxObjectBytes < o.size) then
    .error (objectOverText L)
  else if rows ≠ [] ∧ fault = some .write then .error notStoredText
  else .ok (db.putObjects rows)

def Push.keep (fault : Option CommitFault) : Db × Push :=
  if 0 < p.pending ∧ p.reachable ≠ [] then
    match p.commit G L db fault with
    | .ok db' => (db', { p with phase := .kept })
    | .error text =>
      (db, { { p with unpack := text }.refuseRest .unpackFailed with phase := .kept })
  else (db, { p with phase := .kept })

/-- `@git.res`, as the stack left it. -/
inductive Response
  | denied (reason : Str)
  | absent
  | res (ok : Bool) (msg : Str)
  deriving DecidableEq

inductive LaneAnswer
  | noLanes
  | unsubscribed
  | busTimeout
  | deadline
  | response (res : Response)
  deriving DecidableEq

structure Answer where
  ok : Bool
  msg : Str
  deriving DecidableEq

def declinedText : Str :=
  "declined by the repository's stack".toList

def translateAnswer : Response → Answer
  | .denied reason => ⟨false, "service unavailable: ".toList ++ reason⟩
  | .absent => ⟨false, declinedText⟩
  | .res ok msg => ⟨ok, if ok = false ∧ msg = [] then declinedText else msg⟩

def LaneAnswer.answer : LaneAnswer → Answer
  | .noLanes => ⟨false, "no stack to ask".toList⟩
  | .unsubscribed => ⟨false, "no _git stack to decide this push".toList⟩
  | .busTimeout => ⟨false, "stack unavailable".toList⟩
  | .deadline => ⟨false, "the stack did not answer in time".toList⟩
  | .response res => translateAnswer res

def Push.asks : Bool :=
  0 < p.pending && p.repo.policyPush != .opened

def Push.hear (a : LaneAnswer) : Push :=
  if p.asks && !a.answer.ok then { p.refuseRest (.declined a.answer.msg) with phase := .asked }
  else { p with phase := .asked }

def oldOf (cmds : List Command) (name : Str) : Oid :=
  match cmds.find? (·.name == name) with
  | none => zeroOID
  | some cmd => cmd.old

structure Effect where
  db : Db
  push : Push
  moved : List RefUpdate
  deriving DecidableEq

/-- A ref was not where its command has it: that one is refused for it, and the rest with it. -/
def Push.refuseMoved (e : RefMoved) : Push :=
  (p.refuse e.name
    (.refMoved (shortHash (oldOf p.commands e.name))
      (shortHash (e.current.getD zeroOID)))).refuseRest .atomic

/-- The refs, all or none. -/
def Push.update (fault : Bool) : Effect :=
  if p.pending = 0 then ⟨db, { p with phase := .done false }, []⟩
  else if fault then ⟨db, { p.refuseRest .atomic with phase := .done false }, []⟩
  else match db.compareAndSetRefs p.repo.id p.actor p.commands with
    | .ok db' => ⟨db', { p with phase := .done true }, p.commands⟩
    | .error e => ⟨db, { p.refuseMoved e with phase := .done false }, []⟩

end Moving

section System

inductive Input
  | refs
  | receive (pack : Pack)
  | walk (lost : List Oid)
  | inspect (lost : List Oid)
  | keep (fault : Option CommitFault)
  | ask (answer : LaneAnswer)
  | update (fault : Bool)
  deriving DecidableEq

inductive Event
  | create (repo : NewRepo)
  | remove (id : Nat)
  | openPush (tenant name : Str) (principal credential : String) (commands : List Command)
      (reportStatus : Bool)
  | step (i : Nat) (input : Input)
  deriving DecidableEq

/-- `history` has all moves of refs there were, with the push that made each. -/
structure World where
  db : Db
  pushes : List Push
  history : List (Nat × RefUpdate)
  deriving DecidableEq

def World.start : World :=
  ⟨⟨[], [], [], [], 0⟩, [], []⟩

variable (G : GoGit) (L : Limits)

def Push.step (db : Db) (p : Push) : Input → Option Effect
  | .refs => match p.phase with
    | .opened => some ⟨db, p.readRefs G db, []⟩
    | _ => none
  | .receive pack => match p.phase with
    | .checked => some ⟨db, p.receive G L pack, []⟩
    | _ => none
  | .walk lost => match p.phase with
    | .walking todo => some ⟨db, p.walk G (p.has db lost) todo, []⟩
    | _ => none
  | .inspect lost => match p.phase with
    | .inspecting cmd todo => some ⟨db, p.look G L (p.has db lost) cmd todo, []⟩
    | _ => none
  | .keep fault => match p.phase with
    | .walked => some ⟨(p.keep G L db fault).1, (p.keep G L db fault).2, []⟩
    | _ => none
  | .ask a => match p.phase with
    | .kept => some ⟨db, p.hear a, []⟩
    | _ => none
  | .update fault => match p.phase with
    | .asked => some (p.update db fault)
    | _ => none

def World.next (w : World) : Event → Option World
  | .create r => some { w with db := w.db.createRepo r }
  | .remove id => (w.db.removeRepo id).map fun db => { w with db := db }
  | .openPush tenant name principal credential commands reportStatus =>
    (w.db.getRepo tenant name).map fun repo =>
      { w with
        pushes := w.pushes ++ [Git.openPush repo principal credential commands reportStatus] }
  | .step i input => do
    let p ← w.pushes[i]?
    let e ← p.step G L w.db input
    some ⟨e.db, w.pushes.set i e.push, w.history ++ e.moved.map fun u => (i, u)⟩

end System

section Refusing

variable {p : Push}

theorem refuse_eq (p : Push) (name : Str) (why : Refusal) :
    ∃ refused, p.refuse name why = { p with refused := refused } := by
  rw [Push.refuse]
  split
  · exact ⟨p.refused, rfl⟩
  · exact ⟨_, rfl⟩

theorem foldl_refused_eq {f : Push → Command → Push}
    (hf : ∀ p cmd, ∃ refused, f p cmd = { p with refused := refused }) (cmds : List Command)
    (p : Push) :
    ∃ refused, cmds.foldl f p = { p with refused := refused } := by
  induction cmds generalizing p with
  | nil => exact ⟨p.refused, rfl⟩
  | cons cmd cmds ih =>
    obtain ⟨refused, heq⟩ := hf p cmd
    obtain ⟨refused', heq'⟩ := ih (f p cmd)
    refine ⟨refused', ?_⟩
    rw [List.foldl_cons, heq', heq]

theorem refuseRest_eq (p : Push) (why : Refusal) :
    ∃ refused, p.refuseRest why = { p with refused := refused } :=
  foldl_refused_eq (fun p cmd => refuse_eq p cmd.name why) p.commands p

theorem checkCommands_eq (G : GoGit) (p : Push) :
    ∃ refused, p.checkCommands G = { p with refused := refused } := by
  refine foldl_refused_eq (fun p cmd => ?_) p.commands p
  split
  · exact ⟨p.refused, rfl⟩
  · exact refuse_eq p cmd.name _

theorem refuseMoved_eq (p : Push) (e : RefMoved) :
    ∃ refused, p.refuseMoved e = { p with refused := refused } := by
  obtain ⟨refused, heq⟩ := refuse_eq p e.name
    (.refMoved (shortHash (oldOf p.commands e.name)) (shortHash (e.current.getD zeroOID)))
  rw [Push.refuseMoved, heq]
  exact refuseRest_eq _ .atomic

theorem isRefused_refuse {name name' : Str} {why : Refusal} :
    (p.refuse name why).isRefused name' = true ↔ p.isRefused name' = true ∨ name' = name := by
  rw [Push.refuse]
  split
  · next h =>
    refine ⟨.inl, fun hor => hor.elim id ?_⟩
    rintro rfl
    exact h
  · rw [Push.isRefused, Push.isRefused]
    dsimp only
    rw [List.lookup_append]
    by_cases hname : name' = name
    · subst hname
      simp
    · have hb : (name' == name) = false := by simpa using hname
      simp [List.lookup_cons, hb, hname]

theorem isRefused_foldl {why : Refusal} {name : Str} (cmds : List Command) :
    (cmds.foldl (fun p cmd => p.refuse cmd.name why) p).isRefused name = true ↔
      p.isRefused name = true ∨ ∃ cmd ∈ cmds, name = cmd.name := by
  induction cmds generalizing p with
  | nil => simp
  | cons cmd cmds ih =>
    rw [List.foldl_cons, ih, isRefused_refuse, or_assoc, List.exists_mem_cons_iff]

def AllRefused (p : Push) : Prop :=
  ∀ cmd ∈ p.commands, p.isRefused cmd.name = true

theorem allRefused_refuseRest (p : Push) (why : Refusal) : AllRefused (p.refuseRest why) := by
  intro cmd hcmd
  obtain ⟨refused, heq⟩ := refuseRest_eq p why
  rw [heq] at hcmd
  exact (isRefused_foldl p.commands).mpr (.inr ⟨cmd, hcmd, rfl⟩)

theorem allRefused_refuseMoved (p : Push) (e : RefMoved) : AllRefused (p.refuseMoved e) :=
  allRefused_refuseRest _ .atomic

theorem isRefused_of_nil {name : Str} (h : p.refused = []) : p.isRefused name = false := by
  rw [Push.isRefused, h]
  rfl

theorem pending_eq_zero_iff : p.pending = 0 ↔ AllRefused p := by
  rw [Push.pending, List.countP_eq_zero]
  exact forall₂_congr fun cmd _ => by simp

end Refusing

end ThanksComputer.Git
