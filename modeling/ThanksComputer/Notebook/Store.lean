import Mathlib.Algebra.Ring.Nat
import Mathlib.Data.Char
import Mathlib.Data.List.Lex
import ThanksComputer.Lib.Table
import ThanksComputer.Net.Address

/-! The notebook store and its writes (`notebook/store.go`, `notebook/names.go`). -/

namespace ThanksComputer.Notebook

open Net Lib
open Guard (isSpace)

section Stamps

def pad (width n : Nat) : Str :=
  let digits := Nat.toDigits 10 n
  List.replicate (width - digits.length) '0' ++ digits

def civil (days : Int) : Int × Nat × Nat :=
  let z := days + 719468
  let era := Int.fdiv z 146097
  let doe := (Int.fmod z 146097).toNat
  let yoe := (doe - doe / 1460 + doe / 36524 - doe / 146096) / 365
  let doy := doe - (365 * yoe + yoe / 4 - yoe / 100)
  let mp := (5 * doy + 2) / 153
  let month := if mp < 10 then mp + 3 else mp - 9
  (yoe + era * 400 + (if month ≤ 2 then 1 else 0), month, doy - (153 * mp + 2) / 5 + 1)

/-- `FormatAt`: the text that is stored and compared, of an instant in nanoseconds. -/
def formatAt (t : Int) : Str :=
  let secs := Int.fdiv t second
  let day := civil (Int.fdiv secs 86400)
  let sod := (Int.fmod secs 86400).toNat
  (if day.1 < 0 then ['-'] else []) ++ pad 4 day.1.natAbs ++ ['-'] ++ pad 2 day.2.1 ++ ['-'] ++
    pad 2 day.2.2 ++ ['T'] ++ pad 2 (sod / 3600) ++ [':'] ++ pad 2 (sod / 60 % 60) ++ [':'] ++
    pad 2 (sod % 60) ++ ['.'] ++ pad 9 (Int.fmod t second).toNat ++ ['Z']

example : formatAt (1709210096 * second + 5) = "2024-02-29T12:34:56.000000005Z".toList := by
  decide +kernel

end Stamps

section Names

structure Ref where
  tenant : Str
  space : Str
  name : Str
  deriving DecidableEq

/-- `Ref.ID`: the row key. -/
def Ref.id (r : Ref) : Str :=
  r.tenant ++ ['/'] ++ r.space ++ ['/'] ++ r.name

inductive NameFault
  | empty
  | tooLong (bytes : Nat)
  | emptySegment
  | dotSegment
  | reserved
  | charset (segment : Str)
  deriving DecidableEq

inductive Field
  | type
  | objectKey
  | data
  deriving DecidableEq

/-- The errors of the package; a `StoreError` names its operation. -/
inductive Error
  | invalidTenant
  | invalidNamespace (space : Str)
  | invalidName (fault : NameFault)
  | emptyType
  | invalidType (type : Str)
  | invalidData
  | negativeWindow
  | emptyWindow
  | tooLarge (field : Field) (max got : Nat)
  | staleCursor
  | store (op : String)
  deriving DecidableEq

def segOK (s : Str) : Bool :=
  !s.isEmpty && byteLen s ≤ 256 && s.all fun ch => ch != '/' && 32 ≤ ch.toNat && ch.toNat != 127

def isNameChar (ch : Char) : Bool :=
  ch.isAlphanum || ch == '.' || ch == '_' || ch == '-'

/-- What `ValidName` says of one segment. -/
def segFault (seg : Str) : Option NameFault :=
  if seg.isEmpty then some .emptySegment
  else if seg = ['.'] ∨ seg = ['.', '.'] then some .dotSegment
  else if seg.head? = some '_' then some .reserved
  else if seg.all isNameChar && seg.length ≤ 128 then none
  else some (.charset seg)

def validName (name : Str) : Option NameFault :=
  if name.isEmpty then some .empty
  else if 250 < byteLen name then some (.tooLong (byteLen name))
  else (name.splitOn '/').findSome? segFault

def validType (t : Str) : Option Error :=
  if t.isEmpty then some .emptyType
  else if 128 < byteLen t then some (.tooLarge .type 128 (byteLen t))
  else if t.all fun ch => isNameChar ch || ch == ':' then none
  else some (.invalidType t)

def Ref.validate (r : Ref) : Option Error :=
  if !segOK r.tenant then some .invalidTenant
  else if !segOK r.space then some (.invalidNamespace r.space)
  else (validName r.name).map .invalidName

end Names

section Tables

/-- A row of `notebooks`. -/
structure HeadRow where
  id : Str
  ref : Ref
  generation : Nat
  nextSeq : Nat
  ttlSecs : Option Int
  createdAt : Str
  updatedAt : Str
  deriving DecidableEq

/-- A row of `notebook_entries`.  `generation` is no column and no query reads it: it is the head's
that numbered the entry. -/
structure EntryRow where
  id : Str
  seq : Nat
  stamp : Str
  type : Str
  data : Str
  objectKey : Str
  expiresAt : Option Str
  generation : Nat
  deriving DecidableEq

/-- `expires_at IS NOT NULL AND expires_at <= ?`. -/
def EntryRow.expired (e : EntryRow) (stamp : Str) : Bool :=
  match e.expiresAt with
  | none => false
  | some exp => decide (exp ≤ stamp)

structure Db where
  heads : List HeadRow
  entries : List EntryRow
  deriving DecidableEq

def Db.empty : Db := ⟨[], []⟩

/-- The node's caps as `SetLimits` keeps them. -/
structure Limits where
  maxDataBytes : Nat
  defaultReadLimit : Nat
  maxReadLimit : Nat
  maxTTL : Int
  defaultReadLimit_pos : 0 < defaultReadLimit
  maxReadLimit_pos : 0 < maxReadLimit

/-- A node: its engine, its caps and `json.Valid`. -/
structure Node where
  postgres : Bool
  limits : Limits
  jsonValid : Str → Bool

def Node.clampTTL (node : Node) (ttl : Int) : Int :=
  if ttl < 0 then 0
  else if 0 < node.limits.maxTTL ∧ node.limits.maxTTL < ttl then node.limits.maxTTL
  else ttl

def Db.headOf (db : Db) (id : Str) : Option HeadRow :=
  db.heads.find? (·.id == id)

def Db.holder (db : Db) (id key : Str) : Option EntryRow :=
  db.entries.find? fun e => e.id == id && e.objectKey == key

end Tables

section Writes

structure AppendReq where
  ref : Ref
  type : Str
  data : Str
  objectKey : Str
  ttl : Int
  deriving DecidableEq

/-- `at` is given as it is stored. -/
structure AppendResult where
  seq : Nat
  stamp : Str
  existed : Bool
  deriving DecidableEq

variable (node : Node) (db : Db) (req : AppendReq) (now : Int) (gen : Nat)

/-- What `Append` does before any database work.  Keys and data are texts: bytes that are no UTF-8
are refused there too. -/
def Node.validate : Except Error AppendReq :=
  match req.ref.validate with
  | some err => .error err
  | none =>
    match validType req.type with
    | some err => .error err
    | none =>
      if 512 < byteLen req.objectKey then .error (.tooLarge .objectKey 512 (byteLen req.objectKey))
      else
        let data := if req.data.all isSpace then "{}".toList else req.data
        if !node.jsonValid data then .error .invalidData
        else if 0 < node.limits.maxDataBytes ∧ node.limits.maxDataBytes < byteLen data then
          .error (.tooLarge .data node.limits.maxDataBytes (byteLen data))
        else .ok { req with data := data, ttl := node.clampTTL req.ttl }

def Db.lockHead : Db × HeadRow :=
  match db.headOf req.ref.id with
  | some head => (db, head)
  | none =>
    let head := ⟨req.ref.id, req.ref, gen, 1, none, formatAt now, formatAt now⟩
    ({ db with heads := db.heads ++ [head] }, head)

/-- The two unique indexes of `notebook_entries`. -/
def Db.collides (e : EntryRow) : Bool :=
  db.entries.any fun q =>
    q.id == e.id && (q.seq == e.seq || (!e.objectKey.isEmpty && q.objectKey == e.objectKey))

/-- `UPDATE notebooks SET next_seq = next_seq + 1` and the `INSERT` of the entry it numbers; `none`
is a unique violation. -/
def Db.record (head : HeadRow) (expiresAt : Option Str) : Option (Db × EntryRow) :=
  let e : EntryRow :=
    ⟨head.id, head.nextSeq, formatAt now, req.type, req.data, req.objectKey, expiresAt,
    head.generation⟩
  if db.collides e then none
  else
    some ({ heads := Table.update (·.id == head.id)
              (fun h => { h with nextSeq := h.nextSeq + 1, updatedAt := formatAt now }) db.heads
            entries := db.entries ++ [e] }, e)

def entryExpiry (ttl now : Int) (headTTL : Option Int) : Option Str :=
  let ttl :=
    match headTTL with
    | some secs => if ttl = 0 ∧ 0 < secs then wrapInt (secs * second) else ttl
    | none => ttl
  if 0 < ttl then some (formatAt (now + ttl)) else none

/-- What one attempt comes to when no statement fails. -/
inductive Attempt
  | done (db : Db) (res : AppendResult) (recorded : Option EntryRow)
  | violated
  deriving DecidableEq

def Db.allocate (head : HeadRow) (expiresAt : Option Str) : Attempt :=
  match db.record req now head expiresAt with
  | none => .violated
  | some (db', e) => .done db' ⟨e.seq, formatAt now, false⟩ (some e)

/-- `appendOnce`.  The answer of a live original rolls the transaction back. -/
def Db.appendOnce : Attempt :=
  let (db₁, head) := db.lockHead req now gen
  let expiresAt := entryExpiry req.ttl now head.ttlSecs
  match if req.objectKey.isEmpty then none else db₁.holder head.id req.objectKey with
  | none => db₁.allocate req now head expiresAt
  | some e =>
    if e.expired (formatAt now) then
      Db.allocate { db₁ with entries := db₁.entries.filter fun q =>
        !(q.id == head.id && q.seq == e.seq) }
        req now head expiresAt
    else .done db ⟨e.seq, e.stamp, true⟩ none

/-- The guards of `appendFast`'s statement. -/
def Db.fastGuard (head : HeadRow) : Bool :=
  (decide (0 < req.ttl) || head.ttlSecs.all (decide <| · ≤ 0)) &&
    (req.objectKey.isEmpty || (db.holder head.id req.objectKey).isNone)

/-- `appendFast`: `violated` where the statement writes nothing and the transaction takes over. -/
def Db.appendFast : Attempt :=
  match db.headOf req.ref.id with
  | none => .violated
  | some head =>
    if db.fastGuard req head then
      db.allocate req now head (if 0 < req.ttl then some (formatAt (now + req.ttl)) else none)
    else .violated

def Db.setTTL (ref : Ref) (ttl : Int) : Db :=
  let ttl := node.clampTTL ttl
  let secs :=
    if 0 < ttl then some (Int.tdiv (wrapInt (wrapInt (ttl + second) - 1)) second) else none
  match db.headOf ref.id with
  | some _ =>
    { db with
      heads := Table.update (·.id == ref.id)
        (fun h => { h with ttlSecs := secs, updatedAt := formatAt now }) db.heads }
  | none =>
    { db with heads := db.heads ++ [⟨ref.id, ref, gen, 1, secs, formatAt now, formatAt now⟩] }

/-- `Delete`: the entries, then the head. -/
def Db.delete (ref : Ref) : Db × Bool :=
  match db.headOf ref.id with
  | none => (db, false)
  | some _ =>
    ({ heads := db.heads.filter (·.id != ref.id), entries := db.entries.filter (·.id != ref.id) },
      true)

/-- The entries `Sweep` may take. -/
def Db.swept : List EntryRow :=
  db.entries.filter (·.expired (formatAt now))

/-- `Sweep`; which of the expired entries the `LIMIT` leaves is the engine's choice. -/
def Db.sweep (batch : Int) (picked : List EntryRow) : Option Db :=
  let limit := if batch ≤ 0 then 1000 else batch.toNat
  if picked.Sublist (db.swept now) ∧ picked.length = min limit (db.swept now).length then
    some { db with entries := db.entries.filter fun e => !picked.contains e }
  else none

end Writes

end ThanksComputer.Notebook
