import Mathlib.Data.Char
import Mathlib.Data.List.Lex
import Mathlib.Data.List.Sort
import ThanksComputer.Lib.Assoc
import ThanksComputer.Net.Address

/-! The name plane of the blob store (`blob/names.go`, `blob/index.go`, `blob/kvindex.go`): which
names there are, what a row says, and the index as its callers see it. -/

namespace ThanksComputer.Blob

open Lib (byteLen)
open Net Lib.Assoc

section Names

def maxNameBytes : Nat := 250

def maxSegmentBytes : Nat := 128

inductive NameError
  | empty
  | tooLong (bytes : Nat)
  | emptySegment
  | dots
  | reserved
  | charset (seg : Str)
  deriving DecidableEq

/-- `segRe`. -/
def matchesSegment (seg : Str) : Bool :=
  seg != [] && decide (seg.length ≤ maxSegmentBytes) &&
    seg.all fun c => c.isAlphanum || c == '.' || c == '_' || c == '-'

def validSegment (seg : Str) : Option NameError :=
  if seg = [] then some .emptySegment
  else if seg = ['.'] ∨ seg = ['.', '.'] then some .dots
  else if seg.head? = some '_' then some .reserved
  else if matchesSegment seg then none
  else some (.charset seg)

/-- `ValidName`; `none` is a well-formed name. -/
def validName (name : Str) : Option NameError :=
  if name = [] then some .empty
  else if maxNameBytes < byteLen name then some (.tooLong (byteLen name))
  else (name.splitOn '/').findSome? validSegment

def validSha256 (s : Str) : Bool :=
  s.length == 64 && s.all fun c => c.isDigit || ('a'.toNat ≤ c.toNat && c.toNat ≤ 'f'.toNat)

end Names

section Rows

/-- What a name points at.  Times are in seconds, and zero is no time. -/
structure NameRow where
  sha256 : Str
  size : Nat
  contentType : String
  filename : String
  permissions : List String
  seededBy : String
  seededSHA : Str
  createdAt : Nat
  updatedAt : Nat
  deriving DecidableEq

/-- A seeded name that the runtime has pointed elsewhere. -/
def NameRow.drifted (r : NameRow) : Bool :=
  r.seededSHA != [] && r.sha256 != r.seededSHA

/-- That the tenant has put, or seeded, the bytes of a hash. -/
structure ShaRow where
  size : Nat
  contentType : String
  firstSeen : Nat
  deriving DecidableEq

/-- A tenant's part of the index.  `PutName` lets no other names in. -/
structure Index where
  names : List (Str × NameRow)
  shas : List (Str × ShaRow)
  valid : ∀ e ∈ names, validName e.1 = none

namespace Index

variable (ix : Index)

def getName (name : Str) : Option NameRow :=
  ix.names.lookup name

def putName (name : Str) (row : NameRow) : Except NameError Index :=
  match h : validName name with
  | some e => .error e
  | none => .ok
    { ix with
      names := upsert name (fun _ => row) ix.names
      valid := fun e he => (mem_upsert he).elim (fun heq => heq ▸ h) (ix.valid e) }

def deleteName (name : Str) : Index :=
  { ix with
    names := ix.names.filter fun e => e.1 != name
    valid := fun e he => ix.valid e (List.mem_of_mem_filter he) }

def listNames : List (Str × NameRow) :=
  ix.names.insertionSort fun a b => a.1 ≤ b.1

def putShaIfAbsent (sha : Str) (row : ShaRow) : Index :=
  if (ix.shas.lookup sha).isSome then ix else { ix with shas := ix.shas ++ [(sha, row)] }

variable {ix} {ix' : Index} {name other : Str} {row : NameRow}

theorem validName_of_getName (h : ix.getName name = some row) : validName name = none :=
  ix.valid (name, row) (mem_of_lookup h)

theorem getName_putName (h : ix.putName name row = .ok ix') : ix'.getName name = some row := by
  rw [putName] at h
  split at h
  · cases h
  · cases h
    exact lookup_upsert_self name (fun _ => row) ix.names

theorem getName_putName_of_ne (h : ix.putName name row = .ok ix') (hne : other ≠ name) :
    ix'.getName other = ix.getName other := by
  rw [putName] at h
  split at h
  · cases h
  · cases h
    exact lookup_upsert_of_ne hne (fun _ => row) ix.names

theorem getName_deleteName_of_ne (hne : other ≠ name) :
    (ix.deleteName name).getName other = ix.getName other :=
  lookup_filter_of_ne hne ix.names

theorem getName_putShaIfAbsent (sha : Str) (srow : ShaRow) :
    (ix.putShaIfAbsent sha srow).getName name = ix.getName name := by
  rw [putShaIfAbsent]
  split
  · rfl
  · rfl

end Index

end Rows

section Runtime

/-- What a `blob/put` points a name at. -/
structure Put where
  name : Str
  sha : Str
  size : Nat
  contentType : String
  filename : String
  permissions : Option (List String)
  now : Nat
  deriving DecidableEq

def Put.type (defaultContentType : Str → String) (p : Put) (prior : Option NameRow) : String :=
  let given := if p.contentType = "" then (prior.map NameRow.contentType).getD "" else p.contentType
  if given ≠ "" then given
  else if p.filename ≠ "" then defaultContentType p.filename.toList
  else defaultContentType p.name

/-- The row of a `blob/put`, which keeps the bookkeeping of the row that it found. -/
def Put.row (defaultContentType : Str → String) (p : Put) (prior : Option NameRow) : NameRow :=
  let ct := p.type defaultContentType prior
  match prior with
  | none => ⟨p.sha, p.size, ct, p.filename, p.permissions.getD [], "", [], p.now, p.now⟩
  | some r =>
    ⟨p.sha, p.size, ct, if p.filename = "" then r.filename else p.filename,
      p.permissions.getD r.permissions,
      r.seededBy, r.seededSHA, if r.createdAt = 0 then p.now else r.createdAt, p.now⟩

end Runtime

end ThanksComputer.Blob
