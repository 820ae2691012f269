import ThanksComputer.Call.Frames
import ThanksComputer.Net.Text

/-! The paths of a version's files: which are accepted, and what an activation reads in them. -/

namespace ThanksComputer.Admin

open Net

section Names

/-- What a path is checked with: `unicode.ToUpper`, `strconv.Quote`, and the word of the packages of
the asset directories on a path of theirs. -/
structure Names where
  toUpper : Char → Char
  quote : Str → String
  assetFault : Str → Option String

def assetDirs : List Str :=
  ["FILES", "VECTORS", "KV", "CALENDARS", "CONTACTS", "DATASETS", "BLOBS", "SOURCES", "OUTLETS",
    "SANDBOXES", "CAPS",
    "CALLS", "COMPUTES", "STACKDIR", "PROVIDERS", "CONNECTIONS"].map String.toList

def isAsset (p : Str) : Bool :=
  assetDirs.any fun dir => (dir ++ ['/']).isPrefixOf p

def maxOpNameLen : Nat := 64

variable (N : Names)

/-- `opname.Valid`. -/
def opNameFault (name : Str) : Option String :=
  if name = [] then some "invalid name: operation name is empty"
  else if maxOpNameLen < (String.ofList name).utf8ByteSize then
    some ("invalid name: operation name " ++ N.quote name ++ " exceeds " ++ toString maxOpNameLen ++
      " chars")
  else if !Call.validSegment name then
    some ("invalid name: operation name " ++ N.quote name ++ " must match [A-Za-z0-9_-]+")
  else none

end Names

section Parse

/-- A number and a slash at the start of a path, and the rest of it. -/
def numbered (p : Str) : Option (Str × Str) :=
  match p.takeWhile Char.isDigit, p.dropWhile Char.isDigit with
  | d :: ds, '/' :: rest => some (d :: ds, rest)
  | _, _ => none

/-- `pathRe`, `^(\d+)/(.+)$`: a dot is no newline. -/
def pathRe (p : Str) : Option (Str × Str) :=
  (numbered p).filter fun m => m.2 != [] && !m.2.contains '\n'

def spelled (digits : Str) : Nat :=
  Nat.ofDigitChars 10 digits 0

/-- `strconv.Atoi`, whose error is not looked at: a number out of range is the largest. -/
def atoi (digits : Str) : Nat :=
  min (spelled digits) Ops.maxInt

def txcl : Str := ".txcl".toList
def legacy : Str := "_legacy_".toList
def mockRequest : Str := "mock-request.json".toList
def mockResponse : Str := "mock-response.json".toList

def ruleName (rest : Str) : Str :=
  let base := (cutSuffix txcl rest).getD rest
  if legacy.isPrefixOf base then [] else base

inductive Mock
  | req
  | res
  deriving DecidableEq

def Mock.base : Mock → Str
  | .req => mockRequest
  | .res => mockResponse

inductive PathFile
  | mock (kind : Mock) (scope : Nat)
  | rule (scope : Nat) (name : Str)
  deriving DecidableEq

def parseStackPath (p : Str) : Option PathFile :=
  (pathRe p).bind fun m =>
    if m.2 = mockRequest then some (.mock .req (atoi m.1))
    else if m.2 = mockResponse then some (.mock .res (atoi m.1))
    else if txcl.isSuffixOf m.2 then some (.rule (atoi m.1) (ruleName m.2))
    else none

end Parse

section Validate

/-- The segments that `path.Clean` keeps of a relative path. -/
def cleanRelSegs (segs : List Str) : List Str :=
  segs.foldl (fun acc seg =>
    if seg = [] ∨ seg = ['.'] then acc
    else if seg = ['.', '.'] ∧ acc ≠ [] ∧ acc.getLast? ≠ some ['.', '.'] then acc.dropLast
    else acc ++ [seg]) []

/-- `path.Clean` of a relative path. -/
def cleanRel (p : Str) : Str :=
  match cleanRelSegs (p.splitOn '/') with
  | [] => ['.']
  | segs => ['/'].intercalate segs

variable (N : Names)

/-- What `validateStackFilePath` says of a path by its last part. -/
def extensionFault (p : Str) : Option String :=
  if txcl.isSuffixOf p then
    match pathRe p with
    | some (_, rest) =>
      let stem := (cutSuffix txcl rest).getD rest
      if legacy.isPrefixOf stem then none else opNameFault N stem
    | none => none
  else if ".json".toList.isSuffixOf p then
    let base := (p.reverse.takeWhile (· != '/')).reverse
    if base = mockRequest ∨ base = mockResponse then none
    else some ".json files must be named mock-request.json or mock-response.json"
  else some "unsupported extension; only .txcl and the two mock-*.json fixtures are allowed"

def validateStackFilePath (p : Str) : Option String :=
  let first := p.takeWhile (· != '/')
  let up := first.map N.toUpper
  if p = [] then some "empty path"
  else if 1024 < (String.ofList p).utf8ByteSize then
    some ("path exceeds 1024 bytes (" ++ toString (String.ofList p).utf8ByteSize ++ ")")
  else if p.head? = some '/' then some "path must be relative, not absolute"
  else if p ≠ cleanRel p then some "path must be normalised (no '.', '..', '//', or trailing '/')"
  else if (p.splitOn '/').any (· == []) then some "empty path segment"
  else if (p.splitOn '/').any (fun seg => seg == ['.'] || seg == ['.', '.']) then
    some "'.' and '..' segments are not allowed"
  else if first ≠ [] ∧ assetDirs.contains up ∧ first ≠ up then
    some ("directory " ++ N.quote first ++ " must be exact-case " ++ N.quote up)
  else if "FILES/".toList.isPrefixOf p then none
  else if isAsset p then N.assetFault p
  else extensionFault N p

end Validate

end ThanksComputer.Admin
