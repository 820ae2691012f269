import Mathlib.Data.List.Infix
import ThanksComputer.Lib.Checks
import ThanksComputer.Txcl.Spans

/-! `txcl/include`: every `&include("path")` of a source is replaced by the file's contents, written
as a string literal. -/

namespace ThanksComputer.Txcl.Include

open scoped Lib.Checks

def maxBytes : Nat := 1048576

/-- The directive's name after the `&`. -/
def fn : Bytes := "include".toList

/-- One `&include("path")`: its span from the `&` through the closing bracket. -/
structure Ref where
  start : Nat
  stop : Nat
  path : Bytes
  line : Nat

structure SyntaxError where
  line : Nat
  msg : String

section Find

def isDirective (tok : Token) : Bool :=
  tok.type == .ampIdent && tok.literal == fn

def lineAt (src : Bytes) (pos : Nat) : Nat :=
  1 + (src.take pos).count '\n'

def argument (src : Bytes) : List SpanTok → Option (SpanTok × SpanTok)
  | left :: arg :: right :: _ =>
    if left.tok.type = .lparen ∧ arg.tok.type = .string ∧ src.getD arg.start nul = '"' ∧
        right.tok.type = .rparen then some (arg, right)
    else none
  | _ => none

/-- The loop of `Find` over the tokens. -/
def findFrom (src : Bytes) (lexErrs : List String) : List SpanTok → Except SyntaxError (List Ref)
  | [] => .ok []
  | t :: ts =>
    if isDirective t.tok then
      match lexErrs with
      | e :: _ => .error ⟨lineAt src t.start, "&include: " ++ e⟩
      | [] =>
        match argument src ts with
        | none => .error ⟨lineAt src t.start, "&include takes one quoted path: &include(\"file\")"⟩
        | some (arg, right) =>
          (findFrom src lexErrs ts).map
            (⟨t.start, right.stop, arg.tok.literal, lineAt src t.start⟩ :: ·)
    else findFrom src lexErrs ts

def find (src : Bytes) : Except SyntaxError (List Ref) :=
  if ('&' :: fn) <:+: src then
    match lex src with
    | some (toks, lexErrs) => findFrom src lexErrs toks
    -- a panic of the lexer, which `lex_isSome` rules out
    | none => .ok []
  else .ok []

end Find

section Quote

def quoteChar (c : Char) : Bytes :=
  match c with
  | '\\' => ['\\', '\\']
  | '"' => ['\\', '"']
  | '\n' => ['\\', 'n']
  | '\r' => ['\\', 'r']
  | '\t' => ['\\', 't']
  | c => [c]

/-- `Quote`: a text as a txcl string literal. -/
def quote (s : Bytes) : Bytes :=
  '"' :: s.flatMap quoteChar ++ ['"']

end Quote

section Paths

/-- The segments `path.Clean` keeps. -/
def cleanSegs (rooted : Bool) : List Bytes → List Bytes → List Bytes
  | kept, [] => kept
  | kept, seg :: segs =>
    if seg = [] ∨ seg = ['.'] then cleanSegs rooted kept segs
    else if seg = ['.', '.'] then
      if kept = [] ∨ kept.getLast? = some ['.', '.'] then
        cleanSegs rooted (if rooted then kept else kept ++ [seg]) segs
      else cleanSegs rooted kept.dropLast segs
    else cleanSegs rooted (kept ++ [seg]) segs

def isAbs (p : Bytes) : Bool :=
  head p == '/'

/-- `path.Clean`. -/
def clean (p : Bytes) : Bytes :=
  let body := List.intercalate ['/'] (cleanSegs (isAbs p) [] (p.splitOn '/'))
  if isAbs p then '/' :: body else if body = [] then ['.'] else body

/-- `path.Join`: empty elements are left out. -/
def join (elems : List Bytes) : Bytes :=
  let elems := elems.filter (· ≠ [])
  if elems = [] then [] else clean (List.intercalate ['/'] elems)

/-- `path.Dir`. -/
def dir (p : Bytes) : Bytes :=
  clean (p.reverse.dropWhile (· != '/')).reverse

end Paths

section Utf8

def isCont (c : Char) : Bool :=
  decide (128 ≤ c.toNat) && decide (c.toNat ≤ 191)

/-- The bytes that may follow a first byte, as `utf8.Valid` takes them. -/
def validTail (b : Nat) (c : Char) : Bool :=
  if b = 224 then isCont c && decide (160 ≤ c.toNat)
  else if b = 237 then isCont c && decide (c.toNat ≤ 159)
  else if b = 240 then isCont c && decide (144 ≤ c.toNat)
  else if b = 244 then isCont c && decide (c.toNat ≤ 143)
  else isCont c

/-- `utf8.Valid`: `more` continuation bytes are missing, the next of them under the first byte
`b`. -/
def validUtf8 (b more : Nat) : Bytes → Bool
  | [] => decide (more = 0)
  | c :: s =>
    if more ≠ 0 then validTail b c && validUtf8 128 (more - 1) s
    else if c.toNat < 128 then validUtf8 128 0 s
    else if 194 ≤ c.toNat ∧ c.toNat ≤ 223 then validUtf8 c.toNat 1 s
    else if 224 ≤ c.toNat ∧ c.toNat ≤ 239 then validUtf8 c.toNat 2 s
    else if 240 ≤ c.toNat ∧ c.toNat ≤ 244 then validUtf8 c.toNat 3 s
    else false

def bom : Bytes := [Char.ofNat 239, Char.ofNat 187, Char.ofNat 191]

def trimBom (raw : Bytes) : Bytes :=
  if bom.isPrefixOf raw then raw.drop bom.length else raw

end Utf8

structure FileInfo where
  symlink : Bool
  regular : Bool
  size : Nat

inductive FsError
  | notExist
  | other (msg : String)

/-- The file system of a checkout, and `strconv.Quote` for the messages. -/
structure Tree where
  lstat : Bytes → Except FsError FileInfo
  readFile : Bytes → Except String Bytes
  quoted : Bytes → String

namespace Tree

variable (T : Tree)

def shown (p : Bytes) : String :=
  String.ofList p

/-- The walk over the segments below the stack directory, which refuses a symlink at any of them. -/
def statSegs (p : Bytes) : Bytes → FileInfo → List Bytes → Except String FileInfo
  | _, fi, [] => .ok fi
  | cur, _, seg :: segs =>
    match T.lstat (join [cur, seg]) with
    | .error .notExist => .error ("no such file " ++ shown p)
    | .error (.other msg) => .error msg
    | .ok fi =>
      if fi.symlink then
        .error (shown (join [cur, seg]) ++ " is a symlink; include the file itself")
      else statSegs p (join [cur, seg]) fi segs

def tooLarge (p : Bytes) (size : Nat) : String :=
  shown p ++ " is " ++ toString size ++ " bytes; the limit is " ++ toString maxBytes

def decode (p raw : Bytes) : Except String (Bytes × Bytes) :=
  if maxBytes < raw.length then .error (tooLarge p raw.length)
  else if !validUtf8 128 0 (trimBom raw) then .error (shown p ++ " is not UTF-8 text")
  else if nul ∈ trimBom raw then
    .error (shown p ++ " contains a NUL byte, which a txcl string cannot hold")
  else .ok (p, trimBom raw)

def read (stackDir dir rel : Bytes) : Except String (Bytes × Bytes) :=
  if rel = [] then .error "empty path"
  else if isAbs rel then .error "absolute path; name the file relative to this .txcl"
  else if !(stackDir ++ ['/']).isPrefixOf (join [dir, rel]) then
    .error ("resolves outside the stack directory " ++ shown stackDir ++
      "/; included files travel with their stack, so keep them inside it")
  else
    let p := join [dir, rel]
    match T.statSegs p stackDir ⟨false, false, 0⟩ ((p.drop (stackDir.length + 1)).splitOn '/') with
    | .error msg => .error msg
    | .ok fi =>
      if !fi.regular then .error (shown p ++ " is not a regular file")
      else if maxBytes < fi.size then .error (tooLarge p fi.size)
      else
        match T.readFile p with
        | .error msg => .error msg
        | .ok raw => decode p raw

/-- The loop of `Expand`: what it writes from `last` on, and the files read so far, once each. -/
def expandFrom (stackDir txclPath src : Bytes) :
    Nat → List Bytes → List Ref → Except String (Bytes × List Bytes)
  | last, deps, [] => .ok (src.drop last, deps)
  | last, deps, r :: refs =>
    match T.read stackDir (dir txclPath) r.path with
    | .error msg =>
      .error (shown txclPath ++ ":" ++ toString r.line ++ ": &include(" ++ T.quoted r.path ++
        "): " ++ msg)
    | .ok (p, text) =>
      (expandFrom stackDir txclPath src r.stop (if p ∈ deps then deps else deps ++ [p]) refs).map
        fun out =>
        ((src.take r.start).drop last ++ (quote text ++ out.1), out.2)

def expand (stackDir txclPath src : Bytes) : Except String (Bytes × List Bytes) :=
  match find src with
  | .error e => .error (shown txclPath ++ ":" ++ toString e.line ++ ": " ++ e.msg)
  | .ok [] => .ok (src, [])
  | .ok refs => T.expandFrom stackDir txclPath src 0 [] refs

end Tree

end ThanksComputer.Txcl.Include
