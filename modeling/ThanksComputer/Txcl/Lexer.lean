import Mathlib.Data.Char
import Mathlib.Data.List.Basic

/-! `txcl/token` and `txcl/lexer`.  A text is the list of its bytes, a byte written as the character
of that code.  The byte 0 is also what the lexer sees past the end of its input. -/

namespace ThanksComputer.Txcl

abbrev Bytes := List Char

def nul : Char := '\x00'

inductive TokenType
  | untyped
  | illegal
  | eof
  | ident
  | int
  | string
  | null
  | assign
  | plus
  | minus
  | bang
  | asterisk
  | slash
  | matchOp
  | noMatch
  | land
  | lor
  | float
  | lt
  | ltEq
  | gt
  | gtEq
  | eq
  | notEq
  | comma
  | semicolon
  | colon
  | lparen
  | rparen
  | lbrace
  | rbrace
  | lbracket
  | rbracket
  | functionKw
  | letKw
  | setKw
  | trueKw
  | falseKw
  | ifKw
  | elseKw
  | returnKw
  | whenKw
  | selectKw
  | asKw
  | defaultKw
  | withKw
  | priorityKw
  | execKw
  | emitKw
  | loopKw
  | untilKw
  | branch
  | star
  | regex
  | ampIdent
  deriving DecidableEq, Repr

namespace TokenType

/-- A token type is a string in the source; this is what its messages show. -/
def text : TokenType → String
  | untyped => ""
  | illegal => "ILLEGAL"
  | eof => "EOF"
  | ident => "IDENT"
  | int => "INT"
  | string => "STRING"
  | null => "NULL"
  | assign => "="
  | plus => "+"
  | minus => "-"
  | bang => "!"
  | asterisk => "*"
  | slash => "/"
  | matchOp => "=~"
  | noMatch => "!~"
  | land => "&&"
  | lor => "||"
  | float => "FLOAT"
  | lt => "<"
  | ltEq => "<="
  | gt => ">"
  | gtEq => ">="
  | eq => "=="
  | notEq => "!="
  | comma => ","
  | semicolon => ";"
  | colon => ":"
  | lparen => "("
  | rparen => ")"
  | lbrace => "\x7b"
  | rbrace => "\x7d"
  | lbracket => "["
  | rbracket => "]"
  | functionKw => "FUNCTION"
  | letKw => "LET"
  | setKw => "SET"
  | trueKw => "TRUE"
  | falseKw => "FALSE"
  | ifKw => "IF"
  | elseKw => "ELSE"
  | returnKw => "RETURN"
  | whenKw => "WHEN"
  | selectKw => "SELECT"
  | asKw => "AS"
  | defaultKw => "DEFAULT"
  | withKw => "WITH"
  | priorityKw => "PRIORITY"
  | execKw => "EXEC"
  | emitKw => "EMIT"
  | loopKw => "LOOP"
  | untilKw => "UNTIL"
  | branch => "BRANCH"
  | star => "STAR"
  | regex => "REGEX"
  | ampIdent => "AMP_IDENT"

end TokenType

structure Token where
  type : TokenType
  literal : Bytes
  deriving DecidableEq, Repr

def keywords : List (Bytes × TokenType) :=
  [("fn".toList, .functionKw), ("let".toList, .letKw), ("true".toList, .trueKw),
    ("false".toList, .falseKw),
    ("if".toList, .ifKw), ("else".toList, .elseKw), ("return".toList, .returnKw),
    ("RETURN".toList, .returnKw), ("select".toList, .selectKw), ("SELECT".toList, .selectKw),
    ("as".toList, .asKw), ("AS".toList, .asKw), ("default".toList, .defaultKw),
    ("DEFAULT".toList, .defaultKw), ("with".toList, .withKw), ("WITH".toList, .withKw),
    ("when".toList, .whenKw), ("WHEN".toList, .whenKw), ("priority".toList, .priorityKw),
    ("PRIORITY".toList, .priorityKw), ("exec".toList, .execKw), ("EXEC".toList, .execKw),
    ("emit".toList, .emitKw), ("EMIT".toList, .emitKw), ("loop".toList, .loopKw),
      ("LOOP".toList, .loopKw),
    ("until".toList, .untilKw), ("UNTIL".toList, .untilKw), ("set".toList, .setKw),
      ("SET".toList, .setKw),
    ("null".toList, .null), ("NULL".toList, .null)]

def lookupIdent (word : Bytes) : TokenType :=
  (keywords.lookup word).getD .ident

section Characters

def isSpace (c : Char) : Bool :=
  c == ' ' || c == '\t' || c == '\n' || c == '\r'

def isLetter (c : Char) : Bool :=
  ('a' ≤ c && c ≤ 'z') || ('A' ≤ c && c ≤ 'Z') || c == '_'

def isNumeric (c : Char) : Bool :=
  '0' ≤ c && c ≤ '9'

def isDigit (c : Char) : Bool :=
  isNumeric c || c == '.' || c == '-'

def isWordChar (c : Char) : Bool :=
  isLetter c || isNumeric c

def isBranchChar (c : Char) : Bool :=
  isLetter c || isNumeric c || c == '.' || c == '-'

def isBinding (type : TokenType) : Bool :=
  type == .matchOp || type == .noMatch

/-- `string(ch)` of a byte: the UTF-8 form of the code point of that number. -/
def utf8 (c : Char) : Bytes :=
  if c.toNat < 128 then [c] else [Char.ofNat (192 + c.toNat / 64), Char.ofNat (128 + c.toNat % 64)]

def newToken (type : TokenType) (c : Char) : Token :=
  ⟨type, utf8 c⟩

end Characters

section Literals

/-- What `readString` writes for the byte behind a backslash. -/
def unescape (c : Char) : Bytes :=
  match c with
  | '"' => ['"']
  | '\\' => ['\\']
  | 'n' => ['\n']
  | 'r' => ['\r']
  | 't' => ['\t']
  | c => ['\\', c]

/-- What `appendQuotedSegment` writes for a byte of the segment. -/
def escapePath (c : Char) : Bytes :=
  if c = '\\' ∨ c = '.' ∨ c = '*' ∨ c = '?' then ['\\', c] else [c]

/-- `strings.Replace(s, "\\/", "/", -1)`. -/
def unescapeSlash : Bytes → Bytes
  | '\\' :: '/' :: s => '/' :: unescapeSlash s
  | c :: s => c :: unescapeSlash s
  | [] => []

def base64Digit (n : Nat) : Char :=
  "ABCDEFGHIJKLMNOPQRSTUVWXYZabcdefghijklmnopqrstuvwxyz0123456789+/".toList.getD n '='

/-- `base64.StdEncoding.EncodeToString`. -/
def base64 : Bytes → Bytes
  | a :: b :: c :: s =>
    base64Digit (a.toNat / 4) :: base64Digit (a.toNat % 4 * 16 + b.toNat / 16) ::
      base64Digit (b.toNat % 16 * 4 + c.toNat / 64) :: base64Digit (c.toNat % 64) :: base64 s
  | [a, b] =>
    [base64Digit (a.toNat / 4), base64Digit (a.toNat % 4 * 16 + b.toNat / 16),
      base64Digit (b.toNat % 16 * 4),
      '=']
  | [a] => [base64Digit (a.toNat / 4), base64Digit (a.toNat % 4 * 16), '=', '=']
  | [] => []

def unterminatedString : String := "unterminated string literal"

def unterminatedRegex : String := "unterminated regex literal"

end Literals

/-- Which reader a token goes to, by its first byte, the byte behind it and the token before. -/
inductive Shape
  | one (type : TokenType)
  | two (type : TokenType)
  | bare
  | number
  | regex
  | branch
  | atBranch
  | string
  | call
  | word
  | eof
  deriving DecidableEq

/-- The cases of the switch in `NextToken`. -/
def shape (last : TokenType) (c peek : Char) : Shape :=
  match c with
  | '=' => if peek = '=' then .two .eq else if peek = '~' then .two .matchOp else .one .assign
  | '+' => .one .plus
  | '-' => if isDigit peek then .number else .one .minus
  | '!' => if peek = '=' then .two .notEq else if peek = '~' then .two .noMatch else .one .bang
  | '/' => if isBinding last then .regex else .one .slash
  | '*' => if last = .whenKw then .one .star else .one .asterisk
  | '<' => if peek = '=' then .two .ltEq else .one .lt
  | '>' => if peek = '=' then .two .gtEq else .one .gt
  | ';' => .one .semicolon
  | ':' => .one .colon
  | ',' => .one .comma
  -- a dot in front of anything but a letter leaves the zero token
  | '.' => if isLetter peek then .branch else .bare
  | '@' => if isLetter peek then .atBranch else .one .illegal
  | '{' => .one .lbrace
  | '}' => .one .rbrace
  | '(' => .one .lparen
  | ')' => .one .rparen
  | '"' => .string
  | '[' => .one .lbracket
  | ']' => .one .rbracket
  | '&' => if peek = '&' then .two .land else if isLetter peek then .call else .one .illegal
  | '|' => if peek = '|' then .two .lor else .one .illegal
  | c =>
    if c = nul then .eof
    else if isLetter c then .word
    else if isDigit c then .number
    else .one .illegal

def numberType (literal : Bytes) : TokenType :=
  if '.' ∈ literal then .float else .int

/-- The state of the lexer.  Only `readChar` moves it, so the byte under examination is always the
one at `position`. -/
structure Lexer where
  input : Bytes
  position : Nat
  readPosition : Nat
  ch : Char
  lastToken : Token
  start : Nat
  errs : List String
  ahead : readPosition = position + 1
  current : ch = input.getD position nul

/-- A slice `s[i:j]`; out of bounds it panics. -/
def slice (s : Bytes) (i j : Nat) : Option Bytes :=
  if i ≤ j ∧ j ≤ s.length then some ((s.take j).drop i) else none

namespace Lexer

def peekChar (l : Lexer) : Char :=
  if h : l.readPosition < l.input.length then l.input.get ⟨l.readPosition, h⟩ else nul

theorem peekChar_eq (l : Lexer) : l.peekChar = l.input.getD l.readPosition nul := by
  unfold peekChar
  split
  · next h => simp [h]
  · next h => simp [Nat.le_of_not_lt h]

def readChar (l : Lexer) : Lexer where
  input := l.input
  position := l.readPosition
  readPosition := l.readPosition + 1
  ch := l.peekChar
  lastToken := l.lastToken
  start := l.start
  errs := l.errs
  ahead := rfl
  current := l.peekChar_eq

/-- `lexer.New`. -/
def new (input : Bytes) : Lexer where
  input := input
  position := 0
  readPosition := 1
  ch := input.getD 0 nul
  lastToken := ⟨.untyped, []⟩
  start := 0
  errs := []
  ahead := rfl
  current := rfl

def error (l : Lexer) (msg : String) : Lexer :=
  { l with errs := l.errs ++ [msg] }

def spanEnd (l : Lexer) : Nat :=
  min l.position l.input.length

def span (l : Lexer) : Nat × Nat :=
  (l.start, l.spanEnd)

section Loops

/-- `for p(l.ch) { l.readChar() }`. -/
def advanceWhile (p : Char → Bool) : Nat → Lexer → Lexer
  | 0, l => l
  | n + 1, l => if p l.ch then advanceWhile p n l.readChar else l

/-- The bytes that are left bound the turns of every loop. -/
def turns (l : Lexer) : Nat :=
  l.input.length + 1 - l.position

def skipWhitespace (l : Lexer) : Lexer :=
  advanceWhile isSpace l.turns l

def skipComment (l : Lexer) : Lexer :=
  (advanceWhile (fun c => c != '\n' && c != nul) l.turns l).skipWhitespace

def readRun (p : Char → Bool) (l : Lexer) : Option (Bytes × Lexer) :=
  let l' := advanceWhile p l.turns l
  (slice l.input l.position l'.position).map fun s => (s, l')

def readIdentifier (l : Lexer) : Option (Bytes × Lexer) :=
  l.readRun isWordChar

def readNumber (l : Lexer) : Option (Bytes × Lexer) :=
  l.readRun isDigit

/-- `b` is what the builder holds. -/
def appendQuotedSegment : Nat → Bytes → Lexer → Bytes × Lexer
  | 0, b, l => (b, l)
  | n + 1, b, l =>
    let l := l.readChar
    if l.ch = nul ∨ l.ch = '"' then (b, l)
    else appendQuotedSegment n (b ++ escapePath l.ch) l

def scanBranchFrom : Nat → Bytes → Lexer → Bytes × Lexer
  | 0, b, l => (b, l)
  | n + 1, b, l =>
    if l.peekChar = '"' then
      let (b, l) := appendQuotedSegment l.turns b l.readChar
      scanBranchFrom n b l
    else if isBranchChar l.peekChar then scanBranchFrom n (b ++ [l.peekChar]) l.readChar
    else (b, l)

def scanBranchRun (b : Bytes) (l : Lexer) : Bytes × Lexer :=
  scanBranchFrom l.turns (b ++ [l.ch]) l

def readBranchString (l : Lexer) : Bytes × Lexer :=
  l.readChar.scanBranchRun [l.ch]

def readAtBranchString (l : Lexer) : Bytes × Lexer :=
  l.readChar.scanBranchRun "._txc.".toList

/-- The inner loop of `readRegex`. -/
def skipEscapes : Nat → Lexer → Lexer
  | 0, l => l
  | n + 1, l => if l.ch = '\\' ∧ l.peekChar = '/' then skipEscapes n l.readChar.readChar else l

def readRegexFrom : Nat → Lexer → Lexer
  | 0, l => l
  | n + 1, l =>
    if l.ch = nul then l
    else
      let l := skipEscapes l.turns l.readChar
      if l.ch = '/' then l else readRegexFrom n l

def readRegex (l : Lexer) : Option (Bytes × Lexer) :=
  let l' := readRegexFrom l.turns l
  let l' := if l'.ch = '/' then l' else l'.error unterminatedRegex
  (slice l.input (l.position + 1) l'.position).map fun s => (unescapeSlash s, l')

def readStringFrom : Nat → Bytes → Lexer → Bytes × Lexer
  | 0, b, l => (b, l)
  | n + 1, b, l =>
    let l := l.readChar
    if l.ch = nul then (b, l.error unterminatedString)
    else if l.ch = '"' then (b, l)
    else if l.ch = '\\' then
      let l := l.readChar
      if l.ch = nul then (b, l) else readStringFrom n (b ++ unescape l.ch) l
    else readStringFrom n (b ++ [l.ch]) l

def readString (l : Lexer) : Bytes × Lexer :=
  readStringFrom l.turns [] l

end Loops

def stay (l : Lexer) (tok : Token) : Token × Lexer :=
  (tok, { l with lastToken := tok })

/-- Return a token whose reader stands on its last byte. -/
def step (l : Lexer) (tok : Token) : Token × Lexer :=
  l.readChar.stay tok

/-- The switch of `NextToken`. -/
def readToken (l : Lexer) : Option (Token × Lexer) :=
  match shape l.lastToken.type l.ch l.peekChar with
  | .one type => some (l.step (newToken type l.ch))
  | .two type => some (l.readChar.step ⟨type, utf8 l.ch ++ utf8 l.peekChar⟩)
  | .bare => some (l.step ⟨.untyped, []⟩)
  | .number => l.readNumber.map fun r => r.2.stay ⟨numberType r.1, r.1⟩
  | .regex => l.readRegex.map fun r => r.2.step ⟨.regex, r.1⟩
  | .branch => some (l.readBranchString.2.step ⟨.branch, l.readBranchString.1⟩)
  | .atBranch => some (l.readAtBranchString.2.step ⟨.branch, l.readAtBranchString.1⟩)
  | .string => some (l.readString.2.step ⟨.string, l.readString.1⟩)
  | .call => l.readChar.readIdentifier.map fun r => r.2.stay ⟨.ampIdent, r.1⟩
  | .word => l.readIdentifier.map fun r =>
      if r.1 = "b64".toList ∧ r.2.ch = '"' then
        r.2.readString.2.step ⟨.string, base64 r.2.readString.1⟩
      else r.2.stay ⟨lookupIdent r.1, r.1⟩
  | .eof => some (l.step ⟨.eof, []⟩)

def mark (l : Lexer) : Lexer :=
  { l with start := min l.position l.input.length }

/-- `NextToken`: blanks and comments first.  Every comment takes a byte, so `l.turns` calls are
enough; `none` is a panic. -/
def nextTokenFrom : Nat → Lexer → Option (Token × Lexer)
  | 0, _ => none
  | n + 1, l =>
    if l.skipWhitespace.ch = '#' then nextTokenFrom n l.skipWhitespace.skipComment
    else l.skipWhitespace.mark.readToken

def nextToken (l : Lexer) : Option (Token × Lexer) :=
  nextTokenFrom (l.input.length + 1) l

end Lexer

end ThanksComputer.Txcl
