import Mathlib.Data.List.Infix
import ThanksComputer.Call.Frames
import ThanksComputer.Lib.Outcome
import ThanksComputer.Txcl.Numeral
import ThanksComputer.Txcl.Rule

/-! `txcl/parser`.  The parser's window over the lexer is the list of the tokens from the current
one on; past its end every token is the end of input. -/

namespace ThanksComputer.Txcl

open Lib (Outcome wrapInt trimDot)

/-- What the parser takes from other packages: `%q`, the function registry, `strconv.ParseFloat`
with its error dropped, `time.ParseDuration` in nanoseconds and `regexp.Compile`. -/
structure Host (F R : Type) where
  quoted : Bytes → String
  hasFunc : Bytes → Bool
  parseFloat : Bytes → F
  parseDuration : Bytes → Option Int
  compile : Bytes → Option R

def eofToken : Token := ⟨.eof, []⟩

structure Parser where
  toks : List Token
  errors : List String
  seenSelect : Bool
  strict : Bool
  inGarbage : Bool
  predicateKeyword : String

namespace Parser

def new (toks : List Token) (strict : Bool) : Parser :=
  ⟨toks, [], false, strict, false, ""⟩

def cur (p : Parser) : Token :=
  p.toks.headD eofToken

def peek (p : Parser) : Token :=
  p.toks.tail.headD eofToken

def nextToken (p : Parser) : Parser :=
  { p with toks := p.toks.tail }

def error (p : Parser) (msg : String) : Parser :=
  { p with errors := p.errors ++ [msg] }

def curError (p : Parser) (type : TokenType) : Parser :=
  p.error ("expected token to be " ++ type.text ++ ", got " ++ p.cur.type.text ++ " instead")

def wrongTypeParseError (p : Parser) (expecting : String) : Parser :=
  p.error ("Expecting " ++ expecting ++ ", received " ++ String.ofList p.cur.literal)

def exprKeyword (p : Parser) : String :=
  if p.predicateKeyword ≠ "" then p.predicateKeyword else "WHEN"

/-- Fuel for a loop that takes a token at every turn. -/
def turns (p : Parser) : Nat :=
  p.toks.length + 1

@[simp] theorem toks_nextToken (p : Parser) : p.nextToken.toks = p.toks.tail := rfl

theorem cur_nextToken (p : Parser) : p.nextToken.cur = p.peek := rfl

theorem toks_eq {p : Parser} (h : p.cur.type ≠ .eof) : p.toks = p.cur :: p.nextToken.toks := by
  cases ht : p.toks with
  | nil =>
    rw [cur, ht] at h
    exact absurd rfl h
  | cons t ts =>
    rw [cur, toks_nextToken, ht]
    rfl

end Parser

section Values

variable {F R : Type} (H : Host F R)

/-- The loop of `parseArrayLiteral`; `item` reads one value. -/
def parseArrayItems (item : Parser → Outcome Parser (Lit F)) :
    Nat → List (Lit F) → Parser → Outcome Parser (Lit F)
  | 0, _, _ => .stuck
  | n + 1, items, p =>
    if p.nextToken.cur.type = .rbracket then .ok (.array items) p.nextToken
    else (item p.nextToken).bind fun v q =>
      if q.peek.type = .comma then parseArrayItems item n (items ++ [v]) q.nextToken
      else if q.peek.type = .rbracket then .ok (.array (items ++ [v])) q.nextToken
      else .nil (q.nextToken.wrongTypeParseError "',' or ']'")

def parseArrayLiteral (item : Parser → Outcome Parser (Lit F)) (p : Parser) :
    Outcome Parser (Lit F) :=
  if p.peek.type = .rbracket then .ok (.array []) p.nextToken else parseArrayItems item p.turns [] p

/-- `depth` bounds how deep arrays are nested. -/
def parseLiteralValue : Nat → Parser → Outcome Parser (Lit F)
  | 0, _ => .stuck
  | depth + 1, p =>
    match p.cur.type with
    | .int => .ok (.int ⟨p.cur, (parseInt p.cur.literal).1⟩) p
    | .float => .ok (.float (H.parseFloat p.cur.literal)) p
    | .trueKw => .ok (.bool (parseBool p.cur.literal)) p
    | .falseKw => .ok (.bool (parseBool p.cur.literal)) p
    | .string => .ok (.str p.cur.literal) p
    | .lbracket => parseArrayLiteral (parseLiteralValue depth) p
    | _ => .nil (p.wrongTypeParseError "bool, int, float, string, or array")

/-- The loop of `parseFunctionCall` over its arguments. -/
def parseArgs (arg : Parser → Outcome Parser (Value F)) (name : Bytes) :
    Nat → List (Value F) → Parser → Outcome Parser (FunctionCall F)
  | 0, _, _ => .stuck
  | n + 1, args, p =>
    (arg p.nextToken).bind fun v q =>
      if q.peek.type = .comma then parseArgs arg name n (args ++ [v]) q.nextToken
      else if q.peek.type = .rparen then .ok ⟨name, args ++ [v]⟩ q.nextToken
      else .nil (q.nextToken.wrongTypeParseError "',' or ')'")

def parseFunctionCall (arg : Parser → Outcome Parser (Value F)) (p : Parser) :
    Outcome Parser (FunctionCall F) :=
  if p.peek.type ≠ .lparen then
    .nil (p.nextToken.wrongTypeParseError ("'(' after &" ++ String.ofList p.cur.literal))
  else if p.nextToken.peek.type = .rparen then .ok ⟨p.cur.literal, []⟩ p.nextToken.nextToken
  else parseArgs arg p.cur.literal p.turns [] p.nextToken

/-- `depth` bounds how deep calls are nested. -/
def parseValueExpr : Nat → Parser → Outcome Parser (Value F)
  | 0, _ => .stuck
  | depth + 1, p =>
    if p.cur.type = .ampIdent then
      (parseFunctionCall (parseValueExpr depth) p).map fun c => .call c.name c.args
    else if p.cur.type = .branch then .ok (.pathRef (trimDot p.cur.literal)) p
    else (parseLiteralValue H p.turns p).map .literal

def valueHere (p : Parser) : Outcome Parser (Value F) :=
  parseValueExpr H p.turns p

end Values

section Predicates

variable {F R : Type} (H : Host F R)

def isWhenPrimaryStart (t : TokenType) : Bool :=
  t == .branch || t == .lparen || t == .bang

def isStopForWhen (t : TokenType) : Bool :=
  decide (t ∈ [TokenType.eof, .setKw, .selectKw, .withKw, .priorityKw, .execKw, .emitKw, .loopKw])

def isComparison (t : TokenType) : Bool :=
  decide (t ∈ [TokenType.gt, .lt, .ltEq, .gtEq, .eq, .notEq, .matchOp, .noMatch])

def matchTypeOf (literal : Bytes) : MatchType :=
  if literal = "==".toList then .eq
  else if literal = ">=".toList then .gteq
  else if literal = "=~".toList then .matches_
  else if literal = "!~".toList then .noMatch
  else if literal = "<=".toList then .lteq
  else if literal = "!=".toList then .ne
  else if literal = ">".toList then .gt
  else if literal = "<".toList then .lt
  else .unset

def MatchType.isRegex (m : MatchType) : Bool :=
  m == .matches_ || m == .noMatch

def matchValueOf (tok : Token) : Lit F :=
  match tok.type with
  | .int => .int ⟨tok, (parseInt tok.literal).1⟩
  | .float => .float (H.parseFloat tok.literal)
  | .trueKw => .bool (parseBool tok.literal)
  | .falseKw => .bool (parseBool tok.literal)
  | .null => .str []
  | _ => .str tok.literal

def compileMatch (m : MatchType) (v : Lit F) : Option R :=
  match m.isRegex, v with
  | true, .str s => H.compile s
  | _, _ => none

def parseLeafCall (branch : Bytes) (m : MatchType) (p : Parser) : Outcome Parser (WhenExpr F R) :=
  if m.isRegex then
    .nil (p.error
      (p.exprKeyword ++ " regex comparisons (=~, !~) take a regex literal, not a function call"))
  else
    (parseFunctionCall (parseValueExpr H p.turns) p).bind fun fc q =>
      match firstPathArg fc.args with
      | some path =>
        .nil (q.error
          (q.exprKeyword ++ " function arguments must be literals, but &" ++
            String.ofList fc.name ++
          " references path " ++ H.quoted ('.' :: path) ++
          " — EMIT the computed value in an earlier scope and compare it here instead"))
      | none =>
        .ok (.ofLeaf ⟨false, some branch, m, none, some fc, none⟩)
          (if q.strict && !H.hasFunc fc.name then
            q.error ("unknown function &" ++ String.ofList fc.name ++ " in " ++ q.exprKeyword ++
              " (would evaluate to no-match at runtime)")
          else q)

def parseLeafScalar (branch : Bytes) (m : MatchType) (p : Parser) : Outcome Parser (WhenExpr F R) :=
  if p.cur.type ∉ [TokenType.trueKw, .falseKw, .float, .int, .string, .null, .regex] then
    .nil (p.wrongTypeParseError "bool, int, float, string, null, regex, or &function(...)")
  else if m.isRegex ∧ p.cur.type ∈ [TokenType.int, .float, .trueKw, .falseKw] then
    .nil (p.error (p.exprKeyword ++ " regex comparisons (=~, !~) take a regex literal, got " ++
      String.ofList p.cur.literal))
  else
    .ok (.ofLeaf ⟨false, some branch, m, some (matchValueOf H p.cur), none,
      compileMatch H m (matchValueOf H p.cur)⟩) p

def parseWhenLeaf (p : Parser) : Outcome Parser (WhenExpr F R) :=
  if p.cur.type ≠ .branch then
    .nil (p.error
      (p.exprKeyword ++ " expected branch or '(', got '" ++ String.ofList p.cur.literal ++ "'"))
  else if !isComparison p.nextToken.cur.type then
    .nil (p.nextToken.error (p.exprKeyword ++ " expected =~, !~, ==, !=, >, <, >=, or <= (" ++
      p.nextToken.cur.type.text ++ ")"))
  else
    let m := matchTypeOf p.nextToken.cur.literal
    let q := p.nextToken.nextToken
    if q.cur.type = .ampIdent then parseLeafCall H p.cur.literal m q
      else parseLeafScalar H p.cur.literal m q

/-- `group` reads what stands between brackets. -/
def parseWhenPrimary (group : Parser → Outcome Parser (WhenExpr F R)) (p : Parser) :
    Outcome Parser (WhenExpr F R) :=
  if p.cur.type = .lparen then
    if p.peek.type = .rparen then
      .nil (p.error (p.exprKeyword ++ " expected expression inside '()'"))
    else
      (group p.nextToken).bind fun inner q =>
        if q.peek.type ≠ .rparen then
          .nil (q.error (q.exprKeyword ++ " expected ')' to close group"))
        else .ok inner q.nextToken
  else parseWhenLeaf H p

def parseWhenNot (group : Parser → Outcome Parser (WhenExpr F R)) :
    Nat → Parser → Outcome Parser (WhenExpr F R)
  | 0, _ => .stuck
  | n + 1, p =>
    if p.cur.type = .bang then
      if !isWhenPrimaryStart p.peek.type then
        .nil (p.error (p.exprKeyword ++ " expected expression after '!'"))
      else (parseWhenNot group n p.nextToken).map .ofNot
    else parseWhenPrimary H group p

/-- The operands of a chain: `operand` reads one, `joins` are the operators between them and `shown`
is how an error names one. -/
def parseOperands (joins : List TokenType) (shown : Token → String)
    (operand : Parser → Outcome Parser (WhenExpr F R)) :
    Nat → List (WhenExpr F R) → Parser → Outcome Parser (List (WhenExpr F R))
  | 0, _, _ => .stuck
  | n + 1, parts, p =>
    if p.peek.type ∈ joins then
      if !isWhenPrimaryStart p.nextToken.peek.type then
        .nil (p.nextToken.error
          (p.exprKeyword ++ " expected expression after '" ++ shown p.peek ++ "'"))
      else
        (operand p.nextToken.nextToken).bind fun right q =>
          parseOperands joins shown operand n (parts ++ [right]) q
    else .ok parts p

def joined (node : List (WhenExpr F R) → WhenExpr F R) : List (WhenExpr F R) → WhenExpr F R
  | [e] => e
  | parts => node parts

def parseWhenAnd (group : Parser → Outcome Parser (WhenExpr F R)) (p : Parser) :
    Outcome Parser (WhenExpr F R) :=
  (parseWhenNot H group p.turns p).bind fun first q =>
    (parseOperands [.land, .comma] (fun op => String.ofList op.literal)
      (fun q => parseWhenNot H group q.turns q)
      q.turns [first] q).map (joined .ofAnd)

/-- `depth` bounds how deep brackets are nested. -/
def parseWhenOr : Nat → Parser → Outcome Parser (WhenExpr F R)
  | 0, _ => .stuck
  | depth + 1, p =>
    (parseWhenAnd H (parseWhenOr depth) p).bind fun first q =>
      (parseOperands [.lor] (fun _ => "||") (parseWhenAnd H (parseWhenOr depth)) q.turns
        [first] q).map
        (joined .ofOr)

def parseWhenPhrase (p : Parser) : Outcome Parser (Phrase F R) :=
  if p.peek.type = .star then .ok (.when_ ⟨some .starred, []⟩) p.nextToken
  else if isStopForWhen p.peek.type then .ok (.when_ ⟨some .starred, []⟩) p
  else (parseWhenOr H p.turns p.nextToken).map fun e => .when_ ⟨some e, []⟩

end Predicates

section Clauses

variable {F R : Type} (H : Host F R)

/-- `<path> = <value>` at the current token. -/
def parseAssignment (expecting : String) (p : Parser) : Outcome Parser (BranchValue F) :=
  if p.cur.type ≠ .branch then .nil (p.wrongTypeParseError expecting)
  else if p.nextToken.cur.type ≠ .assign then .nil (p.nextToken.curError .assign)
  else (valueHere H p.nextToken.nextToken).map fun v => ⟨p.cur.literal, v⟩

/-- Behind a value: over a comma, and onto the next entry unless a clause follows. -/
def stepOver (stops : List TokenType) (p : Parser) : Parser :=
  let q := if p.peek.type = .comma then p.nextToken else p
  if q.peek.type ∉ stops then q.nextToken else q

/-- The loop of the clauses that are lists: it passes over a token of `skips` in front of an entry
and ends in front of the clauses of `stops`. -/
def parseEntries {α : Type} (skips stops : List TokenType) (entry : Parser → Outcome Parser α) :
    Nat → List α → Parser → Outcome Parser (List α)
  | 0, _, _ => .stuck
  | n + 1, entries, p =>
    if p.cur.type ≠ .eof ∧ p.peek.type ∉ stops then
      (entry (if p.cur.type ∈ skips then p.nextToken else p)).bind fun e q =>
        parseEntries skips stops entry n (entries ++ [e]) (stepOver stops q)
    else .ok entries p

def setPreStops : List TokenType := [.selectKw, .withKw, .priorityKw, .execKw, .emitKw, .loopKw]

def parseSetPrePhrase (p : Parser) : Outcome Parser (Phrase F R) :=
  (parseEntries [.comma, .setKw] setPreStops (parseAssignment H ".branch") p.turns [] p).map .setPre

def setPostStops : List TokenType := [.withKw, .priorityKw, .execKw, .emitKw, .loopKw]

def parseSetPostPhrase (p : Parser) : Outcome Parser (Phrase F R) :=
  (parseEntries [.comma, .setKw] setPostStops (parseAssignment H ".Branch") p.turns [] p).map
    .setPost

def emitStops : List TokenType := [.setKw, .selectKw, .withKw, .priorityKw, .execKw, .loopKw]

def parseEmitPhrase (p : Parser) : Outcome Parser (Phrase F R) :=
  (parseEntries [.comma, .emitKw] emitStops (parseAssignment H ".branch") p.turns [] p).map .emit

/-- `<name> = <value>` at the current token; a path behind the name is part of it. -/
def parseWithEntry (p : Parser) : Outcome Parser (Bytes × Value F) :=
  if p.cur.type ≠ .ident then .nil (p.wrongTypeParseError "with variable name")
  else if p.nextToken.cur.type = .branch then
    if p.nextToken.nextToken.cur.type ≠ .assign then .nil (p.nextToken.nextToken.curError .assign)
    else
      (valueHere H p.nextToken.nextToken.nextToken).map fun v =>
        (p.cur.literal ++ p.nextToken.cur.literal, v)
  else if p.nextToken.cur.type ≠ .assign then .nil (p.nextToken.curError .assign)
  else (valueHere H p.nextToken.nextToken).map fun v => (p.cur.literal, v)

def withStops : List TokenType := [.setKw, .priorityKw, .execKw, .emitKw, .loopKw]

def parseWithPhrase (p : Parser) : Outcome Parser (Phrase F R) :=
  (parseEntries [.withKw] withStops (parseWithEntry H) p.turns [] p).map .with_

def parsePriorityPhrase (p : Parser) : Outcome Parser (Phrase F R) :=
  let q := p.nextToken
  if (parseInt q.cur.literal).2 ≠ none then
    .nil (q.error ("could not parse priority " ++ H.quoted q.cur.literal ++ " as integer"))
  else .ok (.priority ⟨q.cur, (parseInt q.cur.literal).1⟩) q

def parseExecPhrase (p : Parser) : Outcome Parser (Phrase F R) :=
  if p.peek.type ≠ .string then .nil (p.error "exec missing execname")
  else .ok (.exec p.nextToken.cur.literal) p.nextToken

/-- The destination of a selected path: itself without an `AS`. -/
def parseSelectDest (p : Parser) : Outcome Parser Bytes :=
  if p.peek.type = .asKw then
    if p.nextToken.peek.type ≠ .branch then
      .nil (p.nextToken.error "SELECT expected a destination path after `AS`")
    else .ok p.nextToken.nextToken.cur.literal p.nextToken.nextToken
  else .ok p.cur.literal p

def parseSelectDefault (p : Parser) : Outcome Parser (Option (Value F)) :=
  if p.peek.type = .defaultKw then (valueHere H p.nextToken.nextToken).map some else .ok none p

def parseSelectItems :
    Nat → List (SelectAssignment F) → Parser → Outcome Parser (List (SelectAssignment F))
  | 0, _, _ => .stuck
  | n + 1, items, p =>
    let q := p.nextToken
    if q.cur.type ≠ .branch then
      .nil (q.error "SELECT expected `*` or a source path (e.g. `.foo` or `@web.req.…`)")
    else
      (parseSelectDest q).bind fun dest q' =>
        (parseSelectDefault H q').bind fun dflt q'' =>
          if q''.peek.type = .comma then
            parseSelectItems n (items ++ [⟨q.cur.literal, dest, dflt⟩]) q''.nextToken
          else .ok (items ++ [⟨q.cur.literal, dest, dflt⟩]) q''

def parseSelectPhrase (p : Parser) : Outcome Parser (Phrase F R) :=
  if p.peek.type = .asterisk then
    if p.nextToken.peek.type = .comma then
      .nil (p.nextToken.error "SELECT * cannot be combined with a branch list")
    else .ok (.select ⟨true, []⟩) { p.nextToken with seenSelect := true }
  else
    (parseSelectItems H p.turns [] p).bind fun items q =>
      .ok (.select ⟨false, items⟩) { q with seenSelect := true }

end Clauses

section Loops

variable {F R : Type} (H : Host F R)

/-- `strings.EqualFold` with a word in lower-case letters. -/
def equalFold (s word : Bytes) : Bool :=
  s.map Char.toLower == word

def peekIsWord (p : Parser) (word : Bytes) : Bool :=
  p.peek.type == .ident && equalFold p.peek.literal word

def parseLoopSet : Nat → List (BranchValue F) → Parser → Outcome Parser (List (BranchValue F))
  | 0, _, _ => .stuck
  | n + 1, set, p =>
    (parseAssignment H "LOOP SET .branch" p.nextToken).bind fun bv q =>
      if q.peek.type ≠ .comma then .ok (set ++ [bv]) q else parseLoopSet n (set ++ [bv]) q.nextToken

def parseLoopEvery (p : Parser) : Outcome Parser Number :=
  match p.cur.type with
  | .string =>
    match H.parseDuration p.cur.literal with
    | none =>
      .nil (p.error
        ("LOOP EVERY expects a duration such as \"50ms\" or \"2s\", got " ++
          H.quoted p.cur.literal))
    | some d =>
      if d < 0 then .nil (p.error ("LOOP EVERY cannot be negative, got " ++ H.quoted p.cur.literal))
      else .ok ⟨p.cur, d⟩ p
  | .int =>
    if (parseInt p.cur.literal).2 ≠ none ∨ (parseInt p.cur.literal).1 < 0 then
      .nil (p.error
        ("LOOP EVERY expects a duration such as \"50ms\" or a number of milliseconds, got " ++
        String.ofList p.cur.literal))
    else .ok ⟨p.cur, wrapInt ((parseInt p.cur.literal).1 * 1000000)⟩ p
  | _ =>
    .nil (p.error ("LOOP EVERY expects a duration such as \"50ms\" or \"2s\", got '" ++
      String.ofList p.cur.literal ++ "'"))

def parseLoopMax (p : Parser) : Outcome Parser Number :=
  if p.cur.type ≠ .int then
    .nil (p.error
      ("LOOP MAX expects a positive integer, got '" ++ String.ofList p.cur.literal ++ "'"))
  else if (parseInt p.cur.literal).2 ≠ none ∨ (parseInt p.cur.literal).1 ≤ 0 then
    .nil (p.error ("LOOP MAX must be a positive integer, got " ++ String.ofList p.cur.literal))
  else .ok ⟨p.cur, (parseInt p.cur.literal).1⟩ p

/-- The predicate behind `UNTIL`, the current token. -/
def parseLoopUntil (p : Parser) : Outcome Parser (WhenExpr F R) :=
  if !isWhenPrimaryStart p.peek.type then
    .nil (p.error
      ("LOOP UNTIL expects a predicate (.path == value, composable with &&, ||, !, parentheses), got '" ++
      String.ofList p.peek.literal ++ "'"))
  else
    match parseWhenOr H p.turns { p.nextToken with predicateKeyword := "LOOP UNTIL" } with
    | .ok e q => .ok e { q with predicateKeyword := "" }
    | .nil q => .nil { q with predicateKeyword := "" }
    | .stuck => .stuck

inductive Modifier
  | until_
  | set
  | every
  | max
  deriving DecidableEq

def Modifier.text : Modifier → String
  | until_ => "UNTIL"
  | set => "SET"
  | every => "EVERY"
  | max => "MAX"

/-- A modifier given twice is reported in strict mode. -/
def note (seen : List Modifier) (m : Modifier) (p : Parser) : Parser :=
  if m ∈ seen ∧ p.strict then p.error ("LOOP " ++ m.text ++ " given more than once") else p

def parseLoopModifiers : Nat → List Modifier → Loop F R → Parser → Outcome Parser (Loop F R)
  | 0, _, _, _ => .stuck
  | n + 1, seen, loop, p =>
    if p.peek.type = .untilKw then
      (parseLoopUntil H p.nextToken).bind fun e q =>
        parseLoopModifiers n (.until_ :: seen) { loop with untilExpr := some e }
          (note seen .until_ q)
    else if p.peek.type = .setKw then
      (parseLoopSet H p.turns [] p.nextToken).bind fun set q =>
        parseLoopModifiers n (.set :: seen) { loop with set := set } (note seen .set q)
    else if peekIsWord p "every".toList then
      (parseLoopEvery H p.nextToken.nextToken).bind fun d q =>
        parseLoopModifiers n (.every :: seen) { loop with every := d } (note seen .every q)
    else if peekIsWord p "max".toList then
      (parseLoopMax p.nextToken.nextToken).bind fun m q =>
        parseLoopModifiers n (.max :: seen) { loop with max := m } (note seen .max q)
    else if loop.untilExpr.isNone then .nil (p.error "LOOP needs UNTIL <predicate>")
    else .ok loop p

def parseLoopPhrase (p : Parser) : Outcome Parser (Phrase F R) :=
  (parseLoopModifiers H p.turns [] ⟨none, .zero, .zero, []⟩ p).map .loop

end Loops

section Checks

variable {F R : Type} (H : Host F R)

/-- The UTF-8 forms of what `unicode.IsSpace` takes for blank. -/
def unicodeSpaces : List Bytes :=
  [[9], [10], [11], [12], [13], [32], [194, 133], [194, 160], [225, 154, 128], [226, 128, 168],
    [226, 128, 169],
    [226, 128, 175], [226, 129, 159], [227, 128, 128], [226, 128, 128], [226, 128, 129],
      [226, 128, 130],
    [226, 128, 131], [226, 128, 132], [226, 128, 133], [226, 128, 134], [226, 128, 135],
      [226, 128, 136],
    [226, 128, 137], [226, 128, 138]].map fun bytes => bytes.map Char.ofNat

def trimLeft (spaces : List Bytes) : Nat → Bytes → Bytes
  | 0, s => s
  | n + 1, s =>
    match spaces.find? (·.isPrefixOf s) with
    | some w => trimLeft spaces n (s.drop w.length)
    | none => s

/-- `strings.TrimSpace`, of bytes that need not be UTF-8. -/
def trimSpace (s : Bytes) : Bytes :=
  let left := trimLeft unicodeSpaces s.length s
  (trimLeft (unicodeSpaces.map List.reverse) left.length left.reverse).reverse

/-- `stageJumpRE`. -/
def isStageJump (exec : Bytes) : Bool :=
  match exec.reverse.dropWhile Char.isDigit with
  | '/' :: before => !(exec.reverse.takeWhile Char.isDigit).isEmpty && decide ('\n' ∉ before)
  | _ => false

def gotoScheme : Bytes := "goto://".toList

def splitTarget (target : Bytes) : Bytes × Bytes :=
  let last := (target.reverse.takeWhile (· != '/')).reverse
  (target.take (target.length - last.length - 1), last)

/-- The error of `opname.GotoTarget` for a text of its scheme. -/
def gotoTargetError (exec : Bytes) : Option String :=
  let target := exec.drop gotoScheme.length
  if Call.gotoScope target then none
  else if (splitTarget target).1.isEmpty || !Call.gotoScope (splitTarget target).2 then
    some ("EXEC " ++ H.quoted exec ++
      " needs a target: goto://<stack>/<scope> (e.g. goto://billing/100) or goto://<scope> in this stack")
  else if Call.validStack (splitTarget target).1 then none
  else some
    ("EXEC " ++ H.quoted exec ++ ": " ++ Call.validStackError H.quoted (splitTarget target).1)

/-- The error of `opname.CallTarget` for a text of its scheme. -/
def callTargetError (exec : Bytes) : Option String :=
  let target := exec.drop Call.callScheme.length
  if target.isEmpty then
    some ("EXEC " ++ H.quoted exec ++
      " needs a target: call://<stack> (e.g. call://billing) or call://<stack>/<scope>")
  else if (Call.callTarget exec).isSome then none
  else
    let stack := if !(splitTarget target).1.isEmpty && Call.gotoScope (splitTarget target).2 then
      (splitTarget target).1 else target
    some ("EXEC " ++ H.quoted exec ++ ": " ++ Call.validStackError H.quoted stack)

/-- The diagnostics of `checkLoop` on the op it repeats. -/
def loopExecErrors (exec : Bytes) : List String :=
  if exec = [] then ["LOOP needs an EXEC to repeat"]
  else if exec = "txco://noop".toList then
    ["LOOP cannot repeat txco://noop: it never changes the envelope, so UNTIL can never become true"]
  else if "txco://route".toList.isPrefixOf exec || gotoScheme.isPrefixOf exec ||
      (decide (¬"://".toList <:+: exec) && isStageJump exec) then
    ["LOOP cannot repeat a stage jump (EXEC " ++ H.quoted exec ++
      "); loop the op that does the work instead"]
  else []

/-- The value a `WITH` holds for a key. -/
def withValue (entries : List (Bytes × Value F)) (key : Bytes) : Option (Value F) :=
  (entries.reverse.find? (·.1 == key)).map Prod.snd

def loopModeErrors (entries : List (Bytes × Value F)) : List String :=
  match withValue entries "mode".toList with
  | some (.literal (.str mode)) =>
    if mode = "async".toList ∨ mode = "continuable".toList then
      ["LOOP cannot combine with WITH mode = " ++ H.quoted mode ++
        ": the loop runs inside the request, that mode runs outside it"]
    else []
  | _ => []

def checkLoop (r : Resonator F R) : List String :=
  if r.loop.isNone then []
  else loopExecErrors H (trimSpace r.exec) ++ loopModeErrors H (r.with_.getD [])

def checkGoto (r : Resonator F R) : List String :=
  if gotoScheme.isPrefixOf r.exec then (gotoTargetError H r.exec).toList else []

def checkCall (r : Resonator F R) : List String :=
  if Call.callScheme.isPrefixOf r.exec then (callTargetError H r.exec).toList else []

end Checks

section Event

variable {F R : Type} (H : Host F R)

/-- A token that starts no clause: strict mode reports the first of a run. -/
def parseGarbage (p : Parser) : Parser :=
  if p.strict && !p.inGarbage then
    { p.error ("unexpected token " ++ H.quoted p.cur.literal ++
        " — expected a clause keyword (WHEN, SET, SELECT, WITH, PRIORITY, EXEC, LOOP, EMIT) or a LOOP modifier" ++
        " (EVERY, SET, UNTIL, MAX)") with inGarbage := true }
  else p

def parseEventPhrase (p : Parser) : Outcome Parser (Phrase F R) :=
  let q := { p with inGarbage := false }
  match p.cur.type with
  | .whenKw => parseWhenPhrase H q
  | .setKw => if !p.seenSelect then parseSetPrePhrase H q else parseSetPostPhrase H q
  | .withKw => parseWithPhrase H q
  | .selectKw => parseSelectPhrase H q
  | .priorityKw => parsePriorityPhrase H q
  | .execKw => parseExecPhrase q
  | .emitKw => parseEmitPhrase H q
  | .loopKw => parseLoopPhrase H q
  | _ => .nil (parseGarbage H p)

/-- The loop of `ParseEvent`: the phrases of a rule in order. -/
def parsePhrases : Nat → List (Phrase F R) → Parser → Outcome Parser (List (Phrase F R))
  | 0, _, _ => .stuck
  | n + 1, phrases, p =>
    if p.cur.type = .eof then .ok phrases p
    else
      match parseEventPhrase H p with
      | .ok phrase q => parsePhrases n (phrases ++ [phrase]) q.nextToken
      | .nil q => parsePhrases n phrases q.nextToken
      | .stuck => .stuck

/-- The rule the phrases make up: the last phrase of a kind counts. -/
def resonatorOf (phrases : List (Phrase F R)) : Resonator F R :=
  phrases.foldl .add .new

/-- `ParseEvent`: the phrases, and the parser with the checks on the whole rule. -/
def parseEvent (p : Parser) : Outcome Parser (List (Phrase F R)) :=
  (parsePhrases H p.turns [] { p with seenSelect := false }).bind fun phrases q =>
    let r := resonatorOf phrases
    .ok phrases { q with errors := q.errors ++ checkLoop H r ++ checkGoto H r ++ checkCall H r }

end Event

end ThanksComputer.Txcl
