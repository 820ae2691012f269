import ThanksComputer.Lib.Assoc
import ThanksComputer.Txcl.Lexer

/-! The lexer as a function of the text that is left: what one call of `NextToken` returns and
leaves is decided by that text and the type of the token before.  The state with its positions
refines it. -/

namespace ThanksComputer.Txcl

/-- The byte under examination. -/
def head (s : Bytes) : Char :=
  s.headD nul

@[simp] theorem head_nil : head [] = nul := rfl

@[simp] theorem head_cons (c : Char) (s : Bytes) : head (c :: s) = c := rfl

/-- A literal as its reader leaves it: what it wrote, the text behind it, and the errors. -/
structure Body where
  content : Bytes
  rest : Bytes
  errs : List String

def Body.write (b : Bytes) (x : Body) : Body :=
  { x with content := b ++ x.content }

theorem write_write (a b : Bytes) (x : Body) : (x.write b).write a = x.write (a ++ b) := by
  simp [Body.write]

def stringBody : Bytes → Body
  | [] => ⟨[], [], [unterminatedString]⟩
  | c :: s =>
    if c = nul then ⟨[], s, [unterminatedString]⟩
    else if c = '"' then ⟨[], s, []⟩
    else if c = '\\' then
      match s with
      | [] => ⟨[], [], []⟩
      | d :: s => if d = nul then ⟨[], s, []⟩ else (stringBody s).write (unescape d)
    else (stringBody s).write [c]

/-- Behind the opening slash of a regex.  A slash right behind a backslash does not close it. -/
def regexBody (prev : Char) : Bytes → Body
  | [] => ⟨[], [], [unterminatedRegex]⟩
  | c :: s =>
    if c = nul then ⟨[], s, [unterminatedRegex]⟩
    else if c = '/' ∧ prev ≠ '\\' then ⟨[], s, []⟩
    else (regexBody c s).write [c]

/-- Behind the first letter of a branch, or inside one of its quoted segments. -/
def branchBody (quoted : Bool) : Bytes → Body
  | [] => ⟨[], [], []⟩
  | c :: s =>
    if quoted then
      if c = nul ∨ c = '"' then branchBody false s else (branchBody true s).write (escapePath c)
    else if c = '"' then branchBody true s
    else if isBranchChar c then (branchBody false s).write [c]
    else ⟨[], c :: s, []⟩

section RegexBody

variable {c prev : Char} {s : Bytes}

theorem regexBody_cons : regexBody prev (c :: s) =
    if c = nul then ⟨[], s, [unterminatedRegex]⟩
    else if c = '/' ∧ prev ≠ '\\' then ⟨[], s, []⟩
    else (regexBody c s).write [c] := rfl

theorem regexBody_close (h : prev ≠ '\\') : regexBody prev ('/' :: s) = ⟨[], s, []⟩ := by
  rw [regexBody_cons, if_neg (by decide), if_pos ⟨rfl, h⟩]

theorem regexBody_inside (hc : c ≠ nul) (h : ¬(c = '/' ∧ prev ≠ '\\')) :
    regexBody prev (c :: s) = (regexBody c s).write [c] := by
  rw [regexBody_cons, if_neg hc, if_neg h]

theorem regexBody_nul : regexBody prev (nul :: s) = ⟨[], s, [unterminatedRegex]⟩ := by
  rw [regexBody_cons, if_pos rfl]

theorem regexBody_prev (h : ¬(prev = '\\' ∧ head s = '/')) :
    regexBody prev s = regexBody '/' s := by
  cases s with
  | nil => rfl
  | cons c s =>
    have hiff : (c = '/' ∧ prev ≠ '\\') ↔ (c = '/' ∧ '/' ≠ '\\') := by
      refine ⟨fun h => ⟨h.1, by decide⟩, fun hc => ⟨hc.1, fun hprev => h ⟨hprev, hc.1⟩⟩⟩
    rw [regexBody_cons, regexBody_cons]
    simp only [hiff]

theorem regexBody_content_prefix (prev : Char) (s : Bytes) : (regexBody prev s).content <+: s := by
  induction s generalizing prev with
  | nil => exact List.nil_prefix
  | cons c s ih =>
    rw [regexBody_cons]
    split
    · exact List.nil_prefix
    · split
      · exact List.nil_prefix
      · exact (List.prefix_cons_inj c).mpr (ih c)

end RegexBody

section StringBody

variable {c d : Char} {s : Bytes}

theorem stringBody_cons : stringBody (c :: s) =
    if c = nul then ⟨[], s, [unterminatedString]⟩
    else if c = '"' then ⟨[], s, []⟩
    else if c = '\\' then
      match s with
      | [] => ⟨[], [], []⟩
      | d :: s => if d = nul then ⟨[], s, []⟩ else (stringBody s).write (unescape d)
    else (stringBody s).write [c] := by
  rw [stringBody.eq_def]
  rfl

theorem stringBody_escape_end : stringBody ['\\'] = ⟨[], [], []⟩ := rfl

@[simp] theorem stringBody_close : stringBody ('"' :: s) = ⟨[], s, []⟩ := by
  rw [stringBody_cons]
  rfl

theorem stringBody_nul : stringBody (nul :: s) = ⟨[], s, [unterminatedString]⟩ := by
  rw [stringBody_cons]
  rfl

theorem stringBody_escape (hd : d ≠ nul) :
    stringBody ('\\' :: d :: s) = (stringBody s).write (unescape d) :=
  if_neg hd

theorem stringBody_escape_nul : stringBody ('\\' :: nul :: s) = ⟨[], s, []⟩ := rfl

theorem stringBody_char (hnul : c ≠ nul) (hquote : c ≠ '"') (hslash : c ≠ '\\') :
    stringBody (c :: s) = (stringBody s).write [c] := by
  rw [stringBody_cons]
  simp only [hnul, hquote, hslash, if_false]

end StringBody

section BranchBody

variable {c : Char} (s : Bytes)

@[simp] theorem branchBody_nil (quoted : Bool) : branchBody quoted [] = ⟨[], [], []⟩ := rfl

theorem branchBody_cons (quoted : Bool) : branchBody quoted (c :: s) =
    if quoted then
      if c = nul ∨ c = '"' then branchBody false s else (branchBody true s).write (escapePath c)
    else if c = '"' then branchBody true s
    else if isBranchChar c then (branchBody false s).write [c]
    else ⟨[], c :: s, []⟩ := rfl

theorem branchBody_close (h : c = nul ∨ c = '"') :
    branchBody true (c :: s) = branchBody false s := by
  rw [branchBody_cons, if_pos rfl, if_pos h]

theorem branchBody_inside (h : ¬(c = nul ∨ c = '"')) :
    branchBody true (c :: s) = (branchBody true s).write (escapePath c) := by
  rw [branchBody_cons, if_pos rfl, if_neg h]

@[simp] theorem branchBody_open : branchBody false ('"' :: s) = branchBody true s := rfl

theorem branchBody_char (hquote : c ≠ '"') (h : isBranchChar c = true) :
    branchBody false (c :: s) = (branchBody false s).write [c] := by
  rw [branchBody_cons, if_neg Bool.false_ne_true, if_neg hquote, if_pos h]

theorem branchBody_stop (hquote : c ≠ '"') (h : ¬isBranchChar c = true) :
    branchBody false (c :: s) = ⟨[], c :: s, []⟩ := by
  rw [branchBody_cons, if_neg Bool.false_ne_true, if_neg hquote, if_neg h]

theorem branchBody_errs (quoted : Bool) (s : Bytes) : (branchBody quoted s).errs = [] := by
  induction s generalizing quoted with
  | nil => rfl
  | cons c s ih =>
    rw [branchBody_cons]
    split
    · split
      · exact ih false
      · exact ih true
    · split
      · exact ih true
      · split
        · exact ih false
        · rfl

/-- The text behind a branch does not go on with it. -/
def Stops (stop : Bytes) : Prop :=
  isBranchChar (head stop) = false ∧ head stop ≠ '"'

instance (stop : Bytes) : Decidable (Stops stop) :=
  inferInstanceAs (Decidable (_ ∧ _))

theorem branchBody_stops {stop : Bytes} (h : Stops stop) :
    branchBody false stop = ⟨[], stop, []⟩ := by
  cases stop with
  | nil => rfl
  | cons c s => exact branchBody_stop s h.2 (by simp [show isBranchChar c = false from h.1])

end BranchBody

structure Lexeme where
  tok : Token
  rest : Bytes
  errs : List String

def Body.toLexeme (x : Body) (type : TokenType) : Lexeme :=
  ⟨⟨type, x.content⟩, x.rest, x.errs⟩

/-- The token that starts with `c`. -/
def lexeme (last : TokenType) (c : Char) (s : Bytes) : Lexeme :=
  match shape last c (head s) with
  | .one type => ⟨newToken type c, s, []⟩
  | .two type => ⟨⟨type, utf8 c ++ utf8 (head s)⟩, s.tail, []⟩
  | .bare => ⟨⟨.untyped, []⟩, s, []⟩
  | .number =>
    ⟨⟨numberType ((c :: s).takeWhile isDigit), (c :: s).takeWhile isDigit⟩,
      (c :: s).dropWhile isDigit, []⟩
  | .regex =>
    ⟨⟨.regex, unescapeSlash (regexBody c s).content⟩, (regexBody c s).rest, (regexBody c s).errs⟩
  | .branch => ((branchBody false s.tail).write [c, head s]).toLexeme .branch
  | .atBranch => ((branchBody false s.tail).write ("._txc.".toList ++ [head s])).toLexeme .branch
  | .string => (stringBody s).toLexeme .string
  | .call => ⟨⟨.ampIdent, s.takeWhile isWordChar⟩, s.dropWhile isWordChar, []⟩
  | .word =>
    let word := (c :: s).takeWhile isWordChar
    let rest := (c :: s).dropWhile isWordChar
    if word = "b64".toList ∧ head rest = '"' then
      ⟨⟨.string, base64 (stringBody rest.tail).content⟩, (stringBody rest.tail).rest,
        (stringBody rest.tail).errs⟩
    else ⟨⟨lookupIdent word, word⟩, rest, []⟩
  | .eof => ⟨⟨.eof, []⟩, s, []⟩

def skipBlank (comment : Bool) : Bytes → Bytes
  | [] => []
  | c :: s =>
    if comment then
      if c = '\n' then skipBlank false s else if c = nul then c :: s else skipBlank true s
    else if isSpace c then skipBlank false s
    else if c = '#' then skipBlank true s
    else c :: s

/-- One call of `NextToken`. -/
def next (last : TokenType) (s : Bytes) : Lexeme :=
  lexeme last (head (skipBlank false s)) (skipBlank false s).tail

namespace Lexer

variable {l l' : Lexer}

/-- The text from the byte under examination on. -/
def rest (l : Lexer) : Bytes :=
  l.input.drop l.position

theorem ch_eq (l : Lexer) : l.ch = head l.rest := by
  rw [l.current, rest, head, List.headD_eq_head?_getD, List.head?_drop, List.getD_eq_getElem?_getD]

theorem rest_readChar (l : Lexer) : l.readChar.rest = l.rest.tail := by
  rw [rest, rest, List.tail_drop, ← l.ahead]
  rfl

theorem ch_readChar (l : Lexer) : l.readChar.ch = head l.rest.tail := by
  rw [ch_eq, rest_readChar]

theorem peekChar_eq_head (l : Lexer) : l.peekChar = head l.rest.tail :=
  l.ch_readChar

theorem length_rest (l : Lexer) : l.rest.length = l.input.length - l.position :=
  List.length_drop

theorem spanEnd_eq (l : Lexer) : l.spanEnd = l.input.length - l.rest.length := by
  rw [length_rest, spanEnd]
  omega

theorem length_rest_lt_turns (l : Lexer) (h : l.rest ≠ []) : l.rest.length < l.turns := by
  have := List.length_pos_iff.mpr h
  rw [length_rest] at *
  rw [turns]
  omega

/-- The readers move the lexer along its input and note errors; they touch nothing else. -/
structure Moved (l l' : Lexer) (s : Bytes) (errs : List String) : Prop where
  input : l'.input = l.input
  lastToken : l'.lastToken = l.lastToken
  start : l'.start = l.start
  errs : l'.errs = l.errs ++ errs
  rest : l'.rest = s

theorem Moved.refl (l : Lexer) : Moved l l l.rest [] :=
  ⟨rfl, rfl, rfl, (List.append_nil _).symm, rfl⟩

theorem moved_readChar (l : Lexer) : Moved l l.readChar l.rest.tail [] :=
  ⟨rfl, rfl, rfl, (List.append_nil _).symm, l.rest_readChar⟩

theorem Moved.trans {l'' : Lexer} {s s' : Bytes} {e e' : List String} (h : Moved l l' s e)
    (h' : Moved l' l'' s' e') : Moved l l'' s' (e ++ e') where
  input := h'.input.trans h.input
  lastToken := h'.lastToken.trans h.lastToken
  start := h'.start.trans h.start
  errs := by rw [h'.errs, h.errs, List.append_assoc]
  rest := h'.rest

theorem Moved.after_readChar {s : Bytes} {e : List String} (h : Moved l.readChar l' s e) :
    Moved l l' s e := by
  simpa using (moved_readChar l).trans h

theorem Moved.readChar {s : Bytes} {e : List String} (h : Moved l l' s e) :
    Moved l l'.readChar s.tail e := by
  simpa [h.rest] using h.trans (moved_readChar l')

theorem Moved.error {s : Bytes} (h : Moved l l' s []) (msg : String) :
    Moved l (l'.error msg) s [msg] where
  input := h.input
  lastToken := h.lastToken
  start := h.start
  errs := by simp [Lexer.error, h.errs]
  rest := h.rest

section Readers

variable {p : Char → Bool} {n : Nat}

theorem advanceWhile_spec (hp : p nul = false) (hn : l.rest.length < n) :
    Moved l (advanceWhile p n l) (l.rest.dropWhile p) [] ∧
      (advanceWhile p n l).position = l.position + (l.rest.takeWhile p).length := by
  induction n generalizing l with
  | zero => omega
  | succ n ih =>
    rw [advanceWhile, ch_eq]
    cases hs : l.rest with
    | nil => simpa [hp, hs] using Moved.refl l
    | cons c s =>
      rw [head_cons]
      by_cases hc : p c = true
      · have hr : l.readChar.rest = s := by rw [rest_readChar, hs, List.tail_cons]
        have hlen : l.readChar.rest.length < n := by
          rw [hr]
          rw [hs, List.length_cons] at hn
          omega
        obtain ⟨hmove, hpos⟩ := ih hlen
        rw [hr] at hmove hpos
        rw [if_pos hc, List.dropWhile_cons_of_pos hc, List.takeWhile_cons_of_pos hc, hpos]
        refine ⟨hmove.after_readChar, ?_⟩
        simp only [Lexer.readChar, l.ahead, List.length_cons]
        omega
      · rw [if_neg hc, List.dropWhile_cons_of_neg hc, List.takeWhile_cons_of_neg hc, ← hs]
        exact ⟨Moved.refl l, rfl⟩

theorem turns_gt (hp : p nul = false) (l : Lexer) :
    Moved l (advanceWhile p l.turns l) (l.rest.dropWhile p) [] ∧
      (advanceWhile p l.turns l).position = l.position + (l.rest.takeWhile p).length := by
  by_cases hs : l.rest = []
  · have hpos : advanceWhile p l.turns l = l := by
      cases l.turns with
      | zero => rfl
      | succ n => rw [advanceWhile, ch_eq, hs, head_nil, if_neg (by simp [hp])]
    have hmove := Moved.refl l
    rw [hs] at hmove
    rw [hpos, hs]
    exact ⟨hmove, rfl⟩
  · exact advanceWhile_spec hp (l.length_rest_lt_turns hs)

theorem readRun_eq (hp : p nul = false) (hs : l.rest ≠ []) :
    ∃ l', l.readRun p = some (l.rest.takeWhile p, l') ∧ Moved l l' (l.rest.dropWhile p) [] := by
  obtain ⟨hmove, hpos⟩ := turns_gt hp l
  refine ⟨_, ?_, hmove⟩
  have hlen := (List.takeWhile_prefix p (l := l.rest)).length_le
  have hpos' : l.position < l.input.length := by
    rw [rest, ne_eq, List.drop_eq_nil_iff, not_le] at hs
    exact hs
  rw [readRun, slice, hpos, if_pos]
  · simp only [Option.map_some, Option.some.injEq, Prod.mk.injEq, and_true]
    rw [List.drop_take, Nat.add_sub_cancel_left]
    exact (List.prefix_iff_eq_take.mp (List.takeWhile_prefix p)).symm
  · rw [length_rest] at hlen
    omega

theorem appendQuotedSegment_spec (b : Bytes) (hn : l.rest.tail.length < n) :
    ∃ w, (appendQuotedSegment n b l).1 = b ++ w ∧
      Moved l (appendQuotedSegment n b l).2 (appendQuotedSegment n b l).2.rest [] ∧
      branchBody true l.rest.tail =
        (branchBody false (appendQuotedSegment n b l).2.rest.tail).write w ∧
      ((appendQuotedSegment n b l).2.rest = [] ∨
        (appendQuotedSegment n b l).2.rest.length ≤ l.rest.tail.length) := by
  induction n generalizing l b with
  | zero => omega
  | succ n ih =>
    rw [appendQuotedSegment, ch_readChar]
    cases hs : l.rest.tail with
    | nil =>
      have hmove := (moved_readChar l)
      simp only [head_nil, true_or, if_true]
      refine ⟨[], by simp, ?_, ?_, Or.inl ?_⟩
      · rwa [rest_readChar]
      · rw [rest_readChar, hs]
        rfl
      · rw [rest_readChar, hs]
    | cons c s =>
      have hr : l.readChar.rest = c :: s := by rw [rest_readChar, hs]
      rw [head_cons]
      by_cases hc : c = nul ∨ c = '"'
      · rw [if_pos hc, branchBody_close s hc]
        refine ⟨[], by simp, ?_, ?_, Or.inr ?_⟩
        · simpa [rest_readChar] using moved_readChar l
        · rw [hr]
          rfl
        · rw [hr]
      · rw [if_neg hc, branchBody_inside s hc]
        have hlen : l.readChar.rest.tail.length < n := by
          rw [hr, List.tail_cons]
          rw [hs, List.length_cons] at hn
          omega
        obtain ⟨w, hw, hmove, hbody, hle⟩ := ih (b ++ escapePath c) hlen
        rw [hr, List.tail_cons] at hbody hle
        refine ⟨escapePath c ++ w, by rw [hw, List.append_assoc], hmove.after_readChar, ?_, ?_⟩
        · rw [hbody]
          simp [Body.write]
        · exact hle.imp_right Nat.le_succ_of_le

theorem scanBranchFrom_spec (b : Bytes) (hn : l.rest.tail.length < n) :
    (scanBranchFrom n b l).1 = b ++ (branchBody false l.rest.tail).content ∧
      Moved l (scanBranchFrom n b l).2.readChar (branchBody false l.rest.tail).rest [] := by
  induction n generalizing l b with
  | zero => omega
  | succ n ih =>
    rw [scanBranchFrom, peekChar_eq_head]
    cases hs : l.rest.tail with
    | nil =>
      have hstop : isBranchChar nul = false := by decide
      rw [head_nil, if_neg (by decide), hstop]
      refine ⟨by simp [branchBody], ?_⟩
      have hmove := moved_readChar l
      rwa [hs] at hmove
    | cons c s =>
      rw [head_cons]
      by_cases hquote : c = '"'
      · subst hquote
        rw [if_pos rfl, branchBody_open]
        have hr : l.readChar.rest.tail = s := by rw [rest_readChar, hs, List.tail_cons]
        have hturns : l.readChar.rest.tail.length < l.turns := by
          have := l.length_rest_lt_turns (by
            rintro hnil
            simp [hnil] at hs)
          have := congrArg List.length hs
          rw [List.length_tail, List.length_cons] at this
          rw [hr]
          omega
        obtain ⟨w, hw, hmove, hbody, hle⟩ := appendQuotedSegment_spec b hturns
        rw [hr] at hbody hle
        have hlen : (appendQuotedSegment l.turns b l.readChar).2.rest.tail.length < n := by
          rw [hs, List.length_cons] at hn
          rw [List.length_tail]
          rcases hle with h | h
          · rw [h, List.length_nil]
            omega
          · omega
        obtain ⟨hcontent, hmove'⟩ := ih (appendQuotedSegment l.turns b l.readChar).1 hlen
        refine ⟨?_, ?_⟩
        · rw [hcontent, hw, hbody, List.append_assoc]
          rfl
        · rw [hbody]
          exact (hmove.after_readChar.trans hmove')
      · rw [if_neg hquote]
        by_cases hc : isBranchChar c = true
        · rw [if_pos hc, branchBody_char s hquote hc]
          have hr : l.readChar.rest.tail = s := by rw [rest_readChar, hs, List.tail_cons]
          have hlen : l.readChar.rest.tail.length < n := by
            rw [hs, List.length_cons] at hn
            rw [hr]
            omega
          obtain ⟨hcontent, hmove⟩ := ih (b ++ [c]) hlen
          rw [hr] at hcontent hmove
          refine ⟨?_, hmove.after_readChar⟩
          rw [hcontent, List.append_assoc]
          rfl
        · rw [if_neg hc, branchBody_stop s hquote hc]
          refine ⟨by simp, ?_⟩
          have hmove := moved_readChar l
          rwa [hs] at hmove

theorem skipEscapes_spec (hn : l.rest.length < n) :
    ∃ w, regexBody '/' l.rest = (regexBody '/' (skipEscapes n l).rest).write w ∧
      (skipEscapes n l).position = l.position + w.length ∧
      Moved l (skipEscapes n l) (skipEscapes n l).rest [] ∧
      (skipEscapes n l).rest.length ≤ l.rest.length ∧
      ¬((skipEscapes n l).ch = '\\' ∧ (skipEscapes n l).peekChar = '/') := by
  induction n generalizing l with
  | zero => omega
  | succ n ih =>
    rw [skipEscapes]
    by_cases h : l.ch = '\\' ∧ l.peekChar = '/'
    · rw [if_pos h]
      obtain ⟨s, hs⟩ : ∃ s, l.rest = '\\' :: '/' :: s := by
        rw [ch_eq, peekChar_eq_head] at h
        cases hs : l.rest with
        | nil => simp [hs, nul] at h
        | cons c t =>
          cases t with
          | nil => simp [hs, nul] at h
          | cons d t =>
            rw [hs] at h
            obtain ⟨rfl, rfl⟩ := h
            exact ⟨t, rfl⟩
      have hr : l.readChar.readChar.rest = s := by rw [rest_readChar, rest_readChar, hs]; rfl
      have hlen : l.rest.length = s.length + 2 := by rw [hs]; rfl
      obtain ⟨w, hw, hpos, hmove, hle, hstop⟩ := ih (l := l.readChar.readChar) (by rw [hr]; omega)
      rw [hr] at hw hle
      refine ⟨'\\' :: '/' :: w, ?_, ?_, hmove.after_readChar.after_readChar, by omega, hstop⟩
      · rw [hs, regexBody_inside (by decide) (by decide),
          regexBody_inside (by decide) (by decide), hw]
        simp [Body.write]
      · rw [hpos]
        simp only [Lexer.readChar, l.ahead, List.length_cons]
        omega
    · rw [if_neg h]
      exact ⟨[], by simp [Body.write], by simp, Moved.refl l, le_refl _, h⟩

theorem readRegexFrom_succ (hch : l.ch ≠ nul) :
    readRegexFrom (n + 1) l =
      if (skipEscapes l.turns l.readChar).ch = '/' then skipEscapes l.turns l.readChar
      else readRegexFrom n (skipEscapes l.turns l.readChar) :=
  if_neg hch

theorem readRegexFrom_nul (hch : l.ch = nul) : readRegexFrom n l = l := by
  cases n with
  | zero => rfl
  | succ n => exact if_pos hch

theorem readRegexFrom_spec (hn : l.rest.length < n) (hch : l.ch ≠ nul)
    (hesc : ¬(l.ch = '\\' ∧ l.peekChar = '/')) :
    Moved l (readRegexFrom n l) (readRegexFrom n l).rest [] ∧
      (readRegexFrom n l).rest.tail = (regexBody l.ch l.rest.tail).rest ∧
      (regexBody l.ch l.rest.tail).errs =
        (if (readRegexFrom n l).ch = '/' then [] else [unterminatedRegex]) ∧
      (readRegexFrom n l).position = l.position + 1 +
        (regexBody l.ch l.rest.tail).content.length := by
  induction n generalizing l with
  | zero => omega
  | succ n ih =>
    rw [readRegexFrom_succ hch]
    have hne : l.rest ≠ [] := by
      intro hnil
      rw [ch_eq, hnil] at hch
      exact hch rfl
    have hlen : l.readChar.rest.length + 1 = l.rest.length := by
      have := List.length_pos_iff.mpr hne
      rw [rest_readChar, List.length_tail]
      omega
    have hbody : regexBody l.ch l.rest.tail = regexBody '/' l.readChar.rest := by
      rw [peekChar_eq_head] at hesc
      rw [rest_readChar]
      exact regexBody_prev hesc
    have hturns : l.readChar.rest.length < l.turns := by
      have := l.length_rest_lt_turns hne
      omega
    obtain ⟨w, hw, hpos, hmove, hle, hstop⟩ := skipEscapes_spec hturns
    have hpos1 : l.readChar.position = l.position + 1 := l.ahead
    rw [hbody, hw]
    generalize skipEscapes l.turns l.readChar = m at hw hpos hmove hle hstop ⊢
    have hmove' := hmove.after_readChar
    have hmch := m.ch_eq
    cases hs : m.rest with
    | nil =>
      rw [hs, head_nil] at hmch
      rw [if_neg (by rw [hmch]; decide), readRegexFrom_nul hmch, if_neg (by rw [hmch]; decide)]
      rw [hs] at hmove'
      refine ⟨by rwa [hs], by rw [hs]; rfl, rfl, ?_⟩
      rw [hpos, hpos1]
      simp [Body.write, regexBody]
    | cons c s =>
      rw [hs, head_cons] at hmch
      by_cases hclose : c = '/'
      · subst hclose
        rw [if_pos hmch, regexBody_close (by decide), if_pos hmch]
        refine ⟨hmove', by rw [hs]; rfl, rfl, ?_⟩
        rw [hpos, hpos1]
        simp [Body.write]
      · have hopen : ¬m.ch = '/' := by rwa [hmch]
        rw [if_neg hopen]
        by_cases hnul : c = nul
        · subst hnul
          rw [readRegexFrom_nul hmch, regexBody_nul, if_neg hopen]
          refine ⟨hmove', by rw [hs]; rfl, rfl, ?_⟩
          rw [hpos, hpos1]
          simp [Body.write]
        · obtain ⟨hmove'', hrest, herrs, hpos'⟩ :=
            ih (by omega) (by rwa [hmch]) hstop
          rw [hs, List.tail_cons, hmch] at hrest herrs hpos'
          rw [regexBody_inside hnul fun h => hclose h.1]
          refine ⟨hmove'.trans hmove'', hrest, herrs, ?_⟩
          rw [hpos', hpos, hpos1]
          simp only [Body.write, List.length_append, List.length_cons, List.length_nil]
          omega

theorem readRegex_eq (hch : l.ch = '/') :
    ∃ l', l.readRegex = some (unescapeSlash (regexBody '/' l.rest.tail).content, l') ∧
      Moved l l'.readChar (regexBody '/' l.rest.tail).rest (regexBody '/' l.rest.tail).errs := by
  have hne : l.rest ≠ [] := by
    intro hnil
    rw [ch_eq, hnil] at hch
    exact absurd hch (by decide)
  obtain ⟨hmove, hrest, herrs, hpos⟩ := readRegexFrom_spec (l.length_rest_lt_turns hne)
    (by rw [hch]; decide) (by rw [hch]; exact fun h => absurd h.1 (by decide))
  rw [hch] at hrest herrs hpos
  generalize hx : regexBody '/' l.rest.tail = x at *
  have hpre : x.content <+: l.rest.tail := hx ▸ regexBody_content_prefix _ _
  have hslice : slice l.input (l.position + 1) (readRegexFrom l.turns l).position =
    some x.content := by
    have hlen := hpre.length_le
    rw [List.length_tail, length_rest] at hlen
    have hlt : l.position < l.input.length := by
      rw [rest, ne_eq, List.drop_eq_nil_iff, not_le] at hne
      exact hne
    rw [hpos, slice, if_pos (by omega), List.drop_take, Nat.add_sub_cancel_left]
    rw [rest, List.tail_drop] at hpre
    rw [← List.prefix_iff_eq_take.mp hpre]
  refine ⟨if (readRegexFrom l.turns l).ch = '/' then readRegexFrom l.turns l
    else (readRegexFrom l.turns l).error unterminatedRegex, ?_, ?_⟩
  · rw [readRegex]
    split <;> simp [Lexer.error, hslice]
  · rw [herrs, ← hrest]
    split
    · exact hmove.readChar
    · exact (hmove.error _).readChar

theorem readStringFrom_spec (b : Bytes) (hn : l.rest.tail.length < n) :
    (readStringFrom n b l).1 = b ++ (stringBody l.rest.tail).content ∧
      Moved l (readStringFrom n b l).2.readChar (stringBody l.rest.tail).rest
        (stringBody l.rest.tail).errs := by
  induction n generalizing l b with
  | zero => omega
  | succ n ih =>
    rw [readStringFrom, ch_readChar]
    cases hs : l.rest.tail with
    | nil =>
      rw [head_nil, if_pos rfl]
      refine ⟨by simp [stringBody], ?_⟩
      have hmove := ((moved_readChar l).error unterminatedString).readChar
      rwa [hs] at hmove
    | cons c s =>
      have hr : l.readChar.rest = c :: s := by rw [rest_readChar, hs]
      rw [hs, List.length_cons] at hn
      rw [head_cons]
      have hmove := moved_readChar l
      rw [hs] at hmove
      by_cases hnul : c = nul
      · subst hnul
        rw [if_pos rfl, stringBody_nul]
        exact ⟨by simp, (hmove.error _).readChar⟩
      rw [if_neg hnul]
      by_cases hquote : c = '"'
      · subst hquote
        rw [if_pos rfl, stringBody_close]
        exact ⟨by simp, hmove.readChar⟩
      rw [if_neg hquote]
      by_cases hslash : c = '\\'
      · subst hslash
        rw [if_pos rfl]
        dsimp only
        rw [ch_readChar, hr, List.tail_cons]
        have hmove2 := hmove.readChar
        cases s with
        | nil =>
          rw [head_nil, if_pos rfl, stringBody_escape_end]
          exact ⟨by simp, hmove2.readChar⟩
        | cons d s =>
          rw [head_cons]
          by_cases hd : d = nul
          · subst hd
            rw [if_pos rfl, stringBody_escape_nul]
            exact ⟨by simp, hmove2.readChar⟩
          · rw [if_neg hd, stringBody_escape hd]
            have hr2 : l.readChar.readChar.rest.tail = s := by rw [rest_readChar, hr]; rfl
            rw [List.length_cons] at hn
            obtain ⟨hcontent, hmove'⟩ :=
              ih (b ++ unescape d) (l := l.readChar.readChar) (by rw [hr2]; omega)
            rw [hr2] at hcontent hmove'
            refine ⟨?_, hmove'.after_readChar.after_readChar⟩
            rw [hcontent, List.append_assoc]
            rfl
      · rw [if_neg hslash, stringBody_char hnul hquote hslash]
        have hr2 : l.readChar.rest.tail = s := by rw [hr]; rfl
        obtain ⟨hcontent, hmove'⟩ := ih (b ++ [c]) (l := l.readChar) (by rw [hr2]; omega)
        rw [hr2] at hcontent hmove'
        refine ⟨?_, hmove'.after_readChar⟩
        rw [hcontent, List.append_assoc]
        rfl

theorem readString_spec (hne : l.rest ≠ []) :
    l.readString.1 = (stringBody l.rest.tail).content ∧
      Moved l l.readString.2.readChar (stringBody l.rest.tail).rest
        (stringBody l.rest.tail).errs := by
  have hturns := l.length_rest_lt_turns hne
  exact readStringFrom_spec [] (by rw [List.length_tail]; omega)

theorem scanBranchRun_spec (b : Bytes) (hne : l.rest ≠ []) :
    (l.scanBranchRun b).1 = b ++ (head l.rest :: (branchBody false l.rest.tail).content) ∧
      Moved l (l.scanBranchRun b).2.readChar (branchBody false l.rest.tail).rest
        (branchBody false l.rest.tail).errs := by
  have hturns := l.length_rest_lt_turns hne
  obtain ⟨hcontent, hmove⟩ := scanBranchFrom_spec (l := l) (n := l.turns) (b ++ [l.ch])
    (by rw [List.length_tail]; omega)
  rw [branchBody_errs]
  refine ⟨?_, hmove⟩
  rw [scanBranchRun, hcontent, ch_eq]
  simp

end Readers

/-- What a call of `NextToken` leaves behind. -/
structure Returned (l l' : Lexer) (x : Lexeme) : Prop where
  input : l'.input = l.input
  lastToken : l'.lastToken = x.tok
  start : l'.start = l.start
  errs : l'.errs = l.errs ++ x.errs
  rest : l'.rest = x.rest

theorem Moved.stay {s : Bytes} {e : List String} (h : Moved l l' s e) (tok : Token) :
    Returned l (l'.stay tok).2 ⟨tok, s, e⟩ :=
  ⟨h.input, rfl, h.start, h.errs, h.rest⟩

end Lexer

section Shape

variable {last : TokenType} {c peek : Char}

@[simp] theorem shape_nul (last : TokenType) (peek : Char) : shape last nul peek = .eof := rfl

def signs : List TokenType :=
  [.assign, .eq, .matchOp, .plus, .minus, .notEq, .noMatch, .bang, .slash, .star, .asterisk,
    .ltEq, .lt, .gtEq,
    .gt, .semicolon, .colon, .comma, .illegal, .lbrace, .rbrace, .lparen, .rparen, .lbracket,
      .rbracket, .land,
    .lor]

/-- What the first byte and the one behind it are for a token of the shape. -/
def Shape.Begins (c peek : Char) : Shape → Prop
  | .eof => c = nul
  | .one type | .two type => type ∈ signs
  | .string => c = '"'
  | .regex => c = '/'
  | .branch => isLetter peek = true ∧ c = '.'
  | .atBranch => isLetter peek = true ∧ c = '@'
  | .call => isLetter peek = true ∧ c = '&'
  | .word => isLetter c = true
  | .number => isDigit c = true
  | .bare => True

theorem shape_begins (last : TokenType) (c peek : Char) : (shape last c peek).Begins c peek := by
  unfold shape
  split
  all_goals repeat' split
  all_goals simp only [Shape.Begins]
  all_goals first | assumption | exact ⟨by assumption, trivial⟩ | decide

theorem begins_of_shape {x : Shape} (h : shape last c peek = x) : x.Begins c peek :=
  h ▸ shape_begins last c peek

theorem shape_sign {type : TokenType}
    (h : shape last c peek = .one type ∨ shape last c peek = .two type) :
    type ∈ signs := by
  rcases h with h | h
  · exact begins_of_shape h
  · exact begins_of_shape h

end Shape

section Suffix

theorem stringBody_suffix (s : Bytes) : (stringBody s).rest <:+ s := by
  induction s using stringBody.induct with
  | case1 => exact List.suffix_refl _
  | case2 s =>
    rw [stringBody_nul]
    exact List.suffix_cons _ _
  | case3 s =>
    rw [stringBody_close]
    exact List.suffix_cons _ _
  | case4 =>
    rw [stringBody_escape_end]
    exact List.nil_suffix
  | case5 s =>
    rw [stringBody_escape_nul]
    exact ⟨['\\', nul], rfl⟩
  | case6 d s hd _ _ ih =>
    rw [stringBody_escape hd]
    exact ih.trans ⟨['\\', d], rfl⟩
  | case7 c s hnul hquote hslash ih =>
    rw [stringBody_char hnul hquote hslash]
    exact ih.trans (List.suffix_cons _ _)

theorem regexBody_suffix (prev : Char) (s : Bytes) : (regexBody prev s).rest <:+ s := by
  induction s generalizing prev with
  | nil => exact List.suffix_refl _
  | cons c s ih =>
    rw [regexBody]
    split
    · exact List.suffix_cons _ _
    · split
      · exact List.suffix_cons _ _
      · exact (ih c).trans (List.suffix_cons _ _)

theorem branchBody_suffix (quoted : Bool) (s : Bytes) : (branchBody quoted s).rest <:+ s := by
  induction s generalizing quoted with
  | nil => exact List.suffix_refl _
  | cons c s ih =>
    unfold branchBody
    split
    · split
      · exact (ih false).trans (List.suffix_cons _ _)
      · exact (ih true).trans (List.suffix_cons _ _)
    · split
      · exact (ih true).trans (List.suffix_cons _ _)
      · split
        · exact (ih false).trans (List.suffix_cons _ _)
        · exact List.suffix_refl _

theorem isWordChar_of_isLetter {c : Char} (h : isLetter c = true) : isWordChar c = true := by
  rw [isWordChar, h, Bool.true_or]

theorem lexeme_suffix (last : TokenType) (c : Char) (s : Bytes) : (lexeme last c s).rest <:+ s := by
  unfold lexeme
  cases hshape : shape last c (head s) with
  | one type => exact List.suffix_refl _
  | two type => exact List.tail_suffix _
  | bare => exact List.suffix_refl _
  | eof => exact List.suffix_refl _
  | number =>
    rw [List.dropWhile_cons_of_pos (begins_of_shape hshape)]
    exact List.dropWhile_suffix _
  | regex => exact regexBody_suffix c s
  | branch => exact (branchBody_suffix false s.tail).trans (List.tail_suffix _)
  | atBranch => exact (branchBody_suffix false s.tail).trans (List.tail_suffix _)
  | string => exact stringBody_suffix s
  | call => exact List.dropWhile_suffix _
  | word =>
    have hrest : (c :: s).dropWhile isWordChar <:+ s := by
      rw [List.dropWhile_cons_of_pos (isWordChar_of_isLetter (begins_of_shape hshape))]
      exact List.dropWhile_suffix _
    dsimp only
    split
    · exact ((stringBody_suffix _).trans (List.tail_suffix _)).trans hrest
    · exact hrest

theorem lookupIdent_ne {type : TokenType} (hident : type ≠ .ident)
    (hkeywords : ∀ e ∈ keywords, e.2 ≠ type) (word : Bytes) : lookupIdent word ≠ type := by
  intro h
  unfold lookupIdent at h
  cases hk : keywords.lookup word with
  | none =>
    rw [hk] at h
    exact hident h.symm
  | some type =>
    rw [hk, Option.getD_some] at h
    exact hkeywords _ (Lib.Assoc.mem_of_lookup hk) h

theorem lexeme_type_ne_eof {last : TokenType} {c : Char} (hc : c ≠ nul) (s : Bytes) :
    (lexeme last c s).tok.type ≠ .eof := by
  unfold lexeme
  cases hshape : shape last c (head s) with
  | one type =>
    rintro rfl
    exact absurd (shape_sign (.inl hshape)) (by decide)
  | two type =>
    rintro rfl
    exact absurd (shape_sign (.inr hshape)) (by decide)
  | eof => exact absurd (begins_of_shape hshape) hc
  | number =>
    simp only [numberType]
    split <;> exact TokenType.noConfusion
  | word =>
    dsimp only
    split
    · exact TokenType.noConfusion
    · exact lookupIdent_ne (by decide) (by decide) _
  | bare => exact TokenType.noConfusion
  | regex => exact TokenType.noConfusion
  | branch => exact TokenType.noConfusion
  | atBranch => exact TokenType.noConfusion
  | string => exact TokenType.noConfusion
  | call => exact TokenType.noConfusion

end Suffix

namespace Lexer

variable {l : Lexer}

theorem readToken_eq (l : Lexer) :
    ∃ l', l.readToken = some ((lexeme l.lastToken.type (head l.rest) l.rest.tail).tok, l') ∧
      Returned l l' (lexeme l.lastToken.type (head l.rest) l.rest.tail) := by
  have hne : l.ch ≠ nul → l.rest ≠ [] := by
    intro hch hnil
    rw [ch_eq, hnil] at hch
    exact hch rfl
  have htail : isLetter (head l.rest.tail) = true → l.readChar.rest ≠ [] := by
    intro hletter hnil
    rw [rest_readChar] at hnil
    rw [hnil] at hletter
    exact absurd hletter (by decide)
  unfold readToken lexeme
  rw [ch_eq, peekChar_eq_head] at *
  cases hshape : shape l.lastToken.type (head l.rest) (head l.rest.tail) with
  | one type => exact ⟨_, rfl, (moved_readChar l).stay _⟩
  | two type => exact ⟨_, rfl, (moved_readChar l).readChar.stay _⟩
  | bare => exact ⟨_, rfl, (moved_readChar l).stay _⟩
  | eof => exact ⟨_, rfl, (moved_readChar l).stay _⟩
  | number =>
    have hs := hne fun h => by rw [h] at hshape; cases hshape
    obtain ⟨l', hrun, hmove⟩ := readRun_eq (p := isDigit) (by decide) hs
    obtain ⟨c, s, hcs⟩ := List.exists_cons_of_ne_nil hs
    rw [hcs] at hrun hmove ⊢
    exact ⟨_, by rw [readNumber, hrun]; rfl, hmove.stay _⟩
  | regex =>
    have hslash := begins_of_shape hshape
    obtain ⟨l', hrun, hmove⟩ := readRegex_eq (l.ch_eq.trans hslash)
    rw [hslash]
    exact ⟨_, by rw [hrun]; rfl, hmove.stay _⟩
  | branch =>
    obtain ⟨hcontent, hmove⟩ := scanBranchRun_spec [l.ch] (htail (begins_of_shape hshape).1)
    rw [rest_readChar] at hcontent hmove
    rw [ch_eq] at hcontent
    refine ⟨_, ?_, hmove.after_readChar.stay _⟩
    rw [readBranchString, ch_eq, hcontent]
    rfl
  | atBranch =>
    obtain ⟨hcontent, hmove⟩ :=
      scanBranchRun_spec "._txc.".toList (htail (begins_of_shape hshape).1)
    rw [rest_readChar] at hcontent hmove
    refine ⟨_, ?_, hmove.after_readChar.stay _⟩
    rw [readAtBranchString, hcontent]
    rfl
  | string =>
    have hs := hne fun h => by rw [h] at hshape; cases hshape
    obtain ⟨hcontent, hmove⟩ := readString_spec hs
    refine ⟨_, ?_, hmove.stay _⟩
    rw [hcontent]
    rfl
  | call =>
    obtain ⟨l', hrun, hmove⟩ :=
      readRun_eq (p := isWordChar) (by decide) (htail (begins_of_shape hshape).1)
    rw [rest_readChar] at hrun hmove
    exact ⟨_, by rw [readIdentifier, hrun]; rfl, hmove.after_readChar.stay _⟩
  | word =>
    have hs := hne fun h => by rw [h] at hshape; cases hshape
    obtain ⟨l', hrun, hmove⟩ := readRun_eq (p := isWordChar) (by decide) hs
    obtain ⟨c, s, hcs⟩ := List.exists_cons_of_ne_nil hs
    rw [hcs] at hrun hmove ⊢
    dsimp only [head_cons, List.tail_cons]
    rw [readIdentifier, hrun, Option.map_some, ch_eq, hmove.rest]
    split
    · next h =>
      have hne' : l'.rest ≠ [] := by
        intro hnil
        rw [hmove.rest] at hnil
        rw [hnil] at h
        exact absurd h.2 (by decide)
      obtain ⟨hcontent, hmove'⟩ := readString_spec hne'
      rw [hmove.rest] at hcontent hmove'
      refine ⟨_, ?_, (hmove.trans hmove').stay _⟩
      rw [hcontent]
      rfl
    · exact ⟨_, rfl, hmove.stay _⟩

end Lexer

section Blanks

theorem skipBlank_cons (comment : Bool) (c : Char) (s : Bytes) : skipBlank comment (c :: s) =
    if comment then
      if c = '\n' then skipBlank false s else if c = nul then c :: s else skipBlank true s
    else if isSpace c then skipBlank false s
    else if c = '#' then skipBlank true s
    else c :: s := rfl

theorem skipBlank_space (s : Bytes) :
    skipBlank false s = skipBlank false (s.dropWhile isSpace) := by
  induction s with
  | nil => rfl
  | cons c s ih =>
    by_cases hc : isSpace c = true
    · rw [List.dropWhile_cons_of_pos hc, ← ih, skipBlank_cons, if_neg Bool.false_ne_true, if_pos hc]
    · rw [List.dropWhile_cons_of_neg hc]

theorem skipBlank_comment (s : Bytes) :
    skipBlank true s = skipBlank false (s.dropWhile fun c => c != '\n' && c != nul) := by
  induction s with
  | nil => rfl
  | cons c s ih =>
    rw [skipBlank_cons, if_pos rfl]
    by_cases hline : c = '\n'
    · subst hline
      rfl
    · rw [if_neg hline]
      by_cases hnul : c = nul
      · subst hnul
        rfl
      · rw [if_neg hnul, ih, List.dropWhile_cons_of_pos (by simp [hline, hnul])]

theorem skipBlank_hash (s : Bytes) : skipBlank false ('#' :: s) = skipBlank true s := rfl

theorem skipBlank_token {c : Char} (hspace : isSpace c ≠ true) (hhash : c ≠ '#') (s : Bytes) :
    skipBlank false (c :: s) = c :: s := by
  rw [skipBlank_cons, if_neg Bool.false_ne_true, if_neg hspace, if_neg hhash]

theorem skipBlank_suffix (comment : Bool) (s : Bytes) : skipBlank comment s <:+ s := by
  induction s generalizing comment with
  | nil => exact List.suffix_refl _
  | cons c s ih =>
    rw [skipBlank_cons]
    split
    · split
      · exact (ih false).trans (List.suffix_cons _ _)
      · split
        · exact List.suffix_refl _
        · exact (ih true).trans (List.suffix_cons _ _)
    · split
      · exact (ih false).trans (List.suffix_cons _ _)
      · split
        · exact (ih true).trans (List.suffix_cons _ _)
        · exact List.suffix_refl _

end Blanks

namespace Lexer

theorem moved_skipWhitespace (l : Lexer) : Moved l l.skipWhitespace (l.rest.dropWhile isSpace) [] :=
  (turns_gt (by decide) l).1

theorem moved_skipComment (l : Lexer) :
    Moved l l.skipComment ((l.rest.dropWhile fun c => c != '\n' && c != nul).dropWhile isSpace)
      [] := by
  have hmove := (turns_gt (p := fun c => c != '\n' && c != nul) (by decide) l).1
  have hspace := moved_skipWhitespace (advanceWhile (fun c => c != '\n' && c != nul) l.turns l)
  rw [hmove.rest] at hspace
  exact hmove.trans hspace

/-- A call of `NextToken` that returns and leaves what `next` says. -/
structure Scanned (l l' : Lexer) : Prop where
  input : l'.input = l.input
  lastToken : l'.lastToken = (next l.lastToken.type l.rest).tok
  start : l'.start = l.input.length - (skipBlank false l.rest).length
  errs : l'.errs = l.errs ++ (next l.lastToken.type l.rest).errs
  rest : l'.rest = (next l.lastToken.type l.rest).rest

theorem next_congr {last : TokenType} {s t : Bytes} (h : skipBlank false s = skipBlank false t) :
    next last s = next last t := by
  unfold next
  rw [h]

theorem Scanned.of_moved {l m l' : Lexer} {s : Bytes} (h : Moved l m s [])
    (hs : skipBlank false s = skipBlank false l.rest) (h' : Scanned m l') : Scanned l l' := by
  have hnext : next m.lastToken.type m.rest = next l.lastToken.type l.rest := by
    rw [h.lastToken, h.rest]
    exact next_congr hs
  refine ⟨h'.input.trans h.input, ?_, ?_, ?_, ?_⟩
  · rw [h'.lastToken, hnext]
  · rw [h'.start, h.input, h.rest, hs]
  · rw [h'.errs, hnext, h.errs, List.append_nil]
  · rw [h'.rest, hnext]

theorem readToken_mark {l : Lexer} (h : skipBlank false l.rest = l.rest) :
    ∃ l', l.mark.readToken = some (l'.lastToken, l') ∧ Scanned l l' := by
  obtain ⟨l', htok, hret⟩ := readToken_eq l.mark
  have hnext : lexeme l.mark.lastToken.type (head l.mark.rest) l.mark.rest.tail =
      next l.lastToken.type l.rest := by
    unfold next
    rw [h]
    rfl
  rw [hnext] at htok hret
  refine ⟨l', by rw [htok, hret.lastToken], hret.input, hret.lastToken, ?_, hret.errs, hret.rest⟩
  rw [hret.start, h]
  exact l.spanEnd_eq

theorem nextTokenFrom_eq {n : Nat} {l : Lexer} (hn : l.rest.length < n) :
    ∃ l', nextTokenFrom n l = some (l'.lastToken, l') ∧ Scanned l l' := by
  induction n generalizing l with
  | zero => omega
  | succ n ih =>
    have hmove := moved_skipWhitespace l
    have hblank := (skipBlank_space l.rest).symm
    have hlen : (l.rest.dropWhile isSpace).length ≤ l.rest.length :=
      (List.dropWhile_suffix _).length_le
    have hhead := List.head?_dropWhile_not isSpace l.rest
    rw [nextTokenFrom]
    generalize l.skipWhitespace = m at hmove ⊢
    rw [← hmove.rest] at hblank hlen hhead
    by_cases hhash : m.ch = '#'
    · rw [if_pos hhash]
      obtain ⟨s, hs⟩ : ∃ s, m.rest = '#' :: s := by
        rw [ch_eq] at hhash
        cases hs : m.rest with
        | nil => simp [hs, nul] at hhash
        | cons c s =>
          rw [hs, head_cons] at hhash
          exact ⟨s, by rw [hhash]⟩
      have hcomment := moved_skipComment m
      have hskip : skipBlank false m.skipComment.rest = skipBlank false l.rest := by
        rw [hcomment.rest, ← skipBlank_space, ← hblank, hs, skipBlank_hash, skipBlank_comment]
        rfl
      have hshort : m.skipComment.rest.length < n := by
        have hdrop : ('#' :: s).dropWhile (fun c => c != '\n' && c != nul) =
            s.dropWhile (fun c => c != '\n' && c != nul) := rfl
        have h1 := (List.dropWhile_suffix (l := s) fun c => c != '\n' && c != nul).length_le
        have h2 :=
          (List.dropWhile_suffix (l := s.dropWhile fun c => c != '\n' && c != nul)
            isSpace).length_le
        rw [hcomment.rest, hs, hdrop]
        rw [hs, List.length_cons] at hlen
        omega
      obtain ⟨l', htok, hscan⟩ := ih hshort
      have hall := hmove.trans hcomment
      rw [← hcomment.rest] at hall
      exact ⟨l', htok, hscan.of_moved hall hskip⟩
    · rw [if_neg hhash]
      have hhere : skipBlank false m.rest = m.rest := by
        cases hs : m.rest with
        | nil => rfl
        | cons c s =>
          rw [hs] at hhead
          rw [ch_eq, hs] at hhash
          exact skipBlank_token (by simpa using hhead) hhash s
      obtain ⟨l', htok, hscan⟩ := readToken_mark hhere
      rw [← hmove.rest] at hmove
      exact ⟨l', htok, hscan.of_moved hmove hblank⟩

theorem nextToken_eq (l : Lexer) : ∃ l', l.nextToken = some (l'.lastToken, l') ∧ Scanned l l' := by
  apply nextTokenFrom_eq
  rw [length_rest]
  omega

end Lexer

end ThanksComputer.Txcl
