import ThanksComputer.Txcl.Local
import ThanksComputer.Txcl.Parser

/-! `txcl.Resonator` and `txcl.Validate`: the parser over the tokens of a text. -/

namespace ThanksComputer.Txcl

open Lib (Outcome)

section Stream

/-- The tokens the lexer returns until its input is used up, each with the errors recorded on it.  A
NUL byte is an end of input in the middle. -/
def Lexer.drain : Nat → Lexer → Option (List (Token × List String))
  | 0, _ => none
  | n + 1, l =>
    match l.nextToken with
    | none => none
    | some (tok, l') =>
      if tok.type = .eof ∧ l'.input.length ≤ l'.position then some []
      else (drain n l').map ((tok, l'.errs.drop l.errs.length) :: ·)

def stream (text : Bytes) : List (Token × List String) :=
  ((Lexer.new text).drain (text.length + 1)).getD []

inductive Streams : TokenType → Bytes → List (Token × List String) → Prop
  | done {last : TokenType} {s : Bytes} : (next last s).tok.type = .eof → (next last s).rest = [] →
    Streams last s []
  | token {last : TokenType} {s : Bytes} {ts : List (Token × List String)} :
    ¬((next last s).tok.type = .eof ∧ (next last s).rest = []) →
    Streams (next last s).tok.type (next last s).rest ts →
    Streams last s (((next last s).tok, (next last s).errs) :: ts)

theorem rest_eq_nil_iff (l : Lexer) : l.rest = [] ↔ l.input.length ≤ l.position :=
  List.drop_eq_nil_iff

theorem length_next_rest {last : TokenType} {s : Bytes}
    (h : ¬((next last s).tok.type = .eof ∧ (next last s).rest = [])) :
      (next last s).rest.length < s.length := by
  have hblank := (skipBlank_suffix false s).length_le
  cases hs : skipBlank false s with
  | nil =>
    have hrest := (lexeme_suffix last (head (skipBlank false s)) (skipBlank false s).tail)
    rw [hs, List.tail_nil, List.suffix_nil] at hrest
    have hnext : (next last s).rest = [] := by
      rw [next, hs]
      exact hrest
    have heof : (next last s).tok.type = .eof := by
      rw [next_eof_iff, hs]
      rfl
    exact absurd ⟨heof, hnext⟩ h
  | cons c t =>
    have hlex := (lexeme_suffix last c t).length_le
    rw [hs, List.length_cons] at hblank
    rw [next, hs]
    exact lt_of_le_of_lt hlex (by omega)

theorem Lexer.drain_streams {n : Nat} {l : Lexer} (hn : l.rest.length < n) :
    ∃ ts, l.drain n = some ts ∧ Streams l.lastToken.type l.rest ts := by
  induction n generalizing l with
  | zero => omega
  | succ n ih =>
    obtain ⟨m, htok, hscan⟩ := l.nextToken_eq
    have hrest : m.input.length ≤ m.position ↔ (next l.lastToken.type l.rest).rest = [] := by
      rw [← rest_eq_nil_iff, hscan.rest]
    rw [drain, htok]
    dsimp only
    rw [hscan.lastToken]
    split
    · next hdone => exact ⟨[], rfl, .done hdone.1 (hrest.mp hdone.2)⟩
    · next hdone =>
      rw [hrest] at hdone
      have hlt := length_next_rest hdone
      rw [← hscan.rest] at hlt
      obtain ⟨ts, hts, hstreams⟩ := ih (l := m) (by omega)
      rw [hscan.lastToken, hscan.rest] at hstreams
      refine ⟨_, by rw [hts]; rfl, ?_⟩
      rw [hscan.errs, List.drop_left]
      exact .token hdone hstreams

theorem stream_streams (text : Bytes) : Streams .untyped text (stream text) := by
  obtain ⟨ts, hts, hstreams⟩ :=
    Lexer.drain_streams (l := Lexer.new text) (n := text.length + 1) (Nat.lt_succ_self _)
  rw [stream, hts]
  exact hstreams

theorem Streams.unique {last : TokenType} {s : Bytes} {ts ts' : List (Token × List String)}
    (h : Streams last s ts) (h' : Streams last s ts') : ts = ts' := by
  induction h generalizing ts' with
  | done heof hrest =>
    cases h' with
    | done => rfl
    | token hne => exact absurd ⟨heof, hrest⟩ hne
  | token hne _ ih =>
    cases h' with
    | done heof hrest => exact absurd ⟨heof, hrest⟩ hne
    | token _ h' => rw [ih h']

end Stream

section Api

variable {F R : Type} (H : Host F R)

/-- A parser over a text, run to the end. -/
def parse (strict : Bool) (text : Bytes) : Outcome Parser (List (Phrase F R)) :=
  parseEvent H (Parser.new ((stream text).map Prod.fst) strict)

/-- What the lexer has recorded when the parser stands at `q`: it was asked for the tokens up to the
second of the window. -/
def lexerErrors (ts : List (Token × List String)) (q : Parser) : List String :=
  (ts.take (ts.length - (q.toks.drop 2).length)).flatMap Prod.snd

/-- `txcl.Resonator`: the rule and the parser's diagnostics. -/
def resonator (text : Bytes) : Option (Resonator F R × List String) :=
  match parse H false text with
  | .ok phrases q => some (resonatorOf phrases, q.errors)
  | _ => none

/-- `txcl.Validate`: the diagnostics of the lexer, then those of the parser. -/
def validate (text : Bytes) : Option (List String) :=
  match parse H true text with
  | .ok _ q => some (lexerErrors (stream text) q ++ q.errors)
  | _ => none

/-- A host without functions, durations and regular expressions. -/
def bareHost : Host Unit Unit :=
  ⟨String.ofList, fun _ => false, fun _ => (), fun _ => none, fun _ => none⟩

end Api

end ThanksComputer.Txcl
