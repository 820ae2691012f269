import Mathlib.Data.List.TakeWhile
import ThanksComputer.Txcl.Scan

/-! The spans the lexer reports.  They tile the source in order, with nothing but blanks and
comments between them. -/

namespace ThanksComputer.Txcl

structure SpanTok where
  tok : Token
  start : Nat
  stop : Nat
  deriving DecidableEq

/-- `NextToken` until the end of the input; `none` is a panic. -/
def Lexer.collect : Nat → Lexer → Option (List SpanTok × Lexer)
  | 0, _ => none
  | n + 1, l =>
    match l.nextToken with
    | none => none
    | some (tok, l') =>
      if tok.type = .eof then some ([], l')
      else (collect n l').map fun r => (⟨tok, l'.start, l'.spanEnd⟩ :: r.1, r.2)

/-- `lex` of `txcl/include`: the tokens of a source up to the end of input, and the lexer's
errors. -/
def lex (src : Bytes) : Option (List SpanTok × List String) :=
  (Lexer.collect (src.length + 1) (Lexer.new src)).map fun r => (r.1, r.2.errs)

section Gaps

inductive Blank : Bytes → Prop
  | nil : Blank []
  | space {c : Char} {s : Bytes} : isSpace c = true → Blank s → Blank (c :: s)
  | comment {body s : Bytes} : '\n' ∉ body → Blank s → Blank ('#' :: body ++ '\n' :: s)

/-- At the end of a source the last comment may lack its line end. -/
inductive BlankEnd : Bytes → Prop
  | blank {s : Bytes} : Blank s → BlankEnd s
  | comment {s body : Bytes} : Blank s → '\n' ∉ body → BlankEnd (s ++ '#' :: body)

theorem BlankEnd.space {c : Char} {s : Bytes} (hc : isSpace c = true) (h : BlankEnd s) :
    BlankEnd (c :: s) := by
  cases h with
  | blank h => exact .blank (.space hc h)
  | comment h hbody => exact .comment (.space hc h) hbody

theorem BlankEnd.behind {body s : Bytes} (hbody : '\n' ∉ body) (h : BlankEnd s) :
    BlankEnd ('#' :: body ++ '\n' :: s) := by
  cases h with
  | blank h => exact .blank (.comment hbody h)
  | comment h hlast =>
    have := BlankEnd.comment (.comment hbody h) hlast
    simpa using this

theorem skipBlank_split {s : Bytes} (hs : nul ∉ s) :
    ∃ g, s = g ++ skipBlank false s ∧ (skipBlank false s ≠ [] → Blank g) ∧ BlankEnd g := by
  induction hn : s.length using Nat.strong_induction_on generalizing s with
  | _ n ih =>
    subst hn
    cases s with
    | nil => exact ⟨[], rfl, fun _ => .nil, .blank .nil⟩
    | cons c s =>
      rw [List.mem_cons, not_or] at hs
      rw [skipBlank, if_neg Bool.false_ne_true]
      by_cases hspace : isSpace c = true
      · rw [if_pos hspace]
        obtain ⟨g, hg, hblank, hend⟩ := ih s.length (Nat.lt_succ_self _) hs.2 rfl
        refine ⟨c :: g, ?_, fun h => .space hspace (hblank h), hend.space hspace⟩
        rw [List.cons_append, ← hg]
      rw [if_neg hspace]
      by_cases hhash : c = '#'
      · subst hhash
        rw [if_pos rfl, skipBlank_comment]
        have hsplit :=
          List.takeWhile_append_dropWhile (p := fun c => c != '\n' && c != nul) (l := s)
        have hline : '\n' ∉ s.takeWhile fun c => c != '\n' && c != nul := by
          intro hmem
          simpa using List.mem_takeWhile_imp hmem
        have hnext := List.head?_dropWhile_not (fun c => c != '\n' && c != nul) s
        generalize s.takeWhile (fun c => c != '\n' && c != nul) = body at hsplit hline
        generalize s.dropWhile (fun c => c != '\n' && c != nul) = u at hsplit hnext ⊢
        subst hsplit
        cases u with
        | nil =>
          refine ⟨'#' :: (body ++ []), by simp [skipBlank], fun h => absurd rfl h, ?_⟩
          have := BlankEnd.comment .nil hline
          simpa using this
        | cons d v =>
          rw [List.mem_append, List.mem_cons, not_or, not_or] at hs
          have hd : d = '\n' := by
            have hne : d ≠ nul := fun h => hs.2.2.1 h.symm
            simpa [hne] using hnext
          subst hd
          have hv : skipBlank false ('\n' :: v) = skipBlank false v := rfl
          rw [hv]
          obtain ⟨g, hg, hblank, hend⟩ := ih v.length (by simp; omega) hs.2.2.2 rfl
          refine ⟨'#' :: body ++ '\n' :: g, ?_, fun h => .comment hline (hblank h),
            hend.behind hline⟩
          rw [List.cons_append, List.cons_append, List.append_assoc, List.cons_append, ← hg]
      · rw [if_neg hhash]
        exact ⟨[], rfl, fun _ => .nil, .blank .nil⟩

end Gaps

/-- From `pos` on, the tokens stand in order and apart, and only blanks and comments are around
them. -/
def Tiles (src : Bytes) (pos : Nat) : List SpanTok → Prop
  | [] => BlankEnd (src.drop pos)
  | t :: ts =>
    pos ≤ t.start ∧ t.start < t.stop ∧ t.stop ≤ src.length ∧ Blank ((src.take t.start).drop pos) ∧
      Tiles src t.stop ts

/-- The gaps and the spans, put together from `pos` on. -/
def weave (src : Bytes) (pos : Nat) : List SpanTok → Bytes
  | [] => src.drop pos
  | t :: ts =>
    (src.take t.start).drop pos ++ ((src.take t.stop).drop t.start ++ weave src t.stop ts)

theorem weave_of_tiles {src : Bytes} {pos : Nat} {ts : List SpanTok} (h : Tiles src pos ts) :
    weave src pos ts = src.drop pos := by
  induction ts generalizing pos with
  | nil => rfl
  | cons t ts ih =>
    obtain ⟨hpos, hspan, -, -, htiles⟩ := h
    have cut {i j : Nat} (hij : i ≤ j) : (src.take j).drop i ++ src.drop j = src.drop i := by
      have hj : src.drop j = (src.drop i).drop (j - i) := by
        rw [List.drop_drop, Nat.add_sub_cancel' hij]
      rw [List.drop_take, hj, List.take_append_drop]
    rw [weave, ih htiles, cut (le_of_lt hspan), cut hpos]

namespace Lexer

variable {l l' : Lexer}

theorem drop_rest (l : Lexer) : l.input.drop (l.input.length - l.rest.length) = l.rest := by
  have hsuffix : l.rest <:+ l.input := List.drop_suffix _ _
  exact (List.suffix_iff_eq_drop.mp hsuffix).symm

theorem Scanned.cases (h : Scanned l l') (hnul : nul ∉ l.rest) :
    (skipBlank false l.rest = [] ∧ l'.lastToken.type = .eof) ∨
      (l'.lastToken.type ≠ .eof ∧ l'.rest.length < (skipBlank false l.rest).length ∧ nul ∉ l'.rest ∧
        skipBlank false l.rest ≠ []) := by
  obtain ⟨g, hg, -, -⟩ := skipBlank_split hnul
  have htok := h.lastToken
  have hrest := h.rest
  unfold next at htok hrest
  cases hs : skipBlank false l.rest with
  | nil =>
    rw [hs] at htok
    left
    exact ⟨rfl, by rw [htok]; rfl⟩
  | cons c s =>
    rw [hs] at htok hrest hg
    rw [head_cons, List.tail_cons] at htok hrest
    have hc : c ≠ nul := by
      rintro rfl
      exact hnul (hg ▸ List.mem_append_right _ List.mem_cons_self)
    have hsuffix := lexeme_suffix l.lastToken.type c s
    rw [← hrest] at hsuffix
    refine Or.inr ⟨?_, ?_, ?_, List.cons_ne_nil _ _⟩
    · rw [htok]
      exact lexeme_type_ne_eof hc s
    · have := hsuffix.length_le
      rw [List.length_cons]
      omega
    · intro hmem
      exact hnul (hg ▸ List.mem_append_right _ (List.mem_cons_of_mem _ (hsuffix.subset hmem)))

theorem collect_tiles {n : Nat} (hn : l.rest.length < n) (hnul : nul ∉ l.rest) :
    ∃ ts l', collect n l = some (ts, l') ∧ Tiles l.input (l.input.length - l.rest.length) ts := by
  induction n generalizing l with
  | zero => omega
  | succ n ih =>
    obtain ⟨l', htok, hscan⟩ := l.nextToken_eq
    obtain ⟨g, hg, hblank, hend⟩ := skipBlank_split hnul
    have hlen := congrArg List.length hg
    rw [List.length_append] at hlen
    have hin : l.rest.length ≤ l.input.length := by
      rw [length_rest]
      omega
    rw [collect, htok]
    dsimp only
    rcases hscan.cases hnul with ⟨hs, heof⟩ | ⟨htype, hshort, hnul', hne⟩
    · refine ⟨[], l', by rw [if_pos heof], ?_⟩
      rw [Tiles, drop_rest, hg, hs, List.append_nil]
      exact hend
    · rw [if_neg htype]
      obtain ⟨ts, l'', hcollect, htiles⟩ := ih (l := l') (by omega) hnul'
      refine ⟨_, _, by rw [hcollect]; rfl, ?_⟩
      rw [hscan.input] at htiles
      have hstart := hscan.start
      have hstop := l'.spanEnd_eq
      rw [hscan.input] at hstop
      rw [Tiles]
      dsimp only
      rw [hstop, hstart]
      refine ⟨by omega, by omega, by omega, ?_, htiles⟩
      have hgap : (l.input.take (l.input.length - (skipBlank false l.rest).length)).drop
          (l.input.length - l.rest.length) = g := by
        have hdrop := l.drop_rest
        rw [List.drop_take, hdrop]
        have hk : l.input.length - (skipBlank false l.rest).length -
          (l.input.length - l.rest.length) =
            g.length := by omega
        rw [hk, hg, List.take_left]
      rw [hgap]
      exact hblank hne

end Lexer

/-- Lexing to the end never panics, and the spans tile the source. -/
theorem lex_tiles (src : Bytes) (hnul : nul ∉ src) :
    ∃ ts errs, lex src = some (ts, errs) ∧ Tiles src 0 ts ∧ weave src 0 ts = src := by
  have hrest : (Lexer.new src).rest = src := rfl
  obtain ⟨ts, l', hcollect, htiles⟩ :=
    Lexer.collect_tiles (l := Lexer.new src) (n := src.length + 1) (by rw [hrest]; omega) hnul
  have hpos : (Lexer.new src).input.length - (Lexer.new src).rest.length = 0 := by
    rw [hrest]
    exact Nat.sub_self _
  rw [hpos] at htiles
  refine ⟨ts, l'.errs, by rw [lex, hcollect]; rfl, htiles, ?_⟩
  exact weave_of_tiles htiles

/-- Two tokens around a comment, and an unclosed string. -/
theorem lex_tiles_comment :
    ∃ ts errs, lex "WHEN # c\n \"a".toList = some (ts, errs) ∧ Tiles "WHEN # c\n \"a".toList 0 ts ∧
      weave "WHEN # c\n \"a".toList 0 ts = "WHEN # c\n \"a".toList :=
  lex_tiles _ (by decide)

example : (lex "WHEN # c\n \"a".toList).map (fun r => r.1.map fun t => (t.start, t.stop)) =
    some [(0, 4), (10, 12)] := by decide

end ThanksComputer.Txcl
