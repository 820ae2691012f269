import ThanksComputer.Txcl.Complete
import ThanksComputer.Txcl.Phrases
import ThanksComputer.Txcl.Validate

/-! Boolean trees over comparisons, the ways to write one, and that the parser gives a written tree
its meaning back. -/

namespace ThanksComputer.Txcl

open Lib (Outcome)

variable {F R : Type}

/-- A boolean combination of comparisons. -/
inductive Tree (F R : Type)
  | leaf (c : Condition F R)
  | and (s t : Tree F R)
  | or (s t : Tree F R)
  | not (t : Tree F R)

def Tree.truth {E V A : Type} (G : Runtime E V A F R) (input : E) : Tree F R → Bool
  | leaf c => G.evalLeaf c input
  | and s t => s.truth G input && t.truth G input
  | or s t => s.truth G input || t.truth G input
  | not t => !t.truth G input

section Writing

variable (H : Host F R)

mutual

/-- The tokens a tree is written with where a `||` may stand. -/
inductive WritesOr : Tree F R → List Token → Prop
  | and {t : Tree F R} {w : List Token} : WritesAnd t w → WritesOr t w
  | or {s t : Tree F R} {w w' : List Token} {op : Token} : WritesOr s w → op.type = .lor →
    WritesOr t w' →
    WritesOr (.or s t) (w ++ op :: w')

/-- The same where a `&&` or a comma may stand. -/
inductive WritesAnd : Tree F R → List Token → Prop
  | not {t : Tree F R} {w : List Token} : WritesNot t w → WritesAnd t w
  | and {s t : Tree F R} {w w' : List Token} {op : Token} : WritesAnd s w →
    op.type ∈ [TokenType.land, .comma] →
    WritesAnd t w' → WritesAnd (.and s t) (w ++ op :: w')

/-- The same behind a `!`.  A disjunction in a conjunction and both in a negation need the brackets;
they do no harm elsewhere. -/
inductive WritesNot : Tree F R → List Token → Prop
  | leaf {c : Condition F R} {w : List Token} : LeafToks H w c → WritesNot (.leaf c) w
  | not {t : Tree F R} {w : List Token} {b : Token} : b.type = .bang → WritesNot t w →
    WritesNot (.not t) (b :: w)
  | group {t : Tree F R} {w : List Token} {l r : Token} : l.type = .lparen → WritesOr t w →
    r.type = .rparen →
    WritesNot t (l :: (w ++ [r]))

end

end Writing

section Meaning

variable {E V A : Type} {G : Runtime E V A F R} {input : E}

namespace Runtime

theorem evalAll_cons (e : WhenExpr F R) (es : List (WhenExpr F R)) :
    G.evalAll input (e :: es) = if !G.evalExpr input e then false else G.evalAll input es := rfl

theorem evalAny_cons (e : WhenExpr F R) (es : List (WhenExpr F R)) :
    G.evalAny input (e :: es) = if G.evalExpr input e then true else G.evalAny input es := rfl

theorem evalAll_append (es es' : List (WhenExpr F R)) :
    G.evalAll input (es ++ es') = (G.evalAll input es && G.evalAll input es') := by
  induction es with
  | nil => rfl
  | cons e es ih =>
    rw [List.cons_append, evalAll_cons, evalAll_cons, ih]
    cases G.evalExpr input e
    · rfl
    · rfl

theorem evalAny_append (es es' : List (WhenExpr F R)) :
    G.evalAny input (es ++ es') = (G.evalAny input es || G.evalAny input es') := by
  induction es with
  | nil => rfl
  | cons e es ih =>
    rw [List.cons_append, evalAny_cons, evalAny_cons, ih]
    cases G.evalExpr input e
    · rfl
    · rfl

theorem evalAll_singleton (e : WhenExpr F R) : G.evalAll input [e] = G.evalExpr input e := by
  rw [evalAll_cons]
  cases G.evalExpr input e
  · rfl
  · rfl

theorem evalAny_singleton (e : WhenExpr F R) : G.evalAny input [e] = G.evalExpr input e := by
  rw [evalAny_cons]
  cases G.evalExpr input e
  · rfl
  · rfl

theorem evalExpr_ofLeaf (c : Condition F R) :
    G.evalExpr input (.ofLeaf c) = G.evalLeaf c input := rfl

theorem evalExpr_ofNot (e : WhenExpr F R) : G.evalExpr input (.ofNot e) = !G.evalExpr input e := rfl

theorem evalExpr_joined_and {es : List (WhenExpr F R)} (h : es ≠ []) :
    G.evalExpr input (joined .ofAnd es) = G.evalAll input es := by
  unfold joined
  split
  · rw [evalAll_singleton]
  · simp [WhenExpr.ofAnd, evalExpr, h]

theorem evalExpr_joined_or {es : List (WhenExpr F R)} (h : es ≠ []) :
    G.evalExpr input (joined .ofOr es) = G.evalAny input es := by
  unfold joined
  split
  · rw [evalAny_singleton]
  · simp [WhenExpr.ofOr, evalExpr, h]

end Runtime

variable {H : Host F R} {w w' : List Token} {op : Token}

theorem AndToks.ne_nil {parts : List (WhenExpr F R)} (h : AndToks H w parts) : parts ≠ [] := by
  cases h with
  | one => exact List.cons_ne_nil _ _
  | more => exact List.append_ne_nil_of_right_ne_nil _ (List.cons_ne_nil _ _)

theorem OrToks.ne_nil {parts : List (WhenExpr F R)} (h : OrToks H w parts) : parts ≠ [] := by
  cases h with
  | one => exact List.cons_ne_nil _ _
  | more => exact List.append_ne_nil_of_right_ne_nil _ (List.cons_ne_nil _ _)

theorem AndToks.append {parts parts' : List (WhenExpr F R)} (h : AndToks H w parts)
    (hop : op.type ∈ [TokenType.land, .comma]) (h' : AndToks H w' parts') :
    AndToks H (w ++ op :: w') (parts ++ parts') := by
  induction hn : w'.length using Nat.strong_induction_on generalizing w' parts' with
  | _ n ih =>
    subst hn
    cases h' with
    | one hnot => exact .more h hop hnot
    | more hand hop' hnot =>
      rw [← List.append_assoc, ← List.cons_append, ← List.append_assoc]
      exact .more (ih _ (by simp) hand rfl) hop' hnot

theorem OrToks.append {parts parts' : List (WhenExpr F R)} (h : OrToks H w parts)
    (hop : op.type ∈ [TokenType.lor]) (h' : OrToks H w' parts') :
      OrToks H (w ++ op :: w') (parts ++ parts') := by
  induction hn : w'.length using Nat.strong_induction_on generalizing w' parts' with
  | _ n ih =>
    subst hn
    cases h' with
    | one hand => exact .more h hop hand
    | more hor hop' hand =>
      rw [← List.append_assoc, ← List.cons_append, ← List.append_assoc]
      exact .more (ih _ (by simp) hor rfl) hop' hand

/-- `e` means what the tree `t` does. -/
def Means (t : Tree F R) (e : WhenExpr F R) : Prop :=
  ∀ (E V A : Type) (G : Runtime E V A F R) (input : E), G.evalExpr input e = t.truth G input

theorem WritesOr.toks {t : Tree F R} (h : WritesOr H t w) :
    ∃ parts, OrToks H w parts ∧ Means t (joined .ofOr parts) := by
  refine @WritesOr.rec F R H (fun t w _ => ∃ parts, OrToks H w parts ∧ Means t (joined .ofOr parts))
    (fun t w _ => ∃ parts, AndToks H w parts ∧ Means t (joined .ofAnd parts))
    (fun t w _ => ∃ e, NotToks H w e ∧ Means t e) ?_ ?_ ?_ ?_ ?_ ?_ ?_ t w h
  · rintro t w _ ⟨parts, hand, hmeans⟩
    exact ⟨_, .one hand, hmeans⟩
  · rintro s t w w' op _ hop _ ⟨parts, hor, hmeans⟩ ⟨parts', hor', hmeans'⟩
    have htoks := hor.append (List.mem_singleton.mpr hop) hor'
    refine ⟨_, htoks, ?_⟩
    intro E V A G input
    rw [Runtime.evalExpr_joined_or htoks.ne_nil, Runtime.evalAny_append,
      ← Runtime.evalExpr_joined_or hor.ne_nil,
      ← Runtime.evalExpr_joined_or hor'.ne_nil, hmeans, hmeans']
    rfl
  · rintro t w _ ⟨e, hnot, hmeans⟩
    exact ⟨_, .one hnot, hmeans⟩
  · rintro s t w w' op _ hop _ ⟨parts, hand, hmeans⟩ ⟨parts', hand', hmeans'⟩
    have htoks := hand.append hop hand'
    refine ⟨_, htoks, ?_⟩
    intro E V A G input
    rw [Runtime.evalExpr_joined_and htoks.ne_nil, Runtime.evalAll_append,
      ← Runtime.evalExpr_joined_and hand.ne_nil,
      ← Runtime.evalExpr_joined_and hand'.ne_nil, hmeans, hmeans']
    rfl
  · intro c w hleaf
    refine ⟨_, .leaf hleaf, ?_⟩
    intro E V A G input
    rw [Runtime.evalExpr_ofLeaf]
    rfl
  · rintro t w b hb _ ⟨e, hnot, hmeans⟩
    refine ⟨_, .not hb hnot, ?_⟩
    intro E V A G input
    rw [Runtime.evalExpr_ofNot, hmeans]
    rfl
  · rintro t w l r hl _ hr ⟨parts, hor, hmeans⟩
    exact ⟨_, .group hl hor hr, hmeans⟩

end Meaning

section Text

variable {H : Host F R} {p : Parser} {w rest : List Token}

theorem parseEventPhrase_when {word : Token} {parts : List (WhenExpr F R)}
    (hword : word.type = .whenKw) (hor : OrToks H w parts) (hrest : Ends [.land, .comma, .lor] rest)
    (hp : p.toks = word :: (w ++ rest)) :
    ∃ q, parseEventPhrase H p = .ok (.when_ ⟨some (joined .ofOr parts), []⟩) q ∧
      q.nextToken.toks = rest ∧
      (p.strict = false → q.errors = p.errors) := by
  have hcur : p.cur = word := Parser.cur_of_toks hp
  obtain ⟨t, w', hw, hstart⟩ := hor.first
  have hpeek : p.peek.type = t.type := by
    rw [hw] at hp
    rw [Parser.peek_of_toks hp]
  have hstar : ¬t.type = .star := by
    intro h
    rw [h] at hstart
    exact absurd hstart (by decide)
  have hstop : isStopForWhen t.type = false := by
    rw [isStopForWhen, decide_eq_false_iff_not]
    intro h
    simp only [List.mem_cons, List.not_mem_nil, or_false] at h
    rcases h with h | h | h | h | h | h | h | h
    all_goals
      rw [h] at hstart
      exact absurd hstart (by decide)
  obtain ⟨u, errors, hget, herrors⟩ := parseWhenOr_complete H p.turns w parts hor
    (by rw [Parser.turns, hp, List.length_cons, List.length_append]; omega)
    ({ p with inGarbage := false } : Parser).nextToken rest (Parser.nextToken_eq hp) hrest
  refine ⟨({ p with inGarbage := false } : Parser).nextToken.past u rest errors, ?_, rfl, herrors⟩
  unfold parseEventPhrase
  rw [hcur, hword]
  show parseWhenPhrase H { p with inGarbage := false } = _
  rw [parseWhenPhrase]
  show (if p.peek.type = .star then _ else if isStopForWhen p.peek.type then _ else _) = _
  rw [hpeek, if_neg hstar, hstop, if_neg Bool.false_ne_true]
  show Outcome.map _ (parseWhenOr H p.turns _) = _
  rw [hget]
  rfl

/-- A text that writes a tree as its `WHEN` is parsed to an expression with the truth value of the
tree on every envelope; where nothing follows, the lenient parser has nothing to report. -/
theorem parse_writes (strict : Bool) {t : Tree F R} {word : Token} {text : Bytes}
    (hwrites : WritesOr H t w) (hword : word.type = .whenKw)
    (hrest : Ends [.land, .comma, .lor] rest)
    (htext : (stream text).map Prod.fst = word :: (w ++ rest)) :
    ∃ e phrases q, parse H strict text = .ok (.when_ ⟨some e, []⟩ :: phrases) q ∧
      (∀ (E V A : Type) (G : Runtime E V A F R) (input : E), G.evalExpr input e = t.truth G input) ∧
      (rest = [] → phrases = [] ∧ (strict = false → q.errors = [])) := by
  obtain ⟨parts, hor, hmeans⟩ := hwrites.toks
  obtain ⟨q, hphrase, hq, herrors⟩ := parseEventPhrase_when hword hor hrest
    (p := Parser.new ((stream text).map Prod.fst) strict) htext
  have hcur : (Parser.new ((stream text).map Prod.fst) strict).cur.type ≠ .eof := by
    rw [Parser.cur_of_toks (p := Parser.new _ strict) htext, hword]
    decide
  obtain ⟨new, q', hloop, hlast⟩ := parsePhrases_cons H (Nat.lt_succ_self _) hcur hphrase
  refine ⟨_, new, _, parseEvent_eq H hloop, hmeans, ?_⟩
  intro hnil
  obtain ⟨rfl, rfl⟩ := hlast (hq.trans hnil)
  refine ⟨rfl, ?_⟩
  intro hstrict
  show q.errors ++ [] ++ [] ++ [] = []
  rw [herrors hstrict]
  rfl

/-- The comparison `<branch> == <digit>`. -/
def equals (branch digit : Bytes) (value : Int) : Tree Unit Unit :=
  .leaf ⟨false, some branch, .eq, some (.int ⟨⟨.int, digit⟩, value⟩), none, none⟩

theorem writes_equals (branch : Bytes) {digit : Bytes} {value : Int}
    (h : (parseInt digit).1 = value) :
    WritesNot bareHost (equals branch digit value)
      [⟨.branch, branch⟩, ⟨.eq, "==".toList⟩, ⟨.int, digit⟩] := by
  subst h
  exact .leaf (.scalar rfl rfl rfl)

theorem parse_writes_neither :
    ∃ e phrases q, parse bareHost true "WHEN !(.a == 1 || .b == 2), .c == 3".toList =
        .ok (.when_ ⟨some e, []⟩ :: phrases) q ∧
      (∀ (E V A : Type) (G : Runtime E V A Unit Unit) (input : E), G.evalExpr input e =
        (Tree.and (.not (.or (equals ".a".toList "1".toList 1) (equals ".b".toList "2".toList 2)))
          (equals ".c".toList "3".toList 3)).truth G input) ∧
      (([] : List Token) = [] → phrases = [] ∧ (true = false → q.errors = [])) := by
  have ha := writes_equals ".a".toList (show (parseInt "1".toList).1 = 1 by decide)
  have hb := writes_equals ".b".toList (show (parseInt "2".toList).1 = 2 by decide)
  have hc := writes_equals ".c".toList (show (parseInt "3".toList).1 = 3 by decide)
  have hlor : (⟨.lor, "||".toList⟩ : Token).type = .lor := rfl
  have hor := WritesOr.or (.and (.not ha)) hlor (.and (.not hb))
  have hnot := WritesNot.not (b := ⟨.bang, "!".toList⟩) rfl
    (.group (l := ⟨.lparen, "(".toList⟩) (r := ⟨.rparen, ")".toList⟩) rfl hor rfl)
  have hcomma : (⟨.comma, ",".toList⟩ : Token).type ∈ [TokenType.land, .comma] := by decide
  have hand := WritesAnd.and (.not hnot) hcomma (.not hc)
  have hends : Ends [.land, .comma, .lor] [] := by
    rw [Ends]
    decide
  have hword : (⟨.whenKw, "WHEN".toList⟩ : Token).type = .whenKw := rfl
  exact parse_writes true (.and hand) hword hends (by decide +kernel)

end Text

end ThanksComputer.Txcl
