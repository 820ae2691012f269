import ThanksComputer.Txcl.Grammar

/-! What stands in the grammar is parsed: the parser ends on the last token of it. -/

namespace ThanksComputer.Txcl

open Lib (Outcome)

/-- The parser on the token `t`, with `rest` behind it. -/
def Parser.on (p : Parser) (t : Token) (rest : List Token) : Parser :=
  { p with toks := t :: rest }

/-- A reader that gets through `w` to the value `a`. -/
def Gets {α : Type} (read : Parser → Outcome Parser α) (p : Parser) (a : α) (rest : List Token) :
    Prop :=
  ∃ t, read p = .ok a (p.on t rest)

variable {F R : Type} (H : Host F R)

section Values

variable {w rest : List Token} {p : Parser}

theorem Parser.cur_of_toks {t : Token} (h : p.toks = t :: rest) : p.cur = t := by
  rw [Parser.cur, h]
  rfl

theorem Parser.eq_on {t : Token} (h : p.toks = t :: rest) : p = p.on t rest := by
  rw [Parser.on, ← h]

/-- `item` gets through every value of up to `b` tokens. -/
def GetsLit (item : Parser → Outcome Parser (Lit F)) (b : Nat) : Prop :=
  ∀ w v, LitToks H w v → w.length ≤ b → ∀ p rest, p.toks = w ++ rest → Gets item p v rest

theorem parseArrayItems_complete {item : Parser → Outcome Parser (Lit F)} {b n : Nat}
    (hitem : GetsLit H item b) {items acc : List (Lit F)} (h : ItemToks H w items)
    (hb : w.length ≤ b) (hn : w.length < n) (hp : p.nextToken.toks = w ++ rest) :
    Gets (parseArrayItems item n acc) p (.array (acc ++ items)) rest := by
  induction n generalizing p w items acc with
  | zero => omega
  | succ n ih =>
    unfold Gets
    rw [parseArrayItems]
    cases h with
    | @close t ht =>
      refine ⟨t, ?_⟩
      rw [Parser.cur_of_toks hp, if_pos ht, List.append_nil]
      exact congrArg _ (Parser.eq_on hp)
    | @more w w' t v items hlit ht hitems =>
      obtain ⟨t₀, w₀, hw, hfirst, -⟩ := hlit.first
      rw [List.length_append, List.length_cons] at hb hn
      rw [List.append_assoc] at hp
      obtain ⟨t', hget⟩ := hitem w v hlit (by omega) _ _ hp
      have hpeek : (p.nextToken.on t' ((t :: w') ++ rest)).peek.type = .comma := ht
      rw [hw] at hp
      rw [Parser.cur_of_toks hp, if_neg hfirst, hget, Outcome.bind_ok, if_pos hpeek]
      have hmore : Gets (parseArrayItems item n (acc ++ [v]))
        (p.nextToken.on t' ((t :: w') ++ rest)).nextToken
          (.array (acc ++ [v] ++ items)) rest := ih hitems (by omega) (by omega) rfl
      rw [List.append_assoc] at hmore
      exact hmore
    | @last w t v hlit ht =>
      obtain ⟨t₀, w₀, hw, hfirst, -⟩ := hlit.first
      rw [List.length_append, List.length_singleton] at hb hn
      rw [List.append_assoc] at hp
      obtain ⟨t', hget⟩ := hitem w v hlit (by omega) _ _ hp
      have hcomma : ¬t.type = .comma := by rw [ht]; decide
      rw [hw] at hp
      refine ⟨t, ?_⟩
      rw [Parser.cur_of_toks hp, if_neg hfirst, hget, Outcome.bind_ok]
      exact (if_neg hcomma).trans (if_pos ht)

theorem parseLiteralValue_complete (depth : Nat) : GetsLit H (parseLiteralValue H depth) depth := by
  induction depth with
  | zero =>
    intro w v h hb
    obtain ⟨t, w', rfl, -⟩ := h.first
    cases hb
  | succ depth ih =>
    intro w v h hb p rest hp
    cases h with
    | @scalar t v hv =>
      refine ⟨t, ?_⟩
      have hon : p.on t rest = p := (Parser.eq_on hp).symm
      rw [parseLiteralValue, Parser.cur_of_toks hp, hon]
      generalize ht : t.type = type
      rw [scalarOf, ht] at hv
      cases type
      all_goals cases hv
      all_goals rfl
    | @array t w items ht hitems =>
      have hcur := Parser.cur_of_toks hp
      unfold Gets
      rw [parseLiteralValue, hcur, ht]
      dsimp only
      rw [parseArrayLiteral]
      have hnext : p.nextToken.toks = w ++ rest := by
        rw [Parser.nextToken, hp]
        rfl
      rw [List.length_cons] at hb
      cases hitems with
      | @close r hr =>
        have hpeek : p.peek = r := Parser.cur_of_toks (p := p.nextToken) hnext
        rw [hpeek, if_pos hr]
        exact ⟨r, congrArg _ (Parser.eq_on hnext)⟩
      | @more w w' c v items hlit hc hitems =>
        obtain ⟨t₀, w₀, hw, hfirst, -⟩ := hlit.first
        have hpeek : p.peek = t₀ := by
          rw [hw] at hnext
          exact Parser.cur_of_toks (p := p.nextToken) hnext
        rw [hpeek, if_neg hfirst]
        have hturns : (w ++ c :: w').length < p.turns := by
          rw [Parser.turns, hp]
          simp
          omega
        exact parseArrayItems_complete H ih (.more hlit hc hitems) (by omega) hturns hnext
      | @last w c v hlit hc =>
        obtain ⟨t₀, w₀, hw, hfirst, -⟩ := hlit.first
        have hpeek : p.peek = t₀ := by
          rw [hw] at hnext
          exact Parser.cur_of_toks (p := p.nextToken) hnext
        rw [hpeek, if_neg hfirst]
        have hturns : (w ++ [c]).length < p.turns := by
          rw [Parser.turns, hp]
          simp only [List.length_append, List.length_cons, List.length_nil]
          omega
        exact parseArrayItems_complete H ih (.last hlit hc) (by omega) hturns hnext

def GetsValue (arg : Parser → Outcome Parser (Value F)) (b : Nat) : Prop :=
  ∀ w v, ValToks H w v → w.length ≤ b → ∀ p rest, p.toks = w ++ rest → Gets arg p v rest

theorem parseArgs_complete {arg : Parser → Outcome Parser (Value F)} {name : Bytes} {b n : Nat}
    (harg : GetsValue H arg b) {args acc : List (Value F)} (h : ArgToks H w args)
    (hb : w.length ≤ b) (hn : w.length < n) (hp : p.nextToken.toks = w ++ rest) :
    Gets (parseArgs arg name n acc) p ⟨name, acc ++ args⟩ rest := by
  induction n generalizing p w args acc with
  | zero => omega
  | succ n ih =>
    unfold Gets
    rw [parseArgs]
    cases h with
    | @more w w' t v args hval ht hargs =>
      rw [List.length_append, List.length_cons] at hb hn
      rw [List.append_assoc] at hp
      obtain ⟨t', hget⟩ := harg w v hval (by omega) _ _ hp
      have hpeek : (p.nextToken.on t' ((t :: w') ++ rest)).peek.type = .comma := ht
      rw [hget, Outcome.bind_ok, if_pos hpeek]
      have hmore : Gets (parseArgs arg name n (acc ++ [v]))
        (p.nextToken.on t' ((t :: w') ++ rest)).nextToken
          ⟨name, acc ++ [v] ++ args⟩ rest := ih hargs (by omega) (by omega) rfl
      rw [List.append_assoc] at hmore
      exact hmore
    | @last w t v hval ht =>
      rw [List.length_append, List.length_singleton] at hb hn
      rw [List.append_assoc] at hp
      obtain ⟨t', hget⟩ := harg w v hval (by omega) _ _ hp
      have hcomma : ¬t.type = .comma := by rw [ht]; decide
      refine ⟨t, ?_⟩
      rw [hget, Outcome.bind_ok]
      exact (if_neg hcomma).trans (if_pos ht)

theorem parseFunctionCall_complete {arg : Parser → Outcome Parser (Value F)} {b : Nat}
    (harg : GetsValue H arg b) {c : FunctionCall F} (h : CallToks H w c) (hb : w.length ≤ b + 2)
    (hp : p.toks = w ++ rest) :
    Gets (parseFunctionCall arg) p c rest := by
  unfold Gets
  rw [parseFunctionCall]
  cases h with
  | @empty t l r ht hl hr =>
    have hnext : p.nextToken.toks = l :: r :: rest := by
      rw [Parser.nextToken, hp]
      rfl
    have hpeek : p.peek = l := Parser.cur_of_toks (p := p.nextToken) hnext
    have hnext' : p.nextToken.nextToken.toks = r :: rest := by
      rw [Parser.nextToken, hnext]
      rfl
    have hpeek' : p.nextToken.peek = r := Parser.cur_of_toks (p := p.nextToken.nextToken) hnext'
    refine ⟨r, ?_⟩
    rw [hpeek, hpeek', Parser.cur_of_toks hp, if_neg (not_not.mpr hl), if_pos hr]
    exact congrArg _ (Parser.eq_on hnext')
  | @args t l w args ht hl hargs =>
    have hnext : p.nextToken.toks = l :: (w ++ rest) := by
      rw [Parser.nextToken, hp]
      rfl
    have hpeek : p.peek = l := Parser.cur_of_toks (p := p.nextToken) hnext
    have hnext' : p.nextToken.nextToken.toks = w ++ rest := by
      rw [Parser.nextToken, hnext]
      rfl
    have hfirst : ∃ t₀ w₀, w = t₀ :: w₀ ∧ t₀.type ≠ .rparen := by
      cases hargs with
      | @more w w' _ _ _ hval =>
        obtain ⟨t₀, w₀, rfl, hne⟩ := hval.first
        exact ⟨t₀, _, rfl, hne⟩
      | @last w _ _ hval =>
        obtain ⟨t₀, w₀, rfl, hne⟩ := hval.first
        exact ⟨t₀, _, rfl, hne⟩
    obtain ⟨t₀, w₀, rfl, hne⟩ := hfirst
    have hpeek' : p.nextToken.peek = t₀ := Parser.cur_of_toks (p := p.nextToken.nextToken) hnext'
    have hturns : (t₀ :: w₀).length < p.turns := by
      rw [Parser.turns, hp]
      simp
      omega
    rw [List.length_cons, List.length_cons] at hb
    rw [hpeek, hpeek', Parser.cur_of_toks hp, if_neg (not_not.mpr hl), if_neg hne]
    exact parseArgs_complete H harg hargs (by omega) hturns hnext'

theorem parseValueExpr_complete (depth : Nat) : GetsValue H (parseValueExpr H depth) depth := by
  induction depth with
  | zero =>
    intro w v h hb
    obtain ⟨t, w', rfl, -⟩ := h.first
    cases hb
  | succ depth ih =>
    intro w v h hb p rest hp
    unfold Gets
    rw [parseValueExpr]
    cases h with
    | literal hlit =>
      obtain ⟨t, w', rfl, -, hamp, hbranch, -⟩ := hlit.first
      have hturns : (t :: w').length ≤ p.turns := by
        rw [Parser.turns, hp]
        simp
        omega
      obtain ⟨t', hget⟩ := parseLiteralValue_complete H p.turns _ _ hlit hturns _ _ hp
      rw [Parser.cur_of_toks hp, if_neg hamp, if_neg hbranch, hget]
      exact ⟨t', rfl⟩
    | @path t ht =>
      refine ⟨t, ?_⟩
      rw [Parser.cur_of_toks hp, if_neg (by rw [ht]; decide), if_pos ht]
      exact congrArg _ (Parser.eq_on hp)
    | call hcall =>
      obtain ⟨t, w', rfl, ht⟩ := hcall.first
      obtain ⟨t', hget⟩ := parseFunctionCall_complete H ih hcall (by omega) hp
      rw [Parser.cur_of_toks hp, if_pos ht, hget]
      exact ⟨t', rfl⟩

end Values

section Predicates

variable {w rest : List Token} {p : Parser}

/-- The parser on the token `t`, with `rest` behind it and `errors` so far. -/
def Parser.past (p : Parser) (t : Token) (rest : List Token) (errors : List String) : Parser :=
  { p with toks := t :: rest, errors := errors }

/-- A reader that gets to the expression `e`; in strict mode it may report an unknown function. -/
def GetsExpr (read : Parser → Outcome Parser (WhenExpr F R)) (p : Parser) (e : WhenExpr F R)
    (rest : List Token) : Prop :=
  ∃ t errors, read p = .ok e (p.past t rest errors) ∧ (p.strict = false → errors = p.errors)

theorem Parser.nextToken_eq {t : Token} (h : p.toks = t :: rest) : p.nextToken.toks = rest := by
  rw [Parser.nextToken, h]
  rfl

theorem Parser.peek_of_toks {t u : Token} (h : p.toks = t :: u :: rest) : p.peek = u :=
  Parser.cur_of_toks (p := p.nextToken) (Parser.nextToken_eq h)

theorem parseWhenLeaf_complete {c : Condition F R} (h : LeafToks H w c) (hp : p.toks = w ++ rest) :
    GetsExpr (parseWhenLeaf H) p (.ofLeaf c) rest := by
  unfold GetsExpr
  rw [parseWhenLeaf]
  cases h with
  | @scalar b op t hb hop hscalar =>
    have hq : p.nextToken.nextToken.toks = t :: rest := Parser.nextToken_eq (Parser.nextToken_eq hp)
    obtain ⟨hmem, hregex⟩ := isScalar_mem hscalar
    have hamp : ¬t.type = .ampIdent := by
      intro h
      rw [h] at hmem
      exact absurd hmem (by decide)
    refine ⟨t, p.errors, ?_, fun _ => rfl⟩
    rw [Parser.cur_of_toks hp, Parser.cur_nextToken, Parser.peek_of_toks hp,
      if_neg (not_not.mpr hb), hop,
      if_neg (by decide)]
    dsimp only
    rw [Parser.cur_of_toks hq, if_neg hamp, parseLeafScalar, Parser.cur_of_toks hq,
      if_neg (not_not.mpr hmem),
      if_neg hregex]
    exact congrArg _ (Parser.eq_on hq)
  | @call b op w c hb hop hregex hcall hpath =>
    have hq : p.nextToken.nextToken.toks = w ++ rest := Parser.nextToken_eq (Parser.nextToken_eq hp)
    obtain ⟨t, w', hw, ht⟩ := hcall.first
    have hcur : p.nextToken.nextToken.cur = t := by
      rw [hw] at hq
      exact Parser.cur_of_toks hq
    have hturns : w.length ≤ p.nextToken.nextToken.turns + 2 := by
      rw [Parser.turns, hq, List.length_append]
      omega
    obtain ⟨t', hget⟩ := parseFunctionCall_complete H (parseValueExpr_complete H _) hcall hturns hq
    rw [Parser.cur_of_toks hp, Parser.cur_nextToken, Parser.peek_of_toks hp,
      if_neg (not_not.mpr hb), hop,
      if_neg (by decide)]
    dsimp only
    rw [hcur, if_pos ht, parseLeafCall, hregex, if_neg Bool.false_ne_true, hget, Outcome.bind_ok,
      hpath]
    dsimp only
    split
    · next hstrict =>
      refine ⟨t', _, rfl, ?_⟩
      intro hfalse
      rw [Bool.and_eq_true] at hstrict
      exact absurd (hfalse.symm.trans hstrict.1) Bool.false_ne_true
    · exact ⟨t', p.errors, rfl, fun _ => rfl⟩

/-- What follows a predicate does not go on with it. -/
def Ends (joins : List TokenType) (rest : List Token) : Prop :=
  (rest.headD eofToken).type ∉ joins

/-- `group` gets through every disjunction of up to `b` tokens. -/
def GetsGroup (group : Parser → Outcome Parser (WhenExpr F R)) (b : Nat) : Prop :=
  ∀ w parts, OrToks H w parts → w.length ≤ b → ∀ p rest, p.toks = w ++ rest →
    Ends [.land, .comma, .lor] rest → GetsExpr group p (joined .ofOr parts) rest

theorem parseWhenPrimary_complete {group : Parser → Outcome Parser (WhenExpr F R)} {b : Nat}
    (hgroup : GetsGroup H group b) {l r : Token} {parts : List (WhenExpr F R)}
    (hl : l.type = .lparen) (hor : OrToks H w parts) (hr : r.type = .rparen) (hb : w.length ≤ b)
    (hp : p.toks = l :: (w ++ r :: rest)) :
    GetsExpr (parseWhenPrimary H group) p (joined .ofOr parts) rest := by
  have hnext : p.nextToken.toks = w ++ r :: rest := Parser.nextToken_eq hp
  have hends : Ends [.land, .comma, .lor] (r :: rest) := by
    rw [Ends, List.headD_cons, hr]
    decide
  obtain ⟨t, errors, hget, herrors⟩ := hgroup w parts hor hb _ _ hnext hends
  obtain ⟨t₀, w₀, rfl, hstart⟩ := hor.first
  have hpeek : ¬p.peek.type = .rparen := by
    rw [Parser.peek_of_toks hp]
    intro h
    rw [h] at hstart
    exact absurd hstart (by decide)
  have hclose : ¬(p.nextToken.past t (r :: rest) errors).peek.type ≠ .rparen := not_not.mpr hr
  refine ⟨r, errors, ?_, herrors⟩
  rw [parseWhenPrimary, Parser.cur_of_toks hp, if_pos hl, if_neg hpeek, hget, Outcome.bind_ok,
    if_neg hclose]
  rfl

theorem parseWhenNot_complete {group : Parser → Outcome Parser (WhenExpr F R)} {b n : Nat}
    (hgroup : GetsGroup H group b) {e : WhenExpr F R} (h : NotToks H w e) (hb : w.length ≤ b + 1)
    (hn : w.length ≤ n) (hp : p.toks = w ++ rest) : GetsExpr (parseWhenNot H group n) p e rest := by
  induction n generalizing p w e with
  | zero =>
    obtain ⟨t, w', rfl, -⟩ := h.first
    cases hn
  | succ n ih =>
    unfold GetsExpr
    rw [parseWhenNot]
    cases h with
    | leaf hleaf =>
      have hcur : p.cur.type = .branch := by
        cases hleaf with
        | scalar hb' => rw [Parser.cur_of_toks hp, hb']
        | call hb' => rw [Parser.cur_of_toks hp, hb']
      rw [if_neg (by rw [hcur]; decide), parseWhenPrimary, if_neg (by rw [hcur]; decide)]
      exact parseWhenLeaf_complete H hleaf hp
    | @group l r w parts hl hor hr =>
      rw [List.cons_append, List.append_assoc] at hp
      rw [List.length_cons, List.length_append, List.length_singleton] at hb
      rw [Parser.cur_of_toks hp, if_neg (by rw [hl]; decide)]
      exact parseWhenPrimary_complete H hgroup hl hor hr (by omega) hp
    | @not b' w e hbang hnot =>
      rw [List.cons_append] at hp
      rw [List.length_cons] at hb hn
      obtain ⟨t, errors, hget, herrors⟩ := ih hnot (by omega) (by omega) (Parser.nextToken_eq hp)
      obtain ⟨t₀, w₀, rfl, hstart⟩ := hnot.first
      refine ⟨t, errors, ?_, herrors⟩
      rw [Parser.cur_of_toks hp, if_pos hbang, Parser.peek_of_toks hp, hstart, if_neg (by decide),
        hget]
      rfl

/-- A chain of operands over the operators of `joins`. -/
inductive Chained (joins : List TokenType) (Op : List Token → WhenExpr F R → Prop) :
    List Token → List (WhenExpr F R) → Prop
  | one {w : List Token} {e : WhenExpr F R} : Op w e → Chained joins Op w [e]
  | more {w w' : List Token} {op : Token} {parts : List (WhenExpr F R)} {e : WhenExpr F R} :
    Chained joins Op w parts → op.type ∈ joins → Op w' e →
    Chained joins Op (w ++ op :: w') (parts ++ [e])

theorem AndToks.chained {parts : List (WhenExpr F R)} (h : AndToks H w parts) :
    Chained [.land, .comma] (NotToks H) w parts := by
  induction hn : w.length using Nat.strong_induction_on generalizing w parts with
  | _ n ih =>
    subst hn
    cases h with
    | one hnot => exact .one hnot
    | more hand hop hnot => exact .more (ih _ (by simp) hand rfl) hop hnot

def AndOp (w : List Token) (e : WhenExpr F R) : Prop :=
  ∃ parts, AndToks H w parts ∧ e = joined .ofAnd parts

theorem OrToks.chained {parts : List (WhenExpr F R)} (h : OrToks H w parts) :
    Chained [.lor] (AndOp H) w parts := by
  induction hn : w.length using Nat.strong_induction_on generalizing w parts with
  | _ n ih =>
    subst hn
    cases h with
    | one hand => exact .one ⟨_, hand, rfl⟩
    | more hor hop hand => exact .more (ih _ (by simp) hor rfl) hop ⟨_, hand, rfl⟩

section Chains

variable {joins : List TokenType} {shown : Token → String}
    {operand : Parser → Outcome Parser (WhenExpr F R)}
  {Op : List Token → WhenExpr F R → Prop} {inner : List TokenType} {b : Nat}

/-- The loop over the operands runs through a chain: with `k` turns more than `n` it stands behind
the last operand with `n` turns left. -/
theorem parseOperands_chained
    (hfirst : ∀ w e, Op w e → ∃ t w', w = t :: w' ∧ isWhenPrimaryStart t.type = true)
    (hoperand : ∀ w e, Op w e → w.length ≤ b → ∀ p rest, p.toks = w ++ rest → Ends inner rest →
      GetsExpr operand p e rest)
    (hapart : ∀ type ∈ joins, type ∉ inner) {parts : List (WhenExpr F R)}
    (h : Chained joins Op w parts) (hb : w.length ≤ b) (hp : p.toks = w ++ rest)
    (hrest : Ends inner rest) :
    ∃ first t₀ rest₀ errors₀ t errors k, operand p = .ok first (p.past t₀ rest₀ errors₀) ∧
      k + rest.length ≤ rest₀.length ∧ (p.strict = false → errors = p.errors) ∧
      ∀ n, parseOperands joins shown operand (n + k) [first] (p.past t₀ rest₀ errors₀) =
        parseOperands joins shown operand n parts (p.past t rest errors) := by
  induction h generalizing rest with
  | @one w e hop =>
    obtain ⟨t, errors, hget, herrors⟩ := hoperand w e hop hb p rest hp hrest
    exact ⟨e, t, rest, errors, t, errors, 0, hget, by omega, herrors, fun n => rfl⟩
  | @more w w' op parts e _ hjoin hop ih =>
    rw [List.length_append, List.length_cons] at hb
    rw [List.append_assoc, List.cons_append] at hp
    have hstop : Ends inner (op :: (w' ++ rest)) := hapart _ hjoin
    obtain ⟨first, t₀, rest₀, errors₀, t, errors, k, hget, hlen, herrors, hloop⟩ :=
      ih (by omega) hp hstop
    obtain ⟨t', errors', hget', herrors'⟩ := hoperand w' e hop (by omega)
      (p.past t (op :: (w' ++ rest)) errors).nextToken.nextToken rest rfl hrest
    obtain ⟨s, w₀, hw', hstart⟩ := hfirst w' e hop
    refine ⟨first, t₀, rest₀, errors₀, t', errors', k + 1, hget, ?_, ?_, ?_⟩
    · rw [List.length_cons, List.length_append] at hlen
      omega
    · intro hstrict
      exact (herrors' hstrict).trans (herrors hstrict)
    · intro n
      have hpeek : (p.past t (op :: (w' ++ rest)) errors).peek.type ∈ joins := hjoin
      have hnot : ¬(!isWhenPrimaryStart (p.past t (op :: (w' ++ rest)) errors).nextToken.peek.type)
        = true := by
        rw [hw']
        show ¬(!isWhenPrimaryStart s.type) = true
        rw [hstart]
        decide
      rw [← Nat.add_assoc, Nat.add_right_comm, hloop (n + 1), parseOperands, if_pos hpeek,
        if_neg hnot, hget',
        Outcome.bind_ok]
      rfl

theorem parseOperands_complete
    (hfirst : ∀ w e, Op w e → ∃ t w', w = t :: w' ∧ isWhenPrimaryStart t.type = true)
    (hoperand : ∀ w e, Op w e → w.length ≤ b → ∀ p rest, p.toks = w ++ rest → Ends inner rest →
      GetsExpr operand p e rest)
    (hapart : ∀ type ∈ joins, type ∉ inner) {parts : List (WhenExpr F R)}
    (h : Chained joins Op w parts) (hb : w.length ≤ b) (hp : p.toks = w ++ rest)
    (hinner : Ends inner rest) (hrest : Ends joins rest)
    (node : List (WhenExpr F R) → WhenExpr F R) :
    GetsExpr (fun p => (operand p).bind fun first q =>
      (parseOperands joins shown operand q.turns [first] q).map (joined node)) p
        (joined node parts) rest := by
  obtain ⟨first, t₀, rest₀, errors₀, t, errors, k, hget, hlen, herrors, hloop⟩ :=
    parseOperands_chained hfirst hoperand hapart h hb hp hinner
  refine ⟨t, errors, ?_, herrors⟩
  obtain ⟨n, hn⟩ : ∃ n, (p.past t₀ rest₀ errors₀).turns = (n + 1) + k := by
    refine ⟨rest₀.length + 1 - k, ?_⟩
    have hturns : (p.past t₀ rest₀ errors₀).turns = rest₀.length + 1 + 1 := rfl
    omega
  have hpeek : ¬(p.past t rest errors).peek.type ∈ joins := hrest
  dsimp only
  rw [hget, Outcome.bind_ok, hn, hloop, parseOperands, if_neg hpeek]
  rfl

end Chains

theorem Ends.sub {joins joins' : List TokenType} (h : Ends joins rest) (hsub : joins' ⊆ joins) :
    Ends joins' rest :=
  fun hmem => h (hsub hmem)

theorem parseWhenAnd_complete {group : Parser → Outcome Parser (WhenExpr F R)} {b : Nat}
    (hgroup : GetsGroup H group b) {parts : List (WhenExpr F R)} (h : AndToks H w parts)
    (hb : w.length ≤ b + 1) (hp : p.toks = w ++ rest) (hrest : Ends [.land, .comma] rest) :
    GetsExpr (parseWhenAnd H group) p (joined .ofAnd parts) rest := by
  refine parseOperands_complete
    (fun w e h => h.first) ?_ (fun _ _ => List.not_mem_nil) h.chained hb hp List.not_mem_nil
      hrest .ofAnd
  intro w e hnot hw q rest hq _
  apply parseWhenNot_complete H hgroup hnot hw _ hq
  rw [Parser.turns, hq, List.length_append]
  omega

theorem parseWhenOr_complete (depth : Nat) : GetsGroup H (parseWhenOr H depth) depth := by
  induction depth with
  | zero =>
    intro w parts h hb
    obtain ⟨t, w', rfl, -⟩ := h.first
    cases hb
  | succ depth ih =>
    intro w parts h hb p rest hp hrest
    have hand : Ends [.land, .comma] rest := hrest.sub (by decide)
    refine parseOperands_complete ?_ ?_ (by decide) h.chained hb hp hand
      (hrest.sub (by decide)) .ofOr
    · rintro w _ ⟨ands, hand, rfl⟩
      exact hand.first
    · rintro w _ ⟨ands, hand, rfl⟩ hw q rest hq hends
      exact parseWhenAnd_complete H ih hand hw hq hends

end Predicates

end ThanksComputer.Txcl
