import ThanksComputer.Txcl.Grammar

/-! The parser ends, takes tokens from the front only, and what it returns stands in the grammar of
the tokens it took. -/

namespace ThanksComputer.Txcl

open Lib (Outcome)

section Steps

variable {p q q' : Parser} {w w' : List Token}

structure Kept (p q : Parser) : Prop where
  errors : p.errors <+: q.errors
  strict : q.strict = p.strict
  inGarbage : q.inGarbage = p.inGarbage
  seenSelect : q.seenSelect = p.seenSelect

theorem Kept.refl (p : Parser) : Kept p p :=
  ⟨List.prefix_refl _, rfl, rfl, rfl⟩

theorem Kept.trans (h : Kept p q) (h' : Kept q q') : Kept p q' :=
  ⟨h.errors.trans h'.errors, h'.strict.trans h.strict, h'.inGarbage.trans h.inGarbage,
    h'.seenSelect.trans h.seenSelect⟩

theorem kept_nextToken (p : Parser) : Kept p p.nextToken :=
  ⟨List.prefix_refl _, rfl, rfl, rfl⟩

theorem kept_error (p : Parser) (msg : String) : Kept p (p.error msg) :=
  ⟨List.prefix_append _ _, rfl, rfl, rfl⟩

structure Gave (p q : Parser) : Prop where
  suffix : q.toks <:+ p.toks
  kept : Kept p q
  reported : q.errors ≠ []

theorem gave_error (p : Parser) (msg : String) : Gave p (p.error msg) :=
  ⟨List.suffix_refl _, kept_error p msg, by simp [Parser.error]⟩

theorem Gave.after_nextToken (h : Gave p.nextToken q) : Gave p q :=
  ⟨h.suffix.trans (List.tail_suffix _), (kept_nextToken p).trans h.kept, h.reported⟩

/-- The reader took `w` and stands on the last token of it. -/
structure Took (p : Parser) (w : List Token) (q : Parser) : Prop where
  toks : p.toks = w ++ q.nextToken.toks
  some : w ≠ []
  suffix : q.toks <:+ p.toks
  kept : Kept p q

theorem Took.one (h : p.cur.type ≠ .eof) : Took p [p.cur] p :=
  ⟨Parser.toks_eq h, List.cons_ne_nil _ _, List.suffix_refl _, Kept.refl p⟩

theorem Took.cons (h : p.cur.type ≠ .eof) (h' : Took p.nextToken w q) : Took p (p.cur :: w) q := by
  refine ⟨?_, List.cons_ne_nil _ _, h'.suffix.trans (List.tail_suffix _),
    (kept_nextToken p).trans h'.kept⟩
  rw [Parser.toks_eq h, h'.toks, List.cons_append]

theorem Took.over (h : Took p w q) (hpeek : q.peek.type ≠ .eof)
    (h' : Took q.nextToken.nextToken w' q') :
    Took p (w ++ q.peek :: w') q' := by
  have hpeek' := Parser.toks_eq (p := q.nextToken) hpeek
  refine ⟨?_, by simp, ?_,
    ((h.kept.trans (kept_nextToken q)).trans (kept_nextToken _)).trans h'.kept⟩
  · rw [h.toks, hpeek', h'.toks, Parser.cur_nextToken, List.append_assoc, List.cons_append]
  · exact ((h'.suffix.trans (List.tail_suffix _)).trans (List.tail_suffix _)).trans h.suffix

theorem Took.close (h : Took p w q) (hpeek : q.peek.type ≠ .eof) :
    Took p (w ++ [q.peek]) q.nextToken := by
  have hpeek' := Parser.toks_eq (p := q.nextToken) hpeek
  refine ⟨?_, by simp, (List.tail_suffix _).trans h.suffix, h.kept.trans (kept_nextToken q)⟩
  rw [h.toks, hpeek', Parser.cur_nextToken, List.append_assoc]
  rfl

theorem Took.gave (h : Took p w q) (h' : Gave q q') : Gave p q' :=
  ⟨h'.suffix.trans h.suffix, h.kept.trans h'.kept, h'.reported⟩

theorem Took.length_lt (h : Took p w q) : q.nextToken.toks.length < p.toks.length := by
  have hlen := congrArg List.length h.toks
  have hpos := List.length_pos_iff.mpr h.some
  rw [List.length_append] at hlen
  omega

end Steps

variable {F R : Type} (H : Host F R)

section Values

variable {p : Parser}

/-- `item` reads a value wherever fewer than `b` tokens are left. -/
def ReadsLit (item : Parser → Outcome Parser (Lit F)) (b : Nat) : Prop :=
  ∀ p, p.toks.length < b → (item p).Meets (fun v q => ∃ w, Took p w q ∧ LitToks H w v) (Gave p)

theorem parseArrayItems_sound {item : Parser → Outcome Parser (Lit F)} {b n : Nat}
    {items : List (Lit F)} (hitem : ReadsLit H item b) (hb : p.nextToken.toks.length < b)
    (hn : p.toks.length < n) :
    (parseArrayItems item n items p).Meets
      (fun v q => ∃ w more, Took p.nextToken w q ∧ ItemToks H w more ∧ v = .array (items ++ more))
        (Gave p) := by
  induction n generalizing p items with
  | zero => omega
  | succ n ih =>
    rw [parseArrayItems]
    split
    · next hclose =>
      have htook := Took.one (p := p.nextToken) (by rw [hclose]; decide)
      exact ⟨_, [], htook, .close hclose, by rw [List.append_nil]⟩
    · refine Outcome.Meets.bind ((hitem _ hb).imp (fun _ _ h => h) fun _ h => h.after_nextToken) ?_
      rintro v q ⟨w, htook, hlit⟩
      split
      · next hcomma =>
        have hne : q.peek.type ≠ .eof := by rw [hcomma]; decide
        have hlen := htook.length_lt
        have hlen' : q.nextToken.nextToken.toks.length ≤ q.nextToken.toks.length := by simp
        have hp : p.nextToken.toks.length ≤ p.toks.length := by simp
        refine (ih (by omega) (by omega)).imp ?_ ?_
        · rintro _ q' ⟨w', more, htook', hmore, rfl⟩
          exact ⟨_, v :: more, htook.over hne htook', .more hlit hcomma hmore, by simp⟩
        · intro q' hgave
          exact (htook.gave hgave.after_nextToken).after_nextToken
      · split
        · next hclose =>
          have hne : q.peek.type ≠ .eof := by rw [hclose]; decide
          exact ⟨_, [v], htook.close hne, .last hlit hclose, rfl⟩
        · exact (htook.gave (gave_error _ _).after_nextToken).after_nextToken

theorem parseLiteralValue_sound (depth : Nat) : ReadsLit H (parseLiteralValue H depth) depth := by
  induction depth with
  | zero =>
    intro p hp
    omega
  | succ depth ih =>
    intro p hp
    have hscalar : ∀ v, scalarOf H p.cur = some v → p.cur.type ≠ .eof →
        (Outcome.ok v p).Meets (fun v q => ∃ w, Took p w q ∧ LitToks H w v) (Gave p) :=
      fun v hv hne => ⟨_, Took.one hne, .scalar hv⟩
    rw [parseLiteralValue]
    split
    · next ht => exact hscalar _ (by rw [scalarOf, ht]) (by rw [ht]; decide)
    · next ht => exact hscalar _ (by rw [scalarOf, ht]) (by rw [ht]; decide)
    · next ht => exact hscalar _ (by rw [scalarOf, ht]) (by rw [ht]; decide)
    · next ht => exact hscalar _ (by rw [scalarOf, ht]) (by rw [ht]; decide)
    · next ht => exact hscalar _ (by rw [scalarOf, ht]) (by rw [ht]; decide)
    · next ht =>
      have hne : p.cur.type ≠ .eof := by rw [ht]; decide
      rw [parseArrayLiteral]
      split
      · next hclose =>
        have htook := Took.one (p := p.nextToken) (by rw [Parser.cur_nextToken, hclose]; decide)
        exact ⟨_, htook.cons hne, .array ht (.close hclose)⟩
      · have hlen := congrArg List.length (Parser.toks_eq hne)
        rw [List.length_cons] at hlen
        refine (parseArrayItems_sound H ih (by omega) (Nat.lt_succ_self _)).imp ?_ fun _ h => h
        rintro _ q ⟨w, more, htook, hmore, rfl⟩
        exact ⟨_, htook.cons hne, .array ht hmore⟩
    · exact gave_error _ _

def ReadsValue (arg : Parser → Outcome Parser (Value F)) (b : Nat) : Prop :=
  ∀ p, p.toks.length < b → (arg p).Meets (fun v q => ∃ w, Took p w q ∧ ValToks H w v) (Gave p)

theorem parseArgs_sound {arg : Parser → Outcome Parser (Value F)} {name : Bytes} {b n : Nat}
    {args : List (Value F)} (harg : ReadsValue H arg b) (hb : p.nextToken.toks.length < b)
    (hn : p.toks.length < n) :
    (parseArgs arg name n args p).Meets
      (fun c q => ∃ w more, Took p.nextToken w q ∧ ArgToks H w more ∧ c = ⟨name, args ++ more⟩)
        (Gave p) := by
  induction n generalizing p args with
  | zero => omega
  | succ n ih =>
    rw [parseArgs]
    refine Outcome.Meets.bind ((harg _ hb).imp (fun _ _ h => h) fun _ h => h.after_nextToken) ?_
    rintro v q ⟨w, htook, hval⟩
    split
    · next hcomma =>
      have hne : q.peek.type ≠ .eof := by rw [hcomma]; decide
      have hlen := htook.length_lt
      have hlen' : q.nextToken.nextToken.toks.length ≤ q.nextToken.toks.length := by simp
      have hp : p.nextToken.toks.length ≤ p.toks.length := by simp
      refine (ih (by omega) (by omega)).imp ?_ ?_
      · rintro _ q' ⟨w', more, htook', hmore, rfl⟩
        exact ⟨_, v :: more, htook.over hne htook', .more hval hcomma hmore, by simp⟩
      · intro q' hgave
        exact (htook.gave hgave.after_nextToken).after_nextToken
    · split
      · next hclose =>
        have hne : q.peek.type ≠ .eof := by rw [hclose]; decide
        exact ⟨_, [v], htook.close hne, .last hval hclose, rfl⟩
      · exact (htook.gave (gave_error _ _).after_nextToken).after_nextToken

theorem parseFunctionCall_sound {arg : Parser → Outcome Parser (Value F)} {b : Nat}
    (harg : ReadsValue H arg b) (hb : p.toks.length ≤ b) (ht : p.cur.type = .ampIdent) :
    (parseFunctionCall arg p).Meets (fun c q => ∃ w, Took p w q ∧ CallToks H w c) (Gave p) := by
  have hne : p.cur.type ≠ .eof := by rw [ht]; decide
  have hlen := congrArg List.length (Parser.toks_eq hne)
  rw [List.length_cons] at hlen
  rw [parseFunctionCall]
  split
  · exact (gave_error _ _).after_nextToken
  · next hl =>
    rw [not_not] at hl
    have hlne : p.nextToken.cur.type ≠ .eof := by rw [Parser.cur_nextToken, hl]; decide
    have hlen' := congrArg List.length (Parser.toks_eq hlne)
    rw [List.length_cons] at hlen'
    split
    · next hr =>
      have htook := Took.one (p := p.nextToken.nextToken) (by rw [Parser.cur_nextToken, hr]; decide)
      exact ⟨_, (htook.cons hlne).cons hne, .empty ht hl hr⟩
    · refine (parseArgs_sound H harg (by omega) (by rw [Parser.turns]; omega)).imp ?_ ?_
      · rintro _ q ⟨w, more, htook, hmore, rfl⟩
        exact ⟨_, (htook.cons hlne).cons hne, .args ht hl hmore⟩
      · intro q hgave
        exact hgave.after_nextToken

theorem parseValueExpr_sound (depth : Nat) : ReadsValue H (parseValueExpr H depth) depth := by
  induction depth with
  | zero =>
    intro p hp
    omega
  | succ depth ih =>
    intro p hp
    rw [parseValueExpr]
    split
    · next ht =>
      refine (parseFunctionCall_sound H ih (by omega) ht).map ?_
      rintro c q ⟨w, htook, hcall⟩
      exact ⟨w, htook, .call hcall⟩
    · split
      · next ht => exact ⟨_, Took.one (by rw [ht]; decide), .path ht⟩
      · refine (parseLiteralValue_sound H p.turns p (Nat.lt_succ_self _)).map ?_
        rintro v q ⟨w, htook, hlit⟩
        exact ⟨w, htook, .literal hlit⟩

theorem valueHere_sound (p : Parser) :
    (valueHere H p).Meets (fun v q => ∃ w, Took p w q ∧ ValToks H w v) (Gave p) :=
  parseValueExpr_sound H p.turns p (Nat.lt_succ_self _)

end Values

section Predicates

variable {p : Parser}

theorem parseWhenLeaf_sound (p : Parser) :
    (parseWhenLeaf H p).Meets (fun e q => ∃ w c, Took p w q ∧ LeafToks H w c ∧ e = .ofLeaf c)
      (Gave p) := by
  rw [parseWhenLeaf]
  split
  · exact gave_error _ _
  next hb =>
  rw [not_not] at hb
  have hbne : p.cur.type ≠ .eof := by rw [hb]; decide
  split
  · exact (gave_error _ _).after_nextToken
  next hop =>
  rw [Bool.not_eq_true, Bool.not_eq_false'] at hop
  have hopne : p.nextToken.cur.type ≠ .eof := by
    intro h
    rw [h] at hop
    exact absurd hop (by decide)
  dsimp only
  split
  · next hamp =>
    rw [parseLeafCall]
    split
    · exact (gave_error _ _).after_nextToken.after_nextToken
    next hregex =>
    rw [Bool.not_eq_true] at hregex
    refine Outcome.Meets.bind
      ((parseFunctionCall_sound H (parseValueExpr_sound H _) (Nat.le_succ _) hamp).imp
      (fun _ _ h => h) fun _ h => h.after_nextToken.after_nextToken) ?_
    rintro c q ⟨w, htook, hcall⟩
    split
    · exact (htook.gave (gave_error _ _)).after_nextToken.after_nextToken
    · next hpath =>
      refine ⟨_, _, ?_, .call hb hop hregex hcall hpath, rfl⟩
      have htook' := (htook.cons hopne).cons hbne
      split
      · exact ⟨htook'.toks, htook'.some, htook'.suffix, htook'.kept.trans (kept_error _ _)⟩
      · exact htook'
  · rw [parseLeafScalar]
    split
    · exact (gave_error _ _).after_nextToken.after_nextToken
    next hscalar =>
    split
    · exact (gave_error _ _).after_nextToken.after_nextToken
    next hregex =>
    rw [not_not] at hscalar
    have hne : p.nextToken.nextToken.cur.type ≠ .eof := by
      intro h
      rw [h] at hscalar
      exact absurd hscalar (by decide)
    refine ⟨_, _, ((Took.one hne).cons hopne).cons hbne, .scalar hb hop ?_, rfl⟩
    rw [isScalar]
    split
    · next hm =>
      rw [decide_eq_true_eq]
      generalize p.nextToken.nextToken.cur.type = t at hscalar hregex
      rw [not_and] at hregex
      have hnot := hregex hm
      revert hscalar hnot
      cases t <;> decide
    · exact decide_eq_true hscalar

/-- `group` reads a disjunction wherever fewer than `b` tokens are left. -/
def ReadsGroup (group : Parser → Outcome Parser (WhenExpr F R)) (b : Nat) : Prop :=
  ∀ p, p.toks.length < b → (group p).Meets
    (fun e q => ∃ w parts, Took p w q ∧ OrToks H w parts ∧ e = joined .ofOr parts) (Gave p)

theorem parseWhenPrimary_sound {group : Parser → Outcome Parser (WhenExpr F R)} {b : Nat}
    (hgroup : ReadsGroup H group b) (hb : p.toks.length ≤ b) :
    (parseWhenPrimary H group p).Meets (fun e q => ∃ w, Took p w q ∧ NotToks H w e) (Gave p) := by
  rw [parseWhenPrimary]
  split
  · next hl =>
    have hne : p.cur.type ≠ .eof := by rw [hl]; decide
    have hlen := congrArg List.length (Parser.toks_eq hne)
    rw [List.length_cons] at hlen
    split
    · exact gave_error _ _
    · refine Outcome.Meets.bind ((hgroup _ (by omega)).imp (fun _ _ h => h) fun _ h =>
        h.after_nextToken) ?_
      rintro _ q ⟨w, parts, htook, hor, rfl⟩
      split
      · exact (htook.gave (gave_error _ _)).after_nextToken
      · next hr =>
        rw [not_not] at hr
        exact ⟨_, (htook.close (by rw [hr]; decide)).cons hne, .group hl hor hr⟩
  · refine (parseWhenLeaf_sound H p).imp ?_ fun _ h => h
    rintro _ q ⟨w, c, htook, hleaf, rfl⟩
    exact ⟨w, htook, .leaf hleaf⟩

theorem parseWhenNot_sound {group : Parser → Outcome Parser (WhenExpr F R)} {b n : Nat}
    (hgroup : ReadsGroup H group b) (hb : p.toks.length ≤ b) (hn : p.toks.length < n) :
    (parseWhenNot H group n p).Meets (fun e q => ∃ w, Took p w q ∧ NotToks H w e) (Gave p) := by
  induction n generalizing p with
  | zero => omega
  | succ n ih =>
    rw [parseWhenNot]
    split
    · next hbang =>
      have hne : p.cur.type ≠ .eof := by rw [hbang]; decide
      have hlen := congrArg List.length (Parser.toks_eq hne)
      rw [List.length_cons] at hlen
      split
      · exact gave_error _ _
      · refine Outcome.Meets.map ((ih (by omega) (by omega)).imp (fun _ _ h => h) fun _ h =>
          h.after_nextToken) ?_
        rintro e q ⟨w, htook, hnot⟩
        exact ⟨_, htook.cons hne, .not hbang hnot⟩
    · exact parseWhenPrimary_sound H hgroup hb

theorem parseOperands_sound {joins : List TokenType} {shown : Token → String}
    {operand : Parser → Outcome Parser (WhenExpr F R)} (Op : List Token → WhenExpr F R → Prop)
    (Chain : List Token → List (WhenExpr F R) → Prop) {b n : Nat} {p₀ : Parser} {w : List Token}
    {parts : List (WhenExpr F R)} (heof : TokenType.eof ∉ joins)
    (hoperand : ∀ p, p.toks.length < b →
      (operand p).Meets (fun e q => ∃ w, Took p w q ∧ Op w e) (Gave p))
    (hchain : ∀ w parts op w' e, Chain w parts → op.type ∈ joins → Op w' e →
      Chain (w ++ op :: w') (parts ++ [e]))
    (htook : Took p₀ w p) (hparts : Chain w parts) (hb : p.toks.length ≤ b)
    (hn : p.toks.length < n) :
    (parseOperands joins shown operand n parts p).Meets
      (fun parts q => ∃ w, Took p₀ w q ∧ Chain w parts) (Gave p₀) := by
  induction n generalizing p w parts with
  | zero => omega
  | succ n ih =>
    rw [parseOperands]
    split
    · next hop =>
      have hne : p.peek.type ≠ .eof := fun h => heof (h ▸ hop)
      have hlen := congrArg List.length (Parser.toks_eq (p := p.nextToken) hne)
      rw [List.length_cons, Parser.toks_nextToken, List.length_tail] at hlen
      split
      · exact htook.gave (gave_error _ _).after_nextToken
      · refine Outcome.Meets.bind ((hoperand _ (by omega)).imp (fun _ _ h => h)
          fun _ h => htook.gave h.after_nextToken.after_nextToken) ?_
        rintro e q ⟨w', htook', he⟩
        have hq := htook'.suffix.length_le
        exact ih (htook.over hne htook') (hchain _ _ _ _ _ hparts hop he) (by omega) (by omega)
    · exact ⟨w, htook, hparts⟩

theorem parseWhenAnd_sound {group : Parser → Outcome Parser (WhenExpr F R)} {b : Nat}
    (hgroup : ReadsGroup H group b) (hb : p.toks.length ≤ b) :
    (parseWhenAnd H group p).Meets
      (fun e q => ∃ w parts, Took p w q ∧ AndToks H w parts ∧ e = joined .ofAnd parts)
        (Gave p) := by
  rw [parseWhenAnd]
  refine Outcome.Meets.bind (parseWhenNot_sound H hgroup hb (Nat.lt_succ_self _)) ?_
  rintro first q ⟨w, htook, hnot⟩
  have hq := htook.suffix.length_le
  refine Outcome.Meets.map (parseOperands_sound (NotToks H) (AndToks H) (b := b) (by decide) ?_ ?_
    htook (.one hnot) (by omega) (Nat.lt_succ_self _)) ?_
  · intro q hq
    exact parseWhenNot_sound H hgroup (by omega) (Nat.lt_succ_self _)
  · intro w parts op w' e hparts hop he
    exact .more hparts hop he
  · rintro parts q' ⟨w', htook', hand⟩
    exact ⟨w', parts, htook', hand, rfl⟩

theorem parseWhenOr_sound (depth : Nat) : ReadsGroup H (parseWhenOr H depth) depth := by
  induction depth with
  | zero =>
    intro p hp
    omega
  | succ depth ih =>
    intro p hp
    rw [parseWhenOr]
    refine Outcome.Meets.bind (parseWhenAnd_sound H ih (by omega)) ?_
    rintro _ q ⟨w, ands, htook, hand, rfl⟩
    have hq := htook.suffix.length_le
    refine Outcome.Meets.map (parseOperands_sound
      (fun w e => ∃ ands, AndToks H w ands ∧ e = joined .ofAnd ands) (OrToks H) (b := depth)
      (by decide) ?_ ?_ htook (.one hand) (by omega) (Nat.lt_succ_self _)) ?_
    · intro q hq
      refine (parseWhenAnd_sound H ih (by omega)).imp ?_ fun _ h => h
      rintro _ q' ⟨w', ands', htook', hand', rfl⟩
      exact ⟨w', htook', ands', hand', rfl⟩
    · rintro w parts op w' _ hparts hop ⟨ands', hand', rfl⟩
      exact .more hparts hop hand'
    · rintro parts q' ⟨w', htook', hor⟩
      exact ⟨w', parts, htook', hor, rfl⟩

end Predicates

end ThanksComputer.Txcl
