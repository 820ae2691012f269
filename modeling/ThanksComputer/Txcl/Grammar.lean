import ThanksComputer.Txcl.Parser

/-! The grammar of values and predicates, as relations between the tokens and what is parsed from
them. -/

namespace ThanksComputer.Txcl

open Lib (trimDot)

variable {F R : Type} (H : Host F R) {w : List Token}

section Values

def scalarOf (t : Token) : Option (Lit F) :=
  match t.type with
  | .int => some (.int ⟨t, (parseInt t.literal).1⟩)
  | .float => some (.float (H.parseFloat t.literal))
  | .trueKw => some (.bool (parseBool t.literal))
  | .falseKw => some (.bool (parseBool t.literal))
  | .string => some (.str t.literal)
  | _ => none

mutual

inductive LitToks : List Token → Lit F → Prop
  | scalar {t : Token} {v : Lit F} : scalarOf H t = some v → LitToks [t] v
  | array {t : Token} {w : List Token} {items : List (Lit F)} : t.type = .lbracket →
    ItemToks w items →
    LitToks (t :: w) (.array items)

/-- What follows an opening bracket or a comma of an array, the closing bracket included. -/
inductive ItemToks : List Token → List (Lit F) → Prop
  | close {t : Token} : t.type = .rbracket → ItemToks [t] []
  | more {w w' : List Token} {t : Token} {v : Lit F} {items : List (Lit F)} : LitToks w v →
    t.type = .comma →
    ItemToks w' items → ItemToks (w ++ t :: w') (v :: items)
  | last {w : List Token} {t : Token} {v : Lit F} : LitToks w v → t.type = .rbracket →
    ItemToks (w ++ [t]) [v]

end

mutual

inductive ValToks : List Token → Value F → Prop
  | literal {w : List Token} {v : Lit F} : LitToks H w v → ValToks w (.literal v)
  | path {t : Token} : t.type = .branch → ValToks [t] (.pathRef (trimDot t.literal))
  | call {w : List Token} {c : FunctionCall F} : CallToks w c → ValToks w (.call c.name c.args)

inductive CallToks : List Token → FunctionCall F → Prop
  | empty {t l r : Token} : t.type = .ampIdent → l.type = .lparen → r.type = .rparen →
    CallToks [t, l, r] ⟨t.literal, []⟩
  | args {t l : Token} {w : List Token} {args : List (Value F)} : t.type = .ampIdent →
    l.type = .lparen →
    ArgToks w args → CallToks (t :: l :: w) ⟨t.literal, args⟩

inductive ArgToks : List Token → List (Value F) → Prop
  | more {w w' : List Token} {t : Token} {v : Value F} {args : List (Value F)} :
    ValToks w v → t.type = .comma →
    ArgToks w' args → ArgToks (w ++ t :: w') (v :: args)
  | last {w : List Token} {t : Token} {v : Value F} :
    ValToks w v → t.type = .rparen → ArgToks (w ++ [t]) [v]

end

theorem LitToks.first {v : Lit F} (h : LitToks H w v) :
    ∃ t w', w = t :: w' ∧ t.type ≠ .rbracket ∧ t.type ≠ .ampIdent ∧ t.type ≠ .branch ∧
      t.type ≠ .rparen := by
  cases h with
  | @scalar t v hv =>
    refine ⟨t, [], rfl, ?_⟩
    generalize ht : t.type = type
    rw [scalarOf, ht] at hv
    cases type
    all_goals first | exact ⟨by decide, by decide, by decide, by decide⟩ | cases hv
  | @array t w items ht =>
    refine ⟨t, w, rfl, ?_⟩
    rw [ht]
    exact ⟨by decide, by decide, by decide, by decide⟩

theorem CallToks.first {c : FunctionCall F} (h : CallToks H w c) :
    ∃ t w', w = t :: w' ∧ t.type = .ampIdent := by
  cases h with
  | empty ht => exact ⟨_, _, rfl, ht⟩
  | args ht => exact ⟨_, _, rfl, ht⟩

theorem ValToks.first {v : Value F} (h : ValToks H w v) :
    ∃ t w', w = t :: w' ∧ t.type ≠ .rparen := by
  cases h with
  | literal hlit =>
    obtain ⟨t, w', hw, -, -, -, hne⟩ := hlit.first
    exact ⟨t, w', hw, hne⟩
  | path ht => exact ⟨_, [], rfl, by rw [ht]; decide⟩
  | call hcall =>
    obtain ⟨t, w', hw, ht⟩ := hcall.first
    exact ⟨t, w', hw, by rw [ht]; decide⟩

end Values

section Predicates

def isScalar (m : MatchType) (t : TokenType) : Bool :=
  if m.isRegex then decide (t ∈ [TokenType.string, .null, .regex])
  else decide (t ∈ [TokenType.trueKw, .falseKw, .float, .int, .string, .null, .regex])

inductive LeafToks : List Token → Condition F R → Prop
  | scalar {b op t : Token} : b.type = .branch → isComparison op.type = true →
    isScalar (matchTypeOf op.literal) t.type = true →
    LeafToks [b, op, t] ⟨false, some b.literal, matchTypeOf op.literal, some (matchValueOf H t),
      none,
      compileMatch H (matchTypeOf op.literal) (matchValueOf H t)⟩
  | call {b op : Token} {w : List Token} {c : FunctionCall F} : b.type = .branch →
    isComparison op.type = true →
    (matchTypeOf op.literal).isRegex = false → CallToks H w c → firstPathArg c.args = none →
    LeafToks (b :: op :: w) ⟨false, some b.literal, matchTypeOf op.literal, none, some c, none⟩

mutual

inductive NotToks : List Token → WhenExpr F R → Prop
  | leaf {w : List Token} {c : Condition F R} : LeafToks H w c → NotToks w (.ofLeaf c)
  | group {l r : Token} {w : List Token} {parts : List (WhenExpr F R)} : l.type = .lparen →
    OrToks w parts →
    r.type = .rparen → NotToks (l :: (w ++ [r])) (joined .ofOr parts)
  | not {b : Token} {w : List Token} {e : WhenExpr F R} : b.type = .bang → NotToks w e →
    NotToks (b :: w) (.ofNot e)

inductive AndToks : List Token → List (WhenExpr F R) → Prop
  | one {w : List Token} {e : WhenExpr F R} : NotToks w e → AndToks w [e]
  | more {w w' : List Token} {op : Token} {parts : List (WhenExpr F R)} {e : WhenExpr F R} :
    AndToks w parts →
    op.type ∈ [TokenType.land, .comma] → NotToks w' e → AndToks (w ++ op :: w') (parts ++ [e])

inductive OrToks : List Token → List (WhenExpr F R) → Prop
  | one {w : List Token} {parts : List (WhenExpr F R)} :
    AndToks w parts → OrToks w [joined .ofAnd parts]
  | more {w w' : List Token} {op : Token} {parts ands : List (WhenExpr F R)} : OrToks w parts →
    op.type ∈ [TokenType.lor] → AndToks w' ands →
    OrToks (w ++ op :: w') (parts ++ [joined .ofAnd ands])

end

theorem NotToks.first {e : WhenExpr F R} (h : NotToks H w e) :
    ∃ t w', w = t :: w' ∧ isWhenPrimaryStart t.type = true := by
  cases h with
  | leaf hleaf =>
    cases hleaf with
    | scalar hb => exact ⟨_, _, rfl, by rw [hb]; rfl⟩
    | call hb => exact ⟨_, _, rfl, by rw [hb]; rfl⟩
  | group hl => exact ⟨_, _, rfl, by rw [hl]; rfl⟩
  | not hb => exact ⟨_, _, rfl, by rw [hb]; rfl⟩

theorem AndToks.first {parts : List (WhenExpr F R)} (h : AndToks H w parts) :
    ∃ t w', w = t :: w' ∧ isWhenPrimaryStart t.type = true := by
  induction hn : w.length using Nat.strong_induction_on generalizing w parts with
  | _ n ih =>
    subst hn
    cases h with
    | one hnot => exact hnot.first
    | @more w w' _ _ _ hand =>
      obtain ⟨t, w₀, rfl, ht⟩ := ih w.length (by simp) hand rfl
      exact ⟨t, _, rfl, ht⟩

theorem OrToks.first {parts : List (WhenExpr F R)} (h : OrToks H w parts) :
    ∃ t w', w = t :: w' ∧ isWhenPrimaryStart t.type = true := by
  induction hn : w.length using Nat.strong_induction_on generalizing w parts with
  | _ n ih =>
    subst hn
    cases h with
    | one hand => exact hand.first
    | @more w w' _ _ _ hor =>
      obtain ⟨t, w₀, rfl, ht⟩ := ih w.length (by simp) hor rfl
      exact ⟨t, _, rfl, ht⟩

theorem isScalar_mem {m : MatchType} {type : TokenType} (h : isScalar m type = true) :
    type ∈ [TokenType.trueKw, .falseKw, .float, .int, .string, .null, .regex] ∧
      ¬(m.isRegex = true ∧ type ∈ [TokenType.int, .float, .trueKw, .falseKw]) := by
  rw [isScalar] at h
  split at h
  · simp only [decide_eq_true_eq, List.mem_cons, List.not_mem_nil, or_false] at h
    rcases h with rfl | rfl | rfl
    all_goals exact ⟨by decide, fun hand => absurd hand.2 (by decide)⟩
  · next hm => exact ⟨of_decide_eq_true h, fun hand => hm hand.1⟩

end Predicates

end ThanksComputer.Txcl
