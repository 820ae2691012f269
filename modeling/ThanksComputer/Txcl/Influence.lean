import Mathlib.Data.List.Induction
import ThanksComputer.Txcl.Phrases
import ThanksComputer.Txcl.Validate

/-! What the truth value of a predicate depends on: the envelope at the paths on the left of its
comparisons. -/

namespace ThanksComputer.Txcl

open Lib (trimDot)

variable {F R : Type}

section Leaves

mutual

def Value.paths : Value F → List Bytes
  | .literal _ => []
  | .pathRef path => [path]
  | .call _ args => argPaths args

def argPaths : List (Value F) → List Bytes
  | [] => []
  | v :: args => v.paths ++ argPaths args

end

/-- The envelope paths on the right of a comparison. -/
def Condition.rightPaths (c : Condition F R) : List Bytes :=
  (c.matchCall.map fun fc => argPaths fc.args).getD []

mutual

/-- The comparisons in a predicate, at any depth. -/
def WhenExpr.leaves : WhenExpr F R → List (Condition F R)
  | .node and or not leaf _ => leaf.toList ++ leavesAll and ++ leavesAll or ++ leavesNot not

def leavesAll : List (WhenExpr F R) → List (Condition F R)
  | [] => []
  | e :: es => e.leaves ++ leavesAll es

def leavesNot : Option (WhenExpr F R) → List (Condition F R)
  | none => []
  | some e => e.leaves

end

theorem leaves_node (and or : List (WhenExpr F R)) (not : Option (WhenExpr F R))
    (leaf : Option (Condition F R)) (star : Bool) :
    (WhenExpr.node and or not leaf star).leaves = leaf.toList ++ leavesAll and ++ leavesAll or ++
      leavesNot not := rfl

theorem leavesAll_nil : leavesAll ([] : List (WhenExpr F R)) = [] := rfl

theorem leavesAll_cons (e : WhenExpr F R) (es : List (WhenExpr F R)) :
    leavesAll (e :: es) = e.leaves ++ leavesAll es := rfl

theorem leavesAll_append (es es' : List (WhenExpr F R)) :
    leavesAll (es ++ es') = leavesAll es ++ leavesAll es' := by
  induction es with
  | nil => rfl
  | cons e es ih => rw [List.cons_append, leavesAll_cons, leavesAll_cons, ih, List.append_assoc]

theorem leaves_ofLeaf (c : Condition F R) : (WhenExpr.ofLeaf c).leaves = [c] := rfl

theorem leaves_ofNot (e : WhenExpr F R) : (WhenExpr.ofNot e).leaves = e.leaves := rfl

theorem leaves_ofAnd (es : List (WhenExpr F R)) : (WhenExpr.ofAnd es).leaves = leavesAll es := by
  rw [WhenExpr.ofAnd, leaves_node, leavesAll_nil, List.append_nil]
  exact List.append_nil _

theorem leaves_ofOr (es : List (WhenExpr F R)) : (WhenExpr.ofOr es).leaves = leavesAll es := by
  rw [WhenExpr.ofOr, leaves_node, leavesAll_nil]
  exact List.append_nil _

theorem leaves_starred : (WhenExpr.starred : WhenExpr F R).leaves = [] := rfl

theorem leaves_joined {node : List (WhenExpr F R) → WhenExpr F R}
    (hnode : ∀ es, (node es).leaves = leavesAll es) (es : List (WhenExpr F R)) :
      (joined node es).leaves = leavesAll es := by
  unfold joined
  split
  · rw [leavesAll_cons, leavesAll_nil, List.append_nil]
  · exact hnode es

end Leaves

section Paths

theorem firstPath_none :
    (∀ v : Value F, v.firstPath = none → v.paths = []) ∧
      ∀ args : List (Value F), firstPathArg args = none → argPaths args = [] := by
  have hcons : ∀ (v : Value F) (args : List (Value F)), (v.firstPath = none → v.paths = []) →
      (firstPathArg args = none → argPaths args = []) →
      firstPathArg (v :: args) = none → argPaths (v :: args) = [] := by
    intro v args hv hargs h
    rw [firstPathArg, Option.or_eq_none_iff] at h
    rw [argPaths, hv h.1, hargs h.2]
    rfl
  have hval : ∀ v : Value F, v.firstPath = none → v.paths = [] := by
    intro v
    refine @Value.rec F (fun v => v.firstPath = none → v.paths = [])
      (fun args => firstPathArg args = none → argPaths args = []) ?_ ?_ ?_ ?_ ?_ v
    · intro l _
      rfl
    · intro path h
      cases h
    · intro name args ih h
      exact ih h
    · intro _
      rfl
    · exact hcons
  refine ⟨hval, ?_⟩
  intro args
  induction args with
  | nil => exact fun _ => rfl
  | cons v args ih => exact hcons v args (hval v) ih

variable {H : Host F R} {w : List Token}

theorem LeafToks.rightPaths {c : Condition F R} (h : LeafToks H w c) : c.rightPaths = [] := by
  cases h with
  | scalar => rfl
  | call _ _ _ _ hpath => exact firstPath_none.2 _ hpath

theorem OrToks.leaves {parts : List (WhenExpr F R)} (h : OrToks H w parts) :
    ∀ c ∈ (joined .ofOr parts).leaves, ∃ w, LeafToks H w c := by
  rw [leaves_joined leaves_ofOr]
  refine @OrToks.rec F R H (fun _ e _ => ∀ c ∈ e.leaves, ∃ w, LeafToks H w c)
    (fun _ es _ => ∀ c ∈ leavesAll es, ∃ w, LeafToks H w c)
      (fun _ es _ => ∀ c ∈ leavesAll es, ∃ w, LeafToks H w c)
    ?_ ?_ ?_ ?_ ?_ ?_ ?_ w parts h
  · intro w c hleaf
    rw [leaves_ofLeaf]
    exact List.forall_mem_singleton.mpr ⟨w, hleaf⟩
  · intro l r w parts _ _ _ ih
    rw [leaves_joined leaves_ofOr]
    exact ih
  · intro b w e _ _ ih
    rw [leaves_ofNot]
    exact ih
  · intro w e _ ih
    rw [leavesAll_cons, leavesAll_nil, List.append_nil]
    exact ih
  · intro w w' op parts e _ _ _ ih ih'
    rw [leavesAll_append, leavesAll_cons, leavesAll_nil, List.append_nil]
    exact List.forall_mem_append.mpr ⟨ih, ih'⟩
  · intro w parts _ ih
    rw [leavesAll_cons, leavesAll_nil, List.append_nil, leaves_joined leaves_ofAnd]
    exact ih
  · intro w w' op parts ands _ _ _ ih ih'
    rw [leavesAll_append, leavesAll_cons, leavesAll_nil, List.append_nil,
      leaves_joined leaves_ofAnd]
    exact List.forall_mem_append.mpr ⟨ih, ih'⟩

theorem Grammatical.leaves {e : WhenExpr F R} (h : Grammatical H e) :
    ∀ c ∈ e.leaves, ∃ w, LeafToks H w c := by
  rcases h with rfl | ⟨w, parts, hor, rfl⟩
  · rw [leaves_starred]
    exact List.forall_mem_nil _
  · exact hor.leaves

end Paths

namespace Runtime

variable {E V A : Type} (G : Runtime E V A F R)

/-- Two envelopes with the same values on the left of the comparisons `cs`. -/
def Agree (a b : E) (cs : List (Condition F R)) : Prop :=
  ∀ c ∈ cs, ∀ branch, c.branch = some branch → G.get a (trimDot branch) = G.get b (trimDot branch)

variable {G} {a b : E}

theorem Agree.append {cs cs' : List (Condition F R)} (h : G.Agree a b (cs ++ cs')) :
    G.Agree a b cs ∧ G.Agree a b cs' :=
  List.forall_mem_append.mp h

theorem evalLeaf_agree {c : Condition F R} (h : G.Agree a b [c]) :
    G.evalLeaf c a = G.evalLeaf c b := by
  have hget := List.forall_mem_singleton.mp h
  rw [evalLeaf, evalLeaf]
  cases hbranch : c.branch with
  | none => rfl
  | some branch =>
    dsimp only
    rw [hget branch hbranch]

theorem evalExpr_agree (e : WhenExpr F R) (h : G.Agree a b e.leaves) :
    G.evalExpr a e = G.evalExpr b e := by
  refine @WhenExpr.rec F R (fun e => G.Agree a b e.leaves → G.evalExpr a e = G.evalExpr b e)
    (fun es => G.Agree a b (leavesAll es) → G.evalAll a es = G.evalAll b es ∧
    G.evalAny a es = G.evalAny b es)
    (fun o => G.Agree a b (leavesNot o) → G.evalNot a o = G.evalNot b o) ?_ ?_ ?_ ?_ ?_ e h
  · intro and or not leaf star ihAnd ihOr ihNot hagree
    rw [leaves_node] at hagree
    obtain ⟨hrest, hnot⟩ := hagree.append
    obtain ⟨hrest, hor⟩ := hrest.append
    obtain ⟨hleaf, hand⟩ := hrest.append
    simp only [evalExpr]
    rw [(ihAnd hand).1, (ihOr hor).2, ihNot hnot]
    cases leaf with
    | none => rfl
    | some c =>
      dsimp only
      rw [evalLeaf_agree hleaf]
  · intro _
    exact ⟨rfl, rfl⟩
  · intro e es ih ihs hagree
    obtain ⟨he, hes⟩ := hagree.append
    rw [evalAll, evalAll, evalAny, evalAny, ih he, (ihs hes).1, (ihs hes).2]
    exact ⟨rfl, rfl⟩
  · intro _
    rfl
  · intro e ih hagree
    rw [evalNot, evalNot, ih hagree]

end Runtime

section Rule

/-- The predicates of a rule: of its `WHEN` and of the `UNTIL` of its `LOOP`. -/
def Resonator.exprs (r : Resonator F R) : List (WhenExpr F R) :=
  (r.when_.bind When.expr).toList ++ (r.loop.bind Loop.untilExpr).toList

theorem Resonator.exprs_add (r : Resonator F R) (phrase : Phrase F R) :
    ∀ e ∈ (r.add phrase).exprs, e ∈ r.exprs ∨ e ∈ phrase.exprs := by
  intro e he
  rw [exprs, List.mem_append] at he
  cases phrase with
  | when_ w => exact he.elim .inr fun h => .inl (List.mem_append_right _ h)
  | loop l => exact he.elim (fun h => .inl (List.mem_append_left _ h)) .inr
  | priority | select | with_ | setPre | setPost | exec | emit =>
    exact .inl (List.mem_append.mpr he)

theorem exprs_resonatorOf (phrases : List (Phrase F R)) :
    ∀ e ∈ (resonatorOf phrases).exprs, ∃ phrase ∈ phrases, e ∈ phrase.exprs := by
  induction phrases using List.reverseRecOn with
  | nil =>
    intro e he
    cases he
  | append_singleton phrases phrase ih =>
    intro e he
    rw [resonatorOf, List.foldl_append] at he
    rcases Resonator.exprs_add _ _ e he with hold | hnew
    · obtain ⟨phrase', hmem, hexpr⟩ := ih e hold
      exact ⟨phrase', List.mem_append_left _ hmem, hexpr⟩
    · exact ⟨phrase, List.mem_append_right _ (List.mem_singleton_self phrase), hnew⟩

end Rule

/-- No comparison of a predicate the parser accepts has an envelope path on its right, and its truth
value is that on any envelope with the same values at the paths on its left. -/
theorem parse_predicate_left {E V A : Type} (H : Host F R) (strict : Bool) (text : Bytes) :
    ∃ phrases q, parse H strict text = .ok phrases q ∧
      (∀ e ∈ (resonatorOf phrases).exprs, ∃ phrase ∈ phrases, e ∈ phrase.exprs) ∧
      ∀ phrase ∈ phrases, ∀ e ∈ phrase.exprs,
        (∀ c ∈ e.leaves, c.rightPaths = []) ∧
        ∀ (G : Runtime E V A F R) (a b : E), G.Agree a b e.leaves →
          G.evalExpr a e = G.evalExpr b e := by
  obtain ⟨phrases, q, hparse, hfinished⟩ :=
    parseEvent_sound H (Parser.new ((stream text).map Prod.fst) strict)
  refine ⟨phrases, _, hparse, exprs_resonatorOf phrases, ?_⟩
  intro phrase hphrase e he
  constructor
  · intro c hc
    obtain ⟨w, hleaf⟩ := (hfinished.exprs phrase hphrase e he).leaves c hc
    exact hleaf.rightPaths
  · intro G a b hagree
    exact Runtime.evalExpr_agree e hagree

end ThanksComputer.Txcl
