import ThanksComputer.Json.Value

/-! Where the deep merge of three values depends on which two of them are merged first. -/

universe u

namespace ThanksComputer.Json

open Lib.Assoc

variable {F : Type u}

def isScalar : Json F → Bool
  | .bool _ => true
  | .num _ => true
  | .str _ => true
  | _ => false

/-- Somewhere the second value has a scalar over an object of the third, and the first a null there
or an object that does not hold all of the third's. -/
def Clash (x a e : Json F) : Prop :=
  ∃ p x' a' e', x.getPath p = some x' ∧ a.getPath p = some a' ∧ e.getPath p = some e' ∧
    a'.isScalar = true ∧ e'.isObject = true ∧
      (x' = .null ∨ x'.isObject = true ∧ x'.deepMergeValues e' ≠ x')

section Members

variable (ms ns es : List (String × Json F))

theorem mergeMembers_append :
    mergeMembers (ms ++ ns) es = mergeMembers ms es ++ mergeMembers ns es := by
  simp only [mergeMembers_eq, List.map_append]

theorem filter_mergeMembers (q : String → Bool) :
    (mergeMembers ms ns).filter (fun e => q e.1) = mergeMembers (ms.filter fun e => q e.1) ns := by
  rw [mergeMembers_eq, mergeMembers_eq, List.filter_map]
  congr 1
  refine List.filter_congr fun e _ => ?_
  rw [Function.comp_apply]
  split <;> rfl

theorem filter_deepMergeValues :
    ((mergeMembers ns es ++ es.filter fun e => (ns.lookup e.1).isNone).filter fun e =>
      (ms.lookup e.1).isNone) =
      mergeMembers (ns.filter fun e => (ms.lookup e.1).isNone) es ++
        es.filter fun e =>
          ((mergeMembers ms ns ++ ns.filter fun e => (ms.lookup e.1).isNone).lookup
            e.1).isNone := by
  rw [List.filter_append, filter_mergeMembers ns es fun k => (ms.lookup k).isNone,
    List.filter_filter]
  congr 1
  refine List.filter_congr fun e _ => ?_
  rw [lookup_deepMergeValues]
  cases ms.lookup e.1 <;> cases ns.lookup e.1 <;> rfl

end Members

theorem deepMergeValues_assoc_obj {ms ns es : List (String × Json F)}
    (h : ∀ e ∈ ms, ∀ a, ns.lookup e.1 = some a → ∀ w, es.lookup e.1 = some w →
      e.2.deepMergeValues (a.deepMergeValues w) = (e.2.deepMergeValues a).deepMergeValues w) :
    (Json.obj ms).deepMergeValues ((Json.obj ns).deepMergeValues (.obj es)) =
      ((Json.obj ms).deepMergeValues (.obj ns)).deepMergeValues (.obj es) := by
  simp only [deepMergeValues]
  rw [filter_deepMergeValues, mergeMembers_append, List.append_assoc]
  congr 2
  simp only [mergeMembers_eq ms, mergeMembers_eq (List.map _ _), List.map_map]
  refine List.map_congr_left fun e he => ?_
  simp only [Function.comp_apply, lookup_deepMergeValues]
  cases hns : ns.lookup e.1 with
  | none => rfl
  | some a =>
    cases hes : es.lookup e.1 with
    | none => rfl
    | some w => exact congrArg (e.1, ·) (h e he a hns w hes)

theorem getPath_deepMergeValues {x y x' y' : Json F} {p : List String} (hx : x.getPath p = some x')
    (hy : y.getPath p = some y') :
      (x.deepMergeValues y).getPath p = some (x'.deepMergeValues y') := by
  induction p generalizing x y with
  | nil =>
    rw [getPath_nil, Option.some.injEq] at hx hy
    rw [getPath_nil, hx, hy]
  | cons k p ih =>
    cases x with
    | obj ms =>
      cases y with
      | obj ns =>
        rw [getPath_obj_cons, Option.bind_eq_some_iff] at hx hy
        obtain ⟨v, hv, hx⟩ := hx
        obtain ⟨w, hw, hy⟩ := hy
        rw [deepMergeValues, getPath_obj_cons, lookup_deepMergeValues, hv, hw]
        exact ih hx hy
      | null | bool | num | str | arr => cases hy
    | null | bool | num | str | arr => cases hx

theorem deepMergeValues_scalar {a : Json F} (ha : a.isScalar = true) (e : Json F) :
    a.deepMergeValues e = a := by
  cases a with
  | bool | num | str => rfl
  | null | arr | obj => cases ha

theorem deepMergeValues_over_scalar {x a : Json F} (ha : a.isScalar = true)
    (hx : x = .null ∨ x.isObject = true) :
    x.deepMergeValues a = x := by
  cases x with
  | null | obj =>
    cases a with
    | bool | num | str => rfl
    | null | arr | obj => cases ha
  | bool | num | str | arr => rcases hx with hx | hx <;> cases hx

theorem Clash.not_assoc {x a e : Json F} (h : Clash x a e) :
    x.deepMergeValues (a.deepMergeValues e) ≠ (x.deepMergeValues a).deepMergeValues e := by
  obtain ⟨p, x', a', e', hx, ha, he, hscalar, hobject, hkind⟩ := h
  intro heq
  have hpath := congrArg (getPath · p) heq
  simp only [getPath_deepMergeValues hx (getPath_deepMergeValues ha he),
    getPath_deepMergeValues (getPath_deepMergeValues hx ha) he, deepMergeValues_scalar hscalar,
    deepMergeValues_over_scalar hscalar (hkind.imp_right And.left), Option.some.injEq] at hpath
  rcases hkind with rfl | ⟨-, hne⟩
  · cases e' with
    | obj => cases hpath
    | null | bool | num | str | arr => cases hobject
  · exact hne hpath.symm

theorem Clash.here {x a e : Json F} (ha : a.isScalar = true) (he : e.isObject = true)
    (hx : x = .null ∨ x.isObject = true ∧ x.deepMergeValues e ≠ x) : Clash x a e :=
  ⟨[], x, a, e, getPath_nil x, getPath_nil a, getPath_nil e, ha, he, hx⟩

theorem Clash.member {ms ns es : List (String × Json F)} {k : String} {x a e : Json F}
    (hx : ms.lookup k = some x) (ha : ns.lookup k = some a) (he : es.lookup k = some e)
    (h : Clash x a e) :
    Clash (.obj ms) (.obj ns) (.obj es) := by
  obtain ⟨p, x', a', e', hx', ha', he', hrest⟩ := h
  refine ⟨k :: p, x', a', e', ?_, ?_, ?_, hrest⟩
  · rw [getPath_obj_cons, hx, Option.bind_some, hx']
  · rw [getPath_obj_cons, ha, Option.bind_some, ha']
  · rw [getPath_obj_cons, he, Option.bind_some, he']

theorem deepMergeValues_assoc {x a e : Json F} (hx : Unique x) (h : ¬Clash x a e) :
    x.deepMergeValues (a.deepMergeValues e) = (x.deepMergeValues a).deepMergeValues e := by
  induction hx generalizing a e with
  | bool | num | str => rfl
  | null =>
    cases a with
    | bool | num | str =>
      cases e with
      | obj => exact absurd (Clash.here rfl rfl (.inl rfl)) h
      | null | bool | num | str | arr => rfl
    | null | arr => cases e <;> rfl
    | obj => cases e <;> simp only [deepMergeValues]
  | arr =>
    cases a with
    | bool | num | str => rfl
    | null => cases e <;> rfl
    | arr => cases e <;> simp only [deepMergeValues, List.append_assoc]
    | obj => cases e <;> simp only [deepMergeValues]
  | @obj ms hnodup _ ih =>
    cases a with
    | bool | num | str =>
      cases e with
      | obj es =>
        by_contra hne
        exact h (Clash.here rfl rfl (.inr ⟨rfl, fun heq => hne heq.symm⟩))
      | null | bool | num | str | arr => rfl
    | null | arr => cases e <;> rfl
    | obj ns =>
      cases e with
      | obj es =>
        refine deepMergeValues_assoc_obj fun d hd a ha w hw => ih d hd fun hclash => h ?_
        exact hclash.member (lookup_of_mem hnodup hd) ha hw
      | null | bool | num | str | arr => simp only [deepMergeValues]

theorem deepMergeValues_assoc_iff {x a e : Json F} (hx : Unique x) :
    x.deepMergeValues (a.deepMergeValues e) = (x.deepMergeValues a).deepMergeValues e ↔
    ¬Clash x a e :=
  ⟨fun heq hclash => hclash.not_assoc heq, deepMergeValues_assoc hx⟩

end ThanksComputer.Json
