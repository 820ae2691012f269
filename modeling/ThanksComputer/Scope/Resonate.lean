import ThanksComputer.Lib.Assoc
import ThanksComputer.Lib.Keep
import ThanksComputer.Txcl.Validate

/-! `ResonatingOps`: which ops of a stage answer an envelope, and how they are made ready for it.
The parsed rules are shared by all requests and are reached through references; the ops are a copy
for each request. -/

namespace ThanksComputer.Scope.Resonate

open Lib (trimDot)
open Txcl Lib.Keep

section Model

variable {E V A D F R : Type}

/-- The rules in memory.  A reference is a place in the list. -/
abbrev Rules (F R : Type) := List (Resonator F R)

/-- What a request writes on its own copy of an op. -/
structure Draft (E : Type) where
  input : E
  fullInput : E
  directives : E

/-- `operation.Operation`; `data` is what is only handed on. -/
structure StageOp (E D : Type) where
  txcl : Bytes
  resonator : Option Nat
  draft : Draft E
  data : D

/-- The error of a write, with the document that is returned beside it. -/
structure SetError (E : Type) where
  pads : Bool
  text : String
  left : E

/-- What the preparation takes from `gjson`, `sjson`, `txcguard` and `json.Marshal`. -/
structure Editor (E V A F : Type) where
  found : V → Bool
  isEmptyString : V → Bool
  value : V → A
  raw : V → Bytes
  emptyString : A
  literal : A → Lit F
  emptyObject : E
  boundedSet : E → Bytes → A → Except (SetError E) E
  boundedSetRaw : E → Bytes → Bytes → Option E
  setRaw : E → Bytes → Bytes → Option E
  marshal : List (Bytes × A) → Option E
  failPayload : String → E

/-- In which order the two loops of `resolveWith` walk their maps. -/
structure Walk (A F : Type) where
  entries : List (Bytes × Value F) → List (Bytes × Value F)
  values : List (Bytes × A) → List (Bytes × A)

/-- `hash/fnv`'s 32-bit FNV-1a. -/
def fnv32a (seed : Bytes) : Nat :=
  seed.foldl (fun h c => (h ^^^ c.toNat) * 16777619 % 2 ^ 32) 2166136261

def normalizeSelectPath : Bytes → Bytes
  | '@' :: path => "_txc.".toList ++ path
  | path => trimDot path

section Prepare

variable (G : Runtime E V A F R) (S : Editor E V A F)

/-- `runtime.JSONEnv`. -/
def jsonEnv (input : E) (path : Bytes) : Option A :=
  if S.found (G.get input path) then some (S.value (G.get input path)) else none

/-- `DecorateInput`: the overrides whose path is not there yet. -/
def decorateInput (input : E) : List (BranchValue F) → E × Option String
  | [] => (input, none)
  | o :: os =>
    if S.found (G.get input (trimDot o.path)) then decorateInput input os
    else
      match G.resolve (jsonEnv G S input) o.value with
      | .error e => (input, some ("decorate " ++ String.ofList o.path ++ ": " ++ e))
      | .ok val =>
        match S.boundedSet input (trimDot o.path) val with
        | .error _ => decorateInput input os
        | .ok altered => decorateInput altered os

def resolveEntries (input : E) : List (Bytes × Value F) → Except String (List (Bytes × A))
  | [] => .ok []
  | (k, v) :: es =>
    match G.resolve (jsonEnv G S input) v with
    | .error e => .error ("WITH " ++ String.ofList k ++ ": " ++ e)
    | .ok val => (resolveEntries input es).map ((k, val) :: ·)

def writeEntries (all : List (Bytes × A)) (doc : E) : List (Bytes × A) → E × Option String
  | [] => (doc, none)
  | (k, v) :: es =>
    match S.boundedSet doc k v with
    | .ok doc' => writeEntries all doc' es
    | .error e =>
      if e.pads then (S.emptyObject, some ("WITH " ++ String.ofList k ++ ": " ++ e.text))
      else ((S.marshal all).getD e.left, none)

/-- The clause is a map: of two entries with one key the later one is in it. -/
def resolveWith (w : Walk A F) (entries : List (Bytes × Value F)) (input : E) : E × Option String :=
  match resolveEntries G S input (w.entries (Lib.Assoc.dedup .last entries)) with
  | .error e => (S.emptyObject, some e)
  | .ok vals => writeEntries S vals S.emptyObject (w.values vals)

/-- The documents of a SELECT: the full view, the projection, and what is to be emitted. -/
structure Projection (E F : Type) where
  input : E
  projected : E
  synthetic : List (BranchValue F)

/-- The value of an assignment, and its raw text where it is copied from the source. -/
def selectValue (input : E) (a : SelectAssignment F) : A × Bytes :=
  let val := G.get input (normalizeSelectPath a.source)
  if !S.found val || S.isEmptyString val then
    match a.default with
    | none => (S.emptyString, [])
    | some d =>
      match G.resolve (jsonEnv G S input) d with
      | .error _ => (S.emptyString, [])
      | .ok v => (v, [])
  else (S.value val, S.raw val)

def selectInto (doc : E) (path : Bytes) (v : A × Bytes) : E :=
  if v.2 ≠ [] then (S.boundedSetRaw doc path v.2).getD doc
  else
    match S.boundedSet doc path v.1 with
    | .error _ => doc
    | .ok altered => altered

def selectStep (p : Projection E F) (a : SelectAssignment F) : Projection E F :=
  let v := selectValue G S p.input a
  let dst := normalizeSelectPath a.dest
  ⟨selectInto S p.input dst v, selectInto S p.projected dst v,
    p.synthetic ++ [⟨'.' :: dst, .literal (S.literal v.1)⟩]⟩

/-- `_ts` is carried over into the projection. -/
def carryTs (p : Projection E F) : E :=
  let ts := G.get p.input "_ts".toList
  if S.found ts then (S.setRaw p.projected "_ts".toList (S.raw ts)).getD p.projected
    else p.projected

/-- What a rule makes of the copy of an op: the draft, and the overrides to emit where it has a
SELECT. -/
def prepared (w : Walk A F) (r : Resonator F R) (d : Draft E) :
    Draft E × Option (List (BranchValue F)) :=
  let pre : Draft E :=
    match r.setPre with
    | none => d
    | some overrides =>
      match decorateInput G S d.input overrides with
      | (out, none) => { d with input := out }
      | (_, some e) => { d with input := S.failPayload e }
  let with_ : Draft E :=
    match r.with_ with
    | none => pre
    | some entries =>
      match resolveWith G S w entries pre.input with
      | (doc, none) => { pre with directives := doc }
      | (doc, some e) => { pre with directives := doc, input := S.failPayload e }
  match r.select with
  | none => (with_, none)
  | some s =>
    if s.assignments.isEmpty then (with_, none)
    else
      let p := s.assignments.foldl (selectStep G S) ⟨with_.input, S.emptyObject, []⟩
      ({ with_ with input := carryTs G S p, fullInput := p.input },
        some (p.synthetic ++ r.emit.getD []))

def ruleAt (rules : Rules F R) (op : StageOp E D) : Resonator F R :=
  (op.resonator.bind fun p => rules[p]?).getD .new

/-- One turn of the last loop.  A rule with a SELECT is copied before its EMIT is set. -/
def prepare (w : Walk A F) (rules : Rules F R) (op : StageOp E D) : Rules F R × StageOp E D :=
  match prepared G S w (ruleAt rules op) op.draft with
  | (draft, none) => (rules, { op with draft })
  | (draft, some overrides) =>
    (rules ++ [{ ruleAt rules op with emit := some overrides }],
      { op with draft, resonator := some rules.length })

def prepareAll (w : Walk A F) : Rules F R → List (StageOp E D) → Rules F R × List (StageOp E D)
  | rules, [] => (rules, [])
  | rules, op :: ops =>
    ((prepareAll w (prepare G S w rules op).1 ops).1,
      (prepare G S w rules op).2 :: (prepareAll w (prepare G S w rules op).1 ops).2)

end Prepare

section Select

variable (H : Host F R) (G : Runtime E V A F R)

/-- `txcl.Resonator`, with its diagnostics as one error. -/
def parsed (text : Bytes) : Except String (Resonator F R) :=
  match resonator H text with
  | some (r, []) => .ok r
  | some (_, e :: es) => .error (" : ".intercalate (e :: es))
  | none => .error ""

/-- An op without a rule has its text parsed, into a rule of its own. -/
def load (rules : Rules F R) (op : StageOp E D) : Except String (Rules F R × Nat) :=
  match op.resonator with
  | some p => .ok (rules, p)
  | none => (parsed H op.txcl).map fun r => (rules ++ [r], rules.length)

def resonate (input : E) (s : Rules F R × Int) (op : StageOp E D) :
    Except String ((Rules F R × Int) × Option (StageOp E D)) :=
  match load H s.1 op with
  | .error e => .error e
  | .ok (rules, p) =>
    let own : StageOp E D := { op with resonator := some p }
    let r := ruleAt rules own
    if G.whenMatches r input then
      .ok ((rules, if s.2 < r.priority.value then r.priority.value else s.2),
        some { own with draft := { op.draft with input } })
    else .ok ((rules, s.2), none)

def pickHighest (rules : Rules F R) (highest : Int) (seed : Bytes) (ops : List (StageOp E D)) :
    List (StageOp E D) :=
  match keepLoop (ε := Empty) (fun (_ : Unit) op =>
      .ok ((), if (ruleAt rules op).priority.value = highest then some op else none)) ops.length 0 0
        () ops with
  | .error e => e.elim
  | .ok (_, ops', i) =>
    let best := if i ≠ 0 then ops'.take i else ops'
    if 1 < best.length ∧ seed ≠ [] then
      match best[fnv32a seed % best.length]? with
      | none => best.take 1
      | some op => (best.set 0 op).take 1
    else best.take 1

def resonatingOps (S : Editor E V A F) (w : Walk A F) (rules : Rules F R) (input : E)
    (ops : List (StageOp E D)) (seed : Bytes) : Except String (Rules F R × List (StageOp E D)) :=
  if ops.isEmpty then .ok (rules, ops)
  else
    match keepLoop (resonate H G input) ops.length 0 0 (rules, 0) ops with
    | .error e => .error e
    | .ok ((rules', highest), ops', i) =>
      if i = 0 then .ok (rules', [])
      else
        let matching := ops'.take i
        .ok (prepareAll G S w rules'
          (if highest ≠ 0 then pickHighest rules' highest seed matching else matching))

end Select

section Views

/-- An op with its rule in hand. -/
structure Ready (E D F R : Type) where
  txcl : Bytes
  rule : Resonator F R
  draft : Draft E
  data : D

def view (rules : Rules F R) (op : StageOp E D) : Ready E D F R :=
  ⟨op.txcl, ruleAt rules op, op.draft, op.data⟩

/-- The rule of the op, if it has one, is in memory. -/
def Held (rules : Rules F R) (op : StageOp E D) : Prop :=
  ∀ p, op.resonator = some p → p < rules.length

def Placed (rules : Rules F R) (op : StageOp E D) : Prop :=
  op.resonator ≠ none ∧ Held rules op

/-- The ops of a stage with their rules, those of texts that are parsed first included. -/
def loadAll (H : Host F R) (rules : Rules F R) :
    List (StageOp E D) → Except String (List (Ready E D F R))
  | [] => .ok []
  | op :: ops =>
    match (if op.resonator.isSome then .ok (ruleAt rules op) else parsed H op.txcl) with
    | .error e => .error e
    | .ok r => (loadAll H rules ops).map (⟨op.txcl, r, op.draft, op.data⟩ :: ·)

def Ready.on (x : Ready E D F R) (input : E) : Ready E D F R :=
  { x with draft := { x.draft with input } }

/-- The op made ready, with a rule of its own if it has something to emit. -/
def Ready.finish (G : Runtime E V A F R) (S : Editor E V A F) (w : Walk A F) (x : Ready E D F R) :
    Ready E D F R :=
  match prepared G S w x.rule x.draft with
  | (draft, none) => { x with draft }
  | (draft, some overrides) => { x with draft, rule := { x.rule with emit := some overrides } }

/-- All of the candidates if none has a priority above zero, and else the first of the highest
priority. -/
inductive Chosen {α : Type} (priority : α → Int) (xs : List α) : List α → Prop
  | all : (∀ x ∈ xs, priority x ≤ 0) → Chosen priority xs xs
  | first {before after : List α} {x : α} : xs = before ++ x :: after → 0 < priority x →
    (∀ y ∈ before, priority y < priority x) → (∀ y ∈ after, priority y ≤ priority x) →
    Chosen priority xs [x]

variable {rules rules' : Rules F R} {op : StageOp E D} {ops : List (StageOp E D)}

theorem ruleAt_grow (h : Held rules op) (hgrow : rules <+: rules') :
    ruleAt rules' op = ruleAt rules op := by
  obtain ⟨more, rfl⟩ := hgrow
  unfold ruleAt
  cases hp : op.resonator with
  | none => rfl
  | some p =>
    show (rules ++ more)[p]?.getD _ = rules[p]?.getD _
    rw [List.getElem?_append_left (h p hp)]

theorem view_grow (h : Held rules op) (hgrow : rules <+: rules') :
    view rules' op = view rules op := by
  rw [view, view, ruleAt_grow h hgrow]

theorem Held.grow (h : Held rules op) (hgrow : rules <+: rules') : Held rules' op :=
  fun p hp => Nat.lt_of_lt_of_le (h p hp) hgrow.length_le

theorem Placed.grow (h : Placed rules op) (hgrow : rules <+: rules') : Placed rules' op :=
  ⟨h.1, h.2.grow hgrow⟩

theorem loadAll_grow (H : Host F R) (h : ∀ op ∈ ops, Held rules op) (hgrow : rules <+: rules') :
    loadAll H rules' ops = loadAll H rules ops := by
  induction ops with
  | nil => rfl
  | cons op ops ih =>
    rw [List.forall_mem_cons] at h
    rw [loadAll, loadAll, ruleAt_grow h.1 hgrow, ih h.2]

end Views

section Choice

variable {α : Type} {priority : α → Int}

def highestOf (priority : α → Int) (h : Int) (xs : List α) : Int :=
  xs.foldl (fun h x => if h < priority x then priority x else h) h

theorem highestOf_cons (h : Int) (x : α) (xs : List α) :
    highestOf priority h (x :: xs) = highestOf priority
      (if h < priority x then priority x else h) xs := rfl

theorem le_highestOf (priority : α → Int) (h : Int) (xs : List α) :
    h ≤ highestOf priority h xs ∧ ∀ x ∈ xs, priority x ≤ highestOf priority h xs := by
  induction xs generalizing h with
  | nil => exact ⟨Int.le_refl h, List.forall_mem_nil _⟩
  | cons x xs ih =>
    rw [highestOf_cons, List.forall_mem_cons]
    obtain ⟨hle, hall⟩ := ih (if h < priority x then priority x else h)
    split at hle
    · next hlt =>
      rw [if_pos hlt] at hall ⊢
      exact ⟨by omega, hle, hall⟩
    · next hge =>
      rw [if_neg hge] at hall ⊢
      exact ⟨hle, by omega, hall⟩

theorem highestOf_mem (priority : α → Int) (h : Int) (xs : List α) :
    highestOf priority h xs = h ∨ ∃ x ∈ xs, priority x = highestOf priority h xs := by
  induction xs generalizing h with
  | nil => exact .inl rfl
  | cons x xs ih =>
    rw [highestOf_cons]
    rcases ih (if h < priority x then priority x else h) with heq | ⟨y, hy, heq⟩
    · rw [heq]
      split
      · exact .inr ⟨x, List.mem_cons_self, rfl⟩
      · exact .inl rfl
    · exact .inr ⟨y, List.mem_cons_of_mem x hy, heq⟩

theorem chosen_highestOf (priority : α → Int) (xs : List α) :
    Chosen priority xs
      (if highestOf priority 0 xs ≠ 0 then (xs.filter (priority · = highestOf priority 0 xs)).take 1
      else xs) := by
  obtain ⟨hpos, hall⟩ := le_highestOf priority 0 xs
  split
  · next hne =>
    obtain ⟨x, hx, hmax⟩ := (highestOf_mem priority 0 xs).resolve_left hne
    obtain ⟨y, hy⟩ : ∃ y, xs.find? (priority · = highestOf priority 0 xs) = some y := by
      rw [← Option.isSome_iff_exists, List.find?_isSome]
      exact ⟨x, hx, by simpa using hmax⟩
    rw [List.take_one, List.head?_filter, hy]
    obtain ⟨hhigh, before, after, hsplit, hbefore⟩ := List.find?_eq_some_iff_append.mp hy
    rw [decide_eq_true_eq] at hhigh
    refine .first hsplit (by omega) ?_ ?_
    · intro z hz
      have hne' : priority z ≠ highestOf priority 0 xs := by simpa using hbefore z hz
      have hle := hall z (by rw [hsplit]; exact List.mem_append_left _ hz)
      omega
    · intro z hz
      rw [hhigh]
      exact hall z (by rw [hsplit]; exact List.mem_append_right _ (List.mem_cons_of_mem y hz))
  · next heq =>
    refine .all fun x hx => ?_
    have := hall x hx
    omega

theorem first_unique {xs before after before' after' : List α} {x x' : α}
    (h : xs = before ++ x :: after) (h' : xs = before' ++ x' :: after')
    (hbefore : ∀ y ∈ before, priority y < priority x)
    (hafter : ∀ y ∈ after, priority y ≤ priority x)
    (hbefore' : ∀ y ∈ before', priority y < priority x')
    (hafter' : ∀ y ∈ after', priority y ≤ priority x') : x = x' := by
  rcases List.append_eq_append_iff.mp (h.symm.trans h') with ⟨mid, rfl, hmid⟩ | ⟨mid, rfl, hmid⟩
  · cases mid with
    | nil => exact (List.cons.inj hmid).1
    | cons y mid =>
      obtain ⟨rfl, rfl⟩ := List.cons.inj hmid
      have hlt := hbefore' x (by simp)
      have hle := hafter x' (by simp)
      omega
  · cases mid with
    | nil => exact (List.cons.inj hmid).1.symm
    | cons y mid =>
      obtain ⟨rfl, rfl⟩ := List.cons.inj hmid
      have hlt := hbefore x' (by simp)
      have hle := hafter' x (by simp)
      omega

theorem Chosen.unique {xs ys ys' : List α} (h : Chosen priority xs ys)
    (h' : Chosen priority xs ys') : ys = ys' := by
  cases h with
  | all hlow =>
    cases h' with
    | all => rfl
    | @first before after x hxs hpos _ _ =>
      have hle := hlow x (by rw [hxs]; simp)
      omega
  | @first before after x hxs hpos hbefore hafter =>
    cases h' with
    | all hlow =>
      have hle := hlow x (by rw [hxs]; simp)
      omega
    | @first before' after' x' hxs' _ hbefore' hafter' =>
      rw [first_unique hxs hxs' hbefore hafter hbefore' hafter']

end Choice

section Loops

variable {H : Host F R} {G : Runtime E V A F R} {S : Editor E V A F} {w : Walk A F} {input : E}
variable {rules : Rules F R} {op : StageOp E D} {ops : List (StageOp E D)}

/-- The priority of an op that is ready. -/
def Ready.priority (x : Ready E D F R) : Int :=
  x.rule.priority.value

/-- The op answers the envelope. -/
def Ready.answers (G : Runtime E V A F R) (input : E) (x : Ready E D F R) : Bool :=
  G.whenMatches x.rule input

theorem load_eq (hheld : Held rules op) {r : Resonator F R}
    (h : (if op.resonator.isSome then .ok (ruleAt rules op) else parsed H op.txcl) = .ok r) :
    ∃ rules' p, load H rules op = .ok (rules', p) ∧ rules <+: rules' ∧ p < rules'.length ∧
      ruleAt rules' { op with resonator := some p } = r := by
  cases hp : op.resonator with
  | some p =>
    rw [hp, Option.isSome_some, if_pos rfl, Except.ok.injEq] at h
    refine ⟨rules, p, by rw [load, hp], List.prefix_rfl, hheld p hp, ?_⟩
    rw [← h, ruleAt, ruleAt, hp]
  | none =>
    rw [hp, Option.isSome_none, if_neg Bool.false_ne_true] at h
    refine ⟨rules ++ [r], rules.length, by rw [load, hp, h]; rfl,
      List.prefix_append _ _, by simp, ?_⟩
    simp [ruleAt]

theorem resonate_ok (G : Runtime E V A F R) (input : E) (hi : Int) (hheld : Held rules op)
    {r : Resonator F R}
    (h : (if op.resonator.isSome then .ok (ruleAt rules op) else parsed H op.txcl) = .ok r) :
    ∃ rules' y, rules <+: rules' ∧
      resonate H G input (rules, hi) op =
        .ok ((rules', if G.whenMatches r input then
          (if hi < r.priority.value then r.priority.value else hi) else hi), y) ∧
      (∀ own ∈ y, Placed rules' own) ∧
      y.toList.map (view rules') =
        if G.whenMatches r input then [Ready.on ⟨op.txcl, r, op.draft, op.data⟩ input] else [] := by
  obtain ⟨rules', p, hload, hgrow, hlt, hrule⟩ := load_eq hheld h
  by_cases hmatch : G.whenMatches r input = true
  · refine ⟨rules', some { op with resonator := some p, draft := { op.draft with input } },
      hgrow, ?_, ?_, ?_⟩
    · rw [resonate, hload]
      dsimp only
      rw [hrule, if_pos hmatch, if_pos hmatch]
    · intro own hown
      cases hown
      refine ⟨Option.some_ne_none p, fun p' hp' => ?_⟩
      cases hp'
      exact hlt
    · rw [if_pos hmatch, ← hrule]
      rfl
  · refine ⟨rules', none, hgrow, ?_, ?_, ?_⟩
    · rw [resonate, hload]
      dsimp only
      rw [hrule, if_neg hmatch, if_neg hmatch]
    · intro own hown
      cases hown
    · rw [if_neg hmatch]
      rfl

theorem resonate_error {hi : Int} {e : String}
    (h : (if op.resonator.isSome then .ok (ruleAt rules op) else parsed H op.txcl) = .error e) :
    resonate H G input (rules, hi) op = .error e := by
  cases hp : op.resonator with
  | some p =>
    rw [hp, Option.isSome_some, if_pos rfl] at h
    cases h
  | none =>
    rw [hp, Option.isSome_none, if_neg Bool.false_ne_true] at h
    rw [resonate, load, hp, h]
    rfl

theorem keepEach_error {hi : Int} {e : String} (hheld : ∀ op ∈ ops, Held rules op)
    (h : loadAll H rules ops = .error e) :
    keepEach (resonate H G input) (rules, hi) ops = .error e := by
  induction ops generalizing rules hi with
  | nil => cases h
  | cons op ops ih =>
    rw [List.forall_mem_cons] at hheld
    rw [loadAll] at h
    rw [keepEach]
    cases hr : (if op.resonator.isSome then .ok (ruleAt rules op) else parsed H op.txcl) with
    | error e' =>
      rw [hr] at h
      have heq : Except.error e' = Except.error e := h
      cases heq
      rw [resonate_error hr]
    | ok r =>
      rw [hr] at h
      obtain ⟨rules', y, hgrow, hres, -, -⟩ := resonate_ok G input hi hheld.1 hr
      rw [hres]
      dsimp only at h ⊢
      rw [← loadAll_grow H hheld.2 hgrow] at h
      cases hall : loadAll H rules' ops with
      | error e' =>
        rw [hall] at h
        have heq : Except.error e' = Except.error e := h
        cases heq
        rw [ih (fun op hop => (hheld.2 op hop).grow hgrow) hall]
        rfl
      | ok xs =>
        rw [hall] at h
        cases h

theorem loadAll_cons_ok {xs : List (Ready E D F R)} (h : loadAll H rules (op :: ops) = .ok xs) :
    ∃ r xs', (if op.resonator.isSome then .ok (ruleAt rules op) else parsed H op.txcl) = .ok r ∧
      loadAll H rules ops = .ok xs' ∧ xs = ⟨op.txcl, r, op.draft, op.data⟩ :: xs' := by
  rw [loadAll] at h
  cases hr : (if op.resonator.isSome then .ok (ruleAt rules op) else parsed H op.txcl) with
  | error e =>
    rw [hr] at h
    cases h
  | ok r =>
    rw [hr] at h
    dsimp only at h
    cases hall : loadAll H rules ops with
    | error e =>
      rw [hall] at h
      cases h
    | ok xs' =>
      rw [hall] at h
      cases h
      exact ⟨r, xs', rfl, rfl, rfl⟩

theorem Ready.answers_mk {G : Runtime E V A F R} {txcl : Bytes} {r : Resonator F R}
    {draft : Draft E} {data : D} :
    Ready.answers G input ⟨txcl, r, draft, data⟩ = G.whenMatches r input := rfl

theorem keepEach_ok (G : Runtime E V A F R) (input : E) (hi : Int) {xs : List (Ready E D F R)}
    (hheld : ∀ op ∈ ops, Held rules op) (h : loadAll H rules ops = .ok xs) :
    ∃ rules' kept, rules <+: rules' ∧
      keepEach (resonate H G input) (rules, hi) ops =
        .ok ((rules', highestOf Ready.priority hi (xs.filter (Ready.answers G input))), kept) ∧
      (∀ own ∈ kept, Placed rules' own) ∧
      kept.map (view rules') = (xs.filter (Ready.answers G input)).map (Ready.on · input) := by
  induction ops generalizing rules hi xs with
  | nil =>
    cases h
    exact ⟨rules, [], List.prefix_rfl, rfl, List.forall_mem_nil _, rfl⟩
  | cons op ops ih =>
    rw [List.forall_mem_cons] at hheld
    obtain ⟨r, xs', hr, hall, rfl⟩ := loadAll_cons_ok h
    obtain ⟨rules₁, y, hgrow₁, hres, hplaced, hview⟩ := resonate_ok G input hi hheld.1 hr
    rw [← loadAll_grow H hheld.2 hgrow₁] at hall
    obtain ⟨rules', kept, hgrow, hkeep, hplaced', hviews⟩ := @ih rules₁
      (if G.whenMatches r input then (if hi < r.priority.value then r.priority.value else hi)
        else hi) xs'
      (fun op hop => (hheld.2 op hop).grow hgrow₁) hall
    refine ⟨rules', y.toList ++ kept, hgrow₁.trans hgrow, ?_, ?_, ?_⟩
    · rw [keepEach, hres]
      dsimp only
      rw [hkeep, List.filter_cons, Ready.answers_mk]
      show Except.ok _ = Except.ok _
      by_cases hmatch : G.whenMatches r input = true
      · rw [if_pos hmatch, if_pos hmatch]
        rfl
      · rw [if_neg hmatch, if_neg hmatch]
    · intro own hown
      rcases List.mem_append.mp hown with hown | hown
      · exact (hplaced own (Option.mem_toList.mp hown)).grow hgrow
      · exact hplaced' own hown
    · have hfirst : y.toList.map (view rules') = y.toList.map (view rules₁) := by
        apply List.map_congr_left
        intro own hown
        exact view_grow (hplaced own (Option.mem_toList.mp hown)).2 hgrow
      rw [List.map_append, hviews, hfirst, hview, List.filter_cons, Ready.answers_mk]
      by_cases hmatch : G.whenMatches r input = true
      · rw [if_pos hmatch, if_pos hmatch]
        rfl
      · rw [if_neg hmatch, if_neg hmatch]
        rfl

theorem keepEach_filter (p : StageOp E D → Prop) [DecidablePred p] (ops : List (StageOp E D)) :
    keepEach (ε := Empty) (fun (_ : Unit) op => .ok ((), if p op then some op else none)) () ops =
      .ok ((), ops.filter p) := by
  induction ops with
  | nil => rfl
  | cons op ops ih =>
    rw [keepEach]
    dsimp only
    rw [ih, List.filter_cons]
    by_cases hp : p op
    · rw [if_pos hp, if_pos (decide_eq_true hp)]
      rfl
    · rw [if_neg hp, if_neg (by simpa using hp)]
      rfl

theorem pickHighest_eq {highest : Int}
    (h : ∃ op ∈ ops, (ruleAt rules op).priority.value = highest) :
    pickHighest rules highest [] ops =
      (ops.filter fun op => (ruleAt rules op).priority.value = highest).take 1 := by
  have hloop := keepLoop_eq (ε := Empty) (fun (_ : Unit) op =>
    .ok ((), if (ruleAt rules op).priority.value = highest then some op else none)) () ops
  rw [keepEach_filter] at hloop
  rw [pickHighest]
  split
  · next e _ => exact e.elim
  · next u ops' i hkeep =>
    rw [hkeep] at hloop
    have hfront : ops'.take i = ops.filter fun op =>
      (ruleAt rules op).priority.value = highest := by
      rw [Except.map, Except.ok.injEq, front, Prod.mk.injEq] at hloop
      exact hloop.2
    have hi : i ≠ 0 := by
      rintro rfl
      rw [List.take_zero] at hfront
      obtain ⟨op, hop, hmax⟩ := h
      have hmem : op ∈ ops.filter fun op => (ruleAt rules op).priority.value = highest :=
        List.mem_filter.mpr ⟨hop, by simpa using hmax⟩
      rw [← hfront] at hmem
      cases hmem
    dsimp only
    rw [if_pos hi, if_neg (fun hseed => hseed.2 rfl), hfront]

theorem pick_views {kept : List (StageOp E D)} {matching : List (Ready E D F R)}
    (hviews : kept.map (view rules) = matching.map (Ready.on · input)) (highest : Int) :
    ((kept.filter fun op => (ruleAt rules op).priority.value = highest).take 1).map (view rules) =
      ((matching.filter (Ready.priority · = highest)).take 1).map (Ready.on · input) := by
  have hkept : (kept.filter fun op => (ruleAt rules op).priority.value = highest).map (view rules) =
      (kept.map (view rules)).filter (Ready.priority · = highest) := by
    rw [List.filter_map]
    rfl
  have hmatching : (matching.filter (Ready.priority · = highest)).map (Ready.on · input) =
      (matching.map (Ready.on · input)).filter (Ready.priority · = highest) := by
    rw [List.filter_map]
    rfl
  rw [List.map_take, List.map_take, hkept, hmatching, hviews]

theorem selected_views {kept : List (StageOp E D)} {matching : List (Ready E D F R)}
    (hviews : kept.map (view rules) = matching.map (Ready.on · input)) {highest : Int}
    (hhigh : highest = highestOf Ready.priority 0 matching) :
    (if highest ≠ 0 then pickHighest rules highest [] kept else kept).map (view rules) =
        (if highest ≠ 0 then (matching.filter (Ready.priority · = highest)).take 1
          else matching).map (Ready.on · input) ∧
      ∀ op ∈ (if highest ≠ 0 then pickHighest rules highest [] kept else kept), op ∈ kept := by
  by_cases hne : highest ≠ 0
  · rw [if_pos hne, if_pos hne]
    obtain ⟨x, hx, hmax⟩ := (highestOf_mem Ready.priority 0 matching).resolve_left (hhigh ▸ hne)
    have hx' : x.on input ∈ kept.map (view rules) := by
      rw [hviews]
      exact List.mem_map_of_mem hx
    obtain ⟨op, hop, hview⟩ := List.mem_map.mp hx'
    have hpriority : (ruleAt rules op).priority.value = highest := by
      rw [hhigh, ← hmax]
      exact congrArg Ready.priority hview
    rw [pickHighest_eq ⟨op, hop, hpriority⟩]
    exact ⟨pick_views hviews highest, fun own hown =>
      List.mem_of_mem_filter (List.mem_of_mem_take hown)⟩
  · rw [if_neg hne, if_neg hne]
    exact ⟨hviews, fun own hown => hown⟩

theorem prepare_spec (h : Placed rules op) :
    rules <+: (prepare G S w rules op).1 ∧
    Placed (prepare G S w rules op).1 (prepare G S w rules op).2 ∧
      view (prepare G S w rules op).1 (prepare G S w rules op).2 =
        (view rules op).finish G S w := by
  unfold prepare
  show _ ∧ _ ∧ _ = Ready.finish G S w ⟨op.txcl, ruleAt rules op, op.draft, op.data⟩
  unfold Ready.finish
  dsimp only
  split
  · next draft heq =>
    refine ⟨List.prefix_rfl, ⟨h.1, h.2⟩, ?_⟩
    rfl
  · next draft overrides heq =>
    refine ⟨List.prefix_append _ _, ⟨Option.some_ne_none _, fun p hp => ?_⟩, ?_⟩
    · cases hp
      simp
    · simp [view, ruleAt]

theorem prepareAll_spec (h : ∀ op ∈ ops, Placed rules op) :
    rules <+: (prepareAll G S w rules ops).1 ∧
      (prepareAll G S w rules ops).2.map (view (prepareAll G S w rules ops).1) =
        ops.map fun op => (view rules op).finish G S w := by
  induction ops generalizing rules with
  | nil => exact ⟨List.prefix_rfl, rfl⟩
  | cons op ops ih =>
    rw [List.forall_mem_cons] at h
    obtain ⟨hgrow, hplaced, hview⟩ := prepare_spec (G := G) (S := S) (w := w) h.1
    obtain ⟨hgrow', hviews⟩ := ih fun own hown => (h.2 own hown).grow hgrow
    refine ⟨hgrow.trans hgrow', ?_⟩
    rw [prepareAll, List.map_cons, List.map_cons]
    dsimp only
    rw [hviews, view_grow hplaced.2 hgrow', hview]
    congr 1
    apply List.map_congr_left
    intro own hown
    rw [view_grow (h.2 own hown).2 hgrow]

end Loops

section Requests

/-- The ops of a stage, taken for one envelope. -/
structure Request (E D A F : Type) where
  walk : Walk A F
  input : E
  ops : List (StageOp E D)

variable {H : Host F R} {G : Runtime E V A F R} {S : Editor E V A F} {rules : Rules F R}

/-- Evaluating a request for the ops chosen, as all callers do, without a seed. -/
def Request.evaluate (H : Host F R) (G : Runtime E V A F R) (S : Editor E V A F)
    (q : Request E D A F) (rules : Rules F R) : Except String (Rules F R × List (StageOp E D)) :=
  resonatingOps H G S q.walk rules q.input q.ops []

/-- The memory behind a request. -/
def Request.leaves (H : Host F R) (G : Runtime E V A F R) (S : Editor E V A F) (rules : Rules F R)
    (q : Request E D A F) : Rules F R :=
  match q.evaluate H G S rules with
  | .error _ => rules
  | .ok (rules', _) => rules'

theorem evaluate_error {q : Request E D A F} {e : String} (hheld : ∀ op ∈ q.ops, Held rules op)
    (h : loadAll H rules q.ops = .error e) : q.evaluate H G S rules = .error e := by
  have hne : q.ops.isEmpty = false := by
    cases hops : q.ops with
    | nil =>
      rw [hops] at h
      cases h
    | cons op ops => rfl
  have hloop := keepLoop_eq (resonate H G q.input) (rules, 0) q.ops
  rw [keepEach_error hheld h] at hloop
  rw [Request.evaluate, resonatingOps, hne, if_neg Bool.false_ne_true]
  cases hkeep : keepLoop (resonate H G q.input) q.ops.length 0 0 (rules, 0) q.ops with
  | error e' =>
    rw [hkeep] at hloop
    have heq : Except.error e' = Except.error e := hloop
    cases heq
    rfl
  | ok r =>
    rw [hkeep] at hloop
    cases hloop

theorem evaluate_ok {q : Request E D A F} {xs : List (Ready E D F R)}
    (hheld : ∀ op ∈ q.ops, Held rules op) (h : loadAll H rules q.ops = .ok xs) :
    ∃ rules' ops chosen, q.evaluate H G S rules = .ok (rules', ops) ∧ rules <+: rules' ∧
      Chosen Ready.priority (xs.filter (Ready.answers G q.input)) chosen ∧
      ops.map (view rules') = chosen.map fun x => (x.on q.input).finish G S q.walk := by
  obtain ⟨rules₁, kept, hgrow, hkeep, hplaced, hviews⟩ := keepEach_ok G q.input 0 hheld h
  have hloop := keepLoop_eq (resonate H G q.input) (rules, 0) q.ops
  rw [hkeep] at hloop
  generalize xs.filter (Ready.answers G q.input) = matching at hviews hloop ⊢
  have hchosen := chosen_highestOf Ready.priority matching
  cases hrun : keepLoop (resonate H G q.input) q.ops.length 0 0 (rules, 0) q.ops with
  | error e =>
    rw [hrun] at hloop
    cases hloop
  | ok r =>
    obtain ⟨⟨rules', highest⟩, ops', i⟩ := r
    rw [hrun, Except.map, Except.ok.injEq, front, Prod.mk.injEq, Prod.mk.injEq] at hloop
    obtain ⟨⟨rfl, rfl⟩, rfl⟩ := hloop
    cases hempty : q.ops.isEmpty with
    | true =>
      rw [List.isEmpty_iff] at hempty
      rw [hempty] at hrun
      have hnil := Except.ok.inj hrun
      simp only [Prod.mk.injEq] at hnil
      obtain ⟨⟨rfl, -⟩, rfl, -⟩ := hnil
      rw [List.take_nil, List.map_nil, List.nil_eq, List.map_eq_nil_iff] at hviews
      subst hviews
      refine ⟨rules, [], [], ?_, List.prefix_rfl, .all (List.forall_mem_nil _), rfl⟩
      rw [Request.evaluate, resonatingOps, hempty]
      rfl
    | false =>
      obtain ⟨hsel, hsub⟩ := selected_views hviews rfl
      obtain ⟨hgrow', hall⟩ := prepareAll_spec (G := G) (S := S) (w := q.walk) fun op hop =>
        hplaced op (hsub op hop)
      by_cases hi : i = 0
      · subst hi
        rw [List.take_zero, List.map_nil, List.nil_eq, List.map_eq_nil_iff] at hviews
        subst hviews
        refine ⟨rules', [], [], ?_, hgrow, .all (List.forall_mem_nil _), rfl⟩
        rw [Request.evaluate, resonatingOps, hempty, if_neg Bool.false_ne_true, hrun]
        rfl
      · refine ⟨_, _, _, ?_, hgrow.trans hgrow', hchosen, hall.trans ?_⟩
        · rw [Request.evaluate, resonatingOps, hempty, if_neg Bool.false_ne_true, hrun]
          dsimp only
          rw [if_neg hi]
        · rw [← Function.comp_def, ← List.map_map, hsel, List.map_map]
          rfl

theorem grows (q : Request E D A F) (hheld : ∀ op ∈ q.ops, Held rules op) :
    rules <+: q.leaves H G S rules := by
  rw [Request.leaves]
  cases hall : loadAll H rules q.ops with
  | error e =>
    have heval := evaluate_error (G := G) (S := S) hheld hall
    simp only [heval, List.prefix_rfl]
  | ok xs =>
    obtain ⟨rules', ops, chosen, heval, hgrow, -, -⟩ := evaluate_ok (G := G) (S := S) hheld hall
    rw [heval]
    exact hgrow

theorem run_grows (earlier : List (Request E D A F))
    (hheld : ∀ q ∈ earlier, ∀ op ∈ q.ops, Held rules op) :
    rules <+: earlier.foldl (Request.leaves H G S) rules := by
  induction earlier generalizing rules with
  | nil => exact List.prefix_rfl
  | cons q earlier ih =>
    rw [List.forall_mem_cons] at hheld
    have hgrow := grows (H := H) (G := G) (S := S) q hheld.1
    exact hgrow.trans (ih fun q' hq' op hop => (hheld.2 q' hq' op hop).grow hgrow)

/-- Whatever requests went before, the ops chosen for an envelope are those of its stage that answer
it, in their order, or the first of the highest priority if one is above zero; they are made ready
from the rules as they were loaded, and these are still in memory as they were. -/
theorem resonatingOps_chooses (H : Host F R) (G : Runtime E V A F R) (S : Editor E V A F)
    (rules : Rules F R) (earlier : List (Request E D A F)) (q : Request E D A F)
    (hheld : ∀ q' ∈ q :: earlier, ∀ op ∈ q'.ops, Held rules op) :
    (∀ e, loadAll H rules q.ops = .error e →
      q.evaluate H G S (earlier.foldl (Request.leaves H G S) rules) = .error e) ∧
    ∀ xs, loadAll H rules q.ops = .ok xs → ∃ rules' ops chosen,
      q.evaluate H G S (earlier.foldl (Request.leaves H G S) rules) = .ok (rules', ops) ∧
      rules <+: rules' ∧
      Chosen Ready.priority (xs.filter (Ready.answers G q.input)) chosen ∧
      ops.map (view rules') = chosen.map fun x => (x.on q.input).finish G S q.walk := by
  rw [List.forall_mem_cons] at hheld
  have hgrow := run_grows (H := H) (G := G) (S := S) earlier hheld.2
  have hheld' : ∀ op ∈ q.ops, Held (earlier.foldl (Request.leaves H G S) rules) op :=
    fun op hop => (hheld.1 op hop).grow hgrow
  rw [← loadAll_grow H hheld.1 hgrow]
  refine ⟨fun e h => evaluate_error hheld' h, fun xs h => ?_⟩
  obtain ⟨rules', ops, chosen, heval, hgrow', hchosen, hviews⟩ :=
    evaluate_ok (G := G) (S := S) hheld' h
  exact ⟨rules', ops, chosen, heval, hgrow.trans hgrow', hchosen, hviews⟩

/-- The ops a request gives, with their rules in hand. -/
def Request.readied (H : Host F R) (G : Runtime E V A F R) (S : Editor E V A F)
    (q : Request E D A F) (rules : Rules F R) : Except String (List (Ready E D F R)) :=
  (q.evaluate H G S rules).map fun r => r.2.map (view r.1)

theorem readied_ok {q : Request E D A F} {xs chosen : List (Ready E D F R)}
    (hheld : ∀ op ∈ q.ops, Held rules op) (h : loadAll H rules q.ops = .ok xs)
    (hchosen : Chosen Ready.priority (xs.filter (Ready.answers G q.input)) chosen) :
    q.readied H G S rules = .ok (chosen.map fun x => (x.on q.input).finish G S q.walk) := by
  obtain ⟨rules', ops, chosen', heval, -, hchosen', hviews⟩ :=
    evaluate_ok (G := G) (S := S) hheld h
  rw [hchosen'.unique hchosen] at hviews
  rw [Request.readied, heval]
  exact congrArg Except.ok hviews

/-- Requests leave the rules as they were, and give whatever each gives alone: the ops that answer,
in their order, or the first of the highest priority if one is above zero. -/
theorem readied_as_alone (H : Host F R) (G : Runtime E V A F R) (S : Editor E V A F)
    (rules : Rules F R) (earlier : List (Request E D A F)) (q : Request E D A F)
    (hheld : ∀ q' ∈ q :: earlier, ∀ op ∈ q'.ops, Held rules op) :
    rules <+: (earlier ++ [q]).foldl (Request.leaves H G S) rules ∧
    q.readied H G S (earlier.foldl (Request.leaves H G S) rules) = q.readied H G S rules ∧
    ∀ xs, loadAll H rules q.ops = .ok xs → ∃ chosen,
      Chosen Ready.priority (xs.filter (Ready.answers G q.input)) chosen ∧
      q.readied H G S rules = .ok (chosen.map fun x => (x.on q.input).finish G S q.walk) := by
  have hall : ∀ q' ∈ earlier ++ [q], ∀ op ∈ q'.ops, Held rules op := fun q' hq' =>
    hheld q' (List.mem_cons.mpr ((List.mem_append.mp hq').symm.imp_left List.mem_singleton.mp))
  rw [List.forall_mem_cons] at hheld
  have hgrow := run_grows (H := H) (G := G) (S := S) earlier hheld.2
  have hlater : ∀ op ∈ q.ops, Held (earlier.foldl (Request.leaves H G S) rules) op :=
    fun op hop => (hheld.1 op hop).grow hgrow
  have hload := loadAll_grow H hheld.1 hgrow
  have hchosen := fun xs : List (Ready E D F R) =>
    chosen_highestOf Ready.priority (xs.filter (Ready.answers G q.input))
  refine ⟨run_grows _ hall, ?_, fun xs h => ⟨_, hchosen xs, readied_ok hheld.1 h (hchosen xs)⟩⟩
  cases h : loadAll H rules q.ops with
  | error e =>
    rw [Request.readied, Request.readied, evaluate_error hlater (hload.trans h),
      evaluate_error hheld.1 h]
  | ok xs =>
    rw [readied_ok hlater (hload.trans h) (hchosen xs), readied_ok hheld.1 h (hchosen xs)]

/-- Flat documents, in which a write puts an entry in front. -/
def flatRuntime : Runtime (List (Bytes × Bytes)) (Option Bytes) Bytes Unit Unit where
  get doc path := doc.lookup path
  isEmpty doc := doc.isEmpty
  int _ := 0
  float _ := ()
  string v := v.getD []
  bool v := v.isSome
  floatEq _ _ := true
  floatLt _ _ := false
  compile _ := none
  matchString _ _ := false
  nil := []
  ofLit l :=
    match l with
    | .str s => s
    | _ => []
  view a := .str a
  call _ _ := .error "no function"

def flatEditor : Editor (List (Bytes × Bytes)) (Option Bytes) Bytes Unit where
  found v := v.isSome
  isEmptyString v := v == some []
  value v := v.getD []
  raw v := v.getD []
  emptyString := []
  literal := .str
  emptyObject := []
  boundedSet doc path v := .ok ((path, v) :: doc)
  boundedSetRaw doc path raw := some ((path, raw) :: doc)
  setRaw doc path raw := some ((path, raw) :: doc)
  marshal all := some all
  failPayload e := [("error".toList, e.toList)]

/-- Three rules, the last two with a priority, of which the first has a SELECT. -/
def flatRules : Rules Unit Unit :=
  [.new, { Resonator.new with
    priority := ⟨⟨.int, ['2']⟩, 2⟩,
    select := some ⟨false, [⟨".a".toList, ".b".toList, none⟩]⟩ },
    { Resonator.new with priority := ⟨⟨.int, ['2']⟩, 2⟩ }]

def flatRequest : Request (List (Bytes × Bytes)) Unit Bytes Unit where
  walk := ⟨id, id⟩
  input := [(['a'], ['1'])]
  ops := [0, 1, 2].map fun p => ⟨[], some p, ⟨[], [], []⟩, ()⟩

theorem held_flat : ∀ q' ∈ [flatRequest, flatRequest], ∀ op ∈ q'.ops, Held flatRules op := by
  have hops : ∀ op ∈ flatRequest.ops, Held flatRules op := by
    intro op hop p hp
    obtain ⟨k, hk, rfl⟩ := List.mem_map.mp hop
    cases hp
    clear hop
    revert p
    decide
  intro q' hq'
  rcases List.mem_cons.mp hq' with rfl | hq'
  · exact hops
  · rw [List.mem_singleton.mp hq']
    exact hops

theorem resonatingOps_chooses_flat :
    (∀ q' ∈ [flatRequest, flatRequest], ∀ op ∈ q'.ops, Held flatRules op) ∧
      ∃ rules' ops chosen,
        flatRequest.evaluate bareHost flatRuntime flatEditor
            ([flatRequest].foldl (Request.leaves bareHost flatRuntime flatEditor) flatRules) = .ok
              (rules', ops) ∧
        flatRules <+: rules' ∧
        Chosen Ready.priority
          ((flatRequest.ops.map (view flatRules)).filter
            (Ready.answers flatRuntime flatRequest.input)) chosen ∧
        ops.map (view rules') = chosen.map fun x =>
          (x.on flatRequest.input).finish flatRuntime flatEditor flatRequest.walk := by
  exact ⟨held_flat,
    (resonatingOps_chooses bareHost flatRuntime flatEditor flatRules [flatRequest] flatRequest
      held_flat).2 _ rfl⟩

theorem readied_as_alone_flat :
    (∀ q' ∈ [flatRequest, flatRequest], ∀ op ∈ q'.ops, Held flatRules op) ∧
      flatRules <+:
        [flatRequest, flatRequest].foldl (Request.leaves bareHost flatRuntime flatEditor)
          flatRules ∧
      flatRequest.readied bareHost flatRuntime flatEditor
          ([flatRequest].foldl (Request.leaves bareHost flatRuntime flatEditor) flatRules) =
        flatRequest.readied bareHost flatRuntime flatEditor flatRules := by
  obtain ⟨hgrow, hsame, -⟩ :=
    readied_as_alone bareHost flatRuntime flatEditor flatRules [flatRequest] flatRequest held_flat
  exact ⟨held_flat, hgrow, hsame⟩

end Requests

end Model

end ThanksComputer.Scope.Resonate
