import Mathlib.Data.List.Sort
import Mathlib.Data.String.Basic
import ThanksComputer.Lib.Assoc

/-! One collection of the search store (`search/blevestore/collection.go`, `sequenced.go`) under an
ordered log of mutations.  `ApplyAt` is the list of the disk's states behind each of its batches. -/

namespace ThanksComputer.Search

open Lib.Assoc

section Records

/-- `Item`, but for its id.  Metadata values are of some type of JSON values. -/
structure Item (V : Type) where
  text : String
  title : String
  heading : String
  name : String
  entities : List String
  metadata : String → Option V

structure FieldSet where
  name : Option String
  title : Option String
  heading : Option String

/-- `merge` has the keys it names; a key without a value is removed. -/
structure Change (V : Type) where
  merge : String → Option (Option V)
  fields : FieldSet

structure Selector (F : Type) where
  ids : List String
  filter : F

/-- An `ensure` may pin the analyzer and the scoring model. -/
inductive Mutation (V F : Type)
  | ensure (analyzerVersion scoringModel : String)
  | upsert (items : List (String × Item V))
  | delete (select : Selector F)
  | update (filter : F) (change : Change V)
  | drop

variable {V F : Type}

def Mutation.isEnsure : Mutation V F → Bool
  | .ensure _ _ => true
  | _ => false

def Mutation.isDrop : Mutation V F → Bool
  | .drop => true
  | _ => false

/-- The loop of `rewrite` over one record. -/
def Change.apply (ch : Change V) (it : Item V) : Item V :=
  { it with
    metadata := fun k => (ch.merge k).getD (it.metadata k)
    name := ch.fields.name.getD it.name
    title := ch.fields.title.getD it.title
    heading := ch.fields.heading.getD it.heading }

theorem apply_apply (ch : Change V) (it : Item V) : ch.apply (ch.apply it) = ch.apply it := by
  rw [Change.apply, Change.apply, Item.mk.injEq]
  refine ⟨rfl, ?_, ?_, ?_, rfl, ?_⟩
  · cases ch.fields.title <;> rfl
  · cases ch.fields.heading <;> rfl
  · cases ch.fields.name <;> rfl
  · funext k
    dsimp only
    cases ch.merge k <;> rfl

abbrev Records (V : Type) := List (String × Item V)

/-- What a query decides, and why a mutation is refused before anything is written: the limits, a
filter or a record that cannot be built, or a pin of another analyzer. -/
structure Engine (V F : Type) where
  admits : F → String → Item V → Bool
  refusal : Mutation V F → Option String

variable (E : Engine V F)

def Engine.selects (s : Selector F) (e : String × Item V) : Bool :=
  if s.ids = [] then E.admits s.filter e.1 e.2 else s.ids.contains e.1

def matchingIDs (q : String × Item V → Bool) (r : Records V) : List String :=
  (keys (r.filter q)).insertionSort fun a b => a ≤ b

def rewritePage : Nat := 200

def pages : Nat → List String → List (List String)
  | 0, _ => []
  | _ + 1, [] => []
  | n + 1, id :: ids => (id :: ids).take rewritePage :: pages n ((id :: ids).drop rewritePage)

def upsertAll (items : List (String × Item V)) (r : Records V) : Records V :=
  items.foldl (fun r e => upsert e.1 (fun _ => e.2) r) r

def deleteAll (ids : List String) (r : Records V) : Records V :=
  r.filter fun e => !ids.contains e.1

/-- `rewrite`, and its batch. -/
def rewriteAll (ch : Change V) (r : Records V) (ids : List String) : Records V :=
  r.map fun e => if ids.contains e.1 then (e.1, ch.apply e.2) else e

end Records

section Apply

variable {V F : Type} (E : Engine V F)

/-- The collection's directory on disk, with the position that rides in the index. -/
structure Col (V : Type) where
  records : Records V
  seq : Nat

inductive ApplyError
  | collectionNotFound
  | refused (why : String)
  deriving DecidableEq

structure Applied (V : Type) where
  states : List (Option (Col V))
  count : Nat
  applied : Bool
  error : Option ApplyError

def updateStates (ch : Change V) (seq : Nat) (c : Col V) :
    List (List String) → List (Option (Col V))
  | [] => [some { c with seq := seq }]
  | [page] => [some ⟨rewriteAll ch c.records page, seq⟩]
  | page :: rest =>
    some ⟨rewriteAll ch c.records page, c.seq⟩ ::
      updateStates ch seq ⟨rewriteAll ch c.records page, c.seq⟩ rest

/-- `Apply`, with the position as its cursor. -/
def Engine.apply (seq : Nat) (c : Col V) : Mutation V F → Applied V
  | .upsert items => ⟨[some ⟨upsertAll items c.records, seq⟩], items.length, true, none⟩
  | .delete s =>
    let ids := matchingIDs (E.selects s) c.records
    ⟨[some ⟨deleteAll ids c.records, seq⟩], ids.length, true, none⟩
  | .update f ch =>
    let ids := matchingIDs (fun e => E.admits f e.1 e.2) c.records
    ⟨updateStates ch seq c (pages ids.length ids), ids.length, true, none⟩
  | .ensure _ _ => ⟨[some { c with seq := seq }], 0, true, none⟩
  | .drop => ⟨[none], c.records.length, true, none⟩

def refused (why : String) : Applied V :=
  ⟨[], 0, false, some (.refused why)⟩

def skipped : Applied V :=
  ⟨[], 0, false, none⟩

/-- `ApplyAt`.  A drop does not look at the position, and a new collection is there before its
position is. -/
def Engine.applyAt (disk : Option (Col V)) (seq : Nat) : Mutation V F → Applied V
  | .drop => match disk with
    | none => ⟨[], 0, true, none⟩
    | some c => E.apply seq c .drop
  | .ensure analyzer scoring => match E.refusal (.ensure analyzer scoring), disk with
    | some why, _ => refused why
    | none, none =>
      if seq = 0 then ⟨[some ⟨[], 0⟩], 0, false, none⟩
        else ⟨[some ⟨[], 0⟩, some ⟨[], seq⟩], 0, true, none⟩
    | none, some c => if seq ≤ c.seq then skipped else E.apply seq c (.ensure analyzer scoring)
  | m => match disk with
    | none => ⟨[], 0, false, some .collectionNotFound⟩
    | some c =>
      if seq ≤ c.seq then skipped
      else match E.refusal m with
        | some why => refused why
        | none => E.apply seq c m

end Apply

section Pages

variable {V F : Type}

theorem flatten_pages {n : Nat} {ids : List String} (h : ids.length ≤ n) :
    (pages n ids).flatten = ids := by
  induction n generalizing ids with
  | zero => rw [List.eq_nil_of_length_eq_zero (Nat.le_zero.mp h), pages, List.flatten_nil]
  | succ n ih =>
    cases ids with
    | nil => rfl
    | cons id ids =>
      have hshort : ((id :: ids).drop rewritePage).length ≤ n := by
        rw [List.length_drop, rewritePage]
        omega
      rw [pages, List.flatten_cons, ih hshort, List.take_append_drop]

theorem rewriteAll_rewriteAll (ch : Change V) (r : Records V) (p q : List String) :
    rewriteAll ch (rewriteAll ch r p) q = rewriteAll ch r (p ++ q) := by
  rw [rewriteAll, rewriteAll, rewriteAll, List.map_map]
  refine List.map_congr_left fun e _ => ?_
  simp only [Function.comp_apply, List.contains_eq_mem, List.mem_append, decide_eq_true_eq]
  by_cases hp : e.1 ∈ p
  · by_cases hq : e.1 ∈ q
    · simp [hp, hq, apply_apply]
    · simp [hp, hq]
  · simp [hp]

theorem rewriteAll_nil (ch : Change V) (r : Records V) : rewriteAll ch r [] = r := by
  simp [rewriteAll]

theorem updateStates_dropLast {ch : Change V} {seq : Nat} {c : Col V} {ps : List (List String)}
    {st : Option (Col V)} (h : st ∈ (updateStates ch seq c ps).dropLast) :
    ∃ ids ⊆ ps.flatten, st = some ⟨rewriteAll ch c.records ids, c.seq⟩ := by
  induction ps generalizing c with
  | nil => cases h
  | cons page ps ih =>
    cases ps with
    | nil => cases h
    | cons page' rest =>
      rw [updateStates, List.dropLast_cons_of_ne_nil (by cases rest <;> simp [updateStates])] at h
      · rcases List.mem_cons.mp h with rfl | h
        · exact ⟨page, by simp, rfl⟩
        · obtain ⟨ids, hids, rfl⟩ := ih h
          refine ⟨page ++ ids, ?_, by rw [rewriteAll_rewriteAll]⟩
          rw [List.flatten_cons]
          exact List.append_subset.mpr
            ⟨List.subset_append_left _ _, List.Subset.trans hids (List.subset_append_right _ _)⟩
      · simp

theorem updateStates_getLast? (ch : Change V) (seq : Nat) (c : Col V) (ps : List (List String)) :
    (updateStates ch seq c ps).getLast? = some
      (some ⟨rewriteAll ch c.records ps.flatten, seq⟩) := by
  induction ps generalizing c with
  | nil => rw [updateStates, List.flatten_nil, rewriteAll_nil]; rfl
  | cons page ps ih =>
    cases ps with
    | nil => rw [updateStates, List.flatten_singleton]; rfl
    | cons page' rest =>
      rw [updateStates, List.getLast?_cons, ih]
      · rw [rewriteAll_rewriteAll]
        rfl
      · simp

end Pages

end ThanksComputer.Search
