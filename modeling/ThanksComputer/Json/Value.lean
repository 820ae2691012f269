import ThanksComputer.Lib.Assoc

/-! JSON values as the chassis handles them.  An object is the list of its members in text order,
so that a repeated name is still there; `Json.value` is the map a decoder makes of it. -/

universe u

namespace ThanksComputer

open Lib.Assoc

/-- `F` is the type of the numbers, IEEE doubles in the source. -/
inductive Json (F : Type u) : Type u
  | null
  | bool (b : Bool)
  | num (n : F)
  | str (s : String)
  | arr (xs : List (Json F))
  | obj (ms : List (String × Json F))

namespace Json

variable {F : Type u}

def isObject : Json F → Bool
  | .obj _ => true
  | _ => false

def isArray : Json F → Bool
  | .arr _ => true
  | _ => false

mutual

def value (p : Dup) : Json F → Json F
  | .null => .null
  | .bool b => .bool b
  | .num n => .num n
  | .str s => .str s
  | .arr xs => .arr (valueElems p xs)
  | .obj ms => .obj (dedup p (valueMembers p ms))

def valueElems (p : Dup) : List (Json F) → List (Json F)
  | [] => []
  | x :: xs => value p x :: valueElems p xs

def valueMembers (p : Dup) : List (String × Json F) → List (String × Json F)
  | [] => []
  | (k, v) :: ms => (k, value p v) :: valueMembers p ms

end

mutual

/-- Every number of the value is finite, which is what `json.Marshal` asks of it. -/
def finite (fin : F → Bool) : Json F → Bool
  | .null => true
  | .bool _ => true
  | .num n => fin n
  | .str _ => true
  | .arr xs => finiteElems fin xs
  | .obj ms => finiteMembers fin ms

def finiteElems (fin : F → Bool) : List (Json F) → Bool
  | [] => true
  | x :: xs => finite fin x && finiteElems fin xs

def finiteMembers (fin : F → Bool) : List (String × Json F) → Bool
  | [] => true
  | (_, v) :: ms => finite fin v && finiteMembers fin ms

end

mutual

/-- `deepMergeValues` of merge.go: the first argument is the output's value, the second the
envelope's. -/
def deepMergeValues : Json F → Json F → Json F
  | .obj ms, .obj ns =>
    .obj (mergeMembers ms ns ++ ns.filter fun e => (ms.lookup e.1).isNone)
  | .obj ms, _ => .obj ms
  | .null, .obj ns => .obj ns
  | .null, _ => .null
  | .arr xs, .arr ys => .arr (ys ++ xs)
  | .arr _, y => y
  | .bool b, _ => .bool b
  | .num n, _ => .num n
  | .str s, _ => .str s

def mergeMembers : List (String × Json F) → List (String × Json F) → List (String × Json F)
  | [], _ => []
  | (k, v) :: ms, ns =>
    (match ns.lookup k with
      | some w => (k, deepMergeValues v w)
      | none => (k, v)) :: mergeMembers ms ns

end

/-- The value at a path of member names, reading the first member of each name. -/
def getPath : Json F → List String → Option (Json F)
  | j, [] => some j
  | .obj ms, k :: p =>
    match ms.lookup k with
    | some v => getPath v p
    | none => none
  | _, _ :: _ => none

theorem valueMembers_eq (p : Dup) (ms : List (String × Json F)) :
    valueMembers p ms = mapSnd (value p) ms := by
  induction ms with
  | nil => rfl
  | cons e ms ih => exact congrArg ((e.1, value p e.2) :: ·) ih

theorem valueElems_eq (p : Dup) (xs : List (Json F)) : valueElems p xs = xs.map (value p) := by
  induction xs with
  | nil => rfl
  | cons x xs ih => exact congrArg (value p x :: ·) ih

theorem finiteMembers_iff (fin : F → Bool) (ms : List (String × Json F)) :
    finiteMembers fin ms = true ↔ ∀ k v, (k, v) ∈ ms → finite fin v = true := by
  induction ms with
  | nil => exact iff_of_true rfl fun _ _ h => absurd h List.not_mem_nil
  | cons e ms ih =>
    obtain ⟨k, v⟩ := e
    have hcons : finiteMembers fin ((k, v) :: ms) = (finite fin v && finiteMembers fin ms) := rfl
    simp only [hcons, Bool.and_eq_true, ih, List.mem_cons, Prod.mk.injEq]
    constructor
    · rintro ⟨hv, hms⟩ k' v' (⟨rfl, rfl⟩ | h)
      · exact hv
      · exact hms k' v' h
    · intro h
      exact ⟨h k v (.inl ⟨rfl, rfl⟩), fun k' v' h' => h k' v' (.inr h')⟩

theorem finiteElems_iff (fin : F → Bool) (xs : List (Json F)) :
    finiteElems fin xs = true ↔ ∀ x ∈ xs, finite fin x = true := by
  induction xs with
  | nil => exact iff_of_true rfl fun _ h => absurd h List.not_mem_nil
  | cons x xs ih =>
    have hcons : finiteElems fin (x :: xs) = (finite fin x && finiteElems fin xs) := rfl
    rw [hcons, Bool.and_eq_true, ih, List.forall_mem_cons]

@[simp] theorem getPath_nil (j : Json F) : getPath j [] = some j := by
  cases j <;> rfl

@[simp] theorem getPath_obj_cons (ms : List (String × Json F)) (k : String) (p : List String) :
    getPath (.obj ms) (k :: p) = (ms.lookup k).bind fun v => getPath v p := by
  cases h : ms.lookup k <;> simp [getPath, h]

theorem lookup_mergeMembers (ms ns : List (String × Json F)) (k : String) :
    (mergeMembers ms ns).lookup k = (ms.lookup k).map fun v =>
      match ns.lookup k with
      | some w => deepMergeValues v w
      | none => v := by
  induction ms with
  | nil => simp [mergeMembers]
  | cons e ms ih =>
    obtain ⟨k', v⟩ := e
    rw [mergeMembers]
    by_cases hk : k = k'
    · subst hk
      cases ns.lookup k <;> simp
    · have hk' : (k == k') = false := by simpa using hk
      cases hn : ns.lookup k' <;> simp [List.lookup_cons, hk', ih]

theorem lookup_deepMergeValues (ms ns : List (String × Json F)) (k : String) :
    (mergeMembers ms ns ++ ns.filter fun e => (ms.lookup e.1).isNone).lookup k =
      match ms.lookup k, ns.lookup k with
      | some v, some w => some (deepMergeValues v w)
      | some v, none => some v
      | none, w => w := by
  rw [List.lookup_append, lookup_mergeMembers]
  cases hm : ms.lookup k with
  | some v => cases hn : ns.lookup k <;> simp
  | none =>
    simp only [Option.map_none, Option.none_or]
    induction ns with
    | nil => rfl
    | cons e ns ih =>
      by_cases hk : k = e.1
      · subst hk
        simp [hm]
      · rw [lookup_cons_of_ne hk]
        rw [List.filter_cons]
        split
        · rw [lookup_cons_of_ne hk]
          exact ih
        · exact ih

theorem mergeMembers_eq (ms ns : List (String × Json F)) :
    mergeMembers ms ns = ms.map fun e =>
      match ns.lookup e.1 with
      | some w => (e.1, deepMergeValues e.2 w)
      | none => e := by
  induction ms with
  | nil => rfl
  | cons e ms ih =>
    rw [mergeMembers, ih, List.map_cons]

theorem keys_mergeMembers (ms ns : List (String × Json F)) :
    keys (mergeMembers ms ns) = keys ms := by
  rw [mergeMembers_eq, keys, keys, List.map_map]
  apply List.map_congr_left
  intro e _
  simp only [Function.comp_apply]
  split <;> rfl

/-- No object of the value has two members of one name. -/
inductive Unique : Json F → Prop
  | null : Unique .null
  | bool (b : Bool) : Unique (.bool b)
  | num (n : F) : Unique (.num n)
  | str (s : String) : Unique (.str s)
  | arr {xs : List (Json F)} : (∀ x ∈ xs, Unique x) → Unique (.arr xs)
  | obj {ms : List (String × Json F)} : (keys ms).Nodup → (∀ e ∈ ms, Unique e.2) → Unique (.obj ms)

mutual

theorem unique_value (p : Dup) : ∀ j : Json F, Unique (value p j)
  | .null => .null
  | .bool b => .bool b
  | .num n => .num n
  | .str s => .str s
  | .arr xs => .arr (unique_valueElems p xs)
  | .obj ms =>
    .obj (keys_dedup_nodup p _) fun e he => unique_valueMembers p ms e (dedup_subset p _ he)

theorem unique_valueElems (p : Dup) : ∀ xs : List (Json F), ∀ x ∈ valueElems p xs, Unique x
  | [], x, h => absurd h List.not_mem_nil
  | y :: ys, x, h => by
    rcases List.mem_cons.mp h with rfl | h
    · exact unique_value p y
    · exact unique_valueElems p ys x h

theorem unique_valueMembers (p : Dup) :
    ∀ ms : List (String × Json F), ∀ e ∈ valueMembers p ms, Unique e.2
  | [], e, h => absurd h List.not_mem_nil
  | (_, v) :: ms, e, h => by
    rcases List.mem_cons.mp h with rfl | h
    · exact unique_value p v
    · exact unique_valueMembers p ms e h

end

theorem value_of_unique (p : Dup) {j : Json F} (h : Unique j) : value p j = j := by
  induction h with
  | null | bool | num | str => rfl
  | arr _ ih =>
    rw [value, valueElems_eq]
    congr 1
    exact (List.map_congr_left ih).trans (List.map_id _)
  | @obj ms hk _ ih =>
    have hmap : mapSnd (value p) ms = ms := by
      refine (List.map_congr_left fun e he => ?_).trans (List.map_id _)
      exact Prod.ext rfl (ih e he)
    rw [value, valueMembers_eq, hmap, dedup_of_nodup p hk]

theorem unique_deepMergeValues {x y : Json F} (hx : Unique x) (hy : Unique y) :
    Unique (deepMergeValues x y) := by
  induction hx generalizing y with
  | null | bool | num | str =>
    cases hy <;> simp only [deepMergeValues] <;> constructor <;> assumption
  | arr h ih =>
    cases hy with
    | arr h' =>
      refine .arr fun x hx => ?_
      rcases List.mem_append.mp hx with hx | hx
      · exact h' x hx
      · exact h x hx
    | null | bool | num | str | obj => simp only [deepMergeValues]; constructor <;> assumption
  | @obj ms hk h ih =>
    cases hy with
    | @obj ns hk' h' =>
      refine .obj ?_ ?_
      · rw [keys_append, keys_mergeMembers, List.nodup_append]
        refine ⟨hk, hk'.sublist (List.filter_sublist.map Prod.fst), ?_⟩
        rintro a ha b hb rfl
        obtain ⟨e, he, rfl⟩ := List.mem_map.mp hb
        have hnone := (List.mem_filter.mp he).2
        rw [Option.isNone_iff_eq_none, lookup_eq_none_iff_keys] at hnone
        exact hnone ha
      · intro e he
        rcases List.mem_append.mp he with he | he
        · rw [mergeMembers_eq] at he
          obtain ⟨d, hd, rfl⟩ := List.mem_map.mp he
          split
          · next w hw => exact ih d hd (h' (d.1, w) (mem_of_lookup hw))
          · exact h d hd
        · exact h' e (List.mem_of_mem_filter he)
    | null | bool | num | str | arr => exact .obj hk h

section Finite

variable {fin : F → Bool}

mutual

theorem finite_value (p : Dup) : ∀ j : Json F, finite fin j = true → finite fin (value p j) = true
  | .null, _ => rfl
  | .bool _, _ => rfl
  | .num _, h => h
  | .str _, _ => rfl
  | .arr xs, h => by
    rw [finite, finiteElems_iff] at h
    rw [value, finite, finiteElems_iff]
    exact finite_valueElems p xs h
  | .obj ms, h => by
    rw [finite, finiteMembers_iff] at h
    rw [value, finite, finiteMembers_iff]
    intro k v hv
    exact finite_valueMembers p ms h k v (dedup_subset p _ hv)

theorem finite_valueElems (p : Dup) : ∀ xs : List (Json F), (∀ x ∈ xs, finite fin x = true) →
    ∀ x ∈ valueElems p xs, finite fin x = true
  | [], _, x, hx => absurd hx List.not_mem_nil
  | y :: ys, h, x, hx => by
    rcases List.mem_cons.mp hx with rfl | hx
    · exact finite_value p y (h y List.mem_cons_self)
    · exact finite_valueElems p ys (fun z hz => h z (List.mem_cons_of_mem _ hz)) x hx

theorem finite_valueMembers (p : Dup) : ∀ ms : List (String × Json F),
    (∀ k v, (k, v) ∈ ms → finite fin v = true) →
      ∀ k v, (k, v) ∈ valueMembers p ms → finite fin v = true
  | [], _, k, v, hv => absurd hv List.not_mem_nil
  | (k', w) :: ms, h, k, v, hv => by
    rcases List.mem_cons.mp hv with heq | hv
    · cases heq
      exact finite_value p w (h k' w List.mem_cons_self)
    · exact finite_valueMembers p ms (fun k v hm => h k v (List.mem_cons_of_mem _ hm)) k v hv

end

mutual

theorem finite_deepMergeValues : ∀ x y : Json F, finite fin x = true → finite fin y = true →
    finite fin (deepMergeValues x y) = true
  | .obj ms, .obj ns, hx, hy => by
    rw [finite, finiteMembers_iff] at hx hy
    rw [deepMergeValues, finite, finiteMembers_iff]
    intro k v hv
    rcases List.mem_append.mp hv with hv | hv
    · exact finite_mergeMembers ms ns hx hy k v hv
    · exact hy k v (List.mem_of_mem_filter hv)
  | .arr xs, .arr ys, hx, hy => by
    rw [finite, finiteElems_iff] at hx hy
    rw [deepMergeValues, finite, finiteElems_iff]
    intro z hz
    rcases List.mem_append.mp hz with hz | hz
    · exact hy z hz
    · exact hx z hz
  | .obj _, .null, hx, _ | .obj _, .bool _, hx, _ | .obj _, .num _, hx, _
  | .obj _, .str _, hx, _ | .obj _, .arr _, hx, _ => hx
  | .arr _, .null, _, hy | .arr _, .bool _, _, hy | .arr _, .num _, _, hy
  | .arr _, .str _, _, hy | .arr _, .obj _, _, hy => hy
  | .null, .obj _, _, hy => hy
  | .null, .null, _, _ | .null, .bool _, _, _ | .null, .num _, _, _ | .null, .str _, _, _
  | .null, .arr _, _, _ => rfl
  | .bool _, _, _, _ => rfl
  | .num _, _, hx, _ => hx
  | .str _, _, _, _ => rfl

theorem finite_mergeMembers : ∀ ms ns : List (String × Json F),
    (∀ k v, (k, v) ∈ ms → finite fin v = true) → (∀ k v, (k, v) ∈ ns → finite fin v = true) →
      ∀ k v, (k, v) ∈ mergeMembers ms ns → finite fin v = true
  | [], _, _, _, k, v, hv => absurd hv List.not_mem_nil
  | (k', w) :: ms, ns, hms, hns, k, v, hv => by
    have hw := hms k' w List.mem_cons_self
    rw [mergeMembers] at hv
    rcases List.mem_cons.mp hv with heq | hv
    · split at heq
      · next w' hw' =>
        cases heq
        exact finite_deepMergeValues w w' hw (hns _ _ (mem_of_lookup hw'))
      · cases heq
        exact hw
    · exact finite_mergeMembers ms ns (fun k v hm => hms k v (List.mem_cons_of_mem _ hm)) hns k v hv

end

end Finite

end Json

end ThanksComputer
