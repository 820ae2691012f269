import ThanksComputer.Json.Number
import ThanksComputer.Json.Value

/-! `encoding/json` on a text: its tokens, the tree they spell and what `Unmarshal` makes of it.
The tree keeps what the text says, numbers as numerals and strings as UTF-16 units; `Unmarshal`
rounds the numbers and has no place for half a surrogate pair. -/

namespace ThanksComputer.Json

section Tokens

inductive Token
  | lbrack
  | rbrack
  | lbrace
  | rbrace
  | colon
  | comma
  | null
  | bool (b : Bool)
  | num (n : Numeral)
  | str (us : List Nat)
  deriving DecidableEq

def isSpace (c : Char) : Bool :=
  c = ' ' || c = '\t' || c = '\r' || c = '\n'

def punct (c : Char) : Option Token :=
  if c = '[' then some .lbrack
  else if c = ']' then some .rbrack
  else if c = '\x7b' then some .lbrace
  else if c = '\x7d' then some .rbrace
  else if c = ':' then some .colon
  else if c = ',' then some .comma
  else none

def wordToken (cs : List Char) : Option Token :=
  if cs = "null".toList then some .null
  else if cs = "true".toList then some (.bool true)
  else if cs = "false".toList then some (.bool false)
  else (readNumeral cs).map .num

def hexDigit (c : Char) : Option Nat :=
  if c.isDigit then some (c.toNat - '0'.toNat)
  else if 'a'.toNat ≤ c.toNat ∧ c.toNat ≤ 'f'.toNat then some (c.toNat - 'a'.toNat + 10)
  else if 'A'.toNat ≤ c.toNat ∧ c.toNat ≤ 'F'.toNat then some (c.toNat - 'A'.toNat + 10)
  else none

def escapedChar (c : Char) : Option Char :=
  if c = '"' ∨ c = '\\' ∨ c = '/' then some c
  else if c = 'b' then some '\x08'
  else if c = 'f' then some '\x0c'
  else if c = 'n' then some '\n'
  else if c = 'r' then some '\r'
  else if c = 't' then some '\t'
  else none

def utf16 (c : Char) : List Nat :=
  if c.toNat < 0x10000 then [c.toNat]
  else [0xd800 + (c.toNat - 0x10000) / 0x400, 0xdc00 + (c.toNat - 0x10000) % 0x400]

def units (s : String) : List Nat :=
  s.toList.flatMap utf16

def replacement : Char := Char.ofNat 0xfffd

/-- `unquote`: two units may be one character, and half a pair is replaced. -/
def unquote : List Nat → List Char
  | [] => []
  | [u] => [if 0xd800 ≤ u ∧ u < 0xe000 then replacement else Char.ofNat u]
  | u :: v :: us =>
    if 0xd800 ≤ u ∧ u < 0xdc00 ∧ 0xdc00 ≤ v ∧ v < 0xe000 then
      Char.ofNat ((u - 0xd800) * 0x400 + (v - 0xdc00) + 0x10000) :: unquote us
    else (if 0xd800 ≤ u ∧ u < 0xe000 then replacement else Char.ofNat u) :: unquote (v :: us)

def unquoted (us : List Nat) : String :=
  String.ofList (unquote us)

/-- Where a text is being read; what was read of a word or a string is kept in reverse. -/
inductive Mode
  | between
  | word (read : List Char)
  | string (read : List Nat)
  | escape (read : List Nat)
  | hex (read : List Nat) (unit : Nat) (left : Nat)

def scanBetween (c : Char) : List Token × Mode :=
  if isSpace c then ([], .between)
  else if c = '"' then ([], .string [])
  else
    match punct c with
    | some t => ([t], .between)
    | none => ([], .word [c])

def scanChar (mode : Mode) (c : Char) : Option (List Token × Mode) :=
  match mode with
  | .between => some (scanBetween c)
  | .word read =>
    if isSpace c ∨ c = '"' ∨ (punct c).isSome then
      (wordToken read.reverse).map fun t => (t :: (scanBetween c).1, (scanBetween c).2)
    else some ([], .word (c :: read))
  | .string read =>
    if c = '"' then some ([.str read.reverse], .between)
    else if c = '\\' then some ([], .escape read)
    else if c.toNat < 0x20 then none
    else some ([], .string ((utf16 c).reverse ++ read))
  | .escape read =>
    if c = 'u' then some ([], .hex read 0 4)
    else (escapedChar c).map fun c => ([], .string ((utf16 c).reverse ++ read))
  | .hex read unit left =>
    (hexDigit c).map fun d =>
      ([], if left = 1 then .string ((unit * 16 + d) :: read)
        else .hex read (unit * 16 + d) (left - 1))

def scan : Mode → List Char → Option (List Token)
  | .between, [] => some []
  | .word read, [] => (wordToken read.reverse).map fun t => [t]
  | _, [] => none
  | mode, c :: cs => do
    let (ts, mode) ← scanChar mode c
    (scan mode cs).map fun rest => ts ++ rest

theorem unquote_utf16 (c : Char) (us : List Nat) : unquote (utf16 c ++ us) = c :: unquote us := by
  have hvalid : c.toNat < 0xd800 ∨ 0xdfff < c.toNat ∧ c.toNat < 0x110000 := c.valid
  rw [utf16]
  split_ifs with hlow
  · have hnot : ¬(0xd800 ≤ c.toNat ∧ c.toNat < 0xe000) := by omega
    have hnot' : ∀ v, ¬(0xd800 ≤ c.toNat ∧ c.toNat < 0xdc00 ∧ 0xdc00 ≤ v ∧ v < 0xe000) := by
      omega
    cases us with
    | nil => simp [unquote, hnot]
    | cons v us =>
      rw [List.singleton_append, unquote, if_neg (hnot' v), if_neg hnot, Char.ofNat_toNat]
  · have hpair : 0xd800 ≤ 0xd800 + (c.toNat - 0x10000) / 0x400 ∧
        0xd800 + (c.toNat - 0x10000) / 0x400 < 0xdc00 ∧
        0xdc00 ≤ 0xdc00 + (c.toNat - 0x10000) % 0x400 ∧
        0xdc00 + (c.toNat - 0x10000) % 0x400 < 0xe000 := by
      omega
    have hchar : (0xd800 + (c.toNat - 0x10000) / 0x400 - 0xd800) * 0x400 +
        (0xdc00 + (c.toNat - 0x10000) % 0x400 - 0xdc00) + 0x10000 = c.toNat := by
      omega
    rw [List.cons_append, List.singleton_append, unquote, if_pos hpair, hchar, Char.ofNat_toNat]

theorem unquote_flatMap_utf16 (cs : List Char) : unquote (cs.flatMap utf16) = cs := by
  induction cs with
  | nil => rfl
  | cons c cs ih => rw [List.flatMap_cons, unquote_utf16, ih]

theorem unquoted_units (s : String) : unquoted (units s) = s := by
  rw [unquoted, units, unquote_flatMap_utf16, String.ofList_toList]

end Tokens

section Tree

/-- A text as it is spelled, the members of an object in order. -/
inductive Tree
  | null
  | bool (b : Bool)
  | num (n : Numeral)
  | str (us : List Nat)
  | arr (xs : List Tree)
  | obj (ms : List (List Nat × Tree))

/-- What an open array or object holds so far, in reverse; an object may have a name that waits for
its value. -/
inductive Frame
  | arr (xs : List Tree)
  | obj (ms : List (List Nat × Tree)) (name : List Nat)

inductive Want
  | value
  | firstElem
  | firstName
  | name
  | colon
  | next
  | done (t : Tree)

structure Reader where
  stack : List Frame
  want : Want

def maxNestingDepth : Nat := 10000

def Reader.close (stack : List Frame) (t : Tree) : Reader :=
  match stack with
  | [] => ⟨[], .done t⟩
  | .arr xs :: stack => ⟨.arr (t :: xs) :: stack, .next⟩
  | .obj ms name :: stack => ⟨.obj ((name, t) :: ms) name :: stack, .next⟩

def Reader.nest (stack : List Frame) (f : Frame) (want : Want) : Option Reader :=
  if stack.length < maxNestingDepth then some ⟨f :: stack, want⟩ else none

def Reader.begin (stack : List Frame) : Token → Option Reader
  | .null => some (.close stack .null)
  | .bool b => some (.close stack (.bool b))
  | .num n => some (.close stack (.num n))
  | .str us => some (.close stack (.str us))
  | .lbrack => Reader.nest stack (.arr []) .firstElem
  | .lbrace => Reader.nest stack (.obj [] []) .firstName
  | _ => none

def Reader.token (r : Reader) (t : Token) : Option Reader :=
  match r.want, r.stack, t with
  | .value, stack, t => Reader.begin stack t
  | .firstElem, .arr _ :: stack, .rbrack => some (.close stack (.arr []))
  | .firstElem, stack, t => Reader.begin stack t
  | .firstName, .obj _ _ :: stack, .rbrace => some (.close stack (.obj []))
  | .firstName, .obj ms _ :: stack, .str us => some ⟨.obj ms us :: stack, .colon⟩
  | .name, .obj ms _ :: stack, .str us => some ⟨.obj ms us :: stack, .colon⟩
  | .colon, stack, .colon => some ⟨stack, .value⟩
  | .next, .arr xs :: stack, .comma => some ⟨.arr xs :: stack, .value⟩
  | .next, .arr xs :: stack, .rbrack => some (.close stack (.arr xs.reverse))
  | .next, .obj ms name :: stack, .comma => some ⟨.obj ms name :: stack, .name⟩
  | .next, .obj ms _ :: stack, .rbrace => some (.close stack (.obj ms.reverse))
  | _, _, _ => none

/-- The tree of a text; `none` is what `json.Valid` refuses. -/
def parse (text : String) : Option Tree := do
  let ts ← scan .between text.toList
  let r ← ts.foldlM Reader.token ⟨[], .value⟩
  match r.want with
  | .done t => some t
  | _ => none

end Tree

section Decoded

universe u

variable {F : Type u}

mutual

/-- What `json.Unmarshal` stores of a tree in an `any`; a number too large for a `float64` has
`none`. -/
def Tree.decode : Tree → Json (Option Int)
  | .null => .null
  | .bool b => .bool b
  | .num n => .num (parseFloat n)
  | .str us => .str (unquoted us)
  | .arr xs => .arr (decodeElems xs)
  | .obj ms => .obj (decodeMembers ms)

def Tree.decodeElems : List Tree → List (Json (Option Int))
  | [] => []
  | x :: xs => x.decode :: decodeElems xs

def Tree.decodeMembers : List (List Nat × Tree) → List (String × Json (Option Int))
  | [] => []
  | (k, t) :: ms => (unquoted k, t.decode) :: decodeMembers ms

end

mutual

/-- `reflect.DeepEqual` of decoded values, maps without regard to their order. -/
def deepEqual [DecidableEq F] : Json F → Json F → Bool
  | .null, .null => true
  | .bool a, .bool b => a == b
  | .num m, .num n => m == n
  | .str s, .str t => s == t
  | .arr xs, .arr ys => deepEqualElems xs ys
  | .obj ms, .obj ns => ms.length == ns.length && deepEqualMembers ms ns
  | _, _ => false

def deepEqualElems [DecidableEq F] : List (Json F) → List (Json F) → Bool
  | [], [] => true
  | x :: xs, y :: ys => deepEqual x y && deepEqualElems xs ys
  | _, _ => false

def deepEqualMembers [DecidableEq F] : List (String × Json F) → List (String × Json F) → Bool
  | [], _ => true
  | (k, v) :: ms, ns =>
    (match ns.lookup k with
      | some w => deepEqual v w
      | none => false) && deepEqualMembers ms ns

end

end Decoded

/-- `json.Unmarshal` of a tree into an `any`: a number too large for a `float64` is an error,
wherever it stands, and of several members of one name the last counts. -/
def unmarshal (tree : Tree) : Option (Json (Option Int)) :=
  if tree.decode.finite Option.isSome then some (tree.decode.value .last) else none

def jsonEqual (a b : String) : Bool :=
  match (parse a).bind unmarshal, (parse b).bind unmarshal with
  | some av, some bv => deepEqual av bv
  | _, _ => a == b

section Same

open Lib.Assoc

/-- The two trees are one value: arrays in order, objects as maps of their last members, strings by
their units and numbers as exact decimals. -/
inductive Tree.Same : Tree → Tree → Prop
  | null : Same .null .null
  | bool (b : Bool) : Same (.bool b) (.bool b)
  | num {m n : Numeral} (h : m.value = n.value) : Same (.num m) (.num n)
  | str (us : List Nat) : Same (.str us) (.str us)
  | arr {xs ys : List Tree} (hlen : xs.length = ys.length)
      (h : ∀ (i : Nat) v w, xs[i]? = some v → ys[i]? = some w → Same v w) : Same (.arr xs) (.arr ys)
  | obj {ms ns : List (List Nat × Tree)} (hnames : ∀ k, k ∈ keys ms ↔ k ∈ keys ns)
      (h : ∀ k v w, ms.reverse.lookup k = some v → ns.reverse.lookup k = some w → Same v w) :
      Same (.obj ms) (.obj ns)

inductive Place (κ : Type := String)
  | elem (i : Nat)
  | name (k : κ)

def Tree.atPlace : List (Place (List Nat)) → Tree → Option Tree
  | [], t => some t
  | .elem i :: p, .arr xs => xs[i]?.bind (atPlace p)
  | .name k :: p, .obj ms => (ms.reverse.lookup k).bind (atPlace p)
  | _ :: _, _ => none

def NamesApart (ms ns : List (List Nat × Tree)) : Prop :=
  ∀ k ∈ keys ms, ∀ k' ∈ keys ns, unquoted k = unquoted k' → k ∈ keys ns

def Shadowed (ms : List (List Nat × Tree)) (k : List Nat) : Prop :=
  ∃ k' ∈ keys ms, k' ≠ k ∧ unquoted k' = unquoted k

/-- Decoding keeps apart what stands in one place of two values. -/
def Tree.Apart : Tree → Tree → Prop
  | .num m, .num n => ∀ x, parseFloat m = some x → parseFloat n = some x → m.value = n.value
  | .str us, .str vs => unquoted us = unquoted vs → us = vs
  | .obj ms, .obj ns => NamesApart ms ns ∧ NamesApart ns ms ∧
    ∀ k v w, Shadowed ms k → ms.reverse.lookup k = some v → ns.reverse.lookup k = some w → v.Same w
  | _, _ => True

theorem Tree.induct {motive : Tree → Prop} (null : motive .null) (bool : ∀ b, motive (.bool b))
    (num : ∀ n, motive (.num n)) (str : ∀ us, motive (.str us))
    (arr : ∀ xs, (∀ x ∈ xs, motive x) → motive (.arr xs))
    (obj : ∀ ms, (∀ m ∈ ms, motive m.2) → motive (.obj ms)) (t : Tree) : motive t := by
  cases t with
  | null => exact null
  | bool b => exact bool b
  | num n => exact num n
  | str us => exact str us
  | arr xs => exact arr xs fun x _ => Tree.induct null bool num str arr obj x
  | obj ms => exact obj ms fun m _ => Tree.induct null bool num str arr obj m.2
termination_by sizeOf t
decreasing_by
  · have hlt := List.sizeOf_lt_of_mem ‹x ∈ xs›
    simp only [Tree.arr.sizeOf_spec]
    omega
  · have hlt := List.sizeOf_lt_of_mem ‹m ∈ ms›
    obtain ⟨k, t⟩ := m
    simp only [Tree.obj.sizeOf_spec, Prod.mk.sizeOf_spec] at hlt ⊢
    omega

theorem Tree.decodeElems_eq (xs : List Tree) : decodeElems xs = xs.map decode := by
  induction xs with
  | nil => rfl
  | cons x xs ih => exact congrArg (x.decode :: ·) ih

theorem Tree.decodeMembers_eq (ms : List (List Nat × Tree)) :
    decodeMembers ms = ms.map fun m => (unquoted m.1, m.2.decode) := by
  induction ms with
  | nil => rfl
  | cons m ms ih => exact congrArg ((unquoted m.1, m.2.decode) :: ·) ih

section DeepEqual

universe u

variable {F : Type u} [DecidableEq F]

theorem num_of_deepEqual {m n : F} (h : deepEqual (.num m) (.num n) = true) : m = n := by
  rw [deepEqual] at h
  exact beq_iff_eq.mp h

theorem deepEqualElems_iff {xs ys : List (Json F)} : deepEqualElems xs ys = true ↔
    xs.length = ys.length ∧
      ∀ (i : Nat) v w, xs[i]? = some v → ys[i]? = some w → deepEqual v w = true := by
  induction xs generalizing ys with
  | nil =>
    cases ys with
    | nil => simp [deepEqualElems]
    | cons y ys => simp [deepEqualElems]
  | cons x xs ih =>
    cases ys with
    | nil => simp [deepEqualElems]
    | cons y ys =>
      simp only [deepEqualElems, Bool.and_eq_true, ih, List.length_cons, Nat.add_right_cancel_iff]
      constructor
      · rintro ⟨hx, hlen, h⟩
        refine ⟨hlen, fun i v w hv hw => ?_⟩
        cases i with
        | zero =>
          cases hv
          cases hw
          exact hx
        | succ i => exact h i v w hv hw
      · rintro ⟨hlen, h⟩
        exact ⟨h 0 x y rfl rfl, hlen, fun i v w hv hw => h (i + 1) v w hv hw⟩

theorem deepEqualMembers_iff {ms ns : List (String × Json F)} :
    deepEqualMembers ms ns = true ↔
      ∀ e ∈ ms, ∃ w, ns.lookup e.1 = some w ∧ deepEqual e.2 w = true := by
  induction ms with
  | nil => simp [deepEqualMembers]
  | cons e ms ih =>
    rw [deepEqualMembers, Bool.and_eq_true, ih, List.forall_mem_cons]
    refine and_congr_left fun _ => ?_
    split
    · next w hw => simp [hw]
    · next hw => simp [hw]

theorem lookup_of_deepEqual {ms ns : List (String × Json F)} (hms : (keys ms).Nodup)
    (h : deepEqual (.obj ms) (.obj ns) = true) : (∀ k, k ∈ keys ms ↔ k ∈ keys ns) ∧
      ∀ k v w, ms.lookup k = some v → ns.lookup k = some w → deepEqual v w = true := by
  rw [deepEqual, Bool.and_eq_true, deepEqualMembers_iff, beq_iff_eq] at h
  obtain ⟨hlen, hfind⟩ := h
  refine ⟨keys_iff_of_subset hms hlen fun k hk => ?_, fun k v w hv hw => ?_⟩
  · obtain ⟨e, he, rfl⟩ := List.mem_map.mp hk
    obtain ⟨w, hw, -⟩ := hfind e he
    exact mem_keys_of_lookup hw
  · obtain ⟨w', hw', heq⟩ := hfind (k, v) (mem_of_lookup hv)
    rw [hw] at hw'
    cases hw'
    exact heq

end DeepEqual

section Members

variable {ms ns : List (List Nat × Tree)} {k : List Nat} {t : Tree}

/-- The members of an object as `unmarshal` has them. -/
def decodedMembers (ms : List (List Nat × Tree)) : List (String × Json (Option Int)) :=
  dedup .last (ms.map fun m => (unquoted m.1, m.2.decode.value .last))

theorem value_decode_obj (ms : List (List Nat × Tree)) :
    (Tree.obj ms).decode.value .last = .obj (decodedMembers ms) := by
  rw [Tree.decode, value, valueMembers_eq, Tree.decodeMembers_eq, mapSnd, List.map_map]
  rfl

theorem mem_keys_decodedMembers {s : String} :
    s ∈ keys (decodedMembers ms) ↔ ∃ k ∈ keys ms, unquoted k = s := by
  rw [decodedMembers, mem_keys_dedup_last]
  simp [keys]

theorem lookup_decodedMembers (hk : ¬Shadowed ms k) (ht : ms.reverse.lookup k = some t) :
    (decodedMembers ms).lookup (unquoted k) = some (t.decode.value .last) := by
  have halone : ∀ k' ∈ keys ms.reverse, unquoted k' = unquoted k → k' = k := by
    intro k' hk' heq
    by_contra hne
    exact hk ⟨k', mem_keys_reverse.mp hk', hne, heq⟩
  rw [decodedMembers, lookup_dedup_last, ← List.map_reverse,
    lookup_rename (fun t => t.decode.value .last) halone, ht]
  rfl

theorem NamesApart.subset (h : NamesApart ms ns)
    (hnames : ∀ s, s ∈ keys (decodedMembers ms) → s ∈ keys (decodedMembers ns)) (hk : k ∈ keys ms) :
    k ∈ keys ns := by
  obtain ⟨k', hk', heq⟩ := mem_keys_decodedMembers.mp
    (hnames (unquoted k) (mem_keys_decodedMembers.mpr ⟨k, hk, rfl⟩))
  exact h k hk k' hk' heq.symm

end Members

namespace Tree

variable {a b x y : Tree} {p : List (Place (List Nat))}

theorem same_refl (t : Tree) : Same t t := by
  induction t using Tree.induct with
  | null => exact .null
  | bool b => exact .bool b
  | num n => exact .num rfl
  | str us => exact .str us
  | arr xs ih =>
    refine .arr rfl fun i v w hv hw => ?_
    rw [hv] at hw
    cases hw
    exact ih v (List.mem_of_getElem? hv)
  | obj ms ih =>
    refine .obj (fun _ => Iff.rfl) fun k v w hv hw => ?_
    rw [hv] at hw
    cases hw
    exact ih (k, v) (List.mem_reverse.mp (mem_of_lookup hv))

theorem Same.apart (h : Same x y) : Apart x y := by
  cases h with
  | null | bool | arr => trivial
  | num h => exact fun _ _ _ => h
  | str us => exact fun _ => rfl
  | obj hnames h =>
    exact ⟨fun k hk _ _ _ => (hnames k).mp hk, fun k hk _ _ _ => (hnames k).mpr hk,
      fun k v w _ hv hw => h k v w hv hw⟩

theorem Same.atPlace (h : Same a b) (hx : a.atPlace p = some x) (hy : b.atPlace p = some y) :
    Same x y := by
  induction p generalizing a b with
  | nil =>
    cases hx
    cases hy
    exact h
  | cons q p ih =>
    cases h with
    | null | bool | str | num => cases q <;> cases hx
    | arr hlen h =>
      cases q with
      | elem i =>
        obtain ⟨v, hv, hx⟩ := Option.bind_eq_some_iff.mp hx
        obtain ⟨w, hw, hy⟩ := Option.bind_eq_some_iff.mp hy
        exact ih (h i v w hv hw) hx hy
      | name k => cases hx
    | obj hnames h =>
      cases q with
      | elem i => cases hx
      | name k =>
        obtain ⟨v, hv, hx⟩ := Option.bind_eq_some_iff.mp hx
        obtain ⟨w, hw, hy⟩ := Option.bind_eq_some_iff.mp hy
        exact ih (h k v w hv hw) hx hy

/-- A tree of a decoded value has a `float64` for each of its numbers. -/
def Finite (t : Tree) : Prop :=
  t.decode.finite Option.isSome = true

theorem Finite.num {n : Numeral} (h : Finite (.num n)) : ∃ x, parseFloat n = some x := by
  rw [Finite, decode, finite] at h
  exact Option.isSome_iff_exists.mp h

theorem Finite.elem {xs : List Tree} (h : Finite (.arr xs)) (hx : x ∈ xs) : x.Finite := by
  rw [Finite, decode, finite, finiteElems_iff, decodeElems_eq] at h
  exact h x.decode (List.mem_map_of_mem hx)

theorem Finite.member {ms : List (List Nat × Tree)} {k : List Nat} (h : Finite (.obj ms))
    (hx : ms.reverse.lookup k = some x) : x.Finite := by
  rw [Finite, decode, finite, finiteMembers_iff, decodeMembers_eq] at h
  have hmem : (k, x) ∈ ms := List.mem_reverse.mp (mem_of_lookup hx)
  exact h (unquoted k) x.decode (List.mem_map_of_mem hmem)

/-- Values that are decoded alike are the same if decoding keeps apart what stands in each place of
them.  The induction is on the first value; a member behind a shadowed name is not looked at by
`deepEqual`, so there the condition is used as it stands. -/
theorem same_of_deepEqual (ha : a.Finite)
    (h : deepEqual (a.decode.value .last) (b.decode.value .last) = true)
    (hapart : ∀ p x y, a.atPlace p = some x → b.atPlace p = some y → Apart x y) : Same a b := by
  induction a using Tree.induct generalizing b with
  | null =>
    cases b with
    | null => exact .null
    | bool | num | str | arr | obj => cases h
  | bool c =>
    cases b with
    | bool d =>
      rw [show c = d from beq_iff_eq.mp h]
      exact .bool d
    | null | num | str | arr | obj => cases h
  | num m =>
    cases b with
    | num n =>
      obtain ⟨x, hx⟩ := ha.num
      rw [decode, decode, value, value] at h
      exact .num (hapart [] _ _ rfl rfl x hx (num_of_deepEqual h ▸ hx))
    | null | bool | str | arr | obj => cases h
  | str us =>
    cases b with
    | str vs =>
      rw [show us = vs from hapart [] _ _ rfl rfl (beq_iff_eq.mp h)]
      exact .str vs
    | null | bool | num | arr | obj => cases h
  | arr xs ih =>
    cases b with
    | arr ys =>
      rw [decode, decode, value, value, deepEqual, valueElems_eq, valueElems_eq, decodeElems_eq,
        decodeElems_eq, deepEqualElems_iff] at h
      refine .arr (by simpa using h.1) fun i v w hv hw => ?_
      have hmem := List.mem_of_getElem? hv
      refine ih v hmem (ha.elem hmem) (h.2 i _ _ ?_ ?_) fun p x y hx hy => ?_
      · rw [List.getElem?_map, List.getElem?_map, hv]
        rfl
      · rw [List.getElem?_map, List.getElem?_map, hw]
        rfl
      · refine hapart (.elem i :: p) x y ?_ ?_
        · rw [atPlace, hv]
          exact hx
        · rw [atPlace, hw]
          exact hy
    | null | bool | num | str | obj => cases h
  | obj ms ih =>
    cases b with
    | obj ns =>
      rw [value_decode_obj, value_decode_obj] at h
      obtain ⟨hdecoded, hvalues⟩ := lookup_of_deepEqual (keys_dedup_nodup .last _) h
      obtain ⟨hms, hns, hshadowed⟩ := hapart [] _ _ rfl rfl
      have hnames : ∀ k, k ∈ keys ms ↔ k ∈ keys ns := fun k =>
        ⟨hms.subset fun s => (hdecoded s).mp, hns.subset fun s => (hdecoded s).mpr⟩
      refine .obj hnames fun k v w hv hw => ?_
      by_cases hk : Shadowed ms k
      · exact hshadowed k v w hk hv hw
      · have hk' : ¬Shadowed ns k := by
          rintro ⟨k', hmem, hne, heq⟩
          exact hk ⟨k', (hnames k').mpr hmem, hne, heq⟩
        have hmem : (k, v) ∈ ms := List.mem_reverse.mp (mem_of_lookup hv)
        have heq := hvalues (unquoted k) _ _ (lookup_decodedMembers hk hv)
          (lookup_decodedMembers hk' hw)
        refine ih (k, v) hmem (ha.member hv) heq fun p x y hx hy => ?_
        refine hapart (.name k :: p) x y ?_ ?_
        · rw [atPlace, hv]
          exact hx
        · rw [atPlace, hw]
          exact hy
    | null | bool | num | str | arr => cases h

end Tree

end Same

section Texts

def SameValue (a b : String) : Prop :=
  ∃ v w, parse a = some v ∧ parse b = some w ∧ v.Same w

/-- Decoding keeps apart what stands in one place of the two values. -/
def Distinguished (a b : String) : Prop :=
  ∀ v w, parse a = some v → parse b = some w →
    ∀ p x y, v.atPlace p = some x → w.atPlace p = some y → x.Apart y

variable {a b : String}

theorem SameValue.distinguished (h : SameValue a b) : Distinguished a b := by
  obtain ⟨v, w, hv, hw, hsame⟩ := h
  intro v' w' hv' hw' p x y hx hy
  rw [hv] at hv'
  rw [hw] at hw'
  cases hv'
  cases hw'
  exact (hsame.atPlace hx hy).apart

theorem unmarshal_eq_some {t : Tree} {d : Json (Option Int)} (h : unmarshal t = some d) :
    d = t.decode.value .last ∧ t.Finite := by
  rw [unmarshal] at h
  split at h
  · next hfin => exact ⟨(Option.some.inj h).symm, hfin⟩
  · cases h

/-- Where `jsonEqual` finds a valid text equal, the values are the same exactly if decoding keeps
apart what stands in each place of them. -/
theorem sameValue_iff (hb : (parse b).isSome = true) (h : jsonEqual a b = true) :
    SameValue a b ↔ Distinguished a b := by
  refine ⟨SameValue.distinguished, fun hdist => ?_⟩
  rw [jsonEqual] at h
  split at h
  · next c d hc hd =>
    obtain ⟨v, hv, hc⟩ := Option.bind_eq_some_iff.mp hc
    obtain ⟨w, hw, hd⟩ := Option.bind_eq_some_iff.mp hd
    obtain ⟨rfl, hfin⟩ := unmarshal_eq_some hc
    obtain ⟨rfl, -⟩ := unmarshal_eq_some hd
    exact ⟨v, w, hv, hw, Tree.same_of_deepEqual hfin h (hdist v w hv hw)⟩
  · rw [beq_iff_eq] at h
    subst h
    obtain ⟨t, ht⟩ := Option.isSome_iff_exists.mp hb
    exact ⟨t, t, ht, ht, Tree.same_refl t⟩

end Texts

end ThanksComputer.Json
