import ThanksComputer.Dns.Challenge
import ThanksComputer.Json.Decode
import ThanksComputer.Kv.Listing

/-! The cells of the challenges are pairs of the key-value store.  What is read and swapped of a
cell is what the calls of `kv` do that nothing comes in between. -/

namespace ThanksComputer.Dns.Acme

open Lib (second utf8ByteSize_ofList)
open Net Json

section Segments

theorem segOK_eq (s : Str) : segOK s = Kv.segOK (String.ofList s) := by
  have hempty : (String.ofList s != "") = decide (s ≠ []) := by
    rw [Bool.eq_iff_iff, bne_iff_ne, decide_eq_true_eq, Ne, Ne, String.ofList_eq_empty_iff]
  have hchars : (!s.any badChar) =
      s.all fun r => r != '/' && !decide (r.toNat < 0x20) && r.toNat != 0x7f := by
    rw [List.not_any_eq_all_not]
    refine List.all_congr rfl fun c => ?_
    rw [badChar, Bool.not_or, Bool.not_or]
    rfl
  rw [segOK, Kv.segOK, utf8ByteSize_ofList, hempty, hchars, String.toList_ofList]
  rfl

end Segments

section Numbers

theorem binaryExp_one {n : Nat} (h : n ≠ 0) : Json.binaryExp n 1 = n.log2 := by
  have hpow := Nat.log2_self_le h
  have hone : Nat.log2 1 = 0 := by decide
  simp [Json.binaryExp, hone, Nat.not_lt.mpr hpow]

theorem roundEven_one (n : Nat) : Json.roundEven n 1 = n := by
  simp [Json.roundEven, Nat.mod_one]

theorem roundEven_mul_le (n d : Nat) : Json.roundEven n d * d ≤ n + d := by
  have hdiv := Nat.div_mul_le_self n d
  have hle : Json.roundEven n d ≤ n / d + 1 := by
    rw [Json.roundEven]
    split_ifs
    · omega
    · omega
    · omega
  calc Json.roundEven n d * d ≤ (n / d + 1) * d := Nat.mul_le_mul_right d hle
    _ = n / d * d + d := Nat.succ_mul _ _
    _ ≤ n + d := Nat.add_le_add_right hdiv d

theorem float64_of_le {n : Nat} (h : 2 ^ 53 ≤ n) :
    float64 n = Json.roundEven n (2 ^ (n.log2 - 52)) * 2 ^ (n.log2 - 52) := by
  rw [float64, if_neg (Nat.not_lt.mpr h), Json.roundEven]
  generalize 2 ^ (n.log2 - 52) = d
  dsimp only
  split_ifs
  · omega
  · rfl
  · rw [show n / d % 2 = 1 by omega]
  · rfl
  · omega
  · rw [show n / d % 2 = 0 by omega, Nat.add_zero]

theorem float64_le (n : Nat) : float64 n ≤ 2 * n := by
  by_cases h : 2 ^ 53 ≤ n
  · have hn : n ≠ 0 := by omega
    have hunit : 2 ^ (n.log2 - 52) ≤ n :=
      (Nat.pow_le_pow_right (by decide) (Nat.sub_le _ _)).trans (Nat.log2_self_le hn)
    rw [float64_of_le h]
    have hle := roundEven_mul_le n (2 ^ (n.log2 - 52))
    omega
  · rw [float64, if_pos (Nat.not_le.mp h)]
    omega

theorem nearestUnits_one {n : Nat} (hn : n ≠ 0) :
    Json.nearestUnits n 1 = float64 n * 2 ^ 1074 := by
  have hbit : Json.lastBit n 1 = (n.log2 : Int) - 52 := by
    rw [Json.lastBit, binaryExp_one hn]
    omega
  rw [Json.nearestUnits, hbit]
  by_cases h : 2 ^ 53 ≤ n
  · have hlog : 52 < n.log2 := by
      by_contra hle
      have hlt := (Nat.log2_lt hn).mp (Nat.lt_succ_of_le (Nat.not_lt.mp hle))
      omega
    have hneg : (-((n.log2 : Int) - 52)).toNat = 0 := by omega
    have hpos : ((n.log2 : Int) - 52).toNat = n.log2 - 52 := by omega
    have hsum : ((n.log2 : Int) - 52 + 1074).toNat = n.log2 - 52 + 1074 := by omega
    have hpow := Nat.pow_add 2 (n.log2 - 52) 1074
    rw [hneg, hpos, hsum, hpow, Nat.pow_zero, Nat.mul_one, Nat.one_mul, ← Nat.mul_assoc,
      ← float64_of_le h]
  · have hlog : n.log2 ≤ 52 := Nat.le_of_lt_succ ((Nat.log2_lt hn).mpr (Nat.not_le.mp h))
    have hneg : (-((n.log2 : Int) - 52)).toNat = 52 - n.log2 := by omega
    have hpos : ((n.log2 : Int) - 52).toNat = 0 := by omega
    have hsum : 52 - n.log2 + ((n.log2 : Int) - 52 + 1074).toNat = 1074 := by omega
    rw [hneg, hpos, Nat.pow_zero, Nat.mul_one, roundEven_one, Nat.mul_assoc, ← Nat.pow_add, hsum,
      float64, if_pos (Nat.not_le.mp h)]

theorem mul_pow_lt {a m k : Nat} (h : a < 2 ^ m) : a * 2 ^ k < 2 ^ (m + k) := by
  rw [Nat.pow_add]
  exact Nat.mul_lt_mul_of_pos_right h (Nat.two_pow_pos k)

/-- The numeral that `encoding/json` writes for a natural number. -/
def numeral (n : Nat) : Json.Numeral :=
  ⟨false, Nat.toDigits 10 n, [], false, []⟩

/-- The `float64`, in units of `2 ^ -1074`. -/
def unitsOf (n : Nat) : Int :=
  (float64 n * 2 ^ 1074 : Nat)

theorem unitsOf_inj {m n : Nat} : unitsOf m = unitsOf n ↔ float64 m = float64 n := by
  have hpos := Nat.two_pow_pos 1074
  rw [unitsOf, unitsOf, Int.ofNat_inj]
  generalize 2 ^ 1074 = unit at hpos ⊢
  exact Nat.mul_left_inj (Nat.ne_of_gt hpos)

theorem parseFloat_numeral {n : Nat} (h : n < 2 ^ 63) :
    Json.parseFloat (numeral n) = some (unitsOf n) := by
  have hcoeff : (numeral n).coeff = n := by
    rw [Json.Numeral.coeff, numeral, List.append_nil, Nat.ofDigitChars_ten_toDigits]
  have hscale : (numeral n).scaleOf (numeral n).readExp = 0 := rfl
  have hunits : (if n = 0 then 0 else Json.nearestUnits (n * 10 ^ 0) (10 ^ 0)) =
      float64 n * 2 ^ 1074 := by
    split
    · next hzero => rw [hzero, show float64 0 = 0 from rfl, Nat.zero_mul]
    · next hn => rw [Nat.pow_zero, Nat.mul_one, nearestUnits_one hn]
  have hle := float64_le n
  have hshort : float64 n < 2 ^ 64 := by omega
  have hfloat := hshort.trans (Nat.pow_lt_pow_of_lt Nat.one_lt_two (by decide : 64 < 1024))
  have hsmall : ¬2 ^ (1024 + 1074) ≤ float64 n * 2 ^ 1074 := Nat.not_le.mpr (mul_pow_lt hfloat)
  rw [Json.parseFloat, hscale, hcoeff, Int.neg_zero, Int.toNat_zero, hunits, if_neg hsmall]
  rfl

end Numbers

section Texts

def entryTree (e : Entry) : Json.Tree :=
  .obj [(Json.units "v", .str (e.value.flatMap Json.utf16)),
    (Json.units "x", .num (numeral e.expires))]

def entriesTree (es : List Entry) : Json.Tree :=
  .arr (es.map entryTree)

def entryJson (e : Entry) : Json (Option Int) :=
  .obj [("v", .str (String.ofList e.value)), ("x", .num (some (unitsOf e.expires)))]

theorem decode_entryTree {e : Entry} (h : e.expires < 2 ^ 63) :
    (entryTree e).decode = entryJson e := by
  delta entryTree
  rw [Json.Tree.decode, Json.Tree.decodeMembers, Json.Tree.decodeMembers,
    Json.Tree.decodeMembers, Json.Tree.decode, Json.Tree.decode, Json.unquoted_units,
    Json.unquoted_units, Json.unquoted, Json.unquote_flatMap_utf16, parseFloat_numeral h]
  rfl

theorem finite_entryJson (e : Entry) : (entryJson e).finite Option.isSome = true := rfl

theorem decode_entriesTree {es : List Entry} (h : ∀ e ∈ es, e.expires < 2 ^ 63) :
    (entriesTree es).decode = .arr (es.map entryJson) := by
  rw [entriesTree, Json.Tree.decode]
  congr 1
  induction es with
  | nil => rfl
  | cons e es ih =>
    rw [List.forall_mem_cons] at h
    rw [List.map_cons, List.map_cons, Json.Tree.decodeElems, decode_entryTree h.1, ih h.2]

theorem unmarshal_entriesTree {es : List Entry} (h : ∀ e ∈ es, e.expires < 2 ^ 63) :
    Json.unmarshal (entriesTree es) = some (.arr (es.map entryJson)) := by
  have hfinite : Json.finite Option.isSome (.arr (es.map entryJson)) = true := by
    rw [Json.finite, Json.finiteElems_iff]
    intro x hx
    obtain ⟨e, -, rfl⟩ := List.mem_map.mp hx
    exact finite_entryJson e
  rw [Json.unmarshal, decode_entriesTree h, if_pos hfinite, Json.value, Json.valueElems_eq,
    List.map_map]
  rfl

theorem deepEqual_members (s t : String) (m n : Int) :
    Json.deepEqual (.obj [("v", .str s), ("x", .num (some m))])
      (.obj [("v", .str t), ("x", .num (some n))]) = (s == t && m == n) := by
  have hv : List.lookup "v" [("v", Json.str t), ("x", .num (some n))] = some (.str t) := rfl
  have hx : List.lookup "x" [("v", Json.str t), ("x", .num (some n))] = some (.num (some n)) := rfl
  rw [Json.deepEqual, Json.deepEqualMembers, hv, Json.deepEqualMembers, hx, Json.deepEqualMembers]
  dsimp only [List.length_cons]
  rw [Json.deepEqual, Json.deepEqual, Bool.and_true, beq_self_eq_true, Bool.true_and]
  congr 1
  exact decide_eq_decide.mpr Option.some_inj

theorem deepEqual_entryJson (a b : Entry) :
    Json.deepEqual (entryJson a) (entryJson b) =
      ((a.value, float64 a.expires) == (b.value, float64 b.expires)) := by
  have hx : (unitsOf a.expires == unitsOf b.expires) =
      (float64 a.expires == float64 b.expires) := by
    rw [Bool.eq_iff_iff, beq_iff_eq, beq_iff_eq, unitsOf_inj]
  have hv : (String.ofList a.value == String.ofList b.value) = (a.value == b.value) := by
    rw [Bool.eq_iff_iff, beq_iff_eq, beq_iff_eq, String.ofList_inj]
  rw [entryJson, entryJson, deepEqual_members, hv, hx]
  rfl

theorem deepEqual_entries {a b : List Entry} (ha : ∀ e ∈ a, e.expires < 2 ^ 63)
    (hb : ∀ e ∈ b, e.expires < 2 ^ 63) :
    ∃ av bv, Json.unmarshal (entriesTree a) = some av ∧ Json.unmarshal (entriesTree b) = some bv ∧
      Json.deepEqual av bv = jsonEqual a b := by
  refine ⟨_, _, unmarshal_entriesTree ha, unmarshal_entriesTree hb, ?_⟩
  rw [Json.deepEqual, jsonEqual]
  clear ha hb
  induction a generalizing b with
  | nil => cases b <;> rfl
  | cons x a ih =>
    cases b with
    | nil => rfl
    | cons y b =>
      rw [List.map_cons, List.map_cons, Json.deepEqualElems, deepEqual_entryJson, ih, List.map_cons,
        List.map_cons, List.cons_beq_cons]

end Texts

section Calls

variable {be : Kv.Backend (List Entry)} {cfg : Kv.Config (List Entry)}
  {s : Kv.Store (List Entry)} {tenant ns key fk : String} {cell : Option Cell}

def Stored (s : Kv.Store (List Entry)) (fk : String) : Option Cell → Prop
  | none => s.data fk = none
  | some c => c.exp ≠ 0 ∧ ∃ i, s.data fk = some ⟨.wrapped ⟨c.entries, c.exp⟩, i⟩

def secondOf (s : Kv.Store (List Entry)) : Nat :=
  s.clock / second.toNat

theorem expired_cell {c : Cell} (h : c.exp ≠ 0) (s : Kv.Store (List Entry)) :
    Kv.Wrapper.expired ⟨c.entries, c.exp⟩ s.clock = decide (c.exp ≤ secondOf s) := by
  rw [Kv.Wrapper.expired, bne_iff_ne.mpr h, Bool.true_and]
  rfl

theorem run_get (hkey : Kv.fullKey tenant ns key = .ok fk) (h : Stored s fk cell) :
    ((Kv.get tenant ns key).run be s).2 = .value (getCell (secondOf s) cell).1 ∧
      Stored ((Kv.get tenant ns key : Kv.Run (List Entry)).run be s).1 fk
        (getCell (secondOf s) cell).2 := by
  rw [Kv.get, Kv.withKey, hkey]
  cases cell with
  | none =>
    have hdata : s.data fk = none := h
    simp [Kv.Prog.run, hdata, getCell, readCell, Stored]
  | some c =>
    obtain ⟨hexp, i, hdata⟩ := h
    by_cases hold : c.exp ≤ secondOf s
    · simp [Kv.Prog.run, hdata, expired_cell hexp, hold, getCell, readCell, Stored,
        Kv.Store.collect]
    · simp [Kv.Prog.run, hdata, expired_cell hexp, hold, getCell, readCell, Stored, hexp]

theorem run_live (h : Stored s fk cell) :
    (Kv.live (s.data fk)).run be s = (s, readCell (secondOf s) cell) := by
  cases cell with
  | none =>
    rw [show s.data fk = none from h]
    rfl
  | some c =>
    obtain ⟨hexp, i, hdata⟩ := h
    rw [hdata]
    by_cases hold : c.exp ≤ secondOf s
    · simp [Kv.live, Kv.Prog.run, expired_cell hexp, hold, readCell]
    · simp [Kv.live, Kv.Prog.run, expired_cell hexp, hold, readCell]

theorem refusal_self (hsame : ∀ p, be.same p p = true) (s : Kv.Store (List Entry)) (fk : String) :
    s.refusal be.same fk (s.data fk) = none := by
  cases hdata : s.data fk with
  | none => simp [Kv.Store.refusal, hdata]
  | some p => simp [Kv.Store.refusal, hdata, hsame]

theorem passes_cell (hequal : cfg.equal = jsonEqual) (now : Nat) (cell : Option Cell)
    (expected : Option (List Entry)) :
    Kv.passes cfg expected (readCell now cell) = casPasses now cell expected := by
  cases expected with
  | none => rfl
  | some e =>
    rw [Kv.passes, casPasses, hequal]
    cases readCell now cell <;> rfl

theorem run_cas (hsame : ∀ p, be.same p p = true) (hequal : cfg.equal = jsonEqual)
    (hkey : Kv.fullKey tenant ns key = .ok fk) {expected : Option (List Entry)} {next : List Entry}
    (hexpected : ∀ e ∈ expected, cfg.valid e = true) (hnext : Kv.checkValue cfg next = none)
    {ttl : Nat} (hpos : 0 < ttl) (httl : Kv.clampTTL cfg (ttl * second) = ttl * second)
    (h : Stored s fk cell) :
    match casCell (secondOf s) cell expected next ttl with
    | .inl c => ∃ s', (Kv.cas cfg tenant ns key expected next (ttl * second)).run be s =
        (s', .swapped true (some next)) ∧ Stored s' fk (some c)
    | .inr current => (Kv.cas cfg tenant ns key expected next (ttl * second)).run be s =
        (s, .swapped false current) := by
  have hvalid : (expected.any fun v => !cfg.valid v) = false := by
    cases expected with
    | none => rfl
    | some e => simp [hexpected e rfl]
  have hlong : 0 < Kv.clampTTL cfg (ttl * second) := by
    rw [httl, second]
    omega
  have hexp : (s.clock + ((ttl : Int) * second).toNat) / second.toNat = secondOf s + ttl := by
    have hnat : ((ttl : Int) * second).toNat = ttl * second.toNat := by
      have hsecond : second = ((1000000000 : Nat) : Int) := rfl
      rw [hsecond, ← Int.natCast_mul, Int.toNat_natCast, Int.toNat_natCast]
    rw [hnat, Nat.add_mul_div_right _ _ (by decide)]
    rfl
  have hrun : (Kv.cas cfg tenant ns key expected next (ttl * second)).run be s =
      if casPasses (secondOf s) cell expected then
        (s.put fk ⟨next, secondOf s + ttl⟩, .swapped true (some next))
      else (s, .swapped false (readCell (secondOf s) cell)) := by
    rw [Kv.cas, Kv.withKey, hkey]
    dsimp only
    rw [hnext, hvalid]
    dsimp only
    rw [if_neg (by decide), Kv.casAttempts, Kv.casLoop, Kv.Prog.run, Kv.Prog.run_bind, run_live h,
      passes_cell hequal]
    split
    · rw [Kv.encode, if_pos hlong]
      simp only [Kv.Prog.bind, Kv.Prog.run, refusal_self hsame, httl, hexp]
    · rfl
  rw [hrun, casCell]
  cases casPasses (secondOf s) cell expected with
  | true =>
    exact ⟨_, rfl, Nat.ne_of_gt (Nat.add_pos_right _ hpos), s.index + 1,
      Function.update_self fk _ s.data⟩
  | false => rfl

end Calls

end ThanksComputer.Dns.Acme
