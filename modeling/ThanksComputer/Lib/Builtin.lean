import Mathlib.Algebra.Ring.Int.Defs
import Mathlib.Algebra.Ring.Nat

/-! What every part of the program has from Go: integers that wrap around, texts that are bytes in
UTF-8, letters in lower case, and times in nanoseconds. -/

namespace ThanksComputer.Lib

/-- An `int` or an `int64`, wrapped around. -/
def wrapInt (n : Int) : Int :=
  Int.bmod n (2 ^ 64)

/-- `time.Second`. -/
def second : Int := 1000000000

/-- `strings.TrimPrefix` of a dot. -/
def trimDot : List Char → List Char
  | '.' :: s => s
  | s => s

/-- `len` of a string. -/
def byteLen (s : List Char) : Nat :=
  (s.map Char.utf8Size).sum

theorem wrapInt_of_mem {n : Int} (h : -2 ^ 63 ≤ n ∧ n < 2 ^ 63) : wrapInt n = n := by
  rw [wrapInt, Int.bmod_eq_iff (by decide)]
  omega

theorem toLower_cases (c : Char) :
    c.toLower = c ∨ 65 ≤ c.toNat ∧ c.toNat ≤ 90 ∧ c.toLower.toNat = c.toNat + 32 := by
  delta Char.toLower
  split
  · next h =>
    have hlow : 65 ≤ c.toNat := h.1
    have hhigh : c.toNat ≤ 90 := h.2
    refine .inr ⟨hlow, hhigh, ?_⟩
    change (c.val + 32).toNat = c.val.toNat + 32
    rw [UInt32.toNat_add]
    have hval : c.val.toNat = c.toNat := rfl
    have h32 : (32 : UInt32).toNat = 32 := rfl
    omega
  · exact .inl rfl

theorem toLower_toLower (c : Char) : c.toLower.toLower = c.toLower := by
  rcases toLower_cases c with heq | ⟨hlow, -, hnat⟩
  · rw [heq, heq]
  · refine (toLower_cases c.toLower).resolve_right fun h => ?_
    omega

theorem toLower_eq_iff {c d : Char} (hd : d.isAlpha = false) : c.toLower = d ↔ c = d := by
  have hnot : ¬(65 ≤ d.toNat ∧ d.toNat ≤ 90) ∧ ¬(97 ≤ d.toNat ∧ d.toNat ≤ 122) := by
    delta Char.isAlpha Char.isUpper Char.isLower at hd
    rw [Bool.or_eq_false_iff] at hd
    simp only [ge_iff_le, UInt32.le_iff_toNat_le, decide_eq_false_iff_not,
      Bool.and_eq_false_iff, Bool.decide_and] at hd
    exact ⟨fun h => hd.1.elim (· h.1) (· h.2), fun h => hd.2.elim (· h.1) (· h.2)⟩
  constructor
  · rintro rfl
    rcases toLower_cases c with heq | ⟨hlow, hhigh, hnat⟩
    · exact heq.symm
    · omega
  · rintro rfl
    exact (toLower_cases c).resolve_right fun h => hnot.1 ⟨h.1, h.2.1⟩

theorem utf8ByteSize_ofList (s : List Char) : (String.ofList s).utf8ByteSize = byteLen s := by
  induction s with
  | nil => rfl
  | cons c s ih =>
    rw [String.ofList_cons, String.utf8ByteSize_append, String.utf8ByteSize_singleton, ih, byteLen,
      byteLen, List.map_cons, List.sum_cons]

theorem byteLen_append (s t : List Char) : byteLen (s ++ t) = byteLen s + byteLen t := by
  rw [byteLen, List.map_append, List.sum_append_nat]
  rfl

theorem length_le_byteLen (s : List Char) : s.length ≤ byteLen s := by
  induction s with
  | nil => exact Nat.le_refl _
  | cons c s ih =>
    have hsize : 1 ≤ c.utf8Size := Char.utf8Size_pos c
    rw [List.length_cons, byteLen, List.map_cons, List.sum_cons]
    rw [byteLen] at ih
    omega

theorem byteLen_eq_length {s : List Char} (h : ∀ c ∈ s, c.utf8Size = 1) : byteLen s = s.length := by
  induction s with
  | nil => rfl
  | cons c s ih =>
    rw [List.forall_mem_cons] at h
    rw [byteLen, List.map_cons, List.sum_cons, ← byteLen, h.1, ih h.2, List.length_cons,
      Nat.add_comm]

end ThanksComputer.Lib
