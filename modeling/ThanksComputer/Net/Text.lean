import ThanksComputer.Net.Address

/-! What the chassis uses of `strings` and `path`. -/

namespace ThanksComputer.Net

section Strings

/-- `strings.Cut`, at the first of a character. -/
def cut (c : Char) (s : Str) : Option (Str × Str) :=
  match s.dropWhile (· != c) with
  | [] => none
  | _ :: rest => some (s.takeWhile (· != c), rest)

/-- `strings.CutPrefix`. -/
def cutPrefix (pre s : Str) : Option Str :=
  if pre.isPrefixOf s then some (s.drop pre.length) else none

/-- `strings.CutSuffix`. -/
def cutSuffix (suf s : Str) : Option Str :=
  if suf.isSuffixOf s then some (s.take (s.length - suf.length)) else none

/-- `strings.TrimPrefix`. -/
def trimPrefix (pre s : Str) : Str :=
  (cutPrefix pre s).getD s

def textLe : Str → Str → Bool
  | [], _ => true
  | _ :: _, [] => false
  | a :: s, b :: t => decide (a.toNat < b.toNat) || a == b && textLe s t

theorem textLe_cons_iff {c d : Char} {a b : Str} :
    textLe (c :: a) (d :: b) = true ↔ c.toNat < d.toNat ∨ c = d ∧ textLe a b = true := by
  have hcons : textLe (c :: a) (d :: b) =
    (decide (c.toNat < d.toNat) || c == d && textLe a b) := rfl
  rw [hcons, Bool.or_eq_true, decide_eq_true_eq, Bool.and_eq_true, beq_iff_eq]

theorem textLe_total (a b : Str) : textLe a b = true ∨ textLe b a = true := by
  induction a generalizing b with
  | nil => exact .inl rfl
  | cons c a ih =>
    cases b with
    | nil => exact .inr rfl
    | cons d b =>
      rw [textLe_cons_iff, textLe_cons_iff]
      rcases Nat.lt_trichotomy c.toNat d.toNat with hlt | heq | hgt
      · exact .inl (.inl hlt)
      · have hcd : c = d := Char.toNat_inj.mp heq
        rcases ih b with h | h
        · exact .inl (.inr ⟨hcd, h⟩)
        · exact .inr (.inr ⟨hcd.symm, h⟩)
      · exact .inr (.inl hgt)

theorem textLe_trans {a b c : Str} (hab : textLe a b = true) (hbc : textLe b c = true) :
    textLe a c = true := by
  induction a generalizing b c with
  | nil => rfl
  | cons x a ih =>
    cases b with
    | nil => cases hab
    | cons y b =>
      cases c with
      | nil => cases hbc
      | cons z c =>
        rw [textLe_cons_iff] at hab hbc ⊢
        rcases hab with hxy | ⟨rfl, hab⟩
        · rcases hbc with hyz | ⟨rfl, -⟩
          · exact .inl (by omega)
          · exact .inl hxy
        · rcases hbc with hyz | ⟨rfl, hbc⟩
          · exact .inl hyz
          · exact .inr ⟨rfl, ih hab hbc⟩

theorem textLe_append (p x : Str) : textLe p (p ++ x) = true := by
  induction p with
  | nil => rfl
  | cons c p ih => exact textLe_cons_iff.mpr (.inr ⟨rfl, ih⟩)

theorem textLe_antisymm {a b : Str} (hab : textLe a b = true) (hba : textLe b a = true) :
    a = b := by
  induction a generalizing b with
  | nil =>
    cases b with
    | nil => rfl
    | cons d b => cases hba
  | cons c a ih =>
    cases b with
    | nil => cases hab
    | cons d b =>
      rw [textLe_cons_iff] at hab hba
      rcases hab with hcd | ⟨rfl, hab⟩
      · rcases hba with hdc | ⟨rfl, -⟩
        · omega
        · omega
      · rcases hba with hlt | ⟨-, hba⟩
        · omega
        · rw [ih hab hba]

theorem cut_eq_some {c : Char} {s a b : Str} (h : cut c s = some (a, b)) :
    s = a ++ c :: b ∧ c ∉ a := by
  unfold cut at h
  split at h
  · cases h
  · next ch rest hdrop =>
    obtain ⟨rfl, rfl⟩ := Prod.mk.inj (Option.some.inj h)
    have hch : ch = c := by
      have := List.head?_dropWhile_not (· != c) s
      rw [hdrop] at this
      simpa using this
    refine ⟨?_, fun hmem => ?_⟩
    · rw [← hch, ← hdrop, hch, List.takeWhile_append_dropWhile]
    · simpa using List.mem_takeWhile_imp hmem

theorem cut_append {c : Char} {a : Str} (ha : c ∉ a) (b : Str) :
    cut c (a ++ c :: b) = some (a, b) := by
  have hne : ∀ x ∈ a, (x != c) = true := fun x hx => by
    rw [bne_iff_ne]
    rintro rfl
    exact ha hx
  unfold cut
  rw [List.dropWhile_append_of_pos hne, List.takeWhile_append_of_pos hne]
  simp

theorem trimPrefix_slash {s : Str} (h : s.head? ≠ some '/') : trimPrefix ['/'] s = s := by
  cases s with
  | nil => rfl
  | cons c s =>
    have hc : c ≠ '/' := fun hc => h (congrArg some hc)
    simp [trimPrefix, cutPrefix, List.isPrefixOf, hc.symm]

end Strings

section Paths

/-- The segments that `path.Clean` keeps of a rooted path. -/
def cleanSegs (segs : List Str) : List Str :=
  segs.foldl (fun acc seg =>
    if seg = [] ∨ seg = ['.'] then acc else if seg = ['.', '.'] then acc.dropLast
      else acc ++ [seg]) []

/-- `path.Clean` of a rooted path. -/
def clean (p : Str) : Str :=
  '/' :: ['/'].intercalate (cleanSegs (p.splitOn '/'))

/-- `filepath.Ext`: from the last dot of the last segment on. -/
def ext (p : Str) : Str :=
  let last := (p.reverse.takeWhile (· != '/')).reverse
  if '.' ∈ last then '.' :: (last.reverse.takeWhile (· != '.')).reverse else []

end Paths

end ThanksComputer.Net
