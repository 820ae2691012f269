import Mathlib.Algebra.Ring.Nat
import Mathlib.Data.List.DropRight
import Mathlib.Data.List.Infix
import ThanksComputer.Ops.Index

/-! Resource paths (drive/path.go): the segments below the root of a collection, joined by slashes.
A text is the list of its characters. -/

namespace ThanksComputer.Drive

open Lib (byteLen toLower_cases toLower_eq_iff)
open Ops.Index (likeEscape)

inductive DriveError
  | notFound
  | exists
  | noParent
  | notDirectory
  | isDirectory
  | precondition
  | quota
  | tooLarge
  | sizeMismatch
  | badPath (reason : String)
  | cycle
  | notEmpty
  | badName
  deriving DecidableEq

abbrev Path : Type := List Char

section Normalize

def maxPathBytes : Nat := 1024
def maxPathSegments : Nat := 32
def maxSegmentBytes : Nat := 255

def trimSlashes (p : Path) : Path :=
  (p.dropWhile (· == '/')).rdropWhile (· == '/')

def checkSegments : List Path → Except DriveError Unit
  | [] => .ok ()
  | seg :: segs =>
    if seg = [] then .error (.badPath "empty segment")
    else if seg = ['.'] then .error (.badPath "\".\" segment")
    else if seg = ['.', '.'] then .error (.badPath "\"..\" segment")
    else if maxSegmentBytes < byteLen seg then .error (.badPath "segment over 255 bytes")
    else checkSegments segs

/-- `none` is a text that is not valid UTF-8; `nfc` is the normal form C of Unicode. -/
def normalizePath (nfc : Path → Path) : Option Path → Except DriveError Path
  | none => .error (.badPath "not valid UTF-8")
  | some p => do
    if '\x00' ∈ p then throw (.badPath "contains NUL")
    let p := trimSlashes (nfc p)
    if p = [] then return []
    let segs := p.splitOn '/'
    if maxPathSegments < segs.length then throw (.badPath "more than 32 segments")
    checkSegments segs
    if maxPathBytes < byteLen p then throw (.badPath "over 1024 bytes")
    return p

end Normalize

def lastIndexSlash : Path → Option Nat
  | [] => none
  | c :: p =>
    match lastIndexSlash p with
    | some i => some (i + 1)
    | none => if c = '/' then some 0 else none

def parentOf (p : Path) : Path :=
  match lastIndexSlash p with
  | some i => p.take i
  | none => []

def depthOf (p : Path) : Nat :=
  if p = [] then 0 else p.count '/' + 1

def isInside (p dir : Path) : Bool :=
  if p = [] then false else if dir = [] then true else (dir ++ ['/']).isPrefixOf p

def escapeLike (s : Path) : Path :=
  let s := s.flatMap fun c => if c = '\\' then ['\\', '\\'] else [c]
  let s := s.flatMap fun c => if c = '%' then ['\\', '%'] else [c]
  s.flatMap fun c => if c = '_' then ['\\', '_'] else [c]

def likePrefix (p : Path) : Path :=
  escapeLike p ++ ['/', '%']

/-- `path LIKE ? ESCAPE '\'` for the rows below `dir`. -/
def likeBelow (dir p : Path) : Bool :=
  likeEscape (likePrefix dir) p

section Parents

theorem lastIndexSlash_eq_none {p : Path} : lastIndexSlash p = none ↔ '/' ∉ p := by
  induction p with
  | nil => simp [lastIndexSlash]
  | cons c p ih =>
    rw [lastIndexSlash, List.mem_cons, not_or]
    cases h : lastIndexSlash p with
    | some i =>
      have hmem : ¬ '/' ∉ p := fun hn => by
        rw [ih.mpr hn] at h
        cases h
      simp [hmem]
    | none =>
      have hmem := ih.mp h
      by_cases hc : c = '/'
      · simp [hc]
      · simp [hc, hmem, Ne.symm hc]

theorem parentOf_cons (c : Char) (p : Path) :
    parentOf (c :: p) = if '/' ∈ p then c :: parentOf p else [] := by
  rw [parentOf, parentOf, lastIndexSlash]
  cases h : lastIndexSlash p with
  | some i =>
    have hmem : '/' ∈ p := by
      by_contra hn
      rw [lastIndexSlash_eq_none.mpr hn] at h
      cases h
    simp [hmem]
  | none =>
    rw [if_neg (lastIndexSlash_eq_none.mp h)]
    by_cases hc : c = '/'
    · simp [hc]
    · simp [hc]

theorem parentOf_append (dir x : Path) :
    parentOf (dir ++ '/' :: x) = if '/' ∈ x then dir ++ '/' :: parentOf x else dir := by
  induction dir with
  | nil => rw [List.nil_append, parentOf_cons, List.nil_append]
  | cons c dir ih =>
    have hmem : '/' ∈ dir ++ '/' :: x := by simp
    rw [List.cons_append, parentOf_cons, if_pos hmem, ih]
    split <;> rfl

theorem length_parentOf_lt {p : Path} (h : p ≠ []) : (parentOf p).length < p.length := by
  induction p with
  | nil => exact absurd rfl h
  | cons c p ih =>
    rw [parentOf_cons]
    split
    · next hmem =>
      rw [List.length_cons, List.length_cons]
      exact Nat.succ_lt_succ (ih (List.ne_nil_of_mem hmem))
    · exact Nat.succ_pos _

theorem depthOf_append {dir : Path} (h : dir ≠ []) (x : Path) :
    depthOf (dir ++ '/' :: x) = depthOf dir + x.count '/' + 1 := by
  rw [depthOf, depthOf, if_neg h, if_neg (by simp), List.count_append, List.count_cons_self]
  omega

theorem eq_append_of_parentOf {p : Path} (h : parentOf p ≠ []) :
    ∃ seg, p = parentOf p ++ '/' :: seg ∧ '/' ∉ seg := by
  induction p with
  | nil => exact absurd rfl h
  | cons c p ih =>
    rw [parentOf_cons] at h ⊢
    by_cases hmem : '/' ∈ p
    · rw [if_pos hmem]
      by_cases hparent : parentOf p = []
      · cases p with
        | nil => cases hmem
        | cons d p =>
          rw [parentOf_cons] at hparent
          by_cases hrest : '/' ∈ p
          · rw [if_pos hrest] at hparent
            cases hparent
          · rw [parentOf_cons, if_neg hrest]
            rcases List.mem_cons.mp hmem with rfl | hin
            · exact ⟨p, rfl, hrest⟩
            · exact absurd hin hrest
      · obtain ⟨seg, hp, hseg⟩ := ih hparent
        refine ⟨seg, ?_, hseg⟩
        rw [List.cons_append, ← hp]
    · rw [if_neg hmem] at h
      exact absurd rfl h

theorem isInside_iff {p dir : Path} (h : dir ≠ []) :
    isInside p dir = true ↔ ∃ x, p = dir ++ '/' :: x := by
  rw [isInside]
  split
  · next hp =>
    subst hp
    refine iff_of_false Bool.false_ne_true ?_
    rintro ⟨x, hx⟩
    cases dir <;> cases hx
  · rw [List.isPrefixOf_iff_prefix]
    constructor
    · rintro ⟨x, rfl⟩
      exact ⟨x, by simp⟩
    · rintro ⟨x, rfl⟩
      exact ⟨x, by simp⟩

theorem inside_of_append_eq {a b x y : Path} (ha : a ≠ []) (hb : b ≠ [])
    (h : a ++ '/' :: x = b ++ '/' :: y) : a = b ∨ isInside a b = true ∨ isInside b a = true := by
  rcases List.append_eq_append_iff.mp h with ⟨z, hz, hx⟩ | ⟨z, hz, hy⟩
  · cases z with
    | nil => exact .inl (by rw [hz, List.append_nil])
    | cons c z =>
      rw [List.cons_append, List.cons.injEq] at hx
      exact .inr (.inr ((isInside_iff ha).mpr ⟨z, by rw [hz, ← hx.1]⟩))
  · cases z with
    | nil => exact .inl (by rw [hz, List.append_nil])
    | cons c z =>
      rw [List.cons_append, List.cons.injEq] at hy
      exact .inr (.inl ((isInside_iff hb).mpr ⟨z, by rw [hz, ← hy.1]⟩))

end Parents

section Like

theorem utf8Size_toLower (c : Char) : c.toLower.utf8Size = c.utf8Size := by
  have hascii : ∀ d : Char, d.toNat < 128 → d.utf8Size = 1 := by
    intro d hd
    rw [Char.utf8Size]
    exact if_pos (Nat.le_of_lt_succ hd)
  rcases toLower_cases c with heq | ⟨hlow, hhigh, hnat⟩
  · rw [heq]
  · rw [hascii c (by omega), hascii c.toLower (by omega)]

def SameLetters (p q : Path) : Prop :=
  p.map Char.toLower = q.map Char.toLower

def escapeChar (c : Char) : Path :=
  if c = '\\' ∨ c = '%' ∨ c = '_' then ['\\', c] else [c]

theorem escapeLike_eq (s : Path) : escapeLike s = s.flatMap escapeChar := by
  rw [escapeLike, List.flatMap_assoc, List.flatMap_assoc]
  congr 1
  funext c
  rw [escapeChar]
  by_cases h₁ : c = '\\'
  · subst h₁
    decide
  · by_cases h₂ : c = '%'
    · subst h₂
      decide
    · by_cases h₃ : c = '_'
      · subst h₃
        decide
      · simp [h₁, h₂, h₃]

theorem likeEscape_escapeChar (c : Char) (pat text : Path) :
    likeEscape (escapeChar c ++ pat) text = true ↔
      ∃ d rest, text = d :: rest ∧ d.toLower = c.toLower ∧ likeEscape pat rest = true := by
  have hmatch : ∀ d rest, likeEscape (escapeChar c ++ pat) (d :: rest) =
      (c.toLower == d.toLower && likeEscape pat rest) := by
    intro d rest
    rw [escapeChar]
    split
    · simp [likeEscape]
    · next h =>
      simp only [not_or] at h
      have hany : (c == '_') = false := beq_eq_false_iff_ne.mpr h.2.2
      simp [likeEscape, h, hany]
  cases text with
  | nil =>
    have hnil : likeEscape (escapeChar c ++ pat) [] = false := by
      rw [escapeChar]
      split
      · simp [likeEscape]
      · next h =>
        simp only [not_or] at h
        simp [likeEscape, h]
    rw [hnil]
    exact iff_of_false Bool.false_ne_true (by rintro ⟨d, rest, h, -⟩; cases h)
  | cons d rest =>
    rw [hmatch, Bool.and_eq_true, beq_iff_eq]
    constructor
    · rintro ⟨hd, hrest⟩
      exact ⟨d, rest, rfl, hd.symm, hrest⟩
    · rintro ⟨d', rest', h, hd, hrest⟩
      cases h
      exact ⟨hd.symm, hrest⟩

theorem likeBelow_iff {dir p : Path} :
    likeBelow dir p = true ↔ ∃ f x, p = f ++ '/' :: x ∧ SameLetters f dir := by
  rw [likeBelow, likePrefix, escapeLike_eq]
  induction dir generalizing p with
  | nil =>
    cases p with
    | nil =>
      refine iff_of_false (by simp [likeEscape]) ?_
      rintro ⟨f, x, h, -⟩
      cases f <;> cases h
    | cons c p =>
      have hall : likeEscape ['%'] p = true := by
        have hany : likeEscape ['%'] p = p.tails.any (likeEscape []) := by
          cases p <;> rfl
        rw [hany]
        exact List.any_eq_true.mpr ⟨[], (List.mem_tails _ _).mpr List.nil_suffix, rfl⟩
      have hslash : likeEscape ['/', '%'] (c :: p) = ('/'.toLower == c.toLower) := by
        simp [likeEscape, hall]
      rw [List.flatMap_nil, List.nil_append, hslash, beq_iff_eq]
      constructor
      · intro hc
        exact ⟨[], p, by rw [(toLower_eq_iff (by decide)).mp hc.symm]; rfl, rfl⟩
      · rintro ⟨f, x, h, hf⟩
        cases f with
        | nil =>
          cases h
          rfl
        | cons d f => cases hf
  | cons c dir ih =>
    rw [List.flatMap_cons, List.append_assoc, likeEscape_escapeChar]
    constructor
    · rintro ⟨d, rest, rfl, hd, hrest⟩
      obtain ⟨f, x, rfl, hf⟩ := ih.mp hrest
      refine ⟨d :: f, x, rfl, ?_⟩
      rw [SameLetters, List.map_cons, List.map_cons, hd, hf]
    · rintro ⟨f, x, rfl, hf⟩
      cases f with
      | nil => cases hf
      | cons d f =>
        rw [SameLetters, List.map_cons, List.map_cons, List.cons.injEq] at hf
        exact ⟨d, f ++ '/' :: x, rfl, hf.1, ih.mpr ⟨f, x, rfl, hf.2⟩⟩

theorem likeBelow_append {dir p : Path} (h : likeBelow dir p = true) (s : Path) :
    likeBelow dir (p ++ '/' :: s) = true := by
  rw [likeBelow_iff] at h ⊢
  obtain ⟨f, x, rfl, hf⟩ := h
  exact ⟨f, x ++ '/' :: s, by simp, hf⟩

theorem likeBelow_self (dir s : Path) : likeBelow dir (dir ++ '/' :: s) = true := by
  rw [likeBelow_iff]
  exact ⟨dir, s, rfl, rfl⟩

theorem likeBelow_trans {dir p q : Path} (hp : likeBelow dir p = true) (hq : likeBelow p q = true) :
    likeBelow dir q = true := by
  rw [likeBelow_iff] at hp hq ⊢
  obtain ⟨f, x, rfl, hf⟩ := hp
  obtain ⟨g, y, rfl, hg⟩ := hq
  rw [SameLetters, List.map_append] at hg
  obtain ⟨f', x', rfl, hf', hx'⟩ := List.map_eq_append_iff.mp hg
  rw [List.map_cons] at hx'
  obtain ⟨c, x'', rfl, hc, -⟩ := List.map_eq_cons_iff.mp hx'
  have hslash : c = '/' := (toLower_eq_iff (by decide)).mp hc
  exact ⟨f', x'' ++ '/' :: y, by simp [hslash], hf'.trans hf⟩

theorem length_lt_of_likeBelow {dir p : Path} (h : likeBelow dir p = true) :
    dir.length < p.length := by
  rw [likeBelow_iff] at h
  obtain ⟨f, x, rfl, hf⟩ := h
  have hlen : f.length = dir.length := by rw [← List.length_map Char.toLower, hf, List.length_map]
  simp only [List.length_append, List.length_cons]
  omega

theorem SameLetters.refl (p : Path) : SameLetters p p := rfl

theorem SameLetters.length_eq {p q : Path} (h : SameLetters p q) : p.length = q.length := by
  rw [← List.length_map Char.toLower, h, List.length_map]

theorem SameLetters.byteLen_eq {p q : Path} (h : SameLetters p q) : byteLen p = byteLen q := by
  have hlower : ∀ p : Path, byteLen p = ((p.map Char.toLower).map Char.utf8Size).sum := by
    intro p
    rw [byteLen, List.map_map]
    congr 2
    funext c
    exact (utf8Size_toLower c).symm
  rw [hlower, hlower, h]

theorem SameLetters.count_eq {p q : Path} (h : SameLetters p q) : p.count '/' = q.count '/' := by
  have hlower : ∀ p : Path, (p.map Char.toLower).count '/' = p.count '/' := by
    intro p
    induction p with
    | nil => rfl
    | cons c p ih =>
      rw [List.map_cons, List.count_cons, List.count_cons, ih]
      simp only [beq_iff_eq, toLower_eq_iff (d := '/') (by decide)]
  rw [← hlower p, h, hlower]

end Like

end ThanksComputer.Drive
