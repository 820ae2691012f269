import ThanksComputer.Guard.Paths

/-! Capability checks (auth/policy): a granted string against the wanted one, segment by segment,
and what the two denote as sets of triples. -/

namespace ThanksComputer.Auth.Policy

open Guard (trimSpace)

abbrev Str := List Char

/-- `domain:instance:action`. -/
structure Segments where
  domain : Str
  inst : Str
  action : Str
  deriving DecidableEq

/-- The `auth.Context` that the middleware attaches. -/
structure Context where
  superAdmin : Bool
  capabilities : List Str

inductive PolicyError
  | capabilityDenied
  deriving DecidableEq

section Code

def isAlias (cap : Str) : Bool :=
  cap = "admin:all".toList ∨ cap = ['*']

def segments (cap : Str) : Segments :=
  if trimSpace cap = [] then ⟨[], [], []⟩
  else if isAlias (trimSpace cap) then ⟨['*'], ['*'], ['*']⟩
  else
    match (trimSpace cap).splitOn ':' with
    | [a, b] => ⟨a, ['*'], b⟩
    | [a, b, c] => ⟨a, b, c⟩
    | _ => ⟨[], [], []⟩

def segmentMatches (g w : Str) : Bool :=
  g = ['*'] ∨ g = w

def segmentsMatch (g w : Segments) : Bool :=
  segmentMatches g.domain w.domain && segmentMatches g.inst w.inst &&
    segmentMatches g.action w.action

/-- `matches`. -/
def grantMatches (granted want : Str) (wantSegs : Segments) : Bool :=
  if granted = [] then want = [] else segmentsMatch (segments granted) wantSegs

def requireCapability (c : Option Context) (want : Str) : Except PolicyError Unit :=
  match c with
  | none => .error .capabilityDenied
  | some c =>
    if c.superAdmin then .ok ()
    else if c.capabilities.any fun granted => grantMatches granted want (segments want) then .ok ()
    else .error .capabilityDenied

end Code

section Meaning

def WellFormed (cap : Str) : Prop :=
  isAlias (trimSpace cap) = true ∨ ((trimSpace cap).splitOn ':').length = 2 ∨
    ((trimSpace cap).splitOn ':').length = 3

/-- A segment denotes itself, a `*` every text. -/
def SegmentDenotes (seg x : Str) : Prop :=
  seg = ['*'] ∨ seg = x

def Denotes (s : Segments) (triple : Str × Str × Str) : Prop :=
  SegmentDenotes s.domain triple.1 ∧ SegmentDenotes s.inst triple.2.1 ∧
    SegmentDenotes s.action triple.2.2

def Covers (granted want : Str) : Prop :=
  ∀ triple, Denotes (segments want) triple → Denotes (segments granted) triple

/-- What a check should answer. -/
def Admits (granted : List Str) (want : Str) : Prop :=
  WellFormed want ∧ ∃ g ∈ granted, WellFormed g ∧ Covers g want

/-- Only `*` and nothing in its segments, which is also what a malformed text has. -/
def Loose (cap : Str) : Prop :=
  cap ≠ [] ∧ ∀ seg ∈ [(segments cap).domain, (segments cap).inst, (segments cap).action], seg =
    ['*'] ∨ seg = []

/-- A malformed want meets nothing that it could match, and a want of three empty segments no
malformed grant but beside a proper one. -/
def Unambiguous (granted : List Str) (want : Str) : Prop :=
  (¬WellFormed want → (∀ g ∈ granted, ¬Loose g) ∧ (want = [] → [] ∉ granted)) ∧
    (trimSpace want = [':', ':'] → (∃ g ∈ granted, g ≠ [] ∧ ¬WellFormed g) →
    ∃ g ∈ granted, WellFormed g ∧ Loose g)

end Meaning

section Segments

variable {cap g w granted want : Str}

theorem segments_of_not_wellFormed (h : ¬WellFormed cap) : segments cap = ⟨[], [], []⟩ := by
  rw [WellFormed, not_or, not_or] at h
  obtain ⟨halias, htwo, hthree⟩ := h
  rw [segments]
  split
  · rfl
  · split
    · next heq =>
      rw [heq] at htwo
      exact absurd rfl htwo
    · next heq =>
      rw [heq] at hthree
      exact absurd rfl hthree
    · rfl

theorem not_wellFormed_nil : ¬WellFormed [] := by
  rw [WellFormed]
  decide

theorem segments_empty (h : WellFormed cap) (hempty : segments cap = ⟨[], [], []⟩) :
    trimSpace cap = [':', ':'] := by
  rw [segments] at hempty
  split at hempty
  · next hnil =>
    rw [WellFormed, hnil] at h
    exact absurd h (by decide)
  · split at hempty
    · cases hempty
    · next halias =>
      split at hempty
      · cases hempty
      · next a b c heq =>
        cases hempty
        have hjoin : [':'].intercalate ((trimSpace cap).splitOn ':') = trimSpace cap :=
          List.intercalate_splitOn ':'
        rw [heq] at hjoin
        exact hjoin.symm
      · next htwo hthree =>
        rcases h with h | h | h
        · exact absurd h halias
        · obtain ⟨a, b, hab⟩ := List.length_eq_two.mp h
          exact absurd hab (htwo a b)
        · obtain ⟨a, b, c, habc⟩ := List.length_eq_three.mp h
          exact absurd habc (hthree a b c)

theorem segments_colons (h : trimSpace cap = [':', ':']) : segments cap = ⟨[], [], []⟩ := by
  rw [segments, h]
  decide

theorem wellFormed_colons (h : trimSpace cap = [':', ':']) : WellFormed cap := by
  rw [WellFormed, h]
  decide

theorem segmentDenotes_subset :
    (∀ x, SegmentDenotes w x → SegmentDenotes g x) ↔ segmentMatches g w = true := by
  rw [segmentMatches, decide_eq_true_eq]
  constructor
  · intro h
    by_cases hg : g = ['*']
    · exact .inl hg
    · by_cases hw : w = ['*']
      · -- a want of every text is not met by one text
        rcases h ('x' :: g) (.inl hw) with hstar | heq
        · exact absurd hstar hg
        · exact absurd heq.symm (by simp)
      · rcases h w (.inr rfl) with hstar | heq
        · exact absurd hstar hg
        · exact .inr heq
  · rintro (hg | rfl) x hx
    · exact .inl hg
    · exact hx

theorem covers_iff :
    Covers granted want ↔ segmentsMatch (segments granted) (segments want) = true := by
  rw [segmentsMatch, Bool.and_eq_true, Bool.and_eq_true, ← segmentDenotes_subset,
    ← segmentDenotes_subset,
    ← segmentDenotes_subset]
  constructor
  · intro h
    refine ⟨⟨fun x hx => ?_, fun x hx => ?_⟩, fun x hx => ?_⟩
    · exact (h (x, (segments want).inst, (segments want).action) ⟨hx, .inr rfl, .inr rfl⟩).1
    · exact (h ((segments want).domain, x, (segments want).action) ⟨.inr rfl, hx, .inr rfl⟩).2.1
    · exact (h ((segments want).domain, (segments want).inst, x) ⟨.inr rfl, .inr rfl, hx⟩).2.2
  · rintro ⟨⟨hd, hi⟩, ha⟩ triple ⟨htd, hti, hta⟩
    exact ⟨hd _ htd, hi _ hti, ha _ hta⟩

theorem loose_iff (hne : cap ≠ []) :
    Loose cap ↔ segmentsMatch (segments cap) ⟨[], [], []⟩ = true := by
  simp [Loose, hne, segmentsMatch, segmentMatches, and_assoc]

end Segments

section Check

variable {granted : List Str} {want : Str} {c : Context}

theorem requireCapability_ok (hsuper : c.superAdmin = false) :
    requireCapability (some c) want = .ok () ↔
      ∃ g ∈ c.capabilities, grantMatches g want (segments want) = true := by
  rw [requireCapability, hsuper]
  simp only [Bool.false_eq_true, if_false]
  rw [← List.any_eq_true]
  split
  · next h => exact iff_of_true rfl h
  · next h => exact iff_of_false (by simp) h

theorem admitted_malformed (h : ¬WellFormed want) :
    (∃ g ∈ granted, grantMatches g want (segments want) = true) ↔
      (∃ g ∈ granted, Loose g) ∨ want = [] ∧ [] ∈ granted := by
  rw [segments_of_not_wellFormed h]
  constructor
  · rintro ⟨g, hg, hmatch⟩
    rw [grantMatches] at hmatch
    split at hmatch
    · next hnil => exact .inr ⟨by simpa using hmatch, hnil ▸ hg⟩
    · next hne => exact .inl ⟨g, hg, (loose_iff hne).mpr hmatch⟩
  · rintro (⟨g, hg, hloose⟩ | ⟨hwant, hnil⟩)
    · refine ⟨g, hg, ?_⟩
      rw [grantMatches, if_neg hloose.1]
      exact (loose_iff hloose.1).mp hloose
    · refine ⟨[], hnil, ?_⟩
      rw [grantMatches, if_pos rfl, hwant]
      rfl

/-- A proper want is admitted by a proper grant that covers it, or is of three empty segments and is
admitted by a malformed one. -/
theorem admitted_wellFormed (h : WellFormed want) :
    (∃ g ∈ granted, grantMatches g want (segments want) = true) ↔
      (∃ g ∈ granted, WellFormed g ∧ Covers g want) ∨
        trimSpace want = [':', ':'] ∧ ∃ g ∈ granted, g ≠ [] ∧ ¬WellFormed g := by
  have hwant : want ≠ [] := by
    rintro rfl
    exact not_wellFormed_nil h
  constructor
  · rintro ⟨g, hg, hmatch⟩
    rw [grantMatches] at hmatch
    split at hmatch
    · exact absurd (by simpa using hmatch) hwant
    · next hne =>
      by_cases hgood : WellFormed g
      · exact .inl ⟨g, hg, hgood, covers_iff.mpr hmatch⟩
      · refine .inr ⟨segments_empty h ?_, g, hg, hne, hgood⟩
        rw [segments_of_not_wellFormed hgood] at hmatch
        simp only [segmentsMatch, segmentMatches, Bool.and_eq_true, decide_eq_true_eq] at hmatch
        obtain ⟨⟨hd, hi⟩, ha⟩ := hmatch
        rcases hs : segments want with ⟨d, i, a⟩
        rw [hs] at hd hi ha
        simp_all
  · rintro (⟨g, hg, hgood, hcovers⟩ | ⟨hcolons, g, hg, hne, hbad⟩)
    · refine ⟨g, hg, ?_⟩
      have hne : g ≠ [] := by
        rintro rfl
        exact not_wellFormed_nil hgood
      rw [grantMatches, if_neg hne]
      exact covers_iff.mp hcovers
    · refine ⟨g, hg, ?_⟩
      rw [grantMatches, if_neg hne, segments_of_not_wellFormed hbad, segments_colons hcolons]
      rfl

theorem covers_colons {g : Str} (hne : g ≠ []) (h : trimSpace want = [':', ':']) :
    Covers g want ↔ Loose g := by
  rw [covers_iff, segments_colons h, loose_iff hne]

end Check

/-- The check answers by the sets exactly when want and grants are not ambiguous. -/
theorem requireCapability_iff {c : Context} (hsuper : c.superAdmin = false) (want : Str) :
    (requireCapability (some c) want = .ok () ↔ Admits c.capabilities want) ↔
      Unambiguous c.capabilities want := by
  rw [requireCapability_ok hsuper, Admits, Unambiguous]
  by_cases hwant : WellFormed want
  · rw [admitted_wellFormed hwant]
    have hne : ∀ g, WellFormed g → g ≠ [] := by
      rintro g hg rfl
      exact not_wellFormed_nil hg
    simp only [hwant, not_true_eq_false, false_implies, true_and]
    constructor
    · intro hiff hcolons hbad
      obtain ⟨g, hg, hgood, hcovers⟩ := hiff.mp (.inr ⟨hcolons, hbad⟩)
      exact ⟨g, hg, hgood, (covers_colons (hne g hgood) hcolons).mp hcovers⟩
    · intro hclear
      refine ⟨?_, .inl⟩
      rintro (hcovered | ⟨hcolons, hbad⟩)
      · exact hcovered
      · obtain ⟨g, hg, hgood, hloose⟩ := hclear hcolons hbad
        exact ⟨g, hg, hgood, (covers_colons (hne g hgood) hcolons).mpr hloose⟩
  · rw [admitted_malformed hwant]
    have hcolons : trimSpace want ≠ [':', ':'] := fun h => hwant (wellFormed_colons h)
    simp only [hwant, false_and, iff_false, not_false_eq_true, true_implies, hcolons, false_implies,
      and_true]
    simp only [not_or, not_exists, not_and]

/-- A grant of one domain against a want of it. -/
theorem requireCapability_read :
    requireCapability (some ⟨false, ["opstack:*:*".toList]⟩) "opstack:read".toList = .ok () ∧
      Admits ["opstack:*:*".toList] "opstack:read".toList := by
  have hok : requireCapability (some ⟨false, ["opstack:*:*".toList]⟩) "opstack:read".toList =
    .ok () := by
    decide
  have hclear : Unambiguous ["opstack:*:*".toList] "opstack:read".toList := by
    refine ⟨fun hbad => absurd (.inr (.inl (by decide))) hbad, fun hcolons => ?_⟩
    exact absurd hcolons (by decide)
  exact ⟨hok, ((requireCapability_iff rfl _).mpr hclear).mp hok⟩

/-- A malformed grant admits another malformed text. -/
theorem not_requireCapability_malformed :
    ¬(requireCapability (some ⟨false, ["write".toList]⟩) "read".toList = .ok () ↔
      Admits ["write".toList] "read".toList) := by
  have hok : requireCapability (some ⟨false, ["write".toList]⟩) "read".toList = .ok () := by decide
  intro h
  have hgood := (h.mp hok).1
  rw [WellFormed] at hgood
  exact absurd hgood (by decide)

end ThanksComputer.Auth.Policy
