import Mathlib.Data.List.Permutation
import ThanksComputer.Drive.Links
import ThanksComputer.Lib.Checks

/-! The policy of a collection for its clients (drive/policy.go): by path prefix, the verbs refused
there. A policy is a map, here the list of its entries in the order of an iteration; every `range`
has an order of its own. -/

namespace ThanksComputer.Drive

open Lib (byteLen byteLen_append)
open Lib.Checks (forM_ok)
open scoped Lib.Checks

abbrev Verbs := List (List Char × List Char)

abbrev Policy := List (Path × Verbs)

inductive PolicyError
  | badPath (spelling : Path) (reason : DriveError)
  | unknownVerb (spelling : Path) (verb : List Char)
  | badMode (spelling : Path) (verb : List Char)
  deriving DecidableEq

section Code

def policyVerbs : List (List Char) :=
  ["write".toList, "create".toList, "delete".toList, "move_in".toList, "move_out".toList]

def modeAllow : List Char := "allow".toList
def modeDeny : List Char := "deny".toList

/-- The comparison with either mode regardless of case; no letter outside ASCII has the case
variants of theirs. -/
def isMode (mode word : List Char) : Bool :=
  mode.map Char.toLower == word

def checkMode (spelling : Path) (verb mode : List Char) : Except PolicyError Unit :=
  if verb ∉ policyVerbs then .error (.unknownVerb spelling verb)
  else if !(isMode mode modeAllow || isMode mode modeDeny) then .error (.badMode spelling verb)
  else .ok ()

def checkEntry (nfc : Path → Path) (spelling : Path) (verbs : Verbs) : Except PolicyError Unit :=
  match normalizePath nfc (some spelling) with
  | .error e => .error (.badPath spelling e)
  | .ok _ => verbs.forM fun v => checkMode spelling v.1 v.2

def Policy.validate (nfc : Path → Path) (p : Policy) : Except PolicyError Unit :=
  p.forM fun e => checkEntry nfc e.1 e.2

/-- One turn of the first loop: the longest prefix so far, if there is one. -/
def longerPrefix (nfc : Path → Path) (norm : Path) (best : Option Path) (e : Path × Verbs) :
    Option Path :=
  match normalizePath nfc (some e.1) with
  | .error _ => best
  | .ok pn =>
    if pn ≠ norm ∧ isInside norm pn = false then best
    else
      match best with
      | none => some pn
      | some b => if byteLen b < byteLen pn then some pn else some b

def Policy.best (nfc : Path → Path) (norm : Path) (p : Policy) : Option Path :=
  p.foldl (longerPrefix nfc norm) none

/-- The answer of an entry, by the mode that it gives the verb. -/
def answer (verbs : Verbs) (verb : List Char) : Bool :=
  !isMode ((verbs.lookup verb).getD []) modeDeny

def Policy.decideAt (nfc : Path → Path) (best : Path) (verb : List Char) : Policy → Bool
  | [] => true
  | e :: p =>
    if normalizePath nfc (some e.1) = .ok best then answer e.2 verb
      else Policy.decideAt nfc best verb p

/-- `Allows`, the two loops each in an order. -/
def Policy.allows (nfc : Path → Path) (first second : Policy) (path : Option Path)
    (verb : List Char) : Bool :=
  if first = [] then true
  else
    match normalizePath nfc path with
    | .error _ => true
    | .ok norm =>
      match first.best nfc norm with
      | none => true
      | some best => second.decideAt nfc best verb

end Code

section Spec

variable (nfc : Path → Path)

/-- The prefix that an entry spells covers a path. -/
def Covers (e : Path × Verbs) (norm pn : Path) : Prop :=
  normalizePath nfc (some e.1) = .ok pn ∧ AtOrBelow norm pn

/-- An entry is for the longest of the prefixes that cover a path. -/
def Policy.Longest (p : Policy) (path : Option Path) (e : Path × Verbs) : Prop :=
  ∃ norm pn, normalizePath nfc path = .ok norm ∧ Covers nfc e norm pn ∧
    ∀ e' ∈ p, ∀ pn', Covers nfc e' norm pn' → byteLen pn' ≤ byteLen pn

def Denies (e : Path × Verbs) (verb : List Char) : Prop :=
  ∃ mode, e.2.lookup verb = some mode ∧ isMode mode modeDeny = true

/-- The answer does not depend on the orders of the loops, and is a refusal if an entry for the
longest prefix denies the verb. -/
def Policy.Settled (p : Policy) (path : Option Path) (verb : List Char) : Prop :=
  (∀ first second first' second' : Policy, first.Perm p → second.Perm p → first'.Perm p →
    second'.Perm p →
      first.allows nfc second path verb = first'.allows nfc second' path verb) ∧
    ∀ first second : Policy, first.Perm p → second.Perm p →
      (∃ e ∈ p, p.Longest nfc path e ∧ Denies e verb) → first.allows nfc second path verb = false

/-- The entries for the longest prefix, one for each of its spellings, agree on the verb. -/
def Policy.Agrees (p : Policy) (path : Option Path) (verb : List Char) : Prop :=
  ∀ e ∈ p, ∀ e' ∈ p, p.Longest nfc path e → p.Longest nfc path e' → (Denies e verb ↔ Denies e' verb)

end Spec

section Accepted

variable {nfc : Path → Path} {p : Policy}

end Accepted

section Best

variable {nfc : Path → Path} {norm : Path}

/-- What the first loop has found in the entries it has seen. -/
def Chosen (nfc : Path → Path) (norm : Path) (p : Policy) : Option Path → Prop
  | none => ∀ e ∈ p, ∀ pn, ¬Covers nfc e norm pn
  | some b => (∃ e ∈ p, Covers nfc e norm b) ∧ ∀ e ∈ p, ∀ pn, Covers nfc e norm pn →
    byteLen pn ≤ byteLen b

theorem Chosen.skip {p : Policy} {best : Option Path} {e : Path × Verbs}
    (h : Chosen nfc norm p best) (he : ∀ pn, ¬Covers nfc e norm pn) :
      Chosen nfc norm (p ++ [e]) best := by
  cases best with
  | none =>
    intro e' hmem pn hcov
    rcases List.mem_append.mp hmem with hmem | hmem
    · exact h e' hmem pn hcov
    · rw [List.mem_singleton.mp hmem] at hcov
      exact he pn hcov
  | some b =>
    obtain ⟨⟨a, ha, hb⟩, hmax⟩ := h
    refine ⟨⟨a, List.mem_append_left _ ha, hb⟩, fun e' hmem pn hcov => ?_⟩
    rcases List.mem_append.mp hmem with hmem | hmem
    · exact hmax e' hmem pn hcov
    · rw [List.mem_singleton.mp hmem] at hcov
      exact absurd hcov (he pn)

theorem Covers.eq {e : Path × Verbs} {a b : Path} (ha : Covers nfc e norm a)
    (hb : Covers nfc e norm b) : a = b :=
  Except.ok.inj (ha.1.symm.trans hb.1)

theorem Chosen.take {p : Policy} {best : Option Path} {e : Path × Verbs} {pn : Path}
    (h : Chosen nfc norm p best) (he : Covers nfc e norm pn)
    (hle : ∀ b, best = some b → byteLen b ≤ byteLen pn) :
    Chosen nfc norm (p ++ [e]) (some pn) := by
  refine ⟨⟨e, by simp, he⟩, fun e' hmem pn' hcov => ?_⟩
  rcases List.mem_append.mp hmem with hmem | hmem
  · cases best with
    | none => exact absurd hcov (h e' hmem pn')
    | some b => exact Nat.le_trans (h.2 e' hmem pn' hcov) (hle b rfl)
  · rw [List.mem_singleton.mp hmem] at hcov
    rw [hcov.eq he]

theorem Chosen.stay {p : Policy} {e : Path × Verbs} {b pn : Path} (h : Chosen nfc norm p (some b))
    (he : Covers nfc e norm pn) (hle : byteLen pn ≤ byteLen b) :
      Chosen nfc norm (p ++ [e]) (some b) := by
  obtain ⟨⟨a, ha, hb⟩, hmax⟩ := h
  refine ⟨⟨a, List.mem_append_left _ ha, hb⟩, fun e' hmem pn' hcov => ?_⟩
  rcases List.mem_append.mp hmem with hmem | hmem
  · exact hmax e' hmem pn' hcov
  · rw [List.mem_singleton.mp hmem] at hcov
    rw [hcov.eq he]
    exact hle

theorem Chosen.longerPrefix {p : Policy} {best : Option Path} (h : Chosen nfc norm p best)
    (e : Path × Verbs) :
    Chosen nfc norm (p ++ [e]) (longerPrefix nfc norm best e) := by
  rw [Drive.longerPrefix]
  split
  · next err hnorm =>
    refine h.skip fun pn hcov => ?_
    rw [hcov.1] at hnorm
    cases hnorm
  · next pn hnorm =>
    split
    · next hout =>
      refine h.skip fun pn' hcov => ?_
      have heq : pn' = pn := Except.ok.inj (hcov.1.symm.trans hnorm)
      subst heq
      rcases hcov.2 with heq | hin
      · exact hout.1 heq.symm
      · rw [hout.2] at hin
        cases hin
    · next hin =>
      have hcov : Covers nfc e norm pn := by
        refine ⟨hnorm, ?_⟩
        rw [not_and_or, not_not, Bool.not_eq_false] at hin
        rcases hin with heq | hin
        · exact .inl heq.symm
        · exact .inr hin
      split
      · exact h.take hcov fun b hb => by cases hb
      · next b =>
        split
        · next hlt =>
          refine h.take hcov fun b' hb => ?_
          cases hb
          exact Nat.le_of_lt hlt
        · next hge => exact h.stay hcov (Nat.le_of_not_lt hge)

theorem chosen_best (nfc : Path → Path) (norm : Path) (p : Policy) :
    Chosen nfc norm p (p.best nfc norm) := by
  induction p using List.reverseRecOn with
  | nil =>
    intro e hmem
    cases hmem
  | append_singleton p e ih =>
    rw [Policy.best, List.foldl_concat]
    exact ih.longerPrefix e

end Best

section Unique

theorem eq_nil_of_byteLen {x : Path} (h : byteLen x = 0) : x = [] := by
  cases x with
  | nil => rfl
  | cons c x =>
    have hpos := c.utf8Size_pos
    simp only [byteLen, List.map_cons, List.sum_cons] at h
    omega

theorem AtOrBelow.isPrefix {p a : Path} (h : AtOrBelow p a) : a <+: p := by
  rcases h with rfl | h
  · exact List.prefix_refl p
  · by_cases ha : a = []
    · rw [ha]
      exact List.nil_prefix
    · obtain ⟨x, rfl⟩ := (isInside_iff ha).mp h
      exact List.prefix_append a _

theorem eq_of_byteLen_le {p a b : Path} (ha : a <+: p) (hb : b <+: p)
    (hab : byteLen a = byteLen b) : a = b := by
  have key : ∀ {a b : Path}, a <+: b → byteLen a = byteLen b → a = b := by
    rintro a _ ⟨x, rfl⟩ hlen
    rw [byteLen_append] at hlen
    rw [eq_nil_of_byteLen (by omega : byteLen x = 0), List.append_nil]
  rcases List.prefix_or_prefix_of_prefix ha hb with h | h
  · exact key h hab
  · exact (key h hab.symm).symm

end Unique

section Answers

variable {nfc : Path → Path} {p first second : Policy} {path : Option Path} {verb : List Char}

theorem answer_eq_false {e : Path × Verbs} : answer e.2 verb = false ↔ Denies e verb := by
  rw [answer, Bool.not_eq_false', Denies]
  cases h : e.2.lookup verb with
  | none =>
    refine iff_of_false (by decide) ?_
    rintro ⟨mode, hmode, -⟩
    cases hmode
  | some mode => simp

theorem decideAt_eq {best : Path} {b : Bool}
    (hall : ∀ e ∈ p, normalizePath nfc (some e.1) = .ok best → answer e.2 verb = b)
    (hsome : ∃ e ∈ p, normalizePath nfc (some e.1) = .ok best) : p.decideAt nfc best verb = b := by
  induction p with
  | nil =>
    obtain ⟨e, hmem, -⟩ := hsome
    cases hmem
  | cons e p ih =>
    rw [List.forall_mem_cons] at hall
    rw [Policy.decideAt]
    split
    · next heq => exact hall.1 heq
    · next hne =>
      refine ih hall.2 ?_
      obtain ⟨e', hmem, heq⟩ := hsome
      rcases List.mem_cons.mp hmem with rfl | hmem
      · exact absurd heq hne
      · exact ⟨e', hmem, heq⟩

theorem allows_of_longest (verb : List Char) {e : Path × Verbs} (hfirst : first.Perm p) (he : e ∈ p)
    (hlong : p.Longest nfc path e) :
    ∃ best, normalizePath nfc (some e.1) = .ok best ∧
      (∀ second : Policy, first.allows nfc second path verb = second.decideAt nfc best verb) ∧
      ∀ e' ∈ p, normalizePath nfc (some e'.1) = .ok best → p.Longest nfc path e' := by
  obtain ⟨norm, pn, hnorm, hcov, hmax⟩ := hlong
  refine ⟨pn, hcov.1, fun second => ?_, fun e' _ heq => ⟨norm, pn, hnorm, ⟨heq, hcov.2⟩, hmax⟩⟩
  have hne : first ≠ [] := by
    rintro rfl
    rw [List.nil_perm.mp hfirst] at he
    cases he
  have hbest : first.best nfc norm = some pn := by
    have hchosen := chosen_best nfc norm first
    cases hb : first.best nfc norm with
    | none =>
      rw [hb] at hchosen
      exact absurd hcov (hchosen e (hfirst.mem_iff.mpr he) pn)
    | some b =>
      rw [hb] at hchosen
      obtain ⟨⟨a, ha, hb⟩, hmaxb⟩ := hchosen
      have hle : byteLen pn ≤ byteLen b := hmaxb e (hfirst.mem_iff.mpr he) pn hcov
      have hge : byteLen b ≤ byteLen pn := hmax a (hfirst.mem_iff.mp ha) b hb
      rw [eq_of_byteLen_le hb.2.isPrefix hcov.2.isPrefix (by omega)]
  rw [Policy.allows, if_neg hne, hnorm]
  simp only [hbest]

theorem allows_of_no_longest (hfirst : first.Perm p) (hnone : ∀ e ∈ p, ¬p.Longest nfc path e) :
    first.allows nfc second path verb = true := by
  rw [Policy.allows]
  split
  · rfl
  · cases hnorm : normalizePath nfc path with
    | error e => rfl
    | ok norm =>
      have hchosen := chosen_best nfc norm first
      cases hb : first.best nfc norm with
      | none => simp only [hb]
      | some b =>
        rw [hb] at hchosen
        obtain ⟨⟨a, ha, hcov⟩, hmax⟩ := hchosen
        refine absurd ⟨norm, b, hnorm, hcov, fun e he => ?_⟩ (hnone a (hfirst.mem_iff.mp ha))
        exact hmax e (hfirst.mem_iff.mpr he)

theorem allows_of_agrees {e : Path × Verbs} (h : p.Agrees nfc path verb) (he : e ∈ p)
    (hlong : p.Longest nfc path e) (hfirst : first.Perm p) (hsecond : second.Perm p) :
      first.allows nfc second path verb = answer e.2 verb := by
  obtain ⟨best, heq, hallows, hsame⟩ := allows_of_longest verb hfirst he hlong
  rw [hallows second]
  refine decideAt_eq (fun e' hmem heq' => ?_) ⟨e, hsecond.mem_iff.mpr he, heq⟩
  have he' := hsecond.mem_iff.mp hmem
  have hagree := h e' he' e he (hsame e' he' heq') hlong
  rw [← answer_eq_false, ← answer_eq_false] at hagree
  exact Bool.eq_iff_iff.mpr (by simpa using not_congr hagree)

theorem settled_of_agrees (h : p.Agrees nfc path verb) : p.Settled nfc path verb := by
  by_cases hsome : ∃ e ∈ p, p.Longest nfc path e
  · obtain ⟨e, he, hlong⟩ := hsome
    refine ⟨fun first second first' second' h₁ h₂ h₃ h₄ => ?_, fun first second h₁ h₂ hden => ?_⟩
    · rw [allows_of_agrees h he hlong h₁ h₂, allows_of_agrees h he hlong h₃ h₄]
    · obtain ⟨d, hd, hdlong, hdenies⟩ := hden
      rw [allows_of_agrees h hd hdlong h₁ h₂]
      exact answer_eq_false.mpr hdenies
  · have hnone : ∀ e ∈ p, ¬p.Longest nfc path e := fun e he hlong => hsome ⟨e, he, hlong⟩
    refine ⟨fun first second first' second' h₁ _ h₃ _ => ?_, fun first second h₁ h₂ hden => ?_⟩
    · rw [allows_of_no_longest h₁ hnone, allows_of_no_longest h₃ hnone]
    · obtain ⟨d, hd, hdlong, -⟩ := hden
      exact absurd hdlong (hnone d hd)

theorem allows_first (verb : List Char) {e : Path × Verbs} (he : e ∈ p)
    (hlong : p.Longest nfc path e) :
    ∃ second : Policy, second.Perm p ∧ p.allows nfc second path verb = answer e.2 verb := by
  obtain ⟨best, heq, hallows, -⟩ := allows_of_longest verb (List.Perm.refl p) he hlong
  obtain ⟨pre, suf, rfl⟩ := List.append_of_mem he
  refine ⟨e :: (pre ++ suf), List.perm_middle.symm, ?_⟩
  rw [hallows, Policy.decideAt, if_pos heq]

theorem agrees_of_settled (h : p.Settled nfc path verb) : p.Agrees nfc path verb := by
  have key : ∀ e ∈ p, ∀ e' ∈ p, p.Longest nfc path e → p.Longest nfc path e' → Denies e verb →
    Denies e' verb := by
    intro e he e' he' hlong hlong' hden
    obtain ⟨second, hperm, hanswer⟩ := allows_first verb he' hlong'
    rw [← answer_eq_false, ← hanswer]
    exact h.2 p second (List.Perm.refl p) hperm ⟨e, he, hlong, hden⟩
  exact fun e he e' he' hlong hlong' => ⟨key e he e' he' hlong hlong', key e' he' e he hlong' hlong⟩

end Answers

/-- A policy gives one answer, and refuses what the longest prefix denies, exactly if the spellings
of that prefix agree. -/
theorem settled_iff (nfc : Path → Path) (p : Policy) (path : Option Path) (verb : List Char) :
    p.Settled nfc path verb ↔ p.Agrees nfc path verb :=
  ⟨agrees_of_settled, settled_of_agrees⟩

/-- A folder spelled twice, denied and allowed. -/
def twoSpellings : Policy :=
  [("Docs".toList, [("write".toList, "deny".toList)]),
    ("/Docs/".toList, [("write".toList, "allow".toList)])]

/-- The spelling that comes first decides. -/
theorem not_settled_twoSpellings :
    twoSpellings.validate id = .ok () ∧
    ¬twoSpellings.Settled id (some "Docs/a".toList) "write".toList := by
  refine ⟨by decide, fun h => ?_⟩
  have heq :=
    h.1 twoSpellings twoSpellings twoSpellings twoSpellings.reverse (.refl _) (.refl _) (.refl _)
    (List.reverse_perm _)
  exact absurd heq (by decide)

end ThanksComputer.Drive
