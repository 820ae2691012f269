import Mathlib.Data.List.Forall2

/-! The trace ids of the resumed stages of a run.  A stage name is spelled in the alphabet of a
trace id, which is smaller than the one of the names. -/

namespace ThanksComputer.Continuation

section Ids

def ridChar (c : Char) : Bool :=
  c.isAlphanum || c == '_' || c == '-'

def sanitizeStageForRid (stage : List Char) : List Char :=
  stage.map fun c => if ridChar c then c else '_'

def resumeMark : List Char := "resume-".toList

def resumeTraceRid (runID stage : List Char) : List Char :=
  resumeMark ++ runID ++ '-' :: sanitizeStageForRid stage

/-- The run id in front of the first hyphen; it may not be empty. -/
def parseResumeTraceRid (rid : List Char) : Option (List Char) :=
  if resumeMark.isPrefixOf rid then
    match (rid.drop resumeMark.length).findIdx? (· == '-') with
    | none => none
    | some 0 => none
    | some i => some ((rid.drop resumeMark.length).take i)
  else none

end Ids

variable {runID₁ runID₂ stage₁ stage₂ : List Char}

/-- Two characters that a trace id does not tell apart: each is `_` or not in its alphabet. -/
def Alike (a b : Char) : Prop :=
  a = b ∨ ((a.isAlphanum || a == '-') = false ∧ (b.isAlphanum || b == '-') = false)

instance (a b : Char) : Decidable (Alike a b) :=
  inferInstanceAs (Decidable (_ ∨ _ ∧ _))

/-- The two ids are those of one run and one stage or differ, and lead back to their runs. -/
structure OwnTraces (runID₁ stage₁ runID₂ stage₂ : List Char) : Prop where
  apart : resumeTraceRid runID₁ stage₁ = resumeTraceRid runID₂ stage₂ → runID₁ = runID₂ ∧
    stage₁ = stage₂
  first : parseResumeTraceRid (resumeTraceRid runID₁ stage₁) = some runID₁
  second : parseResumeTraceRid (resumeTraceRid runID₂ stage₂) = some runID₂

theorem ridChar_eq_false {c : Char} :
    ridChar c = false ↔ (c.isAlphanum || c == '-') = false ∧ c ≠ '_' := by
  simp only [ridChar, Bool.or_eq_false_iff, beq_eq_false_iff_ne]
  tauto

theorem sanitized_eq_iff (a b : Char) :
    (if ridChar a then a else '_') = (if ridChar b then b else '_') ↔ Alike a b := by
  have hscore : ('_'.isAlphanum || '_' == '-') = false := rfl
  unfold Alike
  split
  · next ha =>
    split
    · next hb =>
      refine ⟨.inl, ?_⟩
      rintro (h | ⟨ha', hb'⟩)
      · exact h
      · have hunder : ∀ {c : Char}, ridChar c = true → (c.isAlphanum || c == '-') = false →
          c = '_' := by
          intro c hc hc'
          by_contra hne
          rw [ridChar_eq_false.mpr ⟨hc', hne⟩] at hc
          cases hc
        rw [hunder ha ha', hunder hb hb']
    · next hb =>
      have hb' := ridChar_eq_false.mp (eq_false_of_ne_true hb)
      constructor
      · rintro rfl
        exact .inr ⟨hscore, hb'.1⟩
      · rintro (rfl | ⟨ha', -⟩)
        · exact absurd ha hb
        · by_contra hne
          rw [ridChar_eq_false.mpr ⟨ha', hne⟩] at ha
          cases ha
  · next ha =>
    have ha' := ridChar_eq_false.mp (eq_false_of_ne_true ha)
    split
    · next hb =>
      constructor
      · rintro rfl
        exact .inr ⟨ha'.1, hscore⟩
      · rintro (rfl | ⟨-, hb'⟩)
        · exact absurd hb ha
        · by_contra hne
          rw [ridChar_eq_false.mpr ⟨hb', Ne.symm hne⟩] at hb
          cases hb
    · next hb =>
      have hb' := ridChar_eq_false.mp (eq_false_of_ne_true hb)
      exact iff_of_true rfl (.inr ⟨ha'.1, hb'.1⟩)

theorem sanitizeStageForRid_eq_iff :
    sanitizeStageForRid stage₁ = sanitizeStageForRid stage₂ ↔ List.Forall₂ Alike stage₁ stage₂ := by
  rw [sanitizeStageForRid, sanitizeStageForRid, ← List.forall₂_eq_eq_eq, List.forall₂_map_left_iff,
    List.forall₂_map_right_iff]
  simp only [sanitized_eq_iff]

theorem parseResumeTraceRid_resumeTraceRid {runID : List Char} (h : '-' ∉ runID)
    (stage : List Char) :
    parseResumeTraceRid (resumeTraceRid runID stage) = if runID = [] then none else some runID := by
  have hprefix : resumeMark.isPrefixOf (resumeTraceRid runID stage) = true := by
    rw [List.isPrefixOf_iff_prefix, resumeTraceRid, List.append_assoc]
    exact List.prefix_append _ _
  have hrest : (resumeTraceRid runID stage).drop resumeMark.length = runID ++ '-' ::
    sanitizeStageForRid stage := by
    rw [resumeTraceRid, List.append_assoc, List.drop_left]
  have hfind : (runID ++ '-' :: sanitizeStageForRid stage).findIdx? (· == '-') =
    some runID.length := by
    have hnone : runID.findIdx? (· == '-') = none := by
      rw [List.findIdx?_eq_none_iff]
      intro c hc
      rw [beq_eq_false_iff_ne]
      rintro rfl
      exact h hc
    rw [List.findIdx?_append, hnone, List.findIdx?_cons]
    simp
  rw [parseResumeTraceRid, if_pos hprefix, hrest, hfind]
  cases runID with
  | nil => rfl
  | cons c cs =>
    rw [if_neg (List.cons_ne_nil _ _)]
    exact congrArg some (List.take_left' rfl)

/-- Two resumed stages have traces of their own exactly if the run ids are not empty and, for stages
of one run, the names are not merely spelled alike. -/
theorem ownTraces_iff (h₁ : '-' ∉ runID₁) (h₂ : '-' ∉ runID₂) :
    OwnTraces runID₁ stage₁ runID₂ stage₂ ↔
      runID₁ ≠ [] ∧
      runID₂ ≠ [] ∧ (runID₁ = runID₂ → List.Forall₂ Alike stage₁ stage₂ → stage₁ = stage₂) := by
  have hparse₁ := parseResumeTraceRid_resumeTraceRid h₁ stage₁
  have hparse₂ := parseResumeTraceRid_resumeTraceRid h₂ stage₂
  constructor
  · rintro ⟨hapart, hfirst, hsecond⟩
    have hne₁ : runID₁ ≠ [] := by
      intro h
      rw [hparse₁, if_pos h] at hfirst
      cases hfirst
    have hne₂ : runID₂ ≠ [] := by
      intro h
      rw [hparse₂, if_pos h] at hsecond
      cases hsecond
    refine ⟨hne₁, hne₂, ?_⟩
    rintro rfl halike
    refine (hapart ?_).2
    rw [resumeTraceRid, resumeTraceRid, sanitizeStageForRid_eq_iff.mpr halike]
  · rintro ⟨hne₁, hne₂, hnames⟩
    rw [if_neg hne₁] at hparse₁
    rw [if_neg hne₂] at hparse₂
    refine ⟨fun heq => ?_, hparse₁, hparse₂⟩
    have hrun : runID₁ = runID₂ := by
      rw [heq, hparse₂] at hparse₁
      exact (Option.some.inj hparse₁).symm
    subst hrun
    rw [resumeTraceRid, resumeTraceRid, List.append_cancel_left_eq, List.cons.injEq] at heq
    exact ⟨rfl, hnames rfl (sanitizeStageForRid_eq_iff.mp heq.2)⟩

theorem ownTraces_two :
    OwnTraces "run_4Zk".toList "site/100".toList "run_4Zk".toList "site/200".toList :=
  (ownTraces_iff (by decide) (by decide)).mpr
    ⟨by decide, by decide, fun _ h => absurd h (by decide)⟩

/-- The stacks `a/b` and `a_b` share the trace of scope 100. -/
theorem not_ownTraces_slash :
    ¬OwnTraces "run_4Zk".toList "a/b/100".toList "run_4Zk".toList "a_b/100".toList := by
  intro h
  exact absurd (h.apart (by decide)).2 (by decide)

end ThanksComputer.Continuation
