import Mathlib.Data.Set.Basic

/-! Writers that store before they publish, beside collectors that delete what nobody publishes. -/

universe u v

namespace ThanksComputer.Lib.Reclaim

/-- Which keys are published, which each party has stored and not published yet, which it is about
to delete, which are stored, and which were ever given out. -/
structure State (κ : Type u) (ι : Type v) where
  live : Set κ
  held : ι → Set κ
  doomed : ι → Set κ
  stored : Set κ
  given : Set κ

variable {κ : Type u} {ι : Type v} {s s' : State κ ι} {i : ι} {k : κ}

def State.InUse (s : State κ ι) (k : κ) : Prop :=
  k ∈ s.live ∨ ∃ i, k ∈ s.held i

structure Safe (s : State κ ι) : Prop where
  stored : ∀ k, s.InUse k → k ∈ s.stored
  spared : ∀ k, s.InUse k → ∀ i, k ∉ s.doomed i
  used : ∀ k, s.InUse k → k ∈ s.given
  doomed : ∀ i, ∀ k ∈ s.doomed i, k ∈ s.given
  apart : ∀ i, ∀ k ∈ s.held i, k ∉ s.live
  alone : ∀ i j k, k ∈ s.held i → k ∈ s.held j → i = j

/-- A step of one party: it publishes what it holds, or takes keys that were never given out, or
sees keys that are not in use, or deletes what it is about to. -/
structure Step (i : ι) (s s' : State κ ι) : Prop where
  live : ∀ k ∈ s'.live, k ∈ s.live ∨ k ∈ s.held i
  published : s'.live ⊆ s.live ∨ s'.held i = ∅
  held : ∀ k ∈ s'.held i, k ∈ s.held i ∨ k ∉ s.given ∧ k ∈ s'.stored ∧ k ∈ s'.given
  doomed : ∀ k ∈ s'.doomed i, k ∈ s.doomed i ∨ k ∈ s'.given ∧ ¬s'.InUse k
  stored : ∀ k ∈ s.stored, k ∈ s'.stored ∨ k ∈ s.doomed i
  given : s.given ⊆ s'.given
  others : ∀ j, j ≠ i → s'.held j = s.held j ∧ s'.doomed j = s.doomed j

theorem Step.inUse (h : Step i s s') (hk : s'.InUse k) :
    s.InUse k ∨ k ∉ s.given ∧ k ∈ s'.stored ∧ k ∈ s'.given := by
  rcases hk with hk | ⟨j, hk⟩
  · rcases h.live k hk with hlive | hheld
    · exact .inl (.inl hlive)
    · exact .inl (.inr ⟨i, hheld⟩)
  · by_cases hj : j = i
    · subst hj
      rcases h.held k hk with hheld | hfresh
      · exact .inl (.inr ⟨j, hheld⟩)
      · exact .inr hfresh
    · rw [(h.others j hj).1] at hk
      exact .inl (.inr ⟨j, hk⟩)

theorem Safe.not_inUse (hs : Safe s) (hk : s.InUse k → k ∈ s.held i) (hlive : s'.live ⊆ s.live)
    (hheld : k ∉ s'.held i) (hothers : ∀ j, j ≠ i → s'.held j = s.held j) : ¬s'.InUse k := by
  rintro (hk' | ⟨j, hk'⟩)
  · exact hs.apart i k (hk (.inl (hlive hk'))) (hlive hk')
  · by_cases hj : j = i
    · exact hheld (hj ▸ hk')
    · rw [hothers j hj] at hk'
      exact hj (hs.alone j i k hk' (hk (.inr ⟨j, hk'⟩)))

theorem Step.apart (h : Step i s s') (hs : Safe s) (j : ι) (hk : k ∈ s'.held j) : k ∉ s'.live := by
  intro hlive
  by_cases hj : j = i
  · subst hj
    rcases h.published with hsub | hempty
    · rcases h.held k hk with hheld | ⟨hfresh, -, -⟩
      · exact hs.apart j k hheld (hsub hlive)
      · exact hfresh (hs.used k (.inl (hsub hlive)))
    · rw [hempty] at hk
      exact hk
  · rw [(h.others j hj).1] at hk
    rcases h.live k hlive with hlive | hheld
    · exact hs.apart j k hk hlive
    · exact hj (hs.alone j i k hk hheld)

theorem Step.alone (h : Step i s s') (hs : Safe s) {j l : ι} (hj : k ∈ s'.held j)
    (hl : k ∈ s'.held l) : j = l := by
  -- A key that only one side holds already was given out, so that the other did not just take it.
  have hother : ∀ m, m ≠ i → k ∈ s'.held m → k ∈ s'.held i → False := by
    intro m hm hkm hki
    rw [(h.others m hm).1] at hkm
    rcases h.held k hki with hheld | ⟨hfresh, -, -⟩
    · exact hm (hs.alone m i k hkm hheld)
    · exact hfresh (hs.used k (.inr ⟨m, hkm⟩))
  by_cases hji : j = i
  · subst hji
    by_cases hlj : l = j
    · exact hlj.symm
    · exact (hother l hlj hl hj).elim
  · by_cases hli : l = i
    · subst hli
      exact (hother j hji hj hl).elim
    · rw [(h.others j hji).1] at hj
      rw [(h.others l hli).1] at hl
      exact hs.alone j l k hj hl

theorem Step.safe (h : Step i s s') (hs : Safe s) : Safe s' where
  stored k hk := by
    rcases h.inUse hk with huse | ⟨-, hstored, -⟩
    · rcases h.stored k (hs.stored k huse) with hstored | hdoomed
      · exact hstored
      · exact absurd hdoomed (hs.spared k huse i)
    · exact hstored
  spared k hk j hdoomed := by
    have hbefore : k ∉ s.doomed j := by
      intro hdoomed
      rcases h.inUse hk with huse | ⟨hfresh, -, -⟩
      · exact hs.spared k huse j hdoomed
      · exact hfresh (hs.doomed j k hdoomed)
    by_cases hj : j = i
    · subst hj
      rcases h.doomed k hdoomed with hdoomed | ⟨-, hno⟩
      · exact hbefore hdoomed
      · exact hno hk
    · rw [(h.others j hj).2] at hdoomed
      exact hbefore hdoomed
  used k hk := by
    rcases h.inUse hk with huse | ⟨-, -, hgiven⟩
    · exact h.given (hs.used k huse)
    · exact hgiven
  doomed j k hk := by
    by_cases hj : j = i
    · subst hj
      rcases h.doomed k hk with hdoomed | ⟨hgiven, -⟩
      · exact h.given (hs.doomed j k hdoomed)
      · exact hgiven
    · rw [(h.others j hj).2] at hk
      exact h.given (hs.doomed j k hk)
  apart j k hk := h.apart hs j hk
  alone j l k hj hl := h.alone hs hj hl

end ThanksComputer.Lib.Reclaim
