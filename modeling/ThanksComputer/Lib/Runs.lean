/-! Properties of every step of a run, and the invariant rules for them. -/

universe u v w

namespace ThanksComputer.Lib.Runs

variable {σ : Type u} {ε : Type v}

/-- `P` holds of every state of a run and the event taken there; the run stops where `next` does. -/
def Along (next : σ → ε → Option σ) (P : σ → ε → Prop) : σ → List ε → Prop
  | _, [] => True
  | s, e :: es => P s e ∧ ∀ s', next s e = some s' → Along next P s' es

instance Along.decidable (next : σ → ε → Option σ) (P : σ → ε → Prop) [∀ s e, Decidable (P s e)] :
    ∀ s es, Decidable (Along next P s es)
  | _, [] => .isTrue trivial
  | s, e :: es =>
    have : Decidable (∀ s', next s e = some s' → Along next P s' es) :=
      match hnext : next s e with
      | none => .isTrue fun _ h => by cases h
      | some t =>
        haveI := Along.decidable next P t es
        decidable_of_iff (Along next P t es) (by simp)
    inferInstanceAs (Decidable (P s e ∧ ∀ s', next s e = some s' → Along next P s' es))

variable {next : σ → ε → Option σ} {I : σ → Prop} {P Q : σ → ε → Prop}

theorem Along.true (s : σ) (es : List ε) : Along next (fun _ _ => True) s es := by
  induction es generalizing s with
  | nil => trivial
  | cons e es ih => exact ⟨trivial, fun s' _ => ih s'⟩

theorem Along.of_invariant (hstep : ∀ s e s', I s → Q s e → next s e = some s' → I s')
    (hP : ∀ s e, I s → Q s e → P s e) {s : σ} (hs : I s) {es : List ε} (hQ : Along next Q s es) :
    Along next P s es := by
  induction es generalizing s with
  | nil => trivial
  | cons e es ih =>
    obtain ⟨he, hrest⟩ := hQ
    exact ⟨hP s e hs he, fun s' hs' => ih (hstep s e s' hs he hs') (hrest s' hs')⟩

theorem Along.mono {s : σ} {es : List ε} (h : Along next P s es) (hPQ : ∀ s e, P s e → Q s e) :
    Along next Q s es :=
  h.of_invariant (I := fun _ => True) (fun _ _ _ _ _ _ => trivial) (fun s e _ => hPQ s e) trivial

theorem Along.ends (hstep : ∀ s e s', I s → Q s e → next s e = some s' → I s') {s t : σ} (hs : I s)
    {es : List ε} (hQ : Along next Q s es) (hrun : es.foldlM next s = some t) : I t := by
  induction es generalizing s with
  | nil =>
    cases hrun
    exact hs
  | cons e es ih =>
    obtain ⟨s', hs', hrun⟩ := Option.bind_eq_some_iff.mp hrun
    exact ih (hstep s e s' hs hQ.1 hs') (hQ.2 s' hs') hrun

theorem Along.congr_invariant (hstep : ∀ s e s', I s → next s e = some s' → I s')
    (hPQ : ∀ s e, I s → (P s e ↔ Q s e)) {s : σ} (hs : I s) (es : List ε) :
    Along next P s es ↔ Along next Q s es := by
  induction es generalizing s with
  | nil => exact Iff.rfl
  | cons e es ih =>
    exact and_congr (hPQ s e hs) (forall₂_congr fun s' hs' => ih (hstep s e s' hs hs'))

theorem Along.of_forall {es : List ε} (h : ∀ e ∈ es, ∀ s, P s e) (s : σ) : Along next P s es := by
  induction es generalizing s with
  | nil => trivial
  | cons e es ih =>
    rw [List.forall_mem_cons] at h
    exact ⟨h.1 s, fun s' _ => ih h.2 s'⟩

theorem along_append {s : σ} {es fs : List ε} :
    Along next P s (es ++ fs) ↔
      Along next P s es ∧ ∀ t, es.foldlM next s = some t → Along next P t fs := by
  induction es generalizing s with
  | nil => exact ⟨fun h => ⟨trivial, fun t ht => by cases ht; exact h⟩, fun h => h.2 s rfl⟩
  | cons e es ih =>
    rw [List.cons_append, Along, Along, and_assoc]
    refine and_congr_right fun _ => ⟨fun h => ?_, fun h s' hs' => ih.mpr ?_⟩
    · refine ⟨fun s' hs' => (ih.mp (h s' hs')).1, fun t ht => ?_⟩
      obtain ⟨s', hs', ht⟩ := Option.bind_eq_some_iff.mp ht
      exact (ih.mp (h s' hs')).2 t ht
    · exact ⟨h.1 s' hs', fun t ht => h.2 t (Option.bind_eq_some_iff.mpr ⟨s', hs', ht⟩)⟩

theorem along_iff {s : σ} {es : List ε} :
    Along next P s es ↔
      ∀ n e s', es[n]? = some e → (es.take n).foldlM next s = some s' → P s' e := by
  induction es generalizing s with
  | nil => exact iff_of_true trivial fun n e s' he => by cases he
  | cons e es ih =>
    refine (and_congr_right fun _ => forall₂_congr fun s' _ => ih).trans ⟨?_, ?_⟩
    · rintro ⟨he, hrest⟩ n e' s' hn hs'
      cases n with
      | zero =>
        cases hn
        cases hs'
        exact he
      | succ n =>
        obtain ⟨t, ht, hs'⟩ := Option.bind_eq_some_iff.mp hs'
        exact hrest t ht n e' s' hn hs'
    · intro h
      refine ⟨h 0 e s rfl rfl, fun t ht n e' s' hn hs' => h (n + 1) e' s' hn ?_⟩
      exact Option.bind_eq_some_iff.mpr ⟨t, ht, hs'⟩

theorem Along.after {s t : σ} {es : List ε} {e : ε} (h : Along next P s (es ++ [e]))
    (hrun : es.foldlM next s = some t) : P t e := by
  refine along_iff.mp h es.length e t ?_ ?_
  · rw [List.getElem?_append_right (Nat.le_refl _), Nat.sub_self]
    rfl
  · rw [List.take_left, hrun]

theorem Along.last {s t : σ} {es : List ε} {e : ε} (h : Along next P s (es ++ [e]))
    (hrun : (es ++ [e]).foldlM next s = some t) :
    ∃ s', es.foldlM next s = some s' ∧ next s' e = some t ∧ P s' e := by
  rw [List.foldlM_append] at hrun
  obtain ⟨s', hs', ht⟩ := Option.bind_eq_some_iff.mp hrun
  exact ⟨s', hs', by simpa using ht, h.after hs'⟩

theorem foldl_invariant {step : σ → ε → σ} {R : ε → Prop} (hstep : ∀ s e, I s → R e → I (step s e))
    {s : σ} (hs : I s) {es : List ε} (hes : ∀ e ∈ es, R e) : I (es.foldl step s) := by
  induction es generalizing s with
  | nil => exact hs
  | cons e es ih =>
    rw [List.forall_mem_cons] at hes
    exact ih (hstep s e hs hes.1) hes.2

theorem foldl_read {ρ : Type w} {f : σ → ε → σ} {r : σ → ρ} {W : ε → Prop} {v : ε → ρ}
    (hwrite : ∀ s e, W e → r (f s e) = v e) (hkeep : ∀ s e, ¬W e → r (f s e) = r s)
    (s : σ) (es : List ε) :
    (∃ e ∈ es, W e ∧ r (es.foldl f s) = v e) ∨ (∀ e ∈ es, ¬W e) ∧ r (es.foldl f s) = r s := by
  induction es generalizing s with
  | nil => exact .inr ⟨List.forall_mem_nil _, rfl⟩
  | cons e es ih =>
    rw [List.foldl_cons]
    rcases ih (f s e) with ⟨e', he', hw, hread⟩ | ⟨hnone, hread⟩
    · exact .inl ⟨e', List.mem_cons_of_mem _ he', hw, hread⟩
    · by_cases hw : W e
      · exact .inl ⟨e, List.mem_cons_self, hw, hread.trans (hwrite s e hw)⟩
      · exact .inr ⟨List.forall_mem_cons.mpr ⟨hw, hnone⟩, hread.trans (hkeep s e hw)⟩

end ThanksComputer.Lib.Runs
