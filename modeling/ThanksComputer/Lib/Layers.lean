import Mathlib.Data.List.Basic

/-! Layers of numbered steps, the first layer covering the ones after it.  A walk takes at each turn
the lowest step at or above a floor of the first layer that still has one, and goes on from there.
It takes every step of every layer exactly when no layer has a step below the end of one that
covers it, unless that step is covered. -/

universe u

namespace ThanksComputer.Lib.Layers

variable {σ : Type u} (steps : σ → List Nat)

def lowest (xs : List Nat) (floor : Nat) : Option Nat :=
  (xs.filter fun x => floor ≤ x).min?

def descend : List σ → Nat → Option (List σ × Nat)
  | [], _ => none
  | a :: cs, floor =>
    match lowest (steps a) floor with
    | some m => some (a :: cs, m)
    | none => descend cs floor

inductive Walk : List σ → Nat → List (Nat × σ) → Prop
  | stop {cs : List σ} {floor : Nat} : descend steps cs floor = none → Walk cs floor []
  | step {cs cs' : List σ} {a : σ} {floor m : Nat} {l : List (Nat × σ)} :
      descend steps cs floor = some (a :: cs', m) → Walk (a :: cs') (m + 1) l →
        Walk cs floor ((m, a) :: l)

/-- The step is in the layer and every layer in front of it ends below the step. -/
def Visible (cs : List σ) (x : Nat) (a : σ) : Prop :=
  ∃ pre post, cs = pre ++ a :: post ∧ x ∈ steps a ∧ ∀ b ∈ pre, ∀ y ∈ steps b, y < x

/-- Every step of every layer is visible in some layer. -/
def Layered (cs : List σ) : Prop :=
  ∀ a ∈ cs, ∀ x ∈ steps a, ∃ b, Visible steps cs x b

def First (cs : List σ) (x : Nat) (a : σ) : Prop :=
  ∃ pre post, cs = pre ++ a :: post ∧ x ∈ steps a ∧ ∀ b ∈ pre, x ∉ steps b

variable {steps}

theorem lowest_eq_some {xs : List Nat} {floor m : Nat} :
    lowest xs floor = some m ↔ m ∈ xs ∧ floor ≤ m ∧ ∀ y ∈ xs, floor ≤ y → m ≤ y := by
  rw [lowest, List.min?_eq_some_iff]
  simp only [List.mem_filter, decide_eq_true_eq, and_imp, and_assoc]

theorem lowest_eq_none {xs : List Nat} {floor : Nat} :
    lowest xs floor = none ↔ ∀ y ∈ xs, y < floor := by
  rw [lowest, List.min?_eq_none_iff, List.filter_eq_nil_iff]
  simp

theorem descend_eq_some {cs cs' : List σ} {floor m : Nat}
    (h : descend steps cs floor = some (cs', m)) :
    ∃ pre a post, cs = pre ++ a :: post ∧ cs' = a :: post ∧ lowest (steps a) floor = some m ∧
      ∀ b ∈ pre, ∀ y ∈ steps b, y < floor := by
  induction cs with
  | nil => cases h
  | cons a cs ih =>
    rw [descend] at h
    split at h
    · next m' hm =>
      cases h
      exact ⟨[], a, cs, rfl, rfl, hm, by simp⟩
    · next hm =>
      obtain ⟨pre, b, post, rfl, rfl, hb, hpre⟩ := ih h
      refine ⟨a :: pre, b, post, rfl, rfl, hb, ?_⟩
      intro c hc
      rcases List.mem_cons.mp hc with rfl | hc
      · exact lowest_eq_none.mp hm
      · exact hpre c hc

theorem descend_eq_none {cs : List σ} {floor : Nat} (h : descend steps cs floor = none) :
    ∀ a ∈ cs, ∀ y ∈ steps a, y < floor := by
  induction cs with
  | nil => simp
  | cons a cs ih =>
    rw [descend] at h
    split at h
    · cases h
    · next hm =>
      intro b hb
      rcases List.mem_cons.mp hb with rfl | hb
      · exact lowest_eq_none.mp hm
      · exact ih h b hb

theorem descend_isSome_of {cs : List σ} {floor : Nat} {a : σ} {y : Nat} (ha : a ∈ cs)
    (hy : y ∈ steps a) (hle : floor ≤ y) : descend steps cs floor ≠ none := by
  intro h
  have := descend_eq_none h a ha y hy
  omega

theorem descend_again {cs cs' : List σ} {floor floor' m : Nat} (hle : floor ≤ floor')
    (hm : floor' ≤ m) (h : descend steps cs floor = some (cs', m)) :
    descend steps cs floor' = some (cs', m) := by
  induction cs with
  | nil => cases h
  | cons a cs ih =>
    rw [descend] at h ⊢
    split at h
    · next m' hlow =>
      cases h
      obtain ⟨hmem, -, hmin⟩ := lowest_eq_some.mp hlow
      have hagain : lowest (steps a) floor' = some m :=
        lowest_eq_some.mpr ⟨hmem, hm, fun y hy hy' => hmin y hy (Nat.le_trans hle hy')⟩
      rw [hagain]
    · next hlow =>
      have hnone : lowest (steps a) floor' = none :=
        lowest_eq_none.mpr fun y hy => Nat.lt_of_lt_of_le (lowest_eq_none.mp hlow y hy) hle
      rw [hnone]
      exact ih h

theorem le_of_descend {cs cs' : List σ} {floor m : Nat}
    (h : descend steps cs floor = some (cs', m)) : floor ≤ m := by
  obtain ⟨pre, b, post, -, -, hb, -⟩ := descend_eq_some h
  exact (lowest_eq_some.mp hb).2.1

theorem descend_self {cs cs' : List σ} {floor m : Nat}
    (h : descend steps cs floor = some (cs', m)) : descend steps cs' floor = some (cs', m) := by
  obtain ⟨pre, a, post, -, rfl, hlow, -⟩ := descend_eq_some h
  rw [descend, hlow]

theorem Visible.first {cs : List σ} {x : Nat} {a : σ} (h : Visible steps cs x a) :
    First steps cs x a := by
  obtain ⟨pre, post, hcs, hx, hpre⟩ := h
  exact ⟨pre, post, hcs, hx, fun b hb hxb => Nat.lt_irrefl x (hpre b hb x hxb)⟩

/-- One turn of the walk: what is visible above the floor is the step found and what is visible
above it from there. -/
theorem visible_descend {cs cs' : List σ} {a : σ} {floor m : Nat}
    (h : descend steps cs floor = some (a :: cs', m)) (x : Nat) (b : σ) :
    (floor ≤ x ∧ Visible steps cs x b) ↔
      (x = m ∧ b = a) ∨ (m + 1 ≤ x ∧ Visible steps (a :: cs') x b) := by
  obtain ⟨pre, a', post, rfl, heq, hlow, hpre⟩ := descend_eq_some h
  cases heq
  obtain ⟨hm, hfloor, hmin⟩ := lowest_eq_some.mp hlow
  constructor
  · rintro ⟨hx, pre', post', hcs, hxb, hpre'⟩
    rcases List.append_eq_append_iff.mp hcs with ⟨as, hpre'', has⟩ | ⟨bs, hpre'', hbs⟩
    · cases as with
      | nil =>
        cases has
        rcases Nat.eq_or_lt_of_le (hmin x hxb hx) with heq | hlt
        · exact .inl ⟨heq.symm, rfl⟩
        · exact .inr ⟨hlt, [], cs', rfl, hxb, by simp⟩
      | cons c as =>
        cases has
        have hlt : m < x := hpre' a (by simp [hpre'']) m hm
        refine .inr ⟨hlt, a :: as, post', rfl, hxb, fun c hc => hpre' c ?_⟩
        rw [hpre'']
        exact List.mem_append_right _ hc
    · cases bs with
      | nil =>
        cases hbs
        rcases Nat.eq_or_lt_of_le (hmin x hxb hx) with heq | hlt
        · exact .inl ⟨heq.symm, rfl⟩
        · exact .inr ⟨hlt, [], cs', rfl, hxb, by simp⟩
      | cons c bs =>
        cases hbs
        have := hpre b (by simp [hpre'']) x hxb
        omega
  · rintro (⟨rfl, rfl⟩ | ⟨hx, pre', post', hcs, hxb, hpre'⟩)
    · refine ⟨hfloor, pre, cs', rfl, hm, fun c hc y hy => ?_⟩
      exact Nat.lt_of_lt_of_le (hpre c hc y hy) hfloor
    · refine ⟨by omega, pre ++ pre', post', by rw [hcs, List.append_assoc], hxb,
        fun c hc y hy => ?_⟩
      rcases List.mem_append.mp hc with hc | hc
      · have := hpre c hc y hy
        omega
      · exact hpre' c hc y hy

theorem Walk.mem_iff {cs : List σ} {floor : Nat} {l : List (Nat × σ)} (h : Walk steps cs floor l)
    (x : Nat) (b : σ) : (x, b) ∈ l ↔ floor ≤ x ∧ Visible steps cs x b := by
  induction h with
  | stop hnone =>
    constructor
    · intro hmem
      cases hmem
    · rintro ⟨hx, pre, post, rfl, hxb, -⟩
      have := descend_eq_none hnone b (by simp) x hxb
      omega
  | step hsome _ ih =>
    rw [visible_descend hsome, ← ih, List.mem_cons, Prod.mk.injEq]

theorem Walk.pairwise {cs : List σ} {floor : Nat} {l : List (Nat × σ)}
    (h : Walk steps cs floor l) : (l.map Prod.fst).Pairwise (· < ·) := by
  induction h with
  | stop _ => exact List.Pairwise.nil
  | step _ hrest ih =>
    rw [List.map_cons, List.pairwise_cons]
    refine ⟨fun x hx => ?_, ih⟩
    obtain ⟨p, hp, rfl⟩ := List.mem_map.mp hx
    exact ((hrest.mem_iff p.1 p.2).mp hp).1

theorem Walk.exists_of_bounded (bound : Nat) (cs : List σ)
    (hb : ∀ a ∈ cs, ∀ x ∈ steps a, x ≤ bound) (floor : Nat) : ∃ l, Walk steps cs floor l := by
  induction hn : bound + 1 - floor using Nat.strongRecOn generalizing cs floor with
  | _ n ih =>
    cases h : descend steps cs floor with
    | none => exact ⟨[], .stop h⟩
    | some r =>
      obtain ⟨cs', m⟩ := r
      obtain ⟨pre, a, post, rfl, rfl, hlow, -⟩ := descend_eq_some h
      obtain ⟨hm, hfloor, -⟩ := lowest_eq_some.mp hlow
      have hmb := hb a (by simp) m hm
      obtain ⟨l, hl⟩ := ih (bound + 1 - (m + 1)) (by omega) (a :: post)
        (fun c hc => hb c (List.mem_append_right _ hc)) (m + 1) rfl
      exact ⟨(m, a) :: l, .step h hl⟩

end ThanksComputer.Lib.Layers
