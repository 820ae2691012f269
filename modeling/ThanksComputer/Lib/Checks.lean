import Mathlib.Data.List.Forall2

/-! Chains of checks: each refuses with an error of its own, and the result comes behind the
last. -/

universe u v w

namespace ThanksComputer.Lib.Checks

/-- An argument before it is checked: a text, or so many bytes that are not UTF-8. -/
inductive Raw
  | text (s : String)
  | bytes (size : Nat)
  deriving DecidableEq

def Raw.size : Raw → Nat
  | .text s => s.utf8ByteSize
  | .bytes size => size

/-- A text is found among others by its characters. -/
scoped instance textLawful : LawfulBEq (List Char) :=
  List.instLawfulBEq

variable {ε : Type u} {α : Type v} {β : Type w}

theorem check_eq_ok {p : Prop} [Decidable p] {e : ε} {x : Except ε α} {a : α} :
    (if p then Except.error e else x) = .ok a ↔ ¬p ∧ x = .ok a := by
  by_cases hp : p
  · simp [hp]
  · simp [hp]

theorem bind_eq_ok {x : Except ε α} {f : α → Except ε β} {b : β} :
    x.bind f = .ok b ↔ ∃ a, x = .ok a ∧ f a = .ok b := by
  cases x with
  | error e => simp [Except.bind]
  | ok a => simp [Except.bind]

theorem map_eq_ok {x : Except ε α} {f : α → β} {b : β} :
    x.map f = .ok b ↔ ∃ a, x = .ok a ∧ f a = b := by
  cases x with
  | error e => simp [Except.map]
  | ok a => simp [Except.map]

theorem forM_ok {check : α → Except ε PUnit} {l : List α} (h : l.forM check = .ok ⟨⟩) :
    ∀ a ∈ l, check a = .ok ⟨⟩ := by
  induction l with
  | nil => simp
  | cons a l ih =>
    have hboth : (check a >>= fun _ => l.forM check) = .ok ⟨⟩ := h
    cases hcheck : check a with
    | error e =>
      rw [hcheck] at hboth
      cases hboth
    | ok u =>
      rw [hcheck] at hboth
      exact List.forall_mem_cons.mpr ⟨hcheck, ih hboth⟩

theorem exists_of_isOk {r : Except ε α} (h : r.isOk = true) : ∃ a, r = .ok a := by
  cases r with
  | error e => cases h
  | ok a => exact ⟨a, rfl⟩

theorem mapM_error {f : α → Except ε β} {l : List α} {err : ε}
    (h : l.mapM f = .error err) :
    ∃ a ∈ l, f a = .error err := by
  induction l with
  | nil => cases h
  | cons a l ih =>
    rw [List.mapM_cons] at h
    cases ha : f a with
    | error err' =>
      rw [ha] at h
      cases h
      exact ⟨a, List.mem_cons_self, ha⟩
    | ok b =>
      rw [ha] at h
      cases hl : l.mapM f with
      | error err' =>
        rw [hl] at h
        cases h
        obtain ⟨a', ha', herr⟩ := ih hl
        exact ⟨a', List.mem_cons_of_mem a ha', herr⟩
      | ok bs =>
        rw [hl] at h
        cases h

theorem mapM_ok {f : α → Except ε β} {l : List α} {r : List β}
    (h : l.mapM f = .ok r) :
    (∀ b ∈ r, ∃ a ∈ l, f a = .ok b) ∧ ∀ a ∈ l, ∃ b ∈ r, f a = .ok b := by
  induction l generalizing r with
  | nil =>
    cases h
    exact ⟨fun b hb => absurd hb List.not_mem_nil, fun a ha => absurd ha List.not_mem_nil⟩
  | cons a l ih =>
    rw [List.mapM_cons] at h
    cases ha : f a with
    | error err =>
      rw [ha] at h
      cases h
    | ok b =>
      rw [ha] at h
      cases hl : l.mapM f with
      | error err =>
        rw [hl] at h
        cases h
      | ok bs =>
        rw [hl] at h
        cases h
        obtain ⟨hfrom, hto⟩ := ih hl
        constructor
        · intro b' hb'
          rcases List.mem_cons.mp hb' with rfl | hb'
          · exact ⟨a, List.mem_cons_self, ha⟩
          · obtain ⟨a', ha', heq⟩ := hfrom b' hb'
            exact ⟨a', List.mem_cons_of_mem a ha', heq⟩
        · intro a' ha'
          rcases List.mem_cons.mp ha' with rfl | ha'
          · exact ⟨b, List.mem_cons_self, ha⟩
          · obtain ⟨b', hb', heq⟩ := hto a' ha'
            exact ⟨b', List.mem_cons_of_mem b hb', heq⟩

theorem forall₂_filterMap {f : α → Option β} {r : β → α → Prop} {ps : List α} :
    List.Forall₂ r (ps.filterMap f) ps ↔ ∀ p ∈ ps, ∃ v, f p = some v ∧ r v p := by
  constructor
  · intro h
    have hall : ∀ p ∈ ps, (f p).isSome = true := List.filterMap_length_eq_length.mp h.length_eq
    induction ps with
    | nil => exact fun p hp => absurd hp List.not_mem_nil
    | cons p ps ih =>
      rw [List.forall_mem_cons] at hall
      obtain ⟨v, hv⟩ := Option.isSome_iff_exists.mp hall.1
      rw [List.filterMap_cons_some hv, List.forall₂_cons] at h
      exact List.forall_mem_cons.mpr ⟨⟨v, hv, h.1⟩, ih h.2 hall.2⟩
  · intro h
    induction ps with
    | nil => exact .nil
    | cons p ps ih =>
      rw [List.forall_mem_cons] at h
      obtain ⟨⟨v, hv, hr⟩, hrest⟩ := h
      rw [List.filterMap_cons_some hv]
      exact .cons hr (ih hrest)

end ThanksComputer.Lib.Checks
