import Mathlib.Data.List.Infix
import Mathlib.Logic.Function.Basic

/-! A store of documents that are created once and never change, together with the history of the
writes tried on it.  `note` entries are remarks a program leaves in the history. -/

universe u v w

namespace ThanksComputer.Lib.CreateOnce

variable {κ : Type u} {Doc : κ → Type v} {ε : Type w}

inductive Entry (Doc : κ → Type v) (ε : Type w) : Type (max u v w)
  | write (k : κ) (d : Doc k) (fresh : Bool)
  | note (e : ε)

instance [DecidableEq κ] [∀ k, DecidableEq (Doc k)] [DecidableEq ε] : DecidableEq (Entry Doc ε)
  | .write k d fresh, .write k' d' fresh' =>
    if hk : k = k' then
      decidable_of_iff (hk ▸ d = d' ∧ fresh = fresh') (by subst hk; simp)
    else
      isFalse (by simp [hk])
  | .note e, .note e' => decidable_of_iff (e = e') (by simp)
  | .write _ _ _, .note _ | .note _, .write _ _ _ => isFalse nofun

/-- The key a history entry created a document under. -/
def Entry.created : Entry Doc ε → Option κ
  | .write k _ true => some k
  | _ => none

/-- `docs` is what the history created, and no key was created twice. -/
structure Store (Doc : κ → Type v) (ε : Type w) where
  docs : ∀ k, Option (Doc k)
  log : List (Entry Doc ε)
  docs_iff : ∀ k d, docs k = some d ↔ .write k d true ∈ log
  once : (log.filterMap Entry.created).Nodup

namespace Store

def empty : Store Doc ε where
  docs _ := none
  log := []
  docs_iff _ _ := by simp
  once := by simp

def has (s : Store Doc ε) (k : κ) : Bool :=
  (s.docs k).isSome

/-- The keys there are, in the order of their creation. -/
def keys (s : Store Doc ε) : List κ :=
  s.log.filterMap Entry.created

theorem mem_keys {s : Store Doc ε} {k : κ} : k ∈ s.keys ↔ s.has k = true := by
  rw [keys, List.mem_filterMap, has, Option.isSome_iff_exists]
  constructor
  · rintro ⟨e, he, hk⟩
    cases e with
    | note e => cases hk
    | write k' d fresh =>
      cases fresh with
      | false => cases hk
      | true =>
        cases hk
        exact ⟨d, (s.docs_iff _ d).mpr he⟩
  · rintro ⟨d, hd⟩
    exact ⟨_, (s.docs_iff k d).mp hd, rfl⟩

theorem has_of_docs {s : Store Doc ε} {k : κ} {d : Doc k} (h : s.docs k = some d) :
    s.has k = true := by
  rw [has, h]
  rfl

theorem docs_of_has {s : Store Doc ε} {k : κ} (h : s.has k = true) : ∃ d, s.docs k = some d :=
  Option.isSome_iff_exists.mp h

theorem docs_of_not_has {s : Store Doc ε} {k : κ} (h : s.has k = false) : s.docs k = none := by
  simpa [has] using h

def note (s : Store Doc ε) (e : ε) : Store Doc ε where
  docs := s.docs
  log := s.log ++ [.note e]
  docs_iff k d := by simp [s.docs_iff]
  once := by simpa [List.filterMap_cons, Entry.created] using s.once

@[simp] theorem docs_note (s : Store Doc ε) (e : ε) : (s.note e).docs = s.docs := rfl

@[simp] theorem has_note (s : Store Doc ε) (e : ε) (k : κ) : (s.note e).has k = s.has k := rfl

@[simp] theorem log_note (s : Store Doc ε) (e : ε) : (s.note e).log = s.log ++ [.note e] := rfl

variable [DecidableEq κ]

/-- Create-if-absent. -/
def create (s : Store Doc ε) (k : κ) (d : Doc k) : Store Doc ε :=
  if h : s.has k then
    { docs := s.docs
      log := s.log ++ [.write k d false]
      docs_iff := by simp [s.docs_iff]
      once := by simpa [List.filterMap_cons, Entry.created] using s.once }
  else
    { docs := Function.update s.docs k (some d)
      log := s.log ++ [.write k d true]
      docs_iff := by
        intro k' d'
        by_cases hk : k' = k
        · subst hk
          have hnone : ∀ d, .write k' d true ∉ s.log := fun d hd =>
            h (has_of_docs ((s.docs_iff k' d).mpr hd))
          simp [hnone, eq_comm]
        · simp [s.docs_iff, hk]
      once := by
        have hmem : k ∉ s.log.filterMap Entry.created := fun hk => h (mem_keys.mp hk)
        rw [List.filterMap_append, List.nodup_append]
        refine ⟨s.once, by simp [Entry.created], ?_⟩
        intro a ha b hb
        simp only [List.filterMap_cons, Entry.created, List.filterMap_nil, List.mem_singleton] at hb
        subst hb
        exact fun heq => hmem (heq ▸ ha) }

theorem docs_create_self (s : Store Doc ε) (k : κ) (d : Doc k) :
    (s.create k d).docs k = if s.has k then s.docs k else some d := by
  rw [create]
  split
  · rfl
  · simp

@[simp] theorem docs_create_of_ne (s : Store Doc ε) {k k' : κ} (d : Doc k) (h : k' ≠ k) :
    (s.create k d).docs k' = s.docs k' := by
  rw [create]
  split
  · rfl
  · simp [h]

@[simp] theorem has_create_of_ne (s : Store Doc ε) {k k' : κ} (d : Doc k) (h : k' ≠ k) :
    (s.create k d).has k' = s.has k' := by
  rw [has, has, docs_create_of_ne s d h]

@[simp] theorem has_create_self (s : Store Doc ε) (k : κ) (d : Doc k) :
    (s.create k d).has k = true := by
  rw [has, docs_create_self]
  split
  · next h => exact h
  · rfl

theorem log_create (s : Store Doc ε) (k : κ) (d : Doc k) :
    (s.create k d).log = s.log ++ [.write k d (!s.has k)] := by
  rw [create]
  split
  · next h => simp [h]
  · next h => simp [h]

theorem docs_create_of_not_has {s : Store Doc ε} {k : κ} (h : s.has k = false) (d : Doc k) :
    (s.create k d).docs k = some d := by
  rw [docs_create_self, h]
  rfl

theorem docs_create_of_has {s : Store Doc ε} {k : κ} (h : s.has k = true) (d : Doc k) (k' : κ) :
    (s.create k d).docs k' = s.docs k' := by
  rw [create, dif_pos h]

end Store

/-- Every entry of a history stands to those before it as `R` says. -/
def Ordered (R : List (Entry Doc ε) → Entry Doc ε → Prop) (log : List (Entry Doc ε)) : Prop :=
  ∀ pre e post, log = pre ++ e :: post → R pre e

theorem ordered_nil (R : List (Entry Doc ε) → Entry Doc ε → Prop) : Ordered R [] := by
  intro pre e post h
  simp at h

theorem Ordered.snoc {R : List (Entry Doc ε) → Entry Doc ε → Prop} {log : List (Entry Doc ε)}
    {e : Entry Doc ε} (h : Ordered R log) (he : R log e) : Ordered R (log ++ [e]) := by
  intro pre e' post heq
  rcases List.eq_nil_or_concat post with rfl | ⟨post', e'', rfl⟩
  · obtain ⟨rfl, hcons⟩ := List.append_inj' heq rfl
    cases hcons
    exact he
  · rw [List.concat_eq_append, ← List.cons_append, ← List.append_assoc] at heq
    obtain ⟨rfl, -⟩ := List.append_inj' heq rfl
    exact h pre e' post' rfl

structure Grows (s s' : Store Doc ε) : Prop where
  docs : ∀ k d, s.docs k = some d → s'.docs k = some d
  log : s.log <+: s'.log

namespace Grows

theorem refl (s : Store Doc ε) : Grows s s :=
  ⟨fun _ _ h => h, List.prefix_rfl⟩

theorem trans {s s' s'' : Store Doc ε} (h : Grows s s') (h' : Grows s' s'') : Grows s s'' :=
  ⟨fun k d hd => h'.docs k d (h.docs k d hd), h.log.trans h'.log⟩

theorem has {s s' : Store Doc ε} (h : Grows s s') {k : κ} (hk : s.has k = true) :
    s'.has k = true := by
  obtain ⟨d, hd⟩ := Store.docs_of_has hk
  exact Store.has_of_docs (h.docs k d hd)

theorem note (s : Store Doc ε) (e : ε) : Grows s (s.note e) :=
  ⟨fun _ _ h => h, List.prefix_append _ _⟩

theorem create [DecidableEq κ] (s : Store Doc ε) (k : κ) (d : Doc k) : Grows s (s.create k d) := by
  constructor
  · intro k' d' hd'
    by_cases hk : k' = k
    · subst hk
      rw [Store.docs_create_of_has (Store.has_of_docs hd')]
      exact hd'
    · rw [Store.docs_create_of_ne s d hk]
      exact hd'
  · rw [Store.log_create]
    exact List.prefix_append _ _

end Grows

end ThanksComputer.Lib.CreateOnce
