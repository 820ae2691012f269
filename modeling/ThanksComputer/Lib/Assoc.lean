import Mathlib.Data.List.Basic
import Mathlib.Data.List.Nodup
import Mathlib.Data.List.Perm.Subperm

/-! Association lists in which a key may stand more than once: a reader takes the first or the
last entry of a key, a writer changes the first one in place. -/

universe u v w

namespace ThanksComputer.Lib.Assoc

variable {κ : Type u} {α : Type v} {β : Type w}

/-- Which of several entries with the same key a decoder keeps. -/
inductive Dup
  | first
  | last
  deriving DecidableEq, Repr

def keys (l : List (κ × α)) : List κ :=
  l.map Prod.fst

def mapSnd (f : α → β) (l : List (κ × α)) : List (κ × β) :=
  l.map fun e => (e.1, f e.2)

@[simp] theorem keys_nil : keys ([] : List (κ × α)) = [] := rfl

@[simp] theorem keys_cons (e : κ × α) (l : List (κ × α)) : keys (e :: l) = e.1 :: keys l := rfl

@[simp] theorem keys_append (l m : List (κ × α)) : keys (l ++ m) = keys l ++ keys m := by
  simp [keys]

theorem keys_iff_of_subset {l : List (κ × α)} {m : List (κ × β)} (hl : (keys l).Nodup)
    (hlen : l.length = m.length) (h : ∀ k ∈ keys l, k ∈ keys m) (k : κ) :
      k ∈ keys l ↔ k ∈ keys m := by
  have hsub : (keys l).Subperm (keys m) := List.Nodup.subperm hl h
  have hperm := hsub.perm_of_length_le (by simp [keys, hlen])
  exact hperm.mem_iff

def column [BEq κ] (k : κ) (l : List (κ × α)) : List α :=
  (l.filter fun e => e.1 == k).map Prod.snd

section Write

variable [DecidableEq κ]

def replaceFirst (k : κ) (v : α) : List (κ × α) → List (κ × α)
  | [] => []
  | e :: l => if e.1 = k then (k, v) :: l else e :: replaceFirst k v l

/-- Change the first entry of a key in place, or add one at the end. -/
def upsert (k : κ) (f : Option α → α) : List (κ × α) → List (κ × α)
  | [] => [(k, f none)]
  | e :: l => if e.1 = k then (k, f (some e.2)) :: l else e :: upsert k f l

theorem replaceFirst_cons (k : κ) (v : α) (e : κ × α) (l : List (κ × α)) :
    replaceFirst k v (e :: l) = if e.1 = k then (k, v) :: l else e :: replaceFirst k v l := rfl

theorem upsert_cons (k : κ) (f : Option α → α) (e : κ × α) (l : List (κ × α)) :
    upsert k f (e :: l) = if e.1 = k then (k, f (some e.2)) :: l else e :: upsert k f l := rfl

end Write

section Lookup

variable [BEq κ] [LawfulBEq κ]

@[simp] theorem lookup_cons_fst (e : κ × α) (l : List (κ × α)) :
    (e :: l).lookup e.1 = some e.2 := by
  cases e
  exact List.lookup_cons_self

theorem lookup_cons_of_ne {k : κ} {e : κ × α} (h : k ≠ e.1) (l : List (κ × α)) :
    (e :: l).lookup k = l.lookup k := by
  have hk : (k == e.1) = false := by simpa using h
  cases e
  simp only [List.lookup_cons, hk]

theorem lookup_eq_none_iff_keys {k : κ} {l : List (κ × α)} : l.lookup k = none ↔ k ∉ keys l := by
  induction l with
  | nil => simp
  | cons e l ih =>
    by_cases h : k = e.1
    · subst h
      simp
    · rw [lookup_cons_of_ne h, ih]
      simp [h]

theorem mem_keys_of_lookup {k : κ} {v : α} {l : List (κ × α)} (h : l.lookup k = some v) :
    k ∈ keys l := by
  by_contra hk
  rw [lookup_eq_none_iff_keys.mpr hk] at h
  cases h

theorem mem_of_lookup {k : κ} {v : α} {l : List (κ × α)} (h : l.lookup k = some v) :
    (k, v) ∈ l := by
  induction l with
  | nil => simp at h
  | cons e l ih =>
    by_cases hk : k = e.1
    · subst hk
      rw [lookup_cons_fst, Option.some.injEq] at h
      subst h
      exact List.mem_cons_self
    · rw [lookup_cons_of_ne hk] at h
      exact List.mem_cons_of_mem _ (ih h)

theorem lookup_of_mem {k : κ} {v : α} {l : List (κ × α)} (hnodup : (keys l).Nodup)
    (h : (k, v) ∈ l) :
    l.lookup k = some v := by
  induction l with
  | nil => cases h
  | cons e l ih =>
    rw [keys_cons, List.nodup_cons] at hnodup
    rcases List.mem_cons.mp h with rfl | h
    · exact lookup_cons_fst (k, v) l
    · rw [lookup_cons_of_ne fun heq => hnodup.1 (heq ▸ List.mem_map_of_mem h), ih hnodup.2 h]

theorem lookup_filter (k : κ) (l : List (κ × α)) : (l.filter (·.1 == k)).lookup k = l.lookup k := by
  induction l with
  | nil => rfl
  | cons e l ih =>
    by_cases hk : k = e.1
    · subst hk
      rw [List.filter_cons_of_pos (by simp), lookup_cons_fst, lookup_cons_fst]
    · rw [List.filter_cons_of_neg (by simpa using fun h => hk h.symm), ih, lookup_cons_of_ne hk]

theorem column_cons_self (k : κ) (v : α) (l : List (κ × α)) :
    column k ((k, v) :: l) = v :: column k l := by
  simp [column]

theorem column_cons_of_ne {k : κ} {e : κ × α} (h : k ≠ e.1) (l : List (κ × α)) :
    column k (e :: l) = column k l := by
  rw [column, List.filter_cons_of_neg (by simpa using h.symm), column]

theorem head?_column (k : κ) (l : List (κ × α)) : (column k l).head? = l.lookup k := by
  induction l with
  | nil => rfl
  | cons e l ih =>
    by_cases hk : k = e.1
    · subst hk
      rw [column_cons_self e.1 e.2 l, lookup_cons_fst]
      rfl
    · rw [column_cons_of_ne hk, lookup_cons_of_ne hk, ih]

theorem column_eq_nil {k : κ} {l : List (κ × α)} : column k l = [] ↔ l.lookup k = none := by
  rw [← head?_column, List.head?_eq_none_iff]

theorem lookup_mapSnd (f : α → β) (l : List (κ × α)) (k : κ) :
    (mapSnd f l).lookup k = (l.lookup k).map f := by
  induction l with
  | nil => rfl
  | cons e l ih =>
    by_cases hk : k = e.1
    · subst hk
      rw [lookup_cons_fst]
      exact lookup_cons_fst (e.1, f e.2) _
    · rw [lookup_cons_of_ne hk, ← ih]
      exact lookup_cons_of_ne (e := (e.1, f e.2)) hk _

variable [DecidableEq κ]

theorem lookup_replaceFirst_self {k : κ} {v : α} {l : List (κ × α)} (h : k ∈ keys l) :
    (replaceFirst k v l).lookup k = some v := by
  induction l with
  | nil => simp at h
  | cons e l ih =>
    rw [replaceFirst_cons]
    split
    · exact lookup_cons_fst (k, v) l
    · next hk =>
      rw [lookup_cons_of_ne fun heq => hk heq.symm]
      rcases List.mem_cons.mp h with h | h
      · exact absurd h.symm hk
      · exact ih h

theorem lookup_replaceFirst_of_ne {k k' : κ} (h : k' ≠ k) (v : α) (l : List (κ × α)) :
    (replaceFirst k v l).lookup k' = l.lookup k' := by
  induction l with
  | nil => rfl
  | cons e l ih =>
    rw [replaceFirst_cons]
    split
    · next hk =>
      have he : k' ≠ e.1 := hk ▸ h
      rw [lookup_cons_of_ne he]
      exact lookup_cons_of_ne (e := (k, v)) h l
    · by_cases he : k' = e.1
      · subst he
        simp
      · rw [lookup_cons_of_ne he, lookup_cons_of_ne he, ih]

theorem replaceFirst_of_lookup {k : κ} {v : α} {l : List (κ × α)} (h : l.lookup k = some v) :
    replaceFirst k v l = l := by
  induction l with
  | nil => rfl
  | cons e l ih =>
    rw [replaceFirst_cons]
    split
    · next hk =>
      subst hk
      rw [lookup_cons_fst e l, Option.some.injEq] at h
      rw [← h]
    · next hk =>
      rw [lookup_cons_of_ne fun heq => hk heq.symm] at h
      rw [ih h]

theorem lookup_upsert_self (k : κ) (f : Option α → α) (l : List (κ × α)) :
    (upsert k f l).lookup k = some (f (l.lookup k)) := by
  induction l with
  | nil => exact lookup_cons_fst (k, f none) []
  | cons e l ih =>
    rw [upsert_cons]
    split
    · next hk =>
      subst hk
      rw [lookup_cons_fst e l]
      exact lookup_cons_fst (e.1, f (some e.2)) l
    · next hk =>
      rw [lookup_cons_of_ne fun heq => hk heq.symm, lookup_cons_of_ne fun heq => hk heq.symm, ih]

theorem lookup_upsert_of_ne {k k' : κ} (h : k' ≠ k) (f : Option α → α) (l : List (κ × α)) :
    (upsert k f l).lookup k' = l.lookup k' := by
  induction l with
  | nil => exact lookup_cons_of_ne (e := (k, f none)) h []
  | cons e l ih =>
    rw [upsert_cons]
    split
    · next hk =>
      have he : k' ≠ e.1 := hk ▸ h
      rw [lookup_cons_of_ne he]
      exact lookup_cons_of_ne (e := (k, f (some e.2))) h l
    · by_cases he : k' = e.1
      · subst he
        rw [lookup_cons_fst, lookup_cons_fst]
      · rw [lookup_cons_of_ne he, lookup_cons_of_ne he, ih]

theorem mem_upsert {k : κ} {f : Option α → α} {l : List (κ × α)} {e : κ × α}
    (h : e ∈ upsert k f l) :
    e = (k, f (l.lookup k)) ∨ e ∈ l := by
  induction l with
  | nil => exact .inl (List.mem_singleton.mp h)
  | cons d l ih =>
    rw [upsert_cons] at h
    split at h
    · next hk =>
      subst hk
      rw [lookup_cons_fst d l]
      exact (List.mem_cons.mp h).imp_right (List.mem_cons_of_mem _)
    · next hk =>
      rw [lookup_cons_of_ne fun heq => hk heq.symm]
      rcases List.mem_cons.mp h with rfl | h
      · exact .inr List.mem_cons_self
      · exact (ih h).imp_right (List.mem_cons_of_mem _)

theorem keys_upsert_nodup (k : κ) (f : Option α → α) {l : List (κ × α)} (h : (keys l).Nodup) :
    (keys (upsert k f l)).Nodup := by
  induction l with
  | nil => exact List.nodup_singleton k
  | cons d l ih =>
    rw [keys_cons, List.nodup_cons] at h
    rw [upsert_cons]
    split
    · next hk =>
      rw [keys_cons, List.nodup_cons]
      exact ⟨hk ▸ h.1, h.2⟩
    · next hk =>
      rw [keys_cons, List.nodup_cons]
      refine ⟨fun hd => ?_, ih h.2⟩
      obtain ⟨e, he, hkey⟩ := List.mem_map.mp hd
      rcases mem_upsert he with rfl | he
      · exact hk hkey.symm
      · exact h.1 (hkey ▸ List.mem_map_of_mem he)

theorem lookup_filter_of_ne {k k' : κ} (h : k' ≠ k) (l : List (κ × α)) :
    (l.filter fun e => e.1 != k).lookup k' = l.lookup k' := by
  induction l with
  | nil => rfl
  | cons e l ih =>
    by_cases he : e.1 = k
    · rw [List.filter_cons_of_neg (by simp [he]), ih, lookup_cons_of_ne (he ▸ h)]
    · rw [List.filter_cons_of_pos (by simp [he])]
      by_cases hk : k' = e.1
      · subst hk
        rw [lookup_cons_fst, lookup_cons_fst]
      · rw [lookup_cons_of_ne hk, lookup_cons_of_ne hk, ih]

theorem lookup_map_of_ne {k k' : κ} (h : k' ≠ k) {f : κ × α → κ × α} (hkey : ∀ e, (f e).1 = e.1)
    (hother : ∀ e, e.1 ≠ k → f e = e) (l : List (κ × α)) :
    (l.map f).lookup k' = l.lookup k' := by
  induction l with
  | nil => rfl
  | cons e l ih =>
    rw [List.map_cons]
    by_cases hk : k' = e.1
    · subst hk
      rw [hother e h, lookup_cons_fst, lookup_cons_fst]
    · rw [lookup_cons_of_ne (hkey e ▸ hk), lookup_cons_of_ne hk, ih]

theorem column_replaceFirst_self {k : κ} {l : List (κ × α)} (h : k ∈ keys l) (v : α) :
    column k (replaceFirst k v l) = v :: (column k l).tail := by
  induction l with
  | nil => cases h
  | cons e l ih =>
    rw [replaceFirst_cons]
    split
    · next hk =>
      subst hk
      rw [column_cons_self, column_cons_self e.1 e.2 l, List.tail_cons]
    · next hk =>
      have hne : k ≠ e.1 := fun heq => hk heq.symm
      rw [column_cons_of_ne hne, column_cons_of_ne hne, ih ((List.mem_cons.mp h).resolve_left hne)]

theorem column_replaceFirst_of_ne {k k' : κ} (h : k' ≠ k) (v : α) (l : List (κ × α)) :
    column k' (replaceFirst k v l) = column k' l := by
  induction l with
  | nil => rfl
  | cons e l ih =>
    rw [replaceFirst_cons]
    split
    · next hk => rw [column_cons_of_ne (e := (k, v)) h, column_cons_of_ne (hk ▸ h)]
    · by_cases he : k' = e.1
      · subst he
        rw [column_cons_self e.1 e.2, column_cons_self e.1 e.2, ih]
      · rw [column_cons_of_ne he, column_cons_of_ne he, ih]

end Lookup

variable [DecidableEq κ]

theorem keys_replaceFirst (k : κ) (v : α) (l : List (κ × α)) :
    keys (replaceFirst k v l) = keys l := by
  induction l with
  | nil => rfl
  | cons e l ih =>
    rw [replaceFirst_cons]
    split
    · next hk =>
      subst hk
      rfl
    · rw [keys_cons, keys_cons, ih]

theorem mem_replaceFirst {k : κ} {v : α} {l : List (κ × α)} {e : κ × α}
    (h : e ∈ replaceFirst k v l) : e = (k, v) ∨ e ∈ l := by
  induction l with
  | nil => simp [replaceFirst] at h
  | cons d l ih =>
    rw [replaceFirst_cons] at h
    split at h
    · rcases List.mem_cons.mp h with h | h
      · exact .inl h
      · exact .inr (List.mem_cons_of_mem _ h)
    · rcases List.mem_cons.mp h with h | h
      · exact .inr (h ▸ List.mem_cons_self)
      · exact (ih h).imp_right (List.mem_cons_of_mem _)

def dedup (p : Dup) : List (κ × α) → List (κ × α)
  | [] => []
  | e :: l =>
    match p with
    | .first => e :: (dedup p l).filter fun d => d.1 ≠ e.1
    | .last => if e.1 ∈ keys l then dedup p l else e :: dedup p l

theorem dedup_subset (p : Dup) (l : List (κ × α)) : dedup p l ⊆ l := by
  induction l with
  | nil => simp [dedup]
  | cons e l ih =>
    intro d hd
    cases p with
    | first =>
      rcases List.mem_cons.mp hd with rfl | hd
      · exact List.mem_cons_self
      · exact List.mem_cons_of_mem _ (ih (List.mem_of_mem_filter hd))
    | last =>
      simp only [dedup] at hd
      split at hd
      · exact List.mem_cons_of_mem _ (ih hd)
      · rcases List.mem_cons.mp hd with rfl | hd
        · exact List.mem_cons_self
        · exact List.mem_cons_of_mem _ (ih hd)

theorem mem_keys_of_mem_keys_dedup {p : Dup} {l : List (κ × α)} {k : κ}
    (h : k ∈ keys (dedup p l)) : k ∈ keys l := by
  obtain ⟨e, he, rfl⟩ := List.mem_map.mp h
  exact List.mem_map_of_mem (dedup_subset p l he)

theorem keys_dedup_nodup (p : Dup) (l : List (κ × α)) : (keys (dedup p l)).Nodup := by
  induction l with
  | nil => simp [dedup]
  | cons e l ih =>
    cases p with
    | first =>
      simp only [dedup, keys_cons, List.nodup_cons]
      constructor
      · intro h
        obtain ⟨d, hd, hde⟩ := List.mem_map.mp h
        simp [hde] at hd
      · exact ih.sublist (List.filter_sublist.map Prod.fst)
    | last =>
      simp only [dedup]
      split
      · exact ih
      · next h =>
        rw [keys_cons, List.nodup_cons]
        exact ⟨fun hk => h (mem_keys_of_mem_keys_dedup hk), ih⟩

theorem dedup_of_nodup (p : Dup) {l : List (κ × α)} (h : (keys l).Nodup) : dedup p l = l := by
  induction l with
  | nil => rfl
  | cons e l ih =>
    rw [keys_cons, List.nodup_cons] at h
    cases p with
    | first =>
      simp only [dedup, ih h.2]
      congr 1
      rw [List.filter_eq_self]
      intro d hd
      have hne : d.1 ≠ e.1 := fun heq => h.1 (heq ▸ List.mem_map_of_mem hd)
      simpa using hne
    | last =>
      simp [dedup, h.1, ih h.2]

theorem mem_keys_dedup_last {k : κ} {l : List (κ × α)} : k ∈ keys (dedup .last l) ↔ k ∈ keys l := by
  refine ⟨mem_keys_of_mem_keys_dedup, fun h => ?_⟩
  induction l with
  | nil => exact h
  | cons e l ih =>
    rw [keys_cons, List.mem_cons] at h
    simp only [dedup]
    split
    · next he =>
      rcases h with rfl | h
      · exact ih he
      · exact ih h
    · rw [keys_cons, List.mem_cons]
      exact h.imp_right ih

theorem lookup_dedup_last (k : κ) (l : List (κ × α)) :
    (dedup .last l).lookup k = l.reverse.lookup k := by
  induction l with
  | nil => rfl
  | cons e l ih =>
    rw [List.reverse_cons, List.lookup_append, ← ih]
    simp only [dedup]
    split
    · next he =>
      by_cases hk : k = e.1
      · subst hk
        cases hfound : (dedup .last l).lookup e.1 with
        | some v => rfl
        | none => exact absurd (mem_keys_dedup_last.mpr he) (lookup_eq_none_iff_keys.mp hfound)
      · rw [lookup_cons_of_ne hk]
        simp
    · next he =>
      by_cases hk : k = e.1
      · subst hk
        have hnone : (dedup .last l).lookup e.1 = none :=
          lookup_eq_none_iff_keys.mpr fun h => he (mem_keys_dedup_last.mp h)
        rw [lookup_cons_fst, lookup_cons_fst, hnone]
        rfl
      · rw [lookup_cons_of_ne hk, lookup_cons_of_ne hk]
        simp

omit [DecidableEq κ] in
theorem mem_keys_reverse {k : κ} {l : List (κ × α)} : k ∈ keys l.reverse ↔ k ∈ keys l := by
  simp [keys]

omit [DecidableEq κ] in
theorem lookup_rename {κ' : Type*} [BEq κ] [LawfulBEq κ] [BEq κ'] [LawfulBEq κ'] {f : κ → κ'}
    (g : α → β) {k : κ} {l : List (κ × α)}
    (h : ∀ k' ∈ keys l, f k' = f k → k' = k) :
    (l.map fun e => (f e.1, g e.2)).lookup (f k) = (l.lookup k).map g := by
  induction l with
  | nil => rfl
  | cons e l ih =>
    rw [keys_cons, List.forall_mem_cons] at h
    rw [List.map_cons]
    by_cases hk : k = e.1
    · subst hk
      rw [lookup_cons_fst]
      exact lookup_cons_fst (f e.1, g e.2) _
    · rw [lookup_cons_of_ne hk, ← ih h.2]
      refine lookup_cons_of_ne (e := (f e.1, g e.2)) (fun heq => hk ?_) _
      exact (h.1 heq.symm).symm

end ThanksComputer.Lib.Assoc
