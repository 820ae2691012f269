import ThanksComputer.Json.Path

/-! Objects that have members only along a set of paths.  Merging such an object into another, or
setting one of the paths in it, changes nothing at a path that lies apart from all of them. -/

universe u

namespace ThanksComputer.Guard

open Lib.Assoc

variable {F : Type u}

def residual (k : String) (allow : List (List String)) : List (List String) :=
  allow.filterMap fun e =>
    match e with
    | [] => none
    | k' :: e => if k' = k then some e else none

theorem mem_residual {k : String} {allow : List (List String)} {e : List String} :
    e ∈ residual k allow ↔ k :: e ∈ allow := by
  rw [residual, List.mem_filterMap]
  constructor
  · rintro ⟨d, hd, hde⟩
    cases d with
    | nil => cases hde
    | cons k' d =>
      simp only at hde
      split at hde
      · next hk =>
        cases hde
        rwa [← hk]
      · cases hde
  · intro h
    exact ⟨k :: e, h, by simp⟩

/-- A path that neither lies under a path of the list nor leads to one. -/
def Outside (allow : List (List String)) (p : List String) : Prop :=
  ∀ e ∈ allow, ¬e <+: p ∧ ¬p <+: e

instance (allow : List (List String)) (p : List String) : Decidable (Outside allow p) :=
  inferInstanceAs (Decidable (∀ e ∈ allow, ¬e <+: p ∧ ¬p <+: e))

theorem Outside.residual {allow : List (List String)} {k : String} {p : List String}
    (h : Outside allow (k :: p)) : Outside (residual k allow) p := by
  intro e he
  obtain ⟨h1, h2⟩ := h _ (mem_residual.mp he)
  exact ⟨fun hp => h1 ((List.prefix_cons_inj k).mpr hp),
    fun hp => h2 ((List.prefix_cons_inj k).mpr hp)⟩

theorem Outside.nil_notMem_residual {allow : List (List String)} {k : String} {p : List String}
    (h : Outside allow (k :: p)) : [] ∉ Guard.residual k allow := by
  intro hnil
  exact (h _ (mem_residual.mp hnil)).1 (by simp)

theorem Outside.ne_nil {allow : List (List String)} {p : List String} (hne : allow ≠ [])
    (h : Outside allow p) : p ≠ [] := by
  rintro rfl
  obtain ⟨e, he⟩ := List.exists_mem_of_ne_nil allow hne
  exact (h e he).2 List.nil_prefix

inductive Confined : List (List String) → Json F → Prop
  | obj {allow : List (List String)} {ms : List (String × Json F)}
      (leads : ∀ e ∈ ms, [] ∉ residual e.1 allow → residual e.1 allow ≠ [])
      (below : ∀ e ∈ ms, [] ∉ residual e.1 allow → Confined (residual e.1 allow) e.2) :
      Confined allow (.obj ms)

theorem Confined.getPath_eq_none {allow : List (List String)} {d : Json F} (h : Confined allow d)
    {p : List String} (hne : allow ≠ []) (hp : Outside allow p) : d.getPath p = none := by
  induction p generalizing allow d with
  | nil => exact absurd rfl (hp.ne_nil hne)
  | cons k p ih =>
    obtain @⟨_, ms, leads, below⟩ := h
    rw [Json.getPath_obj_cons]
    cases hk : ms.lookup k with
    | none => rfl
    | some v =>
      have hmem := mem_of_lookup hk
      have hnil := hp.nil_notMem_residual
      exact ih (below _ hmem hnil) (leads _ hmem hnil) hp.residual

theorem Confined.getPath_deepMergeValues {allow : List (List String)} {d : Json F}
    (h : Confined allow d) (x : Json F) {p : List String} (hne : allow ≠ [])
    (hp : Outside allow p) : (d.deepMergeValues x).getPath p = x.getPath p := by
  induction p generalizing allow d x with
  | nil => exact absurd rfl (hp.ne_nil hne)
  | cons k p ih =>
    cases x with
    | obj ns =>
      obtain @⟨_, ms, leads, below⟩ := h
      rw [Json.deepMergeValues, Json.getPath_obj_cons, Json.getPath_obj_cons,
        Json.lookup_deepMergeValues]
      cases hk : ms.lookup k with
      | none => rfl
      | some v =>
        have hmem := mem_of_lookup hk
        have hnil := hp.nil_notMem_residual
        have hv := below _ hmem hnil
        have hne' := leads _ hmem hnil
        cases hn : ns.lookup k with
        | none => exact hv.getPath_eq_none hne' hp.residual
        | some w => exact ih hv w hne' hp.residual
    | null | bool | num | str | arr =>
      have hd := h.getPath_eq_none hne hp
      obtain @⟨_, ms, leads, below⟩ := h
      exact hd

theorem Confined.value {allow : List (List String)} {d : Json F} (h : Confined allow d) (p : Dup) :
    Confined allow (d.value p) := by
  induction h with
  | @obj allow ms leads below ih =>
    rw [Json.value, Json.valueMembers_eq]
    have hmem : ∀ e ∈ dedup p (mapSnd (Json.value p) ms), ∃ d ∈ ms, e = (d.1, d.2.value p) := by
      intro e he
      obtain ⟨d, hd, hde⟩ := List.mem_map.mp (dedup_subset p _ he)
      exact ⟨d, hd, hde.symm⟩
    constructor
    · intro e he hnil
      obtain ⟨d, hd, rfl⟩ := hmem e he
      exact leads d hd hnil
    · intro e he hnil
      obtain ⟨d, hd, rfl⟩ := hmem e he
      exact ih d hd hnil

/-- A segment that sjson takes as an object key wherever it has to make the container. -/
def PlainKey (s : PathSeg) : Prop :=
  s.atoui = none ∧ s.isAppend = false

instance (s : PathSeg) : Decidable (PlainKey s) :=
  inferInstanceAs (Decidable (_ ∧ _))

theorem Confined.createValue {allow : List (List String)} {ss : List PathSeg} (v : Json F)
    (hs : ∀ s ∈ ss, PlainKey s) (hmem : ss.map PathSeg.name ∈ allow) (hnil : [] ∉ allow) :
    Confined allow (Json.createValue ss v) := by
  induction ss generalizing allow with
  | nil => exact absurd hmem hnil
  | cons s ss ih =>
    obtain ⟨hidx, happ⟩ := hs s List.mem_cons_self
    have hres : ss.map PathSeg.name ∈ residual s.name allow := mem_residual.mpr hmem
    rw [Json.createValue, hidx]
    simp only [happ, Bool.false_eq_true, if_false]
    constructor
    · intro e he _
      rw [List.mem_singleton] at he
      subst he
      exact List.ne_nil_of_mem hres
    · intro e he hnil'
      rw [List.mem_singleton] at he
      subst he
      exact ih (fun s hs' => hs s (List.mem_cons_of_mem _ hs')) hres hnil'

theorem Confined.setNode {allow : List (List String)} {ss : List PathSeg} {d d' : Json F}
    (h : Confined allow d) (v : Json F) (hs : ∀ s ∈ ss, PlainKey s)
    (hmem : ss.map PathSeg.name ∈ allow) (hnil : [] ∉ allow)
    (hset : Json.setNode ss d v = some d') : Confined allow d' := by
  induction ss generalizing allow d d' with
  | nil => exact absurd hmem hnil
  | cons s ss ih =>
    have hres : ss.map PathSeg.name ∈ residual s.name allow := mem_residual.mpr hmem
    have hs' : ∀ s ∈ ss, PlainKey s := fun s h => hs s (List.mem_cons_of_mem _ h)
    obtain @⟨_, ms, leads, below⟩ := h
    rw [Json.setNode] at hset
    split at hset
    · next w hw =>
      obtain ⟨w', hw', rfl⟩ := Option.map_eq_some_iff.mp hset
      constructor
      · intro e he hnil'
        rcases mem_replaceFirst he with rfl | he
        · exact List.ne_nil_of_mem hres
        · exact leads e he hnil'
      · intro e he hnil'
        rcases mem_replaceFirst he with rfl | he
        · have hbelow := below (s.name, w) (mem_of_lookup hw) hnil'
          exact ih hbelow hs' hres hnil' hw'
        · exact below e he hnil'
    · cases hset
      constructor
      · intro e he hnil'
        rcases List.mem_cons.mp he with rfl | he
        · exact List.ne_nil_of_mem hres
        · exact leads e he hnil'
      · intro e he hnil'
        rcases List.mem_cons.mp he with rfl | he
        · exact createValue v hs' hres hnil'
        · exact below e he hnil'

end ThanksComputer.Guard
