import ThanksComputer.Json.Path

/-! A set or a delete at one path leaves the values at the paths apart from it alone. -/

universe u

namespace ThanksComputer

open Lib.Assoc

variable {F : Type u}

/-- Neither path leads to the other. -/
def Apart (p q : List String) : Prop :=
  ¬p <+: q ∧ ¬q <+: p

theorem Apart.of_cons {k : String} {p q : List String} (h : Apart (k :: p) (k :: q)) : Apart p q :=
  ⟨fun hp => h.1 ((List.prefix_cons_inj k).mpr hp), fun hp => h.2 ((List.prefix_cons_inj k).mpr hp)⟩

theorem not_apart_nil_left {q : List String} : ¬Apart [] q :=
  fun h => h.1 List.nil_prefix

theorem not_apart_nil_right {p : List String} : ¬Apart p [] :=
  fun h => h.2 List.nil_prefix

def segNames (ss : List PathSeg) : List String :=
  ss.map PathSeg.name

namespace Json

/-- The element of an array that a delete takes; `-1` is the last one. -/
def deleteIndex (xs : List (Json F)) (s : PathSeg) : Option Nat :=
  if s.isAppend then if xs.isEmpty then none else some (xs.length - 1) else arrayHit xs s

/-- `sjson.Delete` on values; `none` where there is nothing at the path. -/
def deleteNode : List PathSeg → Json F → Option (Json F)
  | [], _ => none
  | s :: ss, .obj ms =>
    match ms.lookup s.name with
    | some w =>
      if ss.isEmpty then some (.obj (ms.eraseP fun e => e.1 == s.name))
      else (deleteNode ss w).map fun w' => .obj (replaceFirst s.name w' ms)
    | none => none
  | s :: ss, .arr xs =>
    match deleteIndex xs s with
    | some i =>
      if ss.isEmpty then some (.arr (xs.eraseIdx i))
      else (deleteNode ss (xs.getD i .null)).map fun w' => .arr (xs.set i w')
    | none => none
  | _ :: _, _ => none

theorem getPath_createValue_of_apart {ss : List PathSeg} {q : List String}
    (h : Apart (segNames ss) q) (v : Json F) : (createValue ss v).getPath q = none := by
  induction ss generalizing q with
  | nil => exact absurd h not_apart_nil_left
  | cons s ss ih =>
    cases q with
    | nil => exact absurd h not_apart_nil_right
    | cons k q =>
      rw [createValue]
      split
      · rfl
      · split
        · rfl
        · rw [getPath_obj_cons]
          by_cases hk : k = s.name
          · subst hk
            rw [lookup_cons_fst (s.name, _), Option.bind_some]
            exact ih h.of_cons
          · rw [lookup_cons_of_ne (e := (s.name, _)) hk]
            rfl

theorem getPath_createRoot_of_apart {s : PathSeg} {ss : List PathSeg} {q : List String}
    (h : Apart (segNames (s :: ss)) q) (v : Json F) : (createRoot s ss v).getPath q = none := by
  rw [createRoot]
  split
  · exact getPath_createValue_of_apart h v
  · cases q with
    | nil => exact absurd h not_apart_nil_right
    | cons k q =>
      rw [getPath_obj_cons]
      by_cases hk : k = s.name
      · subst hk
        rw [lookup_cons_fst (s.name, _), Option.bind_some]
        exact getPath_createValue_of_apart h.of_cons v
      · rw [lookup_cons_of_ne (e := (s.name, _)) hk]
        rfl

theorem setNode_arr {s : PathSeg} {ss : List PathSeg} {xs : List (Json F)} {v j : Json F}
    (h : setNode (s :: ss) (.arr xs) v = some j) : ∃ ys, j = .arr ys := by
  rw [setNode] at h
  split at h
  · obtain ⟨w, -, rfl⟩ := Option.map_eq_some_iff.mp h
    exact ⟨_, rfl⟩
  · split at h
    · cases h
      exact ⟨_, rfl⟩
    · split at h
      · cases h
        exact ⟨_, rfl⟩
      · cases h

theorem getPath_setNode_of_apart {ss : List PathSeg} {q : List String} (h : Apart (segNames ss) q)
    {j j' v : Json F} (hset : setNode ss j v = some j') : j'.getPath q = j.getPath q := by
  induction ss generalizing q j j' with
  | nil => exact absurd h not_apart_nil_left
  | cons s ss ih =>
    cases q with
    | nil => exact absurd h not_apart_nil_right
    | cons k q =>
      cases j with
      | obj ms =>
        rw [setNode] at hset
        split at hset
        · next w hw =>
          obtain ⟨w', hw', rfl⟩ := Option.map_eq_some_iff.mp hset
          rw [getPath_obj_cons, getPath_obj_cons]
          by_cases hk : k = s.name
          · subst hk
            rw [lookup_replaceFirst_self (mem_keys_of_lookup hw), hw]
            exact ih h.of_cons hw'
          · rw [lookup_replaceFirst_of_ne hk]
        · next hnone =>
          cases hset
          rw [getPath_obj_cons, getPath_obj_cons]
          by_cases hk : k = s.name
          · subst hk
            rw [lookup_cons_fst (s.name, _), hnone]
            exact getPath_createValue_of_apart h.of_cons v
          · rw [lookup_cons_of_ne (e := (s.name, _)) hk]
      | arr xs =>
        obtain ⟨ys, rfl⟩ := setNode_arr hset
        rfl
      | null | bool | num | str =>
        cases hset
        exact getPath_createRoot_of_apart h v

theorem isObject_setNode {ss : List PathSeg} {q : List String} (h : ¬segNames ss <+: q)
    {j j' v w : Json F} (hset : setNode ss j v = some j') (hq : j.getPath q = some w)
    (hw : w.isObject = true) : ∃ w', j'.getPath q = some w' ∧ w'.isObject = true := by
  induction ss generalizing q j j' with
  | nil => exact absurd List.nil_prefix h
  | cons s ss ih =>
    cases j with
    | obj ms =>
      rw [setNode] at hset
      cases q with
      | nil =>
        split at hset
        · obtain ⟨w', -, rfl⟩ := Option.map_eq_some_iff.mp hset
          exact ⟨_, rfl, rfl⟩
        · cases hset
          exact ⟨_, rfl, rfl⟩
      | cons k q =>
        rw [getPath_obj_cons, Option.bind_eq_some_iff] at hq
        obtain ⟨x, hx, hq⟩ := hq
        split at hset
        · next y hy =>
          obtain ⟨w', hw', rfl⟩ := Option.map_eq_some_iff.mp hset
          rw [getPath_obj_cons]
          by_cases hk : k = s.name
          · subst hk
            rw [hx, Option.some.injEq] at hy
            subst hy
            rw [lookup_replaceFirst_self (mem_keys_of_lookup hx)]
            exact ih (fun hp => h ((List.prefix_cons_inj s.name).mpr hp)) hw' hq
          · rw [lookup_replaceFirst_of_ne hk, hx]
            exact ⟨w, hq, hw⟩
        · next hnone =>
          cases hset
          have hk : k ≠ s.name := by
            rintro rfl
            rw [hnone] at hx
            cases hx
          rw [getPath_obj_cons, lookup_cons_of_ne (e := (s.name, _)) hk, hx]
          exact ⟨w, hq, hw⟩
    | null | bool | num | str | arr =>
      cases q with
      | nil =>
        rw [getPath_nil, Option.some.injEq] at hq
        subst hq
        cases hw
      | cons k q => cases hq

theorem lookup_eraseP_of_ne {k k' : String} (h : k ≠ k') (ms : List (String × Json F)) :
    (ms.eraseP fun e => e.1 == k').lookup k = ms.lookup k := by
  induction ms with
  | nil => rfl
  | cons e ms ih =>
    by_cases he : e.1 = k'
    · rw [List.eraseP_cons_of_pos (by simpa using he), lookup_cons_of_ne (he ▸ h)]
    · rw [List.eraseP_cons_of_neg (by simpa using he)]
      by_cases hk : k = e.1
      · subst hk
        simp
      · rw [lookup_cons_of_ne hk, lookup_cons_of_ne hk, ih]

theorem deleteNode_arr {ss : List PathSeg} {xs : List (Json F)} {j : Json F}
    (h : deleteNode ss (.arr xs) = some j) : ∃ ys, j = .arr ys := by
  cases ss with
  | nil => cases h
  | cons s ss =>
    rw [deleteNode] at h
    split at h
    · split at h
      · cases h
        exact ⟨_, rfl⟩
      · obtain ⟨w, -, rfl⟩ := Option.map_eq_some_iff.mp h
        exact ⟨_, rfl⟩
    · cases h

theorem deleteNode_obj {s : PathSeg} {ss : List PathSeg} {ms : List (String × Json F)} {j : Json F}
    (h : deleteNode (s :: ss) (.obj ms) = some j) :
    ∃ ns, j = .obj ns ∧ (∀ k, k ≠ s.name → ns.lookup k = ms.lookup k) ∧
      (ss ≠ [] → ∃ w w', ms.lookup s.name = some w ∧ deleteNode ss w = some w' ∧
        ns.lookup s.name = some w') := by
  rw [deleteNode] at h
  split at h
  · next w hw =>
    split at h
    · next hnil =>
      cases h
      refine ⟨_, rfl, fun k hk => lookup_eraseP_of_ne hk ms, fun hss => ?_⟩
      exact absurd (List.isEmpty_iff.mp hnil) hss
    · obtain ⟨w', hw', rfl⟩ := Option.map_eq_some_iff.mp h
      refine ⟨_, rfl, fun k hk => lookup_replaceFirst_of_ne hk w' ms, fun _ => ?_⟩
      exact ⟨w, w', hw, hw', lookup_replaceFirst_self (mem_keys_of_lookup hw)⟩
  · cases h

theorem getPath_deleteNode_of_apart {ss : List PathSeg} {q : List String}
    (h : Apart (segNames ss) q) {j j' : Json F} (hdel : deleteNode ss j = some j') :
    j'.getPath q = j.getPath q := by
  induction ss generalizing q j j' with
  | nil => cases hdel
  | cons s ss ih =>
    cases q with
    | nil => exact absurd h not_apart_nil_right
    | cons k q =>
      cases j with
      | obj ms =>
        obtain ⟨ns, rfl, hother, hsame⟩ := deleteNode_obj hdel
        rw [getPath_obj_cons, getPath_obj_cons]
        by_cases hk : k = s.name
        · subst hk
          have hss : ss ≠ [] := by
            rintro rfl
            exact not_apart_nil_left h.of_cons
          obtain ⟨w, w', hw, hw', hlook⟩ := hsame hss
          rw [hlook, hw]
          exact ih h.of_cons hw'
        · rw [hother k hk]
      | arr xs =>
        obtain ⟨ys, rfl⟩ := deleteNode_arr hdel
        rfl
      | null | bool | num | str => cases hdel

theorem isObject_deleteNode {ss : List PathSeg} {q : List String} (h : ¬segNames ss <+: q)
    {j j' w : Json F} (hdel : deleteNode ss j = some j') (hq : j.getPath q = some w)
    (hw : w.isObject = true) : ∃ w', j'.getPath q = some w' ∧ w'.isObject = true := by
  induction ss generalizing q j j' with
  | nil => exact absurd List.nil_prefix h
  | cons s ss ih =>
    cases j with
    | obj ms =>
      obtain ⟨ns, rfl, hother, hsame⟩ := deleteNode_obj hdel
      cases q with
      | nil => exact ⟨_, rfl, rfl⟩
      | cons k q =>
        rw [getPath_obj_cons, Option.bind_eq_some_iff] at hq
        obtain ⟨x, hx, hq⟩ := hq
        rw [getPath_obj_cons]
        by_cases hk : k = s.name
        · subst hk
          have hrest : ¬segNames ss <+: q := fun hp => h ((List.prefix_cons_inj s.name).mpr hp)
          have hss : ss ≠ [] := by
            rintro rfl
            exact hrest List.nil_prefix
          obtain ⟨y, y', hy, hy', hlook⟩ := hsame hss
          rw [hx, Option.some.injEq] at hy
          subst hy
          rw [hlook]
          exact ih hrest hy' hq
        · rw [hother k hk, hx]
          exact ⟨w, hq, hw⟩
    | null | bool | num | str | arr =>
      cases q with
      | nil =>
        rw [getPath_nil, Option.some.injEq] at hq
        subst hq
        cases hw
      | cons k q => cases hq

end Json

end ThanksComputer
