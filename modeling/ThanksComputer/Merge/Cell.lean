import ThanksComputer.Merge.Assoc
import ThanksComputer.Merge.Refinement

/-! What the merges leave at one name.  An output is merged into a contribution first and the
contribution into the envelope, or straight into the envelope: the law here says for which members
both are the same. -/

universe u

namespace ThanksComputer

open Lib.Assoc

variable {F : Type u}

namespace Merge

section Cell

variable (p : Dup)

/-- What a member of an output leaves at its name, by what stands there; `none` is the merge's
error. -/
def memberValue (x : Json F) (old : Option (Json F)) : Option (Json F) :=
  match x with
  | .obj ms =>
    match old with
    | none => some ((Json.obj ms).value p)
    | some v =>
      match v.value p with
      | .obj ns => some (((Json.obj ms).value p).deepMergeValues (.obj ns))
      | _ => none
  | .arr xs =>
    match old.map (Json.value p) with
    | some (.arr ys) => some (.arr (ys ++ Json.valueElems p xs))
    | _ => some ((Json.arr xs).value p)
  | x => some x

theorem mergeMember_eq (L : JsonLib F) (src : Text F) (k : String) (x : Json F) :
    mergeMember L src k x = (memberValue L.dup x (L.get src k)).map (L.set src k) := by
  cases x with
  | obj ms =>
    simp only [mergeMember, memberValue]
    cases L.get src k with
    | none => rfl
    | some v => cases hv : v.value L.dup <;> simp [hv]
  | arr xs =>
    simp only [mergeMember, memberValue]
    cases (L.get src k).map (Json.value L.dup) with
    | none => rfl
    | some v => cases v <;> rfl
  | null | bool | num | str => rfl

variable {p}

theorem unique_memberValue {x v : Json F} {old : Option (Json F)}
    (h : memberValue p x old = some v) : v.Unique := by
  cases x with
  | obj ms =>
    have hms := Json.unique_value p (.obj ms)
    simp only [memberValue] at h
    split at h
    · cases h
      exact hms
    · next w =>
      have hw := Json.unique_value p w
      split at h
      · next ns hns =>
        cases h
        exact Json.unique_deepMergeValues hms (hns ▸ hw)
      · cases h
  | arr xs =>
    simp only [memberValue] at h
    split at h
    · next ys hys =>
      obtain ⟨w, -, hw⟩ := Option.map_eq_some_iff.mp hys
      cases h
      refine .arr fun x hx => ?_
      rcases List.mem_append.mp hx with hx | hx
      · cases hw ▸ Json.unique_value p w with
        | arr hall => exact hall x hx
      · exact Json.unique_valueElems p xs x hx
    · cases h
      exact Json.unique_value p (.arr xs)
  | null => cases h; exact .null
  | bool b => cases h; exact .bool b
  | num n => cases h; exact .num n
  | str t => cases h; exact .str t

end Cell

/-- A write that agrees with the loop's contribution: an array that is appended is appended to no
other array in the envelope than in the contribution, and no object is merged that clashes. -/
def Fits (p : Dup) (env acc : Option (Json F)) (x : Json F) : Prop :=
  ∀ e, env = some e → ∀ a, acc = some a →
    (x.isArray = true → a.isArray = true ∨ ∀ ys, e.value p = .arr ys → ys = []) ∧
      (x.isObject = true → ¬Json.Clash (x.value p) a (e.value p))

section Law

variable {p : Dup} {x a a' w v : Json F} {e : Option (Json F)}

theorem valueElems_of_unique {xs : List (Json F)} (h : (Json.arr xs).Unique) :
    Json.valueElems p xs = xs := by
  have heq := Json.value_of_unique p h
  rw [Json.value, Json.arr.injEq] at heq
  exact heq

theorem memberValue_none (h : a.Unique) : memberValue p a none = some a := by
  cases a with
  | obj ms => rw [memberValue, Json.value_of_unique p h]
  | arr xs => exact congrArg some (Json.value_of_unique p h)
  | null | bool | num | str => rfl

theorem memberValue_again (h : memberValue p x none = some a) (old : Option (Json F)) :
    memberValue p a old = memberValue p x old := by
  cases x with
  | obj ms =>
    cases h
    have hidem := Json.value_of_unique p (Json.unique_value p (.obj ms))
    simp only [Json.value] at hidem ⊢
    simp only [memberValue, Json.value, hidem]
  | arr xs =>
    cases h
    have hidem := valueElems_of_unique (p := p) (.arr (Json.unique_valueElems p xs))
    simp only [Json.value, memberValue, hidem]
  | null | bool | num | str =>
    cases h
    rfl

theorem memberValue_arr_arr {xs ys : List (Json F)} {y : Json F} (h : y.value p = .arr ys) :
    memberValue p (.arr xs) (some y) = some (.arr (ys ++ Json.valueElems p xs)) := by
  simp only [memberValue, Option.map_some, h]

theorem memberValue_arr_other {xs : List (Json F)} {y : Json F} (h : ∀ ys, y.value p ≠ .arr ys) :
    memberValue p (.arr xs) (some y) = some ((Json.arr xs).value p) := by
  simp only [memberValue, Option.map_some]
  split
  · next ys heq => exact absurd (Option.some.inj heq) (h ys)
  · rfl

theorem memberValue_obj {ms : List (String × Json F)} {y : Json F}
    (h : memberValue p (.obj ms) (some y) = some v) :
    ∃ ns, y.value p = .obj ns ∧ v = ((Json.obj ms).value p).deepMergeValues (.obj ns) := by
  simp only [memberValue] at h
  split at h
  · next ns hns => exact ⟨ns, hns, (Option.some.inj h).symm⟩
  · cases h

theorem isArray_memberValue (hx : x.isArray = false) (h : memberValue p x e = some v) :
    v.isArray = false := by
  cases x with
  | arr => cases hx
  | obj ms =>
    cases e with
    | none =>
      cases h
      rfl
    | some y =>
      obtain ⟨ns, -, rfl⟩ := memberValue_obj h
      rfl
  | null | bool | num | str =>
    cases h
    exact hx

theorem value_ne_arr (hunique : a.Unique) (ha : a.isArray = false) (ys : List (Json F)) :
    a.value p ≠ .arr ys := by
  rw [Json.value_of_unique p hunique]
  rintro rfl
  cases ha

variable {y : Json F}

theorem memberValue_append {xs : List (Json F)} (ha : a.Unique) (harr : a.isArray = true)
    (hw : memberValue p a (some y) = some w) (ha' : memberValue p (.arr xs) (some a) = some a')
    (hv : memberValue p (.arr xs) (some w) = some v) : memberValue p a' (some y) = some v := by
  cases a with
  | arr zs =>
    have hunique := unique_memberValue ha'
    have hwvalue := Json.value_of_unique p (unique_memberValue hw)
    rw [memberValue_arr_arr (Json.value_of_unique p ha)] at ha'
    cases ha'
    by_cases hy : ∃ ys, y.value p = .arr ys
    · obtain ⟨ys, hys⟩ := hy
      rw [memberValue_arr_arr hys, valueElems_of_unique ha] at hw
      cases hw
      rw [memberValue_arr_arr hwvalue] at hv
      rw [memberValue_arr_arr hys, valueElems_of_unique hunique, ← hv, List.append_assoc]
    · have hother : ∀ ys, y.value p ≠ .arr ys := fun ys hys => hy ⟨ys, hys⟩
      rw [memberValue_arr_other hother, Json.value_of_unique p ha] at hw
      cases hw
      rw [memberValue_arr_arr hwvalue] at hv
      rw [memberValue_arr_other hother, Json.value_of_unique p hunique, ← hv]
  | null | bool | num | str | obj => cases harr

theorem memberValue_replace {xs : List (Json F)} (ha : a.Unique) (harr : a.isArray = false)
    (hw : memberValue p a (some y) = some w) (ha' : memberValue p (.arr xs) (some a) = some a')
    (hv : memberValue p (.arr xs) (some w) = some v) :
    memberValue p a' (some y) = some v ↔ ∀ ys, y.value p = .arr ys → ys = [] := by
  have hunique := unique_memberValue ha'
  rw [memberValue_arr_other (value_ne_arr ha harr)] at ha'
  rw [memberValue_arr_other
    (value_ne_arr (unique_memberValue hw) (isArray_memberValue harr hw))] at hv
  obtain rfl : a' = v := Option.some.inj (ha'.symm.trans hv)
  cases hv
  rw [Json.value] at hunique
  constructor
  · intro h ys hys
    rw [Json.value, memberValue_arr_arr hys, valueElems_of_unique hunique, Option.some.injEq,
      Json.arr.injEq] at h
    exact List.append_left_eq_self.mp h
  · intro h
    by_cases hy : ∃ ys, y.value p = .arr ys
    · obtain ⟨ys, hys⟩ := hy
      rw [Json.value, memberValue_arr_arr hys, h ys hys, List.nil_append,
        valueElems_of_unique hunique]
    · have hother : ∀ ys, y.value p ≠ .arr ys := fun ys hys => hy ⟨ys, hys⟩
      rw [Json.value, memberValue_arr_other hother, Json.value_of_unique p hunique]

theorem memberValue_merge {ms : List (String × Json F)} (ha : a.Unique)
    (hw : memberValue p a (some y) = some w) (ha' : memberValue p (.obj ms) (some a) = some a')
    (hv : memberValue p (.obj ms) (some w) = some v) :
    memberValue p a' (some y) = some v ↔ ¬Json.Clash ((Json.obj ms).value p) a (y.value p) := by
  have hunique := unique_memberValue ha'
  obtain ⟨ns, hns, rfl⟩ := memberValue_obj ha'
  rw [Json.value_of_unique p ha] at hns
  subst hns
  have hwvalue := Json.value_of_unique p (unique_memberValue hw)
  obtain ⟨es, hes, rfl⟩ := memberValue_obj hw
  obtain ⟨ws, hws, rfl⟩ := memberValue_obj hv
  rw [hwvalue, Json.value_of_unique p ha] at hws
  rw [hes, ← Json.deepMergeValues_assoc_iff (Json.unique_value p (.obj ms)), hws]
  have hvalue := Json.value_of_unique p hunique
  simp only [Json.value, Json.deepMergeValues] at hvalue ⊢
  simp only [memberValue, hes, Json.value, hvalue, Option.some.injEq, Json.deepMergeValues]
  exact eq_comm

theorem memberValue_comm_iff (ha : a.Unique) (hw : memberValue p a e = some w)
    (ha' : memberValue p x (some a) = some a') (hv : memberValue p x (some w) = some v) :
    memberValue p a' e = some v ↔ Fits p e (some a) x := by
  cases e with
  | none =>
    rw [memberValue_none ha] at hw
    cases hw
    rw [ha'] at hv
    cases hv
    refine iff_of_true (memberValue_none (unique_memberValue ha')) ?_
    intro _ he
    cases he
  | some y =>
    have hfits : Fits p (some y) (some a) x ↔
        (x.isArray = true → a.isArray = true ∨ ∀ ys, y.value p = .arr ys → ys = []) ∧
          (x.isObject = true → ¬Json.Clash (x.value p) a (y.value p)) := by
      simp [Fits]
    rw [hfits]
    cases x with
    | arr xs =>
      cases harr : a.isArray with
      | true =>
        refine iff_of_true (memberValue_append ha harr hw ha' hv)
          ⟨fun _ => .inl rfl, fun hobject => ?_⟩
        cases hobject
      | false =>
        rw [memberValue_replace ha harr hw ha' hv]
        simp [Json.isArray, Json.isObject]
    | obj ms =>
      rw [memberValue_merge ha hw ha' hv]
      simp [Json.isArray, Json.isObject]
    | null | bool | num | str =>
      cases ha'
      cases hv
      refine iff_of_true rfl ⟨fun harray => ?_, fun hobject => ?_⟩
      · cases harray
      · cases hobject

end Law

section Write

variable (L : JsonLib F)

/-- A set of a value at an addressed name. -/
def write (o : ObjText F) (k : String) (v : Json F) : ObjText F :=
  match o.entries.lookup k with
  | some _ => o.replace k ((L.encodeValue v).getD "") v
  | none => o.prepend (L.appendStringify k) k ((L.encodeValue v).getD "") v

variable {L} {o : ObjText F} {k : String} {x v : Json F}

theorem entries_write : (write L o k v).entries =
    if k ∈ keys o.entries then replaceFirst k v o.entries else (k, v) :: o.entries := by
  unfold write
  split
  · next w hw => rw [if_pos (mem_keys_of_lookup hw), ObjText.entries_replace]
  · next hnone => rw [if_neg (lookup_eq_none_iff_keys.mp hnone), ObjText.entries_prepend]

theorem column_write_self : column k (write L o k v).entries = v :: (column k o.entries).tail := by
  rw [entries_write]
  split
  · next hk => exact column_replaceFirst_self hk v
  · next hk =>
      rw [column_cons_self, column_eq_nil.mpr (lookup_eq_none_iff_keys.mpr hk), List.tail_nil]

theorem column_write_of_ne {k' : String} (h : k' ≠ k) :
    column k' (write L o k v).entries = column k' o.entries := by
  rw [entries_write]
  split
  · exact column_replaceFirst_of_ne h v _
  · exact column_cons_of_ne (e := (k, v)) h _

theorem lookup_write_self : (write L o k v).entries.lookup k = some v := by
  rw [← head?_column, column_write_self, List.head?_cons]

theorem lookup_write_of_ne {k' : String} (h : k' ≠ k) :
    (write L o k v).entries.lookup k' = o.entries.lookup k' := by
  rw [← head?_column, column_write_of_ne h, head?_column]

theorem mem_write {e : String × Json F} (h : e ∈ (write L o k v).entries) :
    e = (k, v) ∨ e ∈ o.entries := by
  rw [entries_write] at h
  split at h
  · exact mem_replaceFirst h
  · exact List.mem_cons.mp h

theorem nodup_write (h : (keys o.entries).Nodup) : (keys (write L o k v).entries).Nodup := by
  rw [entries_write]
  split
  · rwa [keys_replaceFirst]
  · next hk => exact List.nodup_cons.mpr ⟨hk, h⟩

theorem finite_write (ho : o.finite L.fin = true) (hv : v.finite L.fin = true) :
    (write L o k v).finite L.fin = true := by
  rw [ObjText.finite_iff] at ho ⊢
  intro e he
  rcases mem_write he with rfl | he
  · exact hv
  · exact ho e he

def isContainer (x : Json F) : Bool :=
  x.isObject || x.isArray

theorem finite_memberValue {fin : F → Bool} {p : Dup} {old : Option (Json F)}
    (hx : x.finite fin = true)
    (hold : isContainer x = true → ∀ w, old = some w → w.finite fin = true)
    (h : memberValue p x old = some v) : v.finite fin = true := by
  have hvalue := Json.finite_value p x hx
  cases x with
  | obj ms =>
    cases old with
    | none =>
      cases h
      exact hvalue
    | some w =>
      obtain ⟨ns, hns, rfl⟩ := memberValue_obj h
      exact Json.finite_deepMergeValues _ _ hvalue (hns ▸ Json.finite_value p w (hold rfl w rfl))
  | arr xs =>
    simp only [memberValue] at h
    split at h
    · next ys hys =>
      obtain ⟨w, rfl, hw⟩ := Option.map_eq_some_iff.mp hys
      have hys := Json.finite_value p w (hold rfl w rfl)
      rw [hw, Json.finite, Json.finiteElems_iff] at hys
      rw [Json.value, Json.finite, Json.finiteElems_iff] at hvalue
      cases h
      rw [Json.finite, Json.finiteElems_iff]
      intro z hz
      rcases List.mem_append.mp hz with hz | hz
      · exact hys z hz
      · exact hvalue z hz
    · cases h
      exact hvalue
  | null | bool | num | str =>
    cases h
    exact hx

theorem finite_lookup (ho : o.finite L.fin = true) {w : Json F} (h : o.entries.lookup k = some w) :
    w.finite L.fin = true :=
  (o.finite_iff L.fin).mp ho (k, w) (mem_of_lookup h)

theorem mergeMember_render (hk : L.Addressed k) (ho : o.finite L.fin = true)
    (hx : x.finite L.fin = true) :
    mergeMember L o.render k x =
      (memberValue L.dup x (o.entries.lookup k)).map fun v => (write L o k v).render := by
  rw [mergeMember_eq, hk.get]
  cases hv : memberValue L.dup x (o.entries.lookup k) with
  | none => rfl
  | some v =>
    have hfinite := finite_memberValue hx (fun _ w hw => finite_lookup ho hw) hv
    obtain ⟨raw, hraw⟩ := Option.isSome_iff_exists.mp (JsonLib.encodeValue_isSome hfinite)
    rw [Option.map_some, Option.map_some, JsonLib.set_addressed hk hraw, write, hraw]
    cases o.entries.lookup k <;> rfl

end Write

section Contribution

/-- What a contribution makes of the values that the envelope has at a name. -/
def joined (p : Dup) (acc : Option (Json F)) (col : List (Json F)) : Option (List (Json F)) :=
  match acc with
  | none => some col
  | some x => (memberValue p x col.head?).map (· :: col.tail)

variable {L : JsonLib F}

theorem mergeMembers_render {o : ObjText F} {es : List (String × Json F)}
    (ho : o.finite L.fin = true) (hes : ∀ e ∈ es, L.Addressed e.1 ∧ e.2.finite L.fin = true)
    (honce : (keys es).Nodup) :
    (∃ o' : ObjText F, mergeMembers L o.render es = (o'.render, none) ∧
        ∀ k, joined L.dup (es.lookup k) (column k o.entries) = some (column k o'.entries)) ∨
      (mergeMembers L o.render es).2 ≠ none ∧
      ∃ k, joined L.dup (es.lookup k) (column k o.entries) = none := by
  induction es generalizing o with
  | nil => exact .inl ⟨o, rfl, fun k => rfl⟩
  | cons e es ih =>
    obtain ⟨k, x⟩ := e
    rw [List.forall_mem_cons] at hes
    rw [keys_cons, List.nodup_cons] at honce
    have hself : ((k, x) :: es).lookup k = some x := lookup_cons_fst (k, x) es
    have hother {k' : String} (hk : k' ≠ k) : ((k, x) :: es).lookup k' = es.lookup k' :=
      lookup_cons_of_ne (e := (k, x)) hk es
    have hmember := mergeMember_render hes.1.1 ho hes.1.2
    rw [mergeMembers, hmember]
    cases hv : memberValue L.dup x (o.entries.lookup k) with
    | none =>
      refine .inr ⟨by simp, k, ?_⟩
      rw [hself, joined, head?_column, hv]
      rfl
    | some v =>
      have hfinite := finite_memberValue hes.1.2 (fun _ w hw => finite_lookup ho hw) hv
      have hnone : es.lookup k = none := lookup_eq_none_iff_keys.mpr honce.1
      rcases ih (finite_write (k := k) ho hfinite) hes.2 honce.2 with ⟨o', hmerge, hcols⟩
        | ⟨herr, k', hk'⟩
      · refine .inl ⟨o', hmerge, fun k' => ?_⟩
        by_cases hk : k' = k
        · subst hk
          have hcol := hcols k'
          rw [hnone, column_write_self] at hcol
          rw [hself, joined, head?_column, hv]
          exact hcol
        · rw [hother hk, ← column_write_of_ne (v := v) hk]
          exact hcols k'
      · refine .inr ⟨herr, k', ?_⟩
        have hk : k' ≠ k := by
          rintro rfl
          rw [hnone] at hk'
          cases hk'
        rwa [hother hk, ← column_write_of_ne (v := v) hk]

end Contribution

end Merge

end ThanksComputer
