import ThanksComputer.Merge.Fast

/-! Both merge paths give the same text.  The slow path is followed one output member at a time; its
text after each is the envelope's with the members planned so far in front of it and the planned
values written into it. -/

universe u

namespace ThanksComputer.Merge

open Lib.Splice

variable {F : Type u}

/-- The place of the value of the first member of a name, counted from the first member. -/
def valPos (k : String) : List (Member F) → Option Nat
  | [] => none
  | m :: ms =>
    if m.name = k then some (Member.valOffset m)
    else (valPos k ms).map (m.render.length + 1 + ·)

theorem valPos_cons (k : String) (m : Member F) (ms : List (Member F)) : valPos k (m :: ms) =
    if m.name = k then some (Member.valOffset m) else (valPos k ms).map
      (m.render.length + 1 + ·) := rfl

theorem valOffset_lt (m : Member F) : Member.valOffset m < m.render.length := by
  simp only [Member.valOffset, Member.render, blank, List.length_append, List.length_map,
    List.length_cons]
  omega

theorem length_renderMembers_cons (m : Member F) (ms : List (Member F)) :
    m.render.length ≤ (renderMembers (m :: ms)).length := by
  cases ms with
  | nil => exact le_rfl
  | cons m' ms => simp [renderMembers]

theorem valPos_lt {k : String} {ms : List (Member F)} {i : Nat} (h : valPos k ms = some i) :
    i < (renderMembers ms).length := by
  induction ms generalizing i with
  | nil => cases h
  | cons m ms ih =>
    rw [valPos_cons] at h
    split at h
    · cases h
      exact (valOffset_lt m).trans_le (length_renderMembers_cons m ms)
    · obtain ⟨j, hj, rfl⟩ := Option.map_eq_some_iff.mp h
      have hne : ms ≠ [] := by
        rintro rfl
        cases hj
      have := ih hj
      rw [renderMembers_cons hne]
      simp only [List.length_append, List.length_cons]
      omega

theorem valPos_injective {k k' : String} {ms : List (Member F)} {i : Nat}
    (h : valPos k ms = some i) (h' : valPos k' ms = some i) : k = k' := by
  induction ms generalizing i with
  | nil => cases h
  | cons m ms ih =>
    have hlt := valOffset_lt m
    rw [valPos_cons] at h h'
    split at h <;> split at h'
    · next hk hk' => exact hk.symm.trans hk'
    · obtain ⟨j, -, hj⟩ := Option.map_eq_some_iff.mp h'
      cases h
      omega
    · obtain ⟨j, -, hj⟩ := Option.map_eq_some_iff.mp h
      cases h'
      omega
    · obtain ⟨j, hj, hji⟩ := Option.map_eq_some_iff.mp h
      obtain ⟨j', hj', hji'⟩ := Option.map_eq_some_iff.mp h'
      have : j = j' := by omega
      exact ih hj (this ▸ hj')

theorem render_setVal (m : Member F) (raw : String) (v : Json F) :
    ({ m with raw, val := v } : Member F).render =
      m.render.set (Member.valOffset m) (.val raw v) := by
  have hsplit : ∀ (r : String) (w : Json F), ({ m with raw := r, val := w } : Member F).render =
      (blank m.pre ++ .key m.rawKey m.name :: blank m.sepL ++ .colon :: blank m.sepR) ++
        .val r w :: blank m.post := by
    intro r w
    simp [Member.render]
  have hlen : (blank m.pre ++ Tok.key m.rawKey m.name :: blank m.sepL ++
      Tok.colon :: blank m.sepR : Text F).length = Member.valOffset m := by
    simp only [Member.valOffset, blank, List.length_append, List.length_map, List.length_cons]
    omega
  rw [hsplit, show m.render = _ from hsplit m.raw m.val,
    List.set_append_right _ _ (by rw [hlen]), hlen]
  simp

theorem renderMembers_replaceMember {k raw : String} {v : Json F} {ms : List (Member F)} {i : Nat}
    (h : valPos k ms = some i) :
    renderMembers (replaceMember k raw v ms) = (renderMembers ms).set i (.val raw v) := by
  induction ms generalizing i with
  | nil => cases h
  | cons m ms ih =>
    rw [valPos_cons] at h
    rw [replaceMember]
    split at h
    · next hk =>
      cases h
      rw [if_pos hk]
      cases ms with
      | nil => exact render_setVal m raw v
      | cons m' ms =>
        have hne : m' :: ms ≠ [] := by simp
        rw [renderMembers_cons hne, renderMembers_cons hne, render_setVal,
          List.set_append_left _ _ (valOffset_lt m)]
    · next hk =>
      obtain ⟨j, hj, rfl⟩ := Option.map_eq_some_iff.mp h
      have hne : ms ≠ [] := by
        rintro rfl
        cases hj
      rw [if_neg hk, renderMembers_cons (mt replaceMember_eq_nil.mp hne), renderMembers_cons hne,
        ih hj, List.set_append_right _ _ (by omega),
        show m.render.length + 1 + j - m.render.length = j + 1 by omega, List.set_cons_succ]

theorem renderBody_replace {k raw : String} {v : Json F} {o : ObjText F} {i : Nat}
    (h : valPos k o.members = some i) :
    (o.replace k raw v).renderBody = o.renderBody.set i (.val raw v) := by
  have hne : o.members ≠ [] := by
    intro hnil
    rw [hnil] at h
    cases h
  have hin : o.inner = [] := o.inner_nil hne
  have hlt := valPos_lt h
  simp only [ObjText.renderBody, ObjText.replace, hin, blank_nil, List.nil_append,
    renderMembers_replaceMember h]
  rw [List.set_append_left _ _ hlt]

theorem valPos_replaceMember (k k' raw : String) (v : Json F) (ms : List (Member F)) :
    valPos k (replaceMember k' raw v ms) = valPos k ms := by
  induction ms with
  | nil => rfl
  | cons m ms ih =>
    rw [replaceMember]
    split
    · simp only [valPos_cons, Member.valOffset, render_setVal, List.length_set]
    · rw [valPos_cons, valPos_cons, ih]

theorem valPos_isSome (k : String) (ms : List (Member F)) :
    (valPos k ms).isSome = (ms.find? fun m => m.name == k).isSome := by
  induction ms with
  | nil => rfl
  | cons m ms ih =>
    by_cases hk : m.name = k
    · simp [valPos_cons, hk]
    · simpa [valPos_cons, hk] using ih

theorem lookup_srcEntries (k : String) (pos : Nat) (ms : List (Member F)) :
    (srcEntries pos ms).lookup k =
      (valPos k ms).bind fun i =>
        (ms.find? fun m => m.name == k).map fun m => ⟨pos + i, m.raw, m.val⟩ := by
  induction ms generalizing pos with
  | nil => rfl
  | cons m ms ih =>
    by_cases hk : m.name = k
    · subst hk
      simp [srcEntries, valPos_cons]
    · have hk' : (k == m.name) = false := by simpa using fun h => hk h.symm
      have hk'' : (m.name == k) = false := by simpa using hk
      simp only [srcEntries, List.lookup_cons, hk', ih, valPos_cons, hk, if_false, List.find?_cons,
        hk'']
      cases valPos k ms with
      | none => rfl
      | some i => simp [Nat.add_assoc]

theorem collectSrc_eq {src : Text F} {es seen r : List (String × SrcVal F)}
    (h : collectSrc src es seen = some r) : r = seen ++ es := by
  induction es generalizing seen with
  | nil =>
    cases h
    simp
  | cons e es ih =>
    obtain ⟨k, e⟩ := e
    rw [collectSrc] at h
    split at h
    · cases h
    · split at h
      · cases h
      · split at h
        · cases h
        · rw [ih h]
          simp

/-- What stands between the brace and the envelope's own text. -/
def front (o : ObjText F) (plan : Plan F) : Text F :=
  commaJoin plan.prepends.reverse ++
    if !plan.prepends.isEmpty && !o.members.isEmpty then [.comma] else []

/-- The slow path's object after the members in `seen`, against the fast path's plan. -/
structure Follows (o : ObjText F) (seen : List String) (plan : Plan F) (cur : ObjText F) :
    Prop where
  lead : cur.lead = []
  body : cur.renderBody =
    front o plan ++ writes o.renderBody (plan.replaces.map fun r => (r.1 - 1, r.2))
  places : ∀ k i, valPos k o.members = some i →
    valPos k cur.members = some ((front o plan).length + i)
  entries : ∀ k, k ∉ seen → cur.entries.lookup k = o.entries.lookup k
  isEmpty : cur.members.isEmpty = (o.members.isEmpty && plan.prepends.isEmpty)
  written : ∀ r ∈ plan.replaces, ∃ k ∈ seen, ∃ i, valPos k o.members = some i ∧ r.1 = i + 1
  distinct : (plan.replaces.map Prod.fst).Nodup

theorem Follows.start {o : ObjText F} (h : o.lead = []) : Follows o [] ⟨[], []⟩ o where
  lead := h
  body := rfl
  places k i hi := by simpa [front, commaJoin] using hi
  entries _ _ := rfl
  isEmpty := by simp
  written := by simp
  distinct := by simp

theorem Follows.replace {o cur : ObjText F} {seen : List String} {plan : Plan F}
    (h : Follows o seen plan cur) {k raw : String} {v : Json F} {i : Nat}
    (hk : k ∉ seen) (hi : valPos k o.members = some i) :
    Follows o (k :: seen) { plan with replaces := plan.replaces ++ [(1 + i, .val raw v)] }
      (cur.replace k raw v) where
  lead := h.lead
  body := by
    rw [renderBody_replace (h.places k i hi), h.body, List.set_append_right _ _ (by omega)]
    simp [front, writes_append]
  places k' j hj := by
    rw [ObjText.replace, valPos_replaceMember]
    exact h.places k' j hj
  entries k' hk' := by
    rw [List.mem_cons, not_or] at hk'
    rw [ObjText.entries_replace, Lib.Assoc.lookup_replaceFirst_of_ne hk'.1]
    exact h.entries k' hk'.2
  isEmpty := by
    have hnil : (replaceMember k raw v cur.members).isEmpty = cur.members.isEmpty := by
      rw [Bool.eq_iff_iff, List.isEmpty_iff, List.isEmpty_iff, replaceMember_eq_nil]
    rw [ObjText.replace, hnil]
    exact h.isEmpty
  written r hr := by
    rcases List.mem_append.mp hr with hr | hr
    · obtain ⟨k', hk', hw⟩ := h.written r hr
      exact ⟨k', List.mem_cons_of_mem _ hk', hw⟩
    · rw [List.mem_singleton] at hr
      subst hr
      exact ⟨k, List.mem_cons_self, i, hi, Nat.add_comm 1 i⟩
  distinct := by
    rw [List.map_append, List.map_singleton, List.nodup_append]
    refine ⟨h.distinct, List.nodup_singleton _, ?_⟩
    intro a ha b hb hab
    obtain ⟨r, hr, rfl⟩ := List.mem_map.mp ha
    rw [List.mem_singleton] at hb
    obtain ⟨k', hk', j, hj, hrj⟩ := h.written r hr
    have hji : j = i := by omega
    exact hk (valPos_injective hi (hji ▸ hj) ▸ hk')

theorem front_append (o : ObjText F) (plan : Plan F) (t : Text F) :
    front o { plan with prepends := plan.prepends ++ [t] } =
      t ++ (if o.members.isEmpty && plan.prepends.isEmpty then [] else [.comma]) ++
        front o plan := by
  simp only [front, List.reverse_append, List.reverse_singleton, List.singleton_append]
  cases hp : plan.prepends.reverse with
  | nil =>
    rw [List.reverse_eq_nil_iff] at hp
    cases o.members <;> simp [commaJoin, hp]
  | cons p ps =>
    have hne : plan.prepends ≠ [] := by
      rintro hnil
      simp [hnil] at hp
    cases o.members <;> simp [commaJoin, hne]

theorem Follows.prepend {o cur : ObjText F} {seen : List String} {plan : Plan F}
    (h : Follows o seen plan cur) {rawKey k raw : String} {v : Json F}
    (hi : valPos k o.members = none) :
    Follows o (k :: seen)
      { plan with prepends := plan.prepends ++ [[.key rawKey k, .colon, .val raw v]] }
      (cur.prepend rawKey k raw v) where
  lead := rfl
  body := by
    rw [ObjText.renderBody_prepend, h.isEmpty, front_append, h.body]
    simp
  places k' j hj := by
    have hne : ¬k = k' := by
      rintro rfl
      rw [hi] at hj
      cases hj
    have hpos := h.places k' j hj
    have hcur : cur.members ≠ [] := by
      intro hnil
      rw [hnil] at hpos
      cases hpos
    have hin : cur.inner = [] := cur.inner_nil hcur
    have hempty : (o.members.isEmpty && plan.prepends.isEmpty) = false := by
      rw [← h.isEmpty]
      simpa using hcur
    rw [front_append, hempty]
    simp only [ObjText.prepend, valPos_cons, hne, if_false, hpos, hin, Option.map_some,
      Member.render,
      blank_nil, List.length_append, List.length_cons, List.length_nil, Option.some.injEq,
      Bool.false_eq_true]
    omega
  entries k' hk' := by
    rw [List.mem_cons, not_or] at hk'
    rw [ObjText.entries_prepend, Lib.Assoc.lookup_cons_of_ne (e := (k, v)) hk'.1]
    exact h.entries k' hk'.2
  isEmpty := by simp [ObjText.prepend]
  written r hr := by
    obtain ⟨k', hk', hw⟩ := h.written r hr
    exact ⟨k', List.mem_cons_of_mem _ hk', hw⟩
  distinct := h.distinct

variable {L : JsonLib F}

theorem encodeValue_of_marshalFinite {v : Json F} {raw : String}
    (hv : v.isObject = true ∨ v.isArray = true) (h : marshalFinite L v = some raw) :
    L.encodeValue v = some raw := by
  cases v with
  | obj ms => exact h
  | arr xs => exact h
  | null | bool | num | str => simp [Json.isObject, Json.isArray] at hv

theorem encodeValue_of_mergeEncodeScalar {x : Json F} {raw : String}
    (h : mergeEncodeScalar L x = some raw) : L.encodeValue x = some raw := by
  cases x with
  | bool b => cases b <;> exact h
  | null | num | str => exact h
  | arr | obj => cases h

theorem marshalled_spec {v w : Json F} {raw : String} (hv : v.isObject = true ∨ v.isArray = true)
    (h : (marshalFinite L v).map (·, v) = some (raw, w)) : w = v ∧ L.encodeValue w = some raw := by
  obtain ⟨r, hr, heq⟩ := Option.map_eq_some_iff.mp h
  cases heq
  exact ⟨rfl, encodeValue_of_marshalFinite hv hr⟩

theorem fastValue_spec {src : Text F} {k : String} {sv : Option (SrcVal F)} {x v : Json F}
    {raw : String} (hget : L.get src k = sv.map SrcVal.val)
    (h : fastValue L sv x = some (raw, v)) :
    mergeMember L src k x = some (L.set src k v) ∧ L.encodeValue v = some raw := by
  cases x with
  | obj ms =>
    cases sv with
    | none =>
      obtain ⟨rfl, henc⟩ := marshalled_spec (by simp [Json.value, Json.isObject]) h
      exact ⟨by simp [mergeMember, hget], henc⟩
    | some e =>
      cases hv : e.val.value L.dup with
      | obj ns =>
        simp only [fastValue, hv] at h
        obtain ⟨rfl, henc⟩ :=
          marshalled_spec (by simp [Json.value, Json.deepMergeValues, Json.isObject]) h
        exact ⟨by simp [mergeMember, hget, hv], henc⟩
      | null | bool | num | str | arr =>
        simp only [fastValue, hv] at h
        cases h
  | arr xs =>
    cases sv with
    | none =>
      obtain ⟨rfl, henc⟩ := marshalled_spec (by simp [Json.value, Json.isArray]) h
      exact ⟨by simp [mergeMember, hget], henc⟩
    | some e =>
      cases hv : e.val.value L.dup with
      | arr ys =>
        simp only [fastValue, Option.map_some, hv] at h
        obtain ⟨rfl, henc⟩ := marshalled_spec (by simp [Json.isArray]) h
        exact ⟨by simp [mergeMember, hget, hv], henc⟩
      | null | bool | num | str | obj =>
        simp only [fastValue, Option.map_some, hv] at h
        obtain ⟨rfl, henc⟩ := marshalled_spec (by simp [Json.value, Json.isArray]) h
        exact ⟨by simp [mergeMember, hget, hv], henc⟩
  | null | bool | num | str =>
    simp only [fastValue] at h
    obtain ⟨r, hr, heq⟩ := Option.map_eq_some_iff.mp h
    cases heq
    exact ⟨rfl, encodeValue_of_mergeEncodeScalar hr⟩

theorem lookup_srcEntries_eq_none {o : ObjText F} {k : String} {pos : Nat}
    (h : (srcEntries pos o.members).lookup k = none) :
    valPos k o.members = none ∧ o.entries.lookup k = none := by
  rw [lookup_srcEntries] at h
  have hs := valPos_isSome k o.members
  rw [o.lookup_entries, ObjText.find?]
  cases hp : valPos k o.members <;> cases hf : o.members.find? fun m => m.name == k <;>
    simp_all

theorem lookup_srcEntries_eq_some {o : ObjText F} {k : String} {pos : Nat} {e : SrcVal F}
    (h : (srcEntries pos o.members).lookup k = some e) :
    ∃ i, valPos k o.members = some i ∧ e.index = pos + i ∧ o.entries.lookup k = some e.val := by
  rw [lookup_srcEntries, Option.bind_eq_some_iff] at h
  obtain ⟨i, hi, h⟩ := h
  obtain ⟨m, hm, rfl⟩ := Option.map_eq_some_iff.mp h
  exact ⟨i, hi, rfl, by simp [o.lookup_entries, ObjText.find?, hm]⟩

theorem mergeMembers_follows {o cur : ObjText F} {seen : List String} {plan plan' : Plan F}
    {ms : List (String × Json F)} (h : Follows o seen plan cur)
    (hd : collectDst L (srcEntries 1 o.members) ms seen plan = some plan') :
    ∃ seen' cur', mergeMembers L cur.render ms = (cur'.render, none) ∧
      Follows o seen' plan' cur' := by
  induction ms generalizing seen plan cur with
  | nil =>
    cases hd
    exact ⟨seen, cur, rfl, h⟩
  | cons e ms ih =>
    obtain ⟨k, x⟩ := e
    rw [collectDst] at hd
    split at hd
    · cases hd
    · next hplain =>
      rw [Bool.not_eq_true', Bool.not_eq_false] at hplain
      split at hd
      · cases hd
      · next hseen =>
        rw [List.contains_iff_mem] at hseen
        split at hd
        · cases hd
        · next raw v hfast =>
          have hcur := h.entries k hseen
          cases hsv : (srcEntries 1 o.members).lookup k with
          | some e =>
            obtain ⟨i, hi, hidx, hoe⟩ := lookup_srcEntries_eq_some hsv
            rw [hsv] at hfast hd
            have hget : L.get cur.render k = (some e).map SrcVal.val := by
              rw [JsonLib.get_plain hplain, hcur, hoe]
              rfl
            obtain ⟨hm, henc⟩ := fastValue_spec hget hfast
            rw [JsonLib.set_plain hplain henc, hcur, hoe] at hm
            simp only [hidx] at hd
            rw [mergeMembers, hm]
            exact ih (h.replace hseen hi) hd
          | none =>
            obtain ⟨hi, hoe⟩ := lookup_srcEntries_eq_none hsv
            rw [hsv] at hfast hd
            have hget : L.get cur.render k = (none : Option (SrcVal F)).map SrcVal.val := by
              rw [JsonLib.get_plain hplain, hcur, hoe]
              rfl
            obtain ⟨hm, henc⟩ := fastValue_spec hget hfast
            rw [JsonLib.set_plain hplain henc, hcur, hoe] at hm
            rw [mergeMembers, hm]
            exact ih (h.prepend hi) hd

theorem nonEmptyAfterBrace_renderBody (o : ObjText F) :
    nonEmptyAfterBrace o.renderBody = !o.members.isEmpty := by
  have hblank : ∀ (b : List Char) (t : Text F),
      nonEmptyAfterBrace (blank b ++ t) = nonEmptyAfterBrace t := by
    intro b t
    induction b with
    | nil => rfl
    | cons c b ih => exact ih
  cases hms : o.members with
  | nil => simp [ObjText.renderBody, hms, renderMembers, hblank, nonEmptyAfterBrace]
  | cons m ms =>
    have hr : ∃ t, renderMembers (m :: ms) = m.render ++ t := by
      cases ms with
      | nil => exact ⟨[], by simp [renderMembers]⟩
      | cons m' ms => exact ⟨_, rfl⟩
    obtain ⟨t, ht⟩ := hr
    simp [ObjText.renderBody, hms, ht, Member.render, hblank, nonEmptyAfterBrace]

theorem pairwise_insertionSort_fst (rs : List (Nat × Tok F)) :
    (rs.insertionSort fun a b => a.1 ≤ b.1).Pairwise fun a b => a.1 ≤ b.1 := by
  have : Std.Total fun a b : Nat × Tok F => a.1 ≤ b.1 := ⟨fun a b => Nat.le_total a.1 b.1⟩
  have : IsTrans (Nat × Tok F) fun a b => a.1 ≤ b.1 := ⟨fun _ _ _ => Nat.le_trans⟩
  exact List.pairwise_insertionSort _ rs

theorem Follows.emit_eq {o cur : ObjText F} {seen : List String} {plan : Plan F}
    (h : Follows o seen plan cur) : emit (.lbrace :: o.renderBody) plan = cur.render := by
  have hrender : cur.render = .lbrace :: cur.renderBody := by
    rw [ObjText.render_eq, h.lead]
    rfl
  rw [hrender, h.body, emit, front]
  split
  · next hnil =>
    rw [Bool.and_eq_true, List.isEmpty_iff, List.isEmpty_iff] at hnil
    simp [hnil.1, hnil.2, commaJoin]
  · simp only [List.drop_succ_cons, List.drop_zero, nonEmptyAfterBrace_renderBody]
    have hperm := List.perm_insertionSort (fun a b : Nat × Tok F => a.1 ≤ b.1) plan.replaces
    have hsorted : ((plan.replaces.insertionSort fun a b => a.1 ≤ b.1).map Prod.fst).Pairwise
        (· < ·) := by
      have hle := pairwise_insertionSort_fst plan.replaces
      have hnd := (hperm.map Prod.fst).nodup_iff.mpr h.distinct
      rw [List.pairwise_map]
      rw [List.Nodup, List.pairwise_map] at hnd
      refine (hle.and hnd).imp ?_
      rintro a b ⟨hab, hne⟩
      exact lt_of_le_of_ne hab hne
    have hbound : ∀ r ∈ plan.replaces.insertionSort fun a b => a.1 ≤ b.1,
        1 ≤ r.1 ∧ r.1 < 1 + o.renderBody.length := by
      intro r hr
      obtain ⟨k, -, i, hi, hri⟩ := h.written r (hperm.mem_iff.mp hr)
      have hlt := valPos_lt hi
      simp only [ObjText.renderBody, List.length_append, List.length_cons]
      omega
    rw [splice_eq_writes _ _ _ hsorted hbound, writes_perm (hperm.map _)]
    · simp
    · rw [List.map_map, List.Nodup, List.pairwise_map]
      rw [List.pairwise_map] at hsorted
      refine hsorted.imp_of_mem ?_
      intro a b ha _ hab
      have := hbound a ha
      simp only [Function.comp_apply]
      omega

theorem startsWithBrace_parse {t : Text F} {o : ObjText F} (ht : startsWithBrace t = true)
    (h : parse t = some o) : o.lead = [] ∧ t = .lbrace :: o.renderBody := by
  have hr := render_of_parse h
  rw [ObjText.render_eq] at hr
  cases hl : o.lead with
  | nil =>
    rw [hl] at hr
    exact ⟨rfl, hr.symm⟩
  | cons c cs =>
    rw [hl] at hr
    subst hr
    cases ht

theorem isObjectText_of_startsWithBrace {t : Text F} (h : startsWithBrace t = true) :
    isObjectText t = true ∧ t.isEmpty = false := by
  match t, h with
  | .lbrace :: _, _ => exact ⟨rfl, rfl⟩

theorem mergeJSONSlow_of_fast {src dst out : Text F} (h : mergeJSONFast L src dst = some out) :
    mergeJSONSlow L src dst = (out, none) := by
  rw [mergeJSONFast] at h
  split at h
  · cases h
  · next hbraces =>
    simp only [Bool.or_eq_true, Bool.not_eq_true', not_or, Bool.not_eq_false] at hbraces
    obtain ⟨hsrc, hdst⟩ := hbraces
    obtain ⟨hsrcObj, hsrcNil⟩ := isObjectText_of_startsWithBrace hsrc
    obtain ⟨hdstObj, hdstNil⟩ := isObjectText_of_startsWithBrace hdst
    split at h
    · cases h
    · next o ho =>
      obtain ⟨hlead, heq⟩ := startsWithBrace_parse hsrc ho
      split at h
      · cases h
      · next srcVals hcollect =>
        obtain ⟨plan, hplan, rfl⟩ := Option.map_eq_some_iff.mp h
        rw [collectSrc_eq hcollect, List.nil_append] at hplan
        obtain ⟨seen, cur, hslow, hfollows⟩ := mergeMembers_follows (Follows.start hlead) hplan
        rw [render_of_parse ho] at hslow
        rw [heq, hfollows.emit_eq, ← heq]
        simp [mergeJSONSlow, hsrcNil, hdstNil, hsrcObj, hdstObj, hslow]

theorem mergeJSON_eq_slow (src dst : Text F) : mergeJSON L src dst = mergeJSONSlow L src dst := by
  rw [mergeJSON]
  split
  · next out h => exact (mergeJSONSlow_of_fast h).symm
  · rfl

theorem mergeJSON_render (env out : ObjText F) :
    mergeJSON L env.render out.render = mergeMembers L env.render out.entries := by
  have henv : env.render.isEmpty = false := by simp [ObjText.render]
  have hout : out.render.isEmpty = false := by simp [ObjText.render]
  simp [mergeJSON_eq_slow, mergeJSONSlow, henv, hout, isObjectText_render, JsonLib.each,
    parse_render]

/-- Whatever the fast path answers is, byte for byte, what the slow path returns, without error. -/
theorem mergeJSONFast_bytes {src dst out : Text F} (h : mergeJSONFast L src dst = some out) :
    (mergeJSONSlow L src dst).2 = none ∧ bytes (mergeJSONSlow L src dst).1 = bytes out := by
  rw [mergeJSONSlow_of_fast h]
  exact ⟨rfl, rfl⟩

theorem mergeJSONFast_bytes_append :
    (mergeJSONSlow (intLib .first)
      [.lbrace, .key "\"a\"" "a", .colon, .val "1" (.num 1), .comma, .ws ' ', .key "\"b\"" "b",
        .colon,
        .val "[ 1]" (.arr [.num 1]), .rbrace]
      [.lbrace, .key "\"b\"" "b", .colon, .val "[2]" (.arr [.num 2]), .comma, .key "\"c\"" "c",
        .colon,
        .val "3" (.num 3), .rbrace]).2 = none ∧
    bytes (mergeJSONSlow (intLib .first)
      [.lbrace, .key "\"a\"" "a", .colon, .val "1" (.num 1), .comma, .ws ' ', .key "\"b\"" "b",
        .colon,
        .val "[ 1]" (.arr [.num 1]), .rbrace]
      [.lbrace, .key "\"b\"" "b", .colon, .val "[2]" (.arr [.num 2]), .comma, .key "\"c\"" "c",
        .colon,
        .val "3" (.num 3), .rbrace]).1 =
    bytes (F := Int)
      [.lbrace, .key "\"c\"" "c", .colon, .val "3" (.num 3), .comma, .key "\"a\"" "a", .colon,
        .val "1" (.num 1), .comma, .ws ' ', .key "\"b\"" "b", .colon,
        .val "[1,2]" (.arr [.num 1, .num 2]), .rbrace] :=
  mergeJSONFast_bytes rfl

end ThanksComputer.Merge
