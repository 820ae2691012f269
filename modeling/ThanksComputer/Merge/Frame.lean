import ThanksComputer.Merge.Cell

/-! What a merge leaves in place: the members of the envelope that the output does not name, and the
strings and booleans of the output.  The merger addresses a member by the path `escapeDot` makes of
its name, so this rests on the name being its own path. -/

universe u

namespace ThanksComputer

open Lib.Assoc

variable {F : Type u}

namespace Json

def isStringOrBool : Json F → Bool
  | .str _ => true
  | .bool _ => true
  | _ => false

/-- The strings and booleans of `x` that stand below members only are in `v` at the same paths. -/
def Retains (x v : Json F) : Prop :=
  ∀ p w, w.isStringOrBool = true → x.getPath p = some w → v.getPath p = some w

theorem Retains.refl (x : Json F) : Retains x x :=
  fun _ _ _ h => h

theorem retains_arr (xs : List (Json F)) (v : Json F) : Retains (.arr xs) v := by
  intro p w hw h
  cases p with
  | nil =>
    cases h
    cases hw
  | cons k p => cases h

theorem retains_deepMergeValues (x y : Json F) : Retains x (deepMergeValues x y) := by
  intro p w hw h
  induction p generalizing x y with
  | nil =>
    rw [getPath_nil, Option.some.injEq] at h
    subst h
    cases x with
    | str | bool => rw [deepMergeValues, getPath_nil]
    | null | num | arr | obj => cases hw
  | cons k p ih =>
    cases x with
    | obj ms =>
      cases y with
      | obj ns =>
        rw [getPath_obj_cons, Option.bind_eq_some_iff] at h
        obtain ⟨v, hv, h⟩ := h
        rw [deepMergeValues, getPath_obj_cons, lookup_deepMergeValues, hv]
        cases ns.lookup k with
        | some v' => exact ih v v' h
        | none => exact h
      | null | bool | num | str | arr => exact h
    | null | bool | num | str | arr => cases h

end Json

namespace Merge

variable {L : JsonLib F}

theorem retains_memberValue {x v : Json F} {old : Option (Json F)}
    (h : memberValue L.dup x old = some v) : (x.value L.dup).Retains v := by
  cases x with
  | obj ms =>
    cases old with
    | none =>
      cases h
      exact .refl _
    | some w =>
      obtain ⟨ns, -, rfl⟩ := memberValue_obj h
      exact Json.retains_deepMergeValues _ _
  | arr xs =>
    rw [Json.value]
    exact Json.retains_arr _ v
  | null | bool | num | str =>
    cases h
    exact .refl _

/-- The member name, escaped and split again, is one key: itself. -/
def ownPath (k : String) : Bool :=
  match splitPath (escapeDot k) with
  | some [s] => s.name == k
  | _ => false

theorem ownPath_spec {k : String} (h : ownPath k = true) :
    ∃ s, splitPath (escapeDot k) = some [s] ∧ s.name = k := by
  rw [ownPath] at h
  split at h
  · next s hsplit => exact ⟨s, hsplit, by simpa using h⟩
  · cases h

theorem ownPath_of_plain {k : String} (h : plainMergeKey k = true) : ownPath k = true := by
  simp [ownPath, splitPath_escapeDot_plain h]

/-- What the objects and arrays among the members meet in the envelope has no infinite number.
What a name that is not plain reads is any part of it. -/
def MeetsFinite (L : JsonLib F) (o : ObjText F) (ms : List (String × Json F)) : Prop :=
  ∀ e ∈ ms, isContainer e.2 = true →
    (∀ y, o.entries.lookup e.1 = some y → y.finite L.fin = true) ∧
      (plainMergeKey e.1 = false → o.finite L.fin = true)

theorem MeetsFinite.get (hL : L.ReadsFinite) {o : ObjText F} {e : String × Json F}
    {ms : List (String × Json F)} (h : MeetsFinite L o (e :: ms)) (he : isContainer e.2 = true)
    (w : Json F) (hw : L.get o.render e.1 = some w) : w.finite L.fin = true := by
  obtain ⟨hnamed, hall⟩ := h e List.mem_cons_self he
  cases hplain : plainMergeKey e.1 with
  | true =>
    rw [JsonLib.get_plain hplain] at hw
    exact hnamed w hw
  | false => exact JsonLib.finite_get hL (hall hplain) hw

theorem MeetsFinite.tail {o : ObjText F} {e : String × Json F} {ms : List (String × Json F)}
    (h : MeetsFinite L o (e :: ms)) : MeetsFinite L o ms :=
  fun d hd => h d (List.mem_cons_of_mem _ hd)

theorem MeetsFinite.setObj {o o' : ObjText F} {ms : List (String × Json F)} (h : MeetsFinite L o ms)
    {s : PathSeg} {ss : List PathSeg} {raw : String} {v : Json F} (hv : v.finite L.fin = true)
    (hset : L.setObj o s ss raw v = some o') : MeetsFinite L o' ms := by
  intro e he hcont
  obtain ⟨hnamed, hall⟩ := h e he hcont
  refine ⟨fun y hy => ?_, fun hplain => JsonLib.finite_setObj (hall hplain) hv hset⟩
  by_cases hname : e.1 = s.name
  · rw [hname] at hy hnamed
    rw [JsonLib.setObj] at hset
    split at hset
    · next m hm =>
      have hlook : o.entries.lookup s.name = some m.val := by rw [o.lookup_entries, hm]; rfl
      split at hset
      · cases hset
        rw [ObjText.entries_replace, lookup_replaceFirst_self (mem_keys_of_lookup hlook)] at hy
        cases hy
        exact hv
      · obtain ⟨w, hw, rfl⟩ := Option.map_eq_some_iff.mp hset
        rw [ObjText.entries_replace, lookup_replaceFirst_self (mem_keys_of_lookup hlook)] at hy
        cases hy
        exact Json.finite_setNode (hnamed _ hlook) hv hw
    · cases hset
      rw [ObjText.entries_prepend, lookup_cons_fst (s.name, _)] at hy
      cases hy
      exact Json.finite_createValue hv
  · rw [JsonLib.lookup_setObj_of_ne hset hname] at hy
    exact hnamed y hy

theorem set_ownPath {k : String} (hk : ownPath k = true) (o : ObjText F) {v : Json F}
    (hv : (L.encodeValue v).isSome = true) :
    ∃ o' : ObjText F, L.set o.render k v = o'.render ∧ o'.entries.lookup k = some v ∧
      (∀ n, n ≠ k → o'.find? n = o.find? n) ∧
      ∀ ms, v.finite L.fin = true → MeetsFinite L o ms → MeetsFinite L o' ms := by
  obtain ⟨s, hsplit, hname⟩ := ownPath_spec hk
  obtain ⟨raw, henc⟩ := Option.isSome_iff_exists.mp hv
  have hset : L.set o.render k v = ((L.setObj o s [] raw v).map ObjText.render).getD [] := by
    simp [JsonLib.set, henc, JsonLib.setRaw, hsplit, parse_render]
  rw [hset]
  cases hfind : o.find? k with
  | some m =>
    have hobj : L.setObj o s [] raw v = some (o.replace k raw v) := by
      rw [JsonLib.setObj, hname, hfind]
    have hmem : k ∈ keys o.entries := by
      apply mem_keys_of_lookup (v := m.val)
      rw [o.lookup_entries, hfind]
      rfl
    rw [hobj]
    refine ⟨_, rfl, ?_, ?_, fun ms hv hms => hms.setObj hv hobj⟩
    · rw [ObjText.entries_replace, lookup_replaceFirst_self hmem]
    · intro n hn
      exact ObjText.find?_replace_of_ne hn raw v o
  | none =>
    have hobj : L.setObj o s [] raw v = some (o.prepend (L.appendStringify k) k raw v) := by
      rw [JsonLib.setObj, hname, hfind]
      rfl
    rw [hobj]
    refine ⟨_, rfl, ?_, ?_, fun ms hv hms => hms.setObj hv hobj⟩
    · rw [ObjText.entries_prepend]
      exact lookup_cons_fst (k, v) _
    · intro n hn
      exact ObjText.find?_prepend_of_ne hn _ raw v o

/-- The loop over an output of distinct names that are their own paths.  What a step has written the
later ones leave alone, as they go to other names. -/
theorem mergeMembers_frame (hL : L.ReadsFinite) {ms : List (String × Json F)}
    (hnames : ∀ e ∈ ms, ownPath e.1 = true) (hnodup : (keys ms).Nodup)
    (hfin : ∀ e ∈ ms, e.2.finite L.fin = true) {o : ObjText F} (ho : MeetsFinite L o ms)
    {t : Text F} (h : mergeMembers L o.render ms = (t, none)) :
    ∃ o' : ObjText F, t = o'.render ∧ (∀ n, n ∉ keys ms → o'.find? n = o.find? n) ∧
      ∀ e ∈ ms, ∃ v, o'.entries.lookup e.1 = some v ∧ (e.2.value L.dup).Retains v := by
  induction ms generalizing o with
  | nil =>
    cases h
    exact ⟨o, rfl, fun _ _ => rfl, fun _ he => absurd he List.not_mem_nil⟩
  | cons e ms ih =>
    rw [keys_cons, List.nodup_cons] at hnodup
    rw [mergeMembers] at h
    split at h
    · next src hsrc =>
      rw [mergeMember_eq] at hsrc
      obtain ⟨v, hmerged, rfl⟩ := Option.map_eq_some_iff.mp hsrc
      have hv := finite_memberValue (hfin e List.mem_cons_self) (ho.get hL) hmerged
      obtain ⟨o₁, heq, hlook, hrest, hmeets⟩ := set_ownPath (hnames e List.mem_cons_self) o
        (JsonLib.encodeValue_isSome hv)
      rw [heq] at h
      obtain ⟨o', rfl, hkeep, hwritten⟩ := ih (fun d hd => hnames d (List.mem_cons_of_mem _ hd))
        hnodup.2 (fun d hd => hfin d (List.mem_cons_of_mem _ hd)) (hmeets ms hv ho.tail) h
      refine ⟨o', rfl, ?_, ?_⟩
      · intro n hn
        rw [keys_cons, List.mem_cons, not_or] at hn
        rw [hkeep n hn.2, hrest n hn.1]
      · intro d hd
        rcases List.mem_cons.mp hd with rfl | hd
        · refine ⟨v, ?_, retains_memberValue hmerged⟩
          rw [o'.lookup_entries, hkeep _ hnodup.1, ← o₁.lookup_entries, hlook]
        · exact hwritten d hd
    · cases h

/-- No object of the text has two members of one name. -/
def Distinct (o : ObjText F) : Prop :=
  (Json.obj o.entries).Unique

/-- The merge, where it reports no error, keeps the bytes of every member of the envelope that the
output does not name, and has every string and boolean of the output in its place. -/
def KeepsMembers (L : JsonLib F) (src dst : ObjText F) : Prop :=
  (mergeJSON L src.render dst.render).2 = none →
    (∀ m ∈ src.members, m.name ∉ keys dst.entries →
      ∃ o m', parse (mergeJSON L src.render dst.render).1 = some o ∧ o.find? m.name = some m' ∧
        m'.raw = m.raw) ∧
    ∀ p w, w.isStringOrBool = true → (Json.obj dst.entries).getPath p = some w →
      ∃ o, parse (mergeJSON L src.render dst.render).1 = some o ∧
        (Json.obj o.entries).getPath p = some w

theorem find?_of_distinct {o : ObjText F} (h : Distinct o) {m : Member F} (hm : m ∈ o.members) :
    o.find? m.name = some m := by
  have hnodup : (o.members.map Member.name).Nodup := by
    cases h with
    | obj hk _ => simpa [keys, ObjText.entries, Function.comp_def] using hk
  rw [ObjText.find?]
  clear h
  generalize o.members = ms at hm hnodup ⊢
  induction ms with
  | nil => cases hm
  | cons d ms ih =>
    rw [List.map_cons, List.nodup_cons] at hnodup
    rcases List.mem_cons.mp hm with rfl | hm
    · simp
    · have hne : (d.name == m.name) = false := by
        simpa using fun heq : d.name = m.name => hnodup.1 (heq ▸ List.mem_map_of_mem hm)
      rw [List.find?_cons, hne]
      exact ih hm hnodup.2

theorem keepsMembers_of_ownPath (hL : L.ReadsFinite) {src dst : ObjText F}
    (hsrc : MeetsFinite L src dst.entries) (hdst : dst.finite L.fin = true) (hds : Distinct src)
    (hdd : Distinct dst) (hnames : ∀ k ∈ keys dst.entries, ownPath k = true) :
    KeepsMembers L src dst := by
  intro herr
  obtain ⟨hnodup, hunique⟩ : (keys dst.entries).Nodup ∧ ∀ e ∈ dst.entries, e.2.Unique := by
    cases hdd with
    | obj hk hu => exact ⟨hk, hu⟩
  rw [mergeJSON_render] at herr ⊢
  obtain ⟨t, ht⟩ : ∃ t, mergeMembers L src.render dst.entries = (t, none) := ⟨_, Prod.ext rfl herr⟩
  obtain ⟨o', rfl, hkeep, hwritten⟩ := mergeMembers_frame hL
    (fun e he => hnames e.1 (List.mem_map_of_mem he)) hnodup
    ((dst.finite_iff L.fin).mp hdst) hsrc ht
  simp only [ht, parse_render]
  constructor
  · intro m hm hn
    exact ⟨o', m, rfl, by rw [hkeep _ hn, find?_of_distinct hds hm], rfl⟩
  · intro p w hw hget
    refine ⟨o', rfl, ?_⟩
    cases p with
    | nil =>
      cases hget
      cases hw
    | cons k p =>
      rw [Json.getPath_obj_cons, Option.bind_eq_some_iff] at hget
      obtain ⟨x, hx, hget⟩ := hget
      have hmem := mem_of_lookup hx
      obtain ⟨v, hv, hretains⟩ := hwritten _ hmem
      rw [Json.value_of_unique L.dup (hunique _ hmem)] at hretains
      rw [Json.getPath_obj_cons, hv]
      exact hretains p w hw hget

theorem not_keepsMembers_of_not_ownPath {k : String} (hk : ownPath k = false) (s : String) :
    ¬KeepsMembers L JsonLib.emptyObj (L.ofEntries [(k, .str s)]) := by
  intro hkeeps
  rw [KeepsMembers, mergeJSON_render, JsonLib.entries_ofEntries] at hkeeps
  have hmerge : mergeMembers L JsonLib.emptyObj.render [(k, Json.str s)] =
      (L.set JsonLib.emptyObj.render k (.str s), none) := rfl
  rw [hmerge] at hkeeps
  obtain ⟨o, hparse, hget⟩ := (hkeeps rfl).2 [k] (.str s) rfl (by simp)
  rw [ownPath] at hk
  cases hsplit : splitPath (escapeDot k) with
  | none =>
    simp only [JsonLib.set, JsonLib.encodeValue, Option.bind_some, JsonLib.setRaw, hsplit,
      Option.getD_none] at hparse
    cases hparse
  | some segs =>
    cases segs with
    | nil =>
      simp only [JsonLib.set, JsonLib.encodeValue, Option.bind_some, JsonLib.setRaw, hsplit,
        Option.getD_none] at hparse
      cases hparse
    | cons seg segs =>
      simp only [JsonLib.set, JsonLib.encodeValue, Option.bind_some, JsonLib.setRaw, hsplit,
        parse_render] at hparse
      have hnone : (JsonLib.emptyObj : ObjText F).find? seg.name = none := rfl
      rw [JsonLib.setObj, hnone, Option.map_some, Option.getD_some, parse_render,
        Option.some.injEq] at hparse
      subst hparse
      rw [ObjText.entries_prepend, Json.getPath_obj_cons, Option.bind_eq_some_iff] at hget
      obtain ⟨v, hv, hget⟩ := hget
      have hname : seg.name = k := by
        have hmem := mem_of_lookup hv
        rcases List.mem_singleton.mp hmem with h
        cases h
        rfl
      subst hname
      rw [lookup_cons_fst (seg.name, _), Option.some.injEq] at hv
      subst hv
      rw [Json.getPath_nil, Option.some.injEq] at hget
      cases segs with
      | nil => simp [hsplit] at hk
      | cons seg' segs =>
        rw [Json.createValue] at hget
        split at hget
        · cases hget
        · split at hget <;> cases hget

theorem keepsMembers_single {src dst : ObjText F} {k : String} {x v : Json F} {m : Member F}
    (hk : ownPath k = true) (hds : Distinct src) (hdd : Distinct dst)
    (hdst : dst.entries = [(k, x)]) (hv : memberValue L.dup x (L.get src.render k) = some v)
    (hm : m ∈ src.members) (hne : m.name ≠ k) :
    KeepsMembers L src dst ↔ (L.encodeValue v).isSome = true := by
  have hmerge : mergeJSON L src.render dst.render = (L.set src.render k v, none) := by
    rw [mergeJSON_render, hdst, mergeMembers, mergeMember_eq, hv]
    rfl
  constructor
  · intro hkeeps
    rw [KeepsMembers, hmerge] at hkeeps
    obtain ⟨o, m', hparse, -⟩ := (hkeeps rfl).1 m hm (by simpa [hdst] using hne)
    by_contra hnone
    rw [Bool.not_eq_true, Option.isSome_eq_false_iff, Option.isNone_iff_eq_none] at hnone
    rw [JsonLib.set, hnone] at hparse
    cases hparse
  · intro henc
    obtain ⟨o', heq, hlook, hrest, -⟩ := set_ownPath hk src henc
    rw [KeepsMembers, hmerge, heq]
    intro _
    simp only [parse_render]
    constructor
    · intro m' hm' hn
      have hname : m'.name ≠ k := by simpa [hdst] using hn
      exact ⟨o', m', rfl, by rw [hrest _ hname, find?_of_distinct hds hm'], rfl⟩
    · intro p w hw hget
      refine ⟨o', rfl, ?_⟩
      rw [hdst] at hget
      cases p with
      | nil =>
        cases hget
        cases hw
      | cons n p =>
        rw [Json.getPath_obj_cons, Option.bind_eq_some_iff] at hget
        obtain ⟨y, hy, hget⟩ := hget
        obtain ⟨rfl, rfl⟩ := Prod.mk.inj (List.mem_singleton.mp (mem_of_lookup hy))
        have hunique : y.Unique := by
          rw [Distinct, hdst] at hdd
          cases hdd with
          | obj _ hu => exact hu (n, y) List.mem_cons_self
        have hretains := retains_memberValue hv
        rw [Json.value_of_unique L.dup hunique] at hretains
        rw [Json.getPath_obj_cons, hlook]
        exact hretains p w hw hget

/-- A vocabulary of member names is harmless, in every output that draws its names from it and has
nothing infinite marshalled, exactly when each of its names is its own path.  An output of one such
member keeps the others exactly when the value it is merged to can be marshalled. -/
theorem keepsMembers_iff_ownPath (hL : L.ReadsFinite) (vocabulary : Set String) :
    ((∀ k ∈ vocabulary, ownPath k = true) ↔
      ∀ src dst : ObjText F, MeetsFinite L src dst.entries → dst.finite L.fin = true →
        Distinct src → Distinct dst → (∀ k ∈ keys dst.entries, k ∈ vocabulary) →
          KeepsMembers L src dst) ∧
    ∀ (src dst : ObjText F) (k : String) (x v : Json F), ownPath k = true → Distinct src →
      Distinct dst → dst.entries = [(k, x)] → memberValue L.dup x (L.get src.render k) = some v →
        (∃ m ∈ src.members, m.name ≠ k) →
          (KeepsMembers L src dst ↔ (L.encodeValue v).isSome = true) := by
  refine ⟨⟨fun hown src dst hsrc hdst hds hdd hnames => ?_, fun hkeeps k hk => ?_⟩, ?_⟩
  · exact keepsMembers_of_ownPath hL hsrc hdst hds hdd fun k hk => hown k (hnames k hk)
  · by_contra hown
    rw [Bool.not_eq_true] at hown
    refine not_keepsMembers_of_not_ownPath (L := L) hown "" (hkeeps _ _ ?_ ?_ ?_ ?_ ?_)
    · intro e he hcont
      rw [JsonLib.entries_ofEntries] at he
      rw [List.mem_singleton.mp he] at hcont
      cases hcont
    · simp [ObjText.finite_iff, Json.finite]
    · exact .obj List.nodup_nil fun e he => absurd he List.not_mem_nil
    · rw [Distinct, JsonLib.entries_ofEntries]
      exact .obj (by simp) fun e he => List.mem_singleton.mp he ▸ .str _
    · simpa using hk
  · rintro src dst k x v hk hds hdd hdst hv ⟨m, hm, hne⟩
    exact keepsMembers_single hk hds hdd hdst hv hm hne

theorem keepsMembers_pipe :
    (intLib .first).ReadsFinite ∧
      KeepsMembers (intLib .first)
        ((intLib .first).ofEntries [("a", .num 1), ("b", .obj [("c", .num 2)])])
        ((intLib .first).ofEntries [("b", .obj [("d", .bool true)]), ("x|y", .str "z")]) := by
  have hL : (intLib .first).ReadsFinite := by
    intro o path raw v _ h
    cases h
  refine ⟨hL, (keepsMembers_iff_ownPath hL {"b", "x|y"}).1.mp ?_ _ _ ?_ ?_ ?_ ?_ ?_⟩
  · rintro k (rfl | rfl) <;> decide
  · exact fun e _ _ => ⟨fun y _ => finite_intLib _ y, fun _ => by decide⟩
  · decide
  · rw [Distinct, JsonLib.entries_ofEntries]
    refine .obj (by decide) ?_
    simp only [List.mem_cons, List.not_mem_nil, or_false, forall_eq_or_imp, forall_eq]
    exact ⟨.num 1, .obj (by decide) fun e he => List.mem_singleton.mp he ▸ .num 2⟩
  · rw [Distinct, JsonLib.entries_ofEntries]
    refine .obj (by decide) ?_
    simp only [List.mem_cons, List.not_mem_nil, or_false, forall_eq_or_imp, forall_eq]
    exact ⟨.obj (by decide) fun e he => List.mem_singleton.mp he ▸ .bool true, .str "z"⟩
  · simp

/-- An empty name empties the text, a star does the same, and a backslash sends the value to another
member. -/
theorem not_keepsMembers_odd_names :
    ¬KeepsMembers (intLib .first) ((intLib .first).ofEntries [("a", .num 1)])
        ((intLib .first).ofEntries [("", .bool true)]) ∧
    ¬KeepsMembers (intLib .first) ((intLib .first).ofEntries [("a", .num 1)])
        ((intLib .first).ofEntries [("a*", .bool true)]) ∧
    ¬KeepsMembers (intLib .first) ((intLib .first).ofEntries [("ab", .num 1)])
        ((intLib .first).ofEntries [("a\\b", .bool true)]) := by
  refine ⟨fun h => ?_, fun h => ?_, fun h => ?_⟩
  · have hnone :
      (parse (mergeJSON (intLib .first) ((intLib .first).ofEntries [("a", .num 1)]).render
        ((intLib .first).ofEntries [("", .bool true)]).render).1).isNone = true := by decide
    obtain ⟨o, -, hparse, -⟩ := (h rfl).1 _ List.mem_cons_self (by decide)
    rw [hparse] at hnone
    cases hnone
  · have hnone :
      (parse (mergeJSON (intLib .first) ((intLib .first).ofEntries [("a", .num 1)]).render
        ((intLib .first).ofEntries [("a*", .bool true)]).render).1).isNone = true := by
      decide
    obtain ⟨o, -, hparse, -⟩ := (h rfl).1 _ List.mem_cons_self (by decide)
    rw [hparse] at hnone
    cases hnone
  · have hraw :
      ((parse (mergeJSON (intLib .first) ((intLib .first).ofEntries [("ab", .num 1)]).render
        ((intLib .first).ofEntries [("a\\b", .bool true)]).render).1).bind
          fun o => (o.find? "ab").map Member.raw) = some "true" := by decide
    obtain ⟨o, m', hparse, hfind, hm'⟩ := (h rfl).1 _ List.mem_cons_self (by decide)
    have hname : o.find? "ab" = some m' := hfind
    rw [hparse, Option.bind_some, hname, Option.map_some, hm'] at hraw
    revert hraw
    decide

end Merge

end ThanksComputer
