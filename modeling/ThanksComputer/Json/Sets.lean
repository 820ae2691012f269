import ThanksComputer.Json.Builder

/-! What a builder's document says after any sets: it is valid and of the size that was computed,
the value of a set stands where its path leads, and all that lies apart from the path is as it
was. -/

namespace ThanksComputer.Builder

open Json Lib.Separate Lib.Assoc

section Law

def Matches (s : PathSeg) : Json.Place → Prop
  | .name k => k = s.name
  | .elem i => s.name.toList.all isDigit = true ∧ i = Nat.ofDigitChars 10 s.name.toList 0

def Leads : List PathSeg → List Json.Place → Prop :=
  List.Forall₂ Matches

/-- The place is neither on the path nor below it: at some step the two part. -/
def Apart : List PathSeg → List Json.Place → Prop
  | s :: ss, x :: q => ¬Matches s x ∨ Apart ss q
  | _, _ => False

/-- Neither empty nor `-1`, and no index beyond an `int`. -/
structure PlainSeg (s : PathSeg) : Prop where
  name : s.name.toList ≠ []
  append : s.isAppend = false
  index : s.name.toList.all isDigit = true → Nat.ofDigitChars 10 s.name.toList 0 < 2 ^ 63

structure SetLaw (segs : List PathSeg) (raw old new : List Char) : Prop where
  valid : Valid new
  found : ∃ loc, Leads segs loc ∧ follow loc new = some (trim raw)
  kept : ∀ q w, Apart segs q → follow q old = some w → follow q new = some w

/-- The law, for a setter of texts. -/
def Lawful (sjson : Sjson) : Prop :=
  ∀ old path raw new segs, Valid old → Valid raw → splitPath path = some segs →
    (∀ s ∈ segs, PlainSeg s) →
    sjson old path raw = some new → SetLaw segs raw old new

/-- A set of a valid value, at a path without empty segments, `-1` or an index beyond an `int`. -/
structure Op.Plain (op : Op) : Prop where
  valid : ∀ raw ∈ op.raw, Valid raw
  path : ∀ segs, splitPath op.path = some segs → ∀ s ∈ segs, PlainSeg s

inductive Node.Sound : Node → Prop
  | raw {text : List Char} (h : Valid text) : Node.Sound (.raw text)
  | obj {es : List (String × Node)} (h : ∀ e ∈ es, e.2.Sound) : Node.Sound (.obj es)
  | arr {xs : List Node} (h : ∀ x ∈ xs, x.Sound) : Node.Sound (.arr xs)

end Law

section Written

variable {n : Node} {es : List (String × Node)} {xs : List Node}

theorem writeEntries_succ (i : Nat) (es : List (String × Node)) :
    writeEntries (i + 1) es = es.flatMap fun e =>
      ',' :: (appendStringify e.1 ++ ':' :: writeNode e.2) := by
  induction es generalizing i with
  | nil => rfl
  | cons e es ih =>
    rw [writeEntries, if_pos (Nat.succ_pos i), ih, List.flatMap_cons]
    simp

theorem writeElems_succ (i : Nat) (xs : List Node) :
    writeElems (i + 1) xs = xs.flatMap fun x => ',' :: writeNode x := by
  induction xs generalizing i with
  | nil => rfl
  | cons x xs ih =>
    rw [writeElems, if_pos (Nat.succ_pos i), ih, List.flatMap_cons]
    simp

theorem sepBy_cons {α : Type} (sep : α) (x : List α) (xs : List (List α)) :
    sepBy sep (x :: xs) = x ++ xs.flatMap fun y => sep :: y := by
  induction xs generalizing x with
  | nil => simp [sepBy]
  | cons y xs ih => rw [sepBy, ih, List.flatMap_cons, List.cons_append]

theorem writeNode_obj (es : List (String × Node)) :
    writeNode (.obj es) = objectText appendStringify (mapSnd writeNode es) := by
  rw [writeNode, objectText]
  cases es with
  | nil => rfl
  | cons e es =>
    rw [writeEntries, writeEntries_succ, if_neg (Nat.lt_irrefl 0), List.nil_append]
    simp only [mapSnd, List.map_cons, List.map_map, sepBy_cons, List.flatMap_map]
    rfl

theorem writeNode_arr (xs : List Node) : writeNode (.arr xs) = arrayText (xs.map writeNode) := by
  rw [writeNode, arrayText]
  cases xs with
  | nil => rfl
  | cons x xs =>
    rw [writeElems, writeElems_succ, if_neg (Nat.lt_irrefl 0), List.nil_append, List.map_cons,
      sepBy_cons,
      List.flatMap_map]

theorem bytes_append (a b : List Char) : bytes (a ++ b) = bytes a + bytes b := by
  induction a with
  | nil => rw [List.nil_append, bytes, Nat.zero_add]
  | cons c a ih => rw [List.cons_append, bytes, bytes, ih, Nat.add_assoc]

theorem Node.Sound.valid (h : n.Sound) : Valid (writeNode n) := by
  induction h with
  | raw h => exact h
  | obj _ ih =>
    rw [writeNode_obj]
    refine valid_objectText scan_appendStringify fun m hm => ?_
    obtain ⟨e, he, rfl⟩ := List.mem_map.mp hm
    exact ih e he
  | arr _ ih =>
    rw [writeNode_arr]
    refine valid_arrayText fun t ht => ?_
    obtain ⟨x, hx, rfl⟩ := List.mem_map.mp ht
    exact ih x hx

theorem bytes_writeEntries (h : ∀ e ∈ es, bytes (writeNode e.2) = sizeNode e.2) (i : Nat) :
    bytes (writeEntries i es) = sizeEntries i es := by
  induction es generalizing i with
  | nil => rfl
  | cons e es ih =>
    rw [List.forall_mem_cons] at h
    have hcomma : bytes (if 0 < i then [','] else []) = if 0 < i then 1 else 0 := by
      split
      · rfl
      · rfl
    have hcolon : bytes (':' :: writeNode e.2) = 1 + bytes (writeNode e.2) := rfl
    rw [writeEntries, sizeEntries, bytes_append, bytes_append, bytes_append, hcomma, hcolon,
      h.1, ih h.2]
    omega

theorem bytes_writeElems (h : ∀ x ∈ xs, bytes (writeNode x) = sizeNode x) (i : Nat) :
    bytes (writeElems i xs) = sizeElems i xs := by
  induction xs generalizing i with
  | nil => rfl
  | cons x xs ih =>
    rw [List.forall_mem_cons] at h
    have hcomma : bytes (if 0 < i then [','] else []) = if 0 < i then 1 else 0 := by
      split
      · rfl
      · rfl
    rw [writeElems, sizeElems, bytes_append, bytes_append, hcomma, h.1, ih h.2]

theorem Node.Sound.size (h : n.Sound) : bytes (writeNode n) = sizeNode n := by
  induction h with
  | raw h => rfl
  | obj _ ih =>
    have hes := bytes_writeEntries ih 0
    have hclose : bytes ['\x7d'] = 1 := rfl
    rw [writeNode, sizeNode, bytes, bytes_append, hes, hclose]
    have hopen : Char.utf8Size '\x7b' = 1 := rfl
    omega
  | arr _ ih =>
    have hxs := bytes_writeElems ih 0
    have hclose : bytes [']'] = 1 := rfl
    rw [writeNode, sizeNode, bytes, bytes_append, hxs, hclose]
    have hopen : Char.utf8Size '[' = 1 := rfl
    omega

end Written

section Follow

variable {es : List (String × Node)} {xs : List Node}

theorem follow_name_obj (h : ∀ e ∈ es, e.2.Sound) (k : String) (p : List Json.Place) :
    follow (.name k :: p) (writeNode (.obj es)) = (es.lookup k).bind fun v =>
      follow p (writeNode v) := by
  rw [writeNode_obj, follow_name_objectText scan_appendStringify, lookup_mapSnd, Option.bind_map]
  · rfl
  · intro m hm
    obtain ⟨e, he, rfl⟩ := List.mem_map.mp hm
    exact (h e he).valid

theorem follow_elem_obj (es : List (String × Node)) (i : Nat) (p : List Json.Place) :
    follow (.elem i :: p) (writeNode (.obj es)) = none := by
  rw [writeNode_obj, follow_elem_objectText]

theorem follow_elem_arr (h : ∀ x ∈ xs, x.Sound) (i : Nat) (p : List Json.Place) :
    follow (.elem i :: p) (writeNode (.arr xs)) = xs[i]?.bind fun v => follow p (writeNode v) := by
  rw [writeNode_arr, follow_elem_arrayText, List.getElem?_map, Option.bind_map]
  · rfl
  · intro t ht
    obtain ⟨x, hx, rfl⟩ := List.mem_map.mp ht
    exact (h x hx).valid

theorem follow_name_arr (xs : List Node) (k : String) (p : List Json.Place) :
    follow (.name k :: p) (writeNode (.arr xs)) = none := by
  rw [writeNode_arr, follow_name_arrayText]

end Follow

section Index

variable {s : PathSeg} {xs : List Node}

theorem PlainSeg.elem_of_atoui (hs : PlainSeg s) {n : Int} (h : s.atoui = some n) :
    Matches s (.elem n.toNat) := by
  rw [PathSeg.atoui] at h
  split at h
  · cases h
  · next hdigits =>
    cases h
    simp only [Bool.or_eq_true, not_or, Bool.not_eq_true, Bool.not_eq_false'] at hdigits
    refine ⟨hdigits.2, ?_⟩
    rw [digitsValue_of_lt (hs.index hdigits.2), Int.toNat_natCast]

theorem PlainSeg.elem_of_hit (hs : PlainSeg s) {i : Nat} (h : elemHit xs s = some i) :
    Matches s (.elem i) ∧ i < xs.length := by
  rw [elemHit, gjsonArrayIndex] at h
  split at h
  · next j hj =>
    split at hj
    · cases hj
    · next hdigits =>
      cases hj
      simp only [Bool.or_eq_true, not_or, Bool.not_eq_true, Bool.not_eq_false'] at hdigits
      split at h
      · next hlt =>
        cases h
        refine ⟨⟨hdigits.2, ?_⟩, hlt.2⟩
        rw [digitsValue_of_lt (hs.index hdigits.2), Int.toNat_natCast]
      · cases h
  · cases h

theorem PlainSeg.le_of_miss (hs : PlainSeg s) {n : Int} (h : elemHit xs s = none)
    (hn : s.atoui = some n) :
    xs.length ≤ n.toNat := by
  by_contra hlt
  have hmatch := hs.elem_of_atoui hn
  have hindex : gjsonArrayIndex s.name = some (digitsValue s.name.toList) := by
    rw [gjsonArrayIndex, hmatch.1]
    simp [hs.name]
  have hvalue := digitsValue_of_lt (hs.index hmatch.1)
  rw [elemHit, hindex] at h
  simp only [hvalue] at h
  rw [← hmatch.2, if_pos ⟨by omega, by rw [Int.toNat_natCast]; omega⟩] at h
  cases h

end Index

section Set

variable {sjson : Sjson} {s : PathSeg} {ss segs : List PathSeg} {n n' : Node} {raw : List Char}

theorem sound_nullLeaf : nullLeaf.Sound :=
  .raw ⟨_, rfl, .null⟩

theorem sound_createValue (hraw : Valid raw) (ss : List PathSeg) : (createValue ss raw).Sound := by
  induction ss with
  | nil => exact .raw hraw
  | cons s ss ih =>
    rw [createValue]
    split
    · refine .arr fun x hx => ?_
      rcases List.mem_append.mp hx with hx | hx
      · rw [(List.mem_replicate.mp hx).2]
        exact sound_nullLeaf
      · rw [List.mem_singleton.mp hx]
        exact ih
    · split
      · refine .arr fun x hx => ?_
        rw [List.mem_singleton.mp hx]
        exact ih
      · refine .obj fun e he => ?_
        rw [List.mem_singleton.mp he]
        exact ih

theorem found_createValue (hraw : Valid raw) (hss : ∀ s ∈ ss, PlainSeg s) :
    ∃ loc, Leads ss loc ∧ follow loc (writeNode (createValue ss raw)) = some (trim raw) := by
  induction ss with
  | nil => exact ⟨[], .nil, rfl⟩
  | cons s ss ih =>
    rw [List.forall_mem_cons] at hss
    obtain ⟨loc, hloc, hfound⟩ := ih hss.2
    have hsound := sound_createValue hraw (s :: ss)
    cases hn : s.atoui with
    | some m =>
      refine ⟨.elem m.toNat :: loc, .cons (hss.1.elem_of_atoui hn) hloc, ?_⟩
      simp only [createValue, hn] at hsound ⊢
      cases hsound with
      | arr helems =>
        rw [follow_elem_arr helems, List.getElem?_append_right (by simp)]
        simpa using hfound
    | none =>
      refine ⟨.name s.name :: loc, .cons rfl hloc, ?_⟩
      simp only [createValue, hn, hss.1.append, if_false, Bool.false_eq_true] at hsound ⊢
      cases hsound with
      | obj hentries =>
        rw [follow_name_obj hentries, List.lookup_cons_self]
        exact hfound

theorem SetLaw.member {es : List (String × Node)} {es' : List (String × Node)} {v : Node}
    (hes : ∀ e ∈ es, e.2.Sound) (hes' : ∀ e ∈ es', e.2.Sound) (hself : es'.lookup s.name = some v)
    (hother : ∀ k, k ≠ s.name → es'.lookup k = es.lookup k)
    (hfound : ∃ loc, Leads ss loc ∧ follow loc (writeNode v) = some (trim raw))
    (hkept : ∀ w, es.lookup s.name = some w → ∀ q t, Apart ss q →
      follow q (writeNode w) = some t → follow q (writeNode v) = some t) :
    SetLaw (s :: ss) raw (writeNode (.obj es)) (writeNode (.obj es')) where
  valid := (Node.Sound.obj hes').valid
  found := by
    obtain ⟨loc, hloc, hfound⟩ := hfound
    refine ⟨.name s.name :: loc, .cons rfl hloc, ?_⟩
    rw [follow_name_obj hes', hself]
    exact hfound
  kept q t hq h := by
    rcases q with - | ⟨i | k, q⟩
    · cases hq
    · rw [follow_elem_obj] at h
      cases h
    · rw [follow_name_obj hes, Option.bind_eq_some_iff] at h
      obtain ⟨w, hw, h⟩ := h
      rw [follow_name_obj hes']
      by_cases hk : k = s.name
      · subst hk
        rw [hself]
        rcases hq with hq | hq
        · exact absurd rfl hq
        · exact hkept w hw q t hq h
      · rw [hother k hk, hw]
        exact h

theorem SetLaw.element {xs xs' : List Node} {i : Nat} {v : Node}
    (hxs : ∀ x ∈ xs, x.Sound) (hxs' : ∀ x ∈ xs', x.Sound) (hi : Matches s (.elem i))
    (hself : xs'[i]? = some v) (hother : ∀ j w, j ≠ i → xs[j]? = some w → xs'[j]? = some w)
    (hfound : ∃ loc, Leads ss loc ∧ follow loc (writeNode v) = some (trim raw))
    (hkept : ∀ w, xs[i]? = some w → ∀ q t, Apart ss q →
      follow q (writeNode w) = some t → follow q (writeNode v) = some t) :
    SetLaw (s :: ss) raw (writeNode (.arr xs)) (writeNode (.arr xs')) where
  valid := (Node.Sound.arr hxs').valid
  found := by
    obtain ⟨loc, hloc, hfound⟩ := hfound
    refine ⟨.elem i :: loc, .cons hi hloc, ?_⟩
    rw [follow_elem_arr hxs', hself]
    exact hfound
  kept q t hq h := by
    rcases q with - | ⟨j | k, q⟩
    · cases hq
    · rw [follow_elem_arr hxs, Option.bind_eq_some_iff] at h
      obtain ⟨w, hw, h⟩ := h
      rw [follow_elem_arr hxs']
      by_cases hj : j = i
      · subst hj
        rw [hself]
        rcases hq with hq | hq
        · exact absurd hi hq
        · exact hkept w hw q t hq h
      · rw [hother j w hj hw]
        exact h
    · rw [follow_name_arr] at h
      cases h

theorem setNode_law (hsjson : Lawful sjson) (hsegs : ∀ s ∈ segs, PlainSeg s) (hn : n.Sound)
    (hraw : Valid raw) (h : setNode sjson segs n raw = some n') :
    n'.Sound ∧ SetLaw segs raw (writeNode n) (writeNode n') := by
  induction segs generalizing n n' with
  | nil =>
    cases h
    exact ⟨.raw hraw, hraw, ⟨[], .nil, rfl⟩, fun q w hq _ => hq.elim⟩
  | cons s ss ih =>
    rw [List.forall_mem_cons] at hsegs
    have hcreated := sound_createValue hraw ss
    have hbuilt := found_createValue hraw hsegs.2
    cases hn with
    | @raw text htext =>
      obtain ⟨new, hnew, rfl⟩ := Option.map_eq_some_iff.mp h
      have hsplit := splitPath_joinSegs hsegs.1.name fun t ht => (hsegs.2 t ht).name
      have hlaw := hsjson _ _ _ _ _ htext hraw hsplit (List.forall_mem_cons.mpr hsegs) hnew
      exact ⟨.raw hlaw.valid, hlaw⟩
    | @obj es hes =>
      rw [setNode] at h
      cases hv : es.lookup s.name with
      | some v =>
        rw [hv] at h
        obtain ⟨v', hv', rfl⟩ := Option.map_eq_some_iff.mp h
        obtain ⟨hsound, hlaw⟩ := ih hsegs.2 (hes _ (mem_of_lookup hv)) hv'
        have hes' : ∀ e ∈ replaceFirst s.name v' es, e.2.Sound := by
          intro e he
          rcases mem_replaceFirst he with rfl | he
          · exact hsound
          · exact hes e he
        refine ⟨.obj hes', SetLaw.member hes hes' (lookup_replaceFirst_self (mem_keys_of_lookup hv))
          (fun k hk => lookup_replaceFirst_of_ne hk v' es) hlaw.found fun w hw => ?_⟩
        rw [hv] at hw
        cases hw
        exact hlaw.kept
      | none =>
        rw [hv] at h
        cases h
        have hes' : ∀ e ∈ (s.name, createValue ss raw) :: es, e.2.Sound :=
          List.forall_mem_cons.mpr ⟨hcreated, hes⟩
        refine ⟨.obj hes', SetLaw.member hes hes' List.lookup_cons_self
          (fun k hk => lookup_cons_of_ne hk es) hbuilt fun w hw => ?_⟩
        rw [hv] at hw
        cases hw
    | @arr xs hxs =>
      rw [setNode] at h
      cases hhit : elemHit xs s with
      | some i =>
        obtain ⟨hmatch, hlt⟩ := hsegs.1.elem_of_hit hhit
        rw [hhit] at h
        obtain ⟨v', hv', rfl⟩ := Option.map_eq_some_iff.mp h
        have hget : xs[i]? = some (xs.getD i nullLeaf) := by
          rw [List.getD_eq_getElem?_getD, List.getElem?_eq_getElem hlt, Option.getD_some]
        obtain ⟨hsound, hlaw⟩ := ih hsegs.2 (hxs _ (List.mem_of_getElem? hget)) hv'
        have hxs' : ∀ x ∈ xs.set i v', x.Sound := by
          intro x hx
          rcases List.mem_or_eq_of_mem_set hx with hx | rfl
          · exact hxs x hx
          · exact hsound
        refine ⟨.arr hxs', SetLaw.element hxs hxs' hmatch (List.getElem?_set_self hlt)
          (fun j w hj hw => ?_) hlaw.found fun w hw => ?_⟩
        · rw [List.getElem?_set_ne (Ne.symm hj), hw]
        · rw [hget] at hw
          cases hw
          exact hlaw.kept
      | none =>
        rw [hhit] at h
        cases hatoui : s.atoui with
        | some m =>
          rw [hatoui] at h
          cases h
          have hle := hsegs.1.le_of_miss hhit hatoui
          have hxs' :
            ∀ x ∈ xs ++ List.replicate (m.toNat - xs.length) nullLeaf ++ [createValue ss raw],
              x.Sound := by
            intro x hx
            rcases List.mem_append.mp hx with hx | hx
            · rcases List.mem_append.mp hx with hx | hx
              · exact hxs x hx
              · rw [(List.mem_replicate.mp hx).2]
                exact sound_nullLeaf
            · rw [List.mem_singleton.mp hx]
              exact hcreated
          refine ⟨.arr hxs', SetLaw.element hxs hxs' (hsegs.1.elem_of_atoui hatoui) ?_
            (fun j w hj hw => ?_) hbuilt fun w hw => ?_⟩
          · rw [List.getElem?_append_right (by simp; omega)]
            have hzero : m.toNat - (xs ++ List.replicate (m.toNat - xs.length) nullLeaf).length =
              0 := by
              simp
              omega
            rw [hzero]
            rfl
          · have hj' := (List.getElem?_eq_some_iff.mp hw).1
            rw [List.append_assoc, List.getElem?_append_left hj', hw]
          · have hlt := (List.getElem?_eq_some_iff.mp hw).1
            omega
        | none =>
          rw [hatoui] at h
          simp only [hsegs.1.append, if_false, Bool.false_eq_true] at h
          cases h

theorem createRoot_law (hs : PlainSeg s) (hss : ∀ t ∈ ss, PlainSeg t) (hraw : Valid raw) :
    (createRoot s ss raw).Sound ∧ SetLaw (s :: ss) raw [] (writeNode (createRoot s ss raw)) := by
  have hkept : ∀ {new : List Char} q w, Apart (s :: ss) q → follow q [] = some w →
    follow q new = some w := by
    intro new q w hq h
    rcases q with - | ⟨i | k, q⟩
    · cases hq
    · cases h
    · cases h
  have hroot : createRoot s ss raw = createValue (s :: ss) raw := by
    cases hn : s.atoui with
    | some m => simp only [createRoot, hn]
    | none => simp only [createRoot, createValue, hn, hs.append, if_false, Bool.false_eq_true]
  rw [hroot]
  have hsound := sound_createValue hraw (s :: ss)
  exact ⟨hsound, hsound.valid, found_createValue hraw (List.forall_mem_cons.mpr ⟨hs, hss⟩), hkept⟩

end Set

section Run

variable {sjson : Sjson} {root : Option Node} {op : Op}

def RootSound (root : Option Node) : Prop :=
  ∀ n ∈ root, n.Sound

theorem set_law (hsjson : Lawful sjson) (hroot : RootSound root) (hop : op.Plain) {raw : List Char}
    (hraw : op.raw = some raw) {segs : List PathSeg} (hsegs : splitPath op.path = some segs)
    {n : Node} (h : set sjson root op = some n) :
      n.Sound ∧ SetLaw segs raw (document root) (writeNode n) := by
  have hplain := hop.path segs hsegs
  have hvalid := hop.valid raw hraw
  rw [set, hraw, Option.bind_some, apply.eq_def, hsegs] at h
  cases root with
  | some old => exact setNode_law hsjson hplain (hroot old rfl) hvalid h
  | none =>
    cases segs with
    | nil => cases h
    | cons s ss =>
      cases h
      rw [List.forall_mem_cons] at hplain
      exact createRoot_law hplain.1 hplain.2 hvalid

theorem RootSound.set (hsjson : Lawful sjson) (hroot : RootSound root) (hop : op.Plain) :
    RootSound (set sjson root op) := by
  intro n hn
  cases hraw : op.raw with
  | none =>
    rw [Builder.set, hraw] at hn
    cases hn
  | some raw =>
    cases hsegs : splitPath op.path with
    | none =>
      rw [Builder.set, hraw, Option.bind_some, apply.eq_def, hsegs] at hn
      cases hn
    | some segs => exact (set_law hsjson hroot hop hraw hsegs hn).1

theorem rootSound_run (hsjson : Lawful sjson) (start : Start) {ops : List Op}
    (hops : ∀ op ∈ ops, op.Plain) :
    RootSound (run sjson start ops) := by
  have hstart : RootSound start.root := by
    cases start with
    | empty =>
      intro n hn
      cases hn
    | object =>
      intro n hn
      cases hn
      exact .obj (by simp)
    | array =>
      intro n hn
      cases hn
      exact .arr (by simp)
  rw [run]
  generalize start.root = root at hstart
  induction ops generalizing root with
  | nil => exact hstart
  | cons op ops ih =>
    rw [List.forall_mem_cons] at hops
    exact ih hops.2 _ (hstart.set hsjson hops.1)

end Run

/-- After any sets the document is empty or valid and of the computed size; and a further set that
does not poison it puts its value where the path leads and keeps what lies apart from the path. -/
theorem sets_law {sjson : Sjson} (hsjson : Lawful sjson) (start : Start) {ops : List Op}
    (hops : ∀ op ∈ ops, op.Plain) :
    (document (run sjson start ops) = [] ∨ Valid (document (run sjson start ops))) ∧
      bytes (document (run sjson start ops)) = documentSize (run sjson start ops) ∧
      ∀ op, op.Plain → ∀ raw segs n, op.raw = some raw → splitPath op.path = some segs →
        set sjson (run sjson start ops) op = some n →
        (∃ loc, Leads segs loc ∧ follow loc (document (some n)) = some (trim raw)) ∧
          ∀ q w, Apart segs q → follow q (document (run sjson start ops)) = some w →
            follow q (document (some n)) = some w := by
  have hroot := rootSound_run hsjson start hops
  refine ⟨?_, ?_, fun op hop raw segs n hraw hsegs hset => ?_⟩
  · cases hrun : run sjson start ops with
    | none => exact .inl rfl
    | some n => exact .inr (hroot n hrun).valid
  · cases hrun : run sjson start ops with
    | none => rfl
    | some n => exact (hroot n hrun).size
  · have hlaw := (set_law hsjson hroot hop hraw hsegs hset).2
    exact ⟨hlaw.found, hlaw.kept⟩

/-- A list of two members is set twice; the first set leaves the second place alone. -/
theorem sets_law_list :
    Valid (document (run (fun _ _ _ => none) .object [⟨"l.1".toList, some ['1']⟩])) ∧
      ∃ n, set (fun _ _ _ => none) (run (fun _ _ _ => none) .object [⟨"l.1".toList, some ['1']⟩])
          ⟨"l.0".toList, some ['2']⟩ = some n ∧
        follow [.name "l", .elem 1] (document (some n)) = some ['1'] := by
  have hlawful : Lawful fun _ _ _ => none := by
    intro old path raw new segs _ _ _ _ h
    cases h
  have hplain : ∀ c path, splitPath path = some [⟨"l", false⟩, ⟨String.ofList [c], false⟩] →
      PlainSeg ⟨String.ofList [c], false⟩ → ∀ raw, Valid raw → Op.Plain ⟨path, some raw⟩ := by
    intro c path hsplit hc raw hraw
    refine ⟨?_, ?_⟩
    · rintro _ ⟨⟩
      exact hraw
    · intro segs hsegs s hs
      rw [hsplit] at hsegs
      cases hsegs
      rcases List.mem_cons.mp hs with rfl | hs
      · exact ⟨by decide, by decide, by decide⟩
      · rw [List.mem_singleton.mp hs]
        exact hc
  have hone : Op.Plain ⟨"l.1".toList, some ['1']⟩ :=
    hplain '1' _ (by decide) ⟨by decide, by decide, by decide⟩ _ ⟨_, rfl, .num _⟩
  have htwo : Op.Plain ⟨"l.0".toList, some ['2']⟩ :=
    hplain '0' _ (by decide) ⟨by decide, by decide, by decide⟩ _ ⟨_, rfl, .num _⟩
  have hlaw := sets_law hlawful .object (fun op hop => List.mem_singleton.mp hop ▸ hone)
  refine ⟨hlaw.1.resolve_left (by decide), _, rfl, ?_⟩
  have hsplit : splitPath "l.0".toList = some [⟨"l", false⟩, ⟨"0", false⟩] := by decide
  have hapart : Apart [⟨"l", false⟩, ⟨"0", false⟩] [.name "l", .elem 1] :=
    .inr (.inl fun h => absurd h.2 (by decide))
  exact (hlaw.2.2 _ htwo _ _ _ rfl hsplit rfl).2 _ _ hapart (by decide)

/-- An index of 2^63 wraps, and the value becomes the first element of a new array. -/
theorem not_found_wrapped :
    set (fun _ _ _ => none) Start.empty.root ⟨"9223372036854775808".toList, some ['1']⟩ =
        some (.arr [.raw ['1']]) ∧
      splitPath "9223372036854775808".toList = some [⟨"9223372036854775808", false⟩] ∧
      ¬∃ loc, Leads [⟨"9223372036854775808", false⟩] loc ∧
        follow loc (document (some (.arr [.raw ['1']]))) = some ['1'] := by
  have hsplit : splitPath "9223372036854775808".toList = some [⟨"9223372036854775808", false⟩] := by
    decide +kernel
  have hindex : PathSeg.atoui ⟨"9223372036854775808", false⟩ = some (-9223372036854775808) := by
    decide +kernel
  refine ⟨?_, hsplit, ?_⟩
  · simp only [set, Option.bind_some, apply, hsplit, Start.root, createRoot, createValue, hindex]
    rfl
  rintro ⟨loc, hloc, hfound⟩
  have htext : document (some (.arr [.raw ['1']])) = arrayText [['1']] := rfl
  rw [htext] at hfound
  cases hloc with
  | @cons _ x _ q hx hq =>
    rcases x with i | k
    · have hi : i = 9223372036854775808 := hx.2.trans (by decide +kernel)
      have hvalid : ∀ x ∈ [['1']], Valid x := by
        intro x hx
        rw [List.mem_singleton.mp hx]
        exact ⟨_, rfl, .num _⟩
      rw [follow_elem_arrayText hvalid, List.getElem?_eq_none (by rw [hi]; decide)] at hfound
      cases hfound
    · rw [follow_name_arrayText] at hfound
      cases hfound

end ThanksComputer.Builder
