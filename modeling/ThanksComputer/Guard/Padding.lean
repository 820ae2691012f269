import Mathlib.Algebra.Ring.Nat
import Mathlib.Algebra.Ring.Int.Defs
import ThanksComputer.Guard.Paths

/-! `PadsArray` against the setter: the guard replays the walk of a set without writing, and is
right about the nulls it adds, for every set that is not refused and apart from indexes beyond an
`int`. -/

universe u

namespace ThanksComputer.Guard

variable {F : Type u}

section Setter

/-- `createValue`, with the nulls that it adds. -/
def createCount : List PathSeg → Json F → Json F × Nat
  | [], v => (v, 0)
  | s :: ss, v =>
    match s.atoui with
    | some n =>
      (.arr (List.replicate n.toNat .null ++ [(createCount ss v).1]),
        n.toNat + (createCount ss v).2)
    | none =>
      (if s.isAppend then .arr [(createCount ss v).1] else .obj [(s.name, (createCount ss v).1)],
        (createCount ss v).2)

/-- `createRoot`, with the nulls that it adds. -/
def createRootCount (s : PathSeg) (ss : List PathSeg) (v : Json F) : Json F × Nat :=
  match s.atoui with
  | some _ => createCount (s :: ss) v
  | none => (.obj [(s.name, (createCount ss v).1)], (createCount ss v).2)

/-- `setNode`, with the nulls that it adds. -/
def setCount : List PathSeg → Json F → Json F → Option (Json F × Nat)
  | [], _, v => some (v, 0)
  | s :: ss, .obj ms, v =>
    match ms.lookup s.name with
    | some w => (setCount ss w v).map fun r => (.obj (Lib.Assoc.replaceFirst s.name r.1 ms), r.2)
    | none => some (.obj ((s.name, (createCount ss v).1) :: ms), (createCount ss v).2)
  | s :: ss, .arr xs, v =>
    match Json.arrayHit xs s with
    | some i => (setCount ss (xs.getD i .null) v).map fun r => (.arr (xs.set i r.1), r.2)
    | none =>
      match s.atoui with
      | some n =>
        some (.arr (xs ++ List.replicate (n.toNat - xs.length) .null ++ [(createCount ss v).1]),
          n.toNat - xs.length + (createCount ss v).2)
      | none =>
        if s.isAppend then some (.arr (xs ++ [(createCount ss v).1]), (createCount ss v).2)
          else none
  | s :: ss, _, v => some (createRootCount s ss v)

/-- A set into a document, `none` the empty one: what is written and the nulls that are added. -/
def writeCount (doc : Option (Json F)) (segs : List PathSeg) (v : Json F) : Option (Json F × Nat) :=
  match doc, segs with
  | none, [] => none
  | none, s :: ss => some (createRootCount s ss v)
  | some j, segs => setCount segs j v

end Setter

section Spec

/-- What gjson answers about a document; `none` is the empty text. -/
def onJson : Gjson (Option (Json F)) where
  empty := none
  get doc raw :=
    match doc with
    | some (.obj ms) => (ms.lookup (String.ofList raw)).map some
    | some (.arr xs) => (Json.arrayHit xs ⟨String.ofList raw, false⟩).map fun i =>
      some (xs.getD i .null)
    | _ => none
  isArray doc := doc.any Json.isArray
  isObject doc := doc.any Json.isObject
  arrayLen doc :=
    match doc with
    | some (.arr xs) => xs.length
    | _ => 0

def keyChar (c : Char) : Bool :=
  ('a' ≤ c && c ≤ 'z') || ('A' ≤ c && c ≤ 'Z') || isDigit c || c == '_' || c == '-'

def PlainSeg (s : PathSeg) : Prop :=
  s.name.toList ≠ [] ∧ ∀ c ∈ s.name.toList, keyChar c = true

def segText (s : PathSeg) : PathText :=
  (if s.force then [':'] else []) ++ s.name.toList

def pathText : List PathSeg → PathText
  | [] => []
  | [s] => segText s
  | s :: t :: ss => segText s ++ '.' :: pathText (t :: ss)

/-- An index that is no `int`. -/
def Huge (s : PathSeg) : Prop :=
  s.force = false ∧ s.name.toList.all isDigit = true ∧ 2 ^ 63 ≤ Nat.ofDigitChars 10 s.name.toList 0

/-- The set has to build an array up to an index that is no `int`. -/
def Overflows : List PathSeg → Option (Json F) → Prop
  | [], _ => False
  | s :: ss, some (.obj ms) =>
    match ms.lookup s.name with
    | some w => Overflows ss (some w)
    | none => ∃ t ∈ ss, Huge t
  | s :: ss, some (.arr xs) =>
    match Json.arrayHit xs s with
    | some i => Overflows ss (some (xs.getD i .null))
    | none => ∃ t ∈ s :: ss, Huge t
  | s :: ss, _ => ∃ t ∈ s :: ss, Huge t

end Spec

section Text

variable {s : PathSeg} {ss : List PathSeg}

theorem keyChar_ne {c : Char} (h : keyChar c = true) :
    c ≠ ':' ∧ c ≠ '\\' ∧ c ≠ '.' ∧ ¬(c = '*' ∨ c = '?' ∨ c = '#') := by
  refine ⟨?_, ?_, ?_, ?_⟩
  · rintro rfl
    revert h
    decide
  · rintro rfl
    revert h
    decide
  · rintro rfl
    revert h
    decide
  · rintro (rfl | rfl | rfl)
    · revert h
      decide
    · revert h
      decide
    · revert h
      decide

theorem splitSegs_name {name : List Char} (h : ∀ c ∈ name, keyChar c = true) (cur : List Char)
    (force segStart : Bool) (rest : List Char) (hstart : name ≠ [] ∨ segStart = false) :
    splitSegs cur force segStart (name ++ rest) = splitSegs (cur ++ name) force false rest := by
  induction name generalizing cur segStart with
  | nil =>
    rcases hstart with hne | rfl
    · exact absurd rfl hne
    · simp
  | cons c name ih =>
    rw [List.forall_mem_cons] at h
    obtain ⟨hcolon, hesc, hdot, hwild⟩ := keyChar_ne h.1
    rw [List.cons_append, splitSegs_char (by simp [hcolon]) hesc hdot hwild, ih h.2 _ _ (.inr rfl)]
    simp

theorem splitSegs_segText (hs : PlainSeg s) (rest : List Char) :
    splitSegs [] false true (segText s ++ rest) = splitSegs s.name.toList s.force false rest := by
  rw [segText]
  cases hforce : s.force with
  | false => exact splitSegs_name hs.2 [] false true rest (.inl hs.1)
  | true =>
    rw [if_pos rfl, List.append_assoc, List.singleton_append, splitSegs.eq_def]
    exact splitSegs_name hs.2 [] true false rest (.inr rfl)

theorem splitSegs_pathText (hs : PlainSeg s) (hss : ∀ t ∈ ss, PlainSeg t) :
    splitSegs [] false true (pathText (s :: ss)) = some (s :: ss) := by
  induction ss generalizing s with
  | nil =>
    rw [pathText, ← List.append_nil (segText s), splitSegs_segText hs, splitSegs]
    simp
  | cons t ss ih =>
    rw [List.forall_mem_cons] at hss
    rw [pathText, splitSegs_segText hs, splitSegs_dot, ih hss.1 hss.2]
    simp

theorem segText_ne_nil (hs : PlainSeg s) : segText s ≠ [] := by
  rw [segText]
  intro h
  exact hs.1 (List.append_eq_nil_iff.mp h).2

theorem splitPath_pathText (hs : PlainSeg s) (hss : ∀ t ∈ ss, PlainSeg t) :
    splitPath (pathText (s :: ss)) = some (s :: ss) := by
  have hsplit := splitSegs_pathText hs hss
  cases htext : pathText (s :: ss) with
  | nil =>
    rw [htext] at hsplit
    cases ss with
    | nil => exact absurd htext (segText_ne_nil hs)
    | cons t ss => exact absurd htext (by simp [pathText])
  | cons c cs =>
    rw [splitPath, ← htext]
    exact hsplit

theorem rawSegs_text {text : List Char} (h : ∀ c ∈ text, c ≠ '.' ∧ c ≠ '\\')
    (cur rest : List Char) :
    rawSegs cur (text ++ rest) = rawSegs (cur ++ text) rest := by
  induction text generalizing cur with
  | nil => simp
  | cons c text ih =>
    rw [List.forall_mem_cons] at h
    rw [List.cons_append, rawSegs.eq_def]
    split
    · next heq => cases heq
    · next heq => exact absurd (List.cons.inj heq).1 h.1.1
    · next heq => exact absurd (List.cons.inj heq).1 h.1.2
    · next heq =>
      cases heq
      rw [ih h.2]
      simp

theorem segText_chars (hs : PlainSeg s) : ∀ c ∈ segText s, c ≠ '.' ∧ c ≠ '\\' := by
  intro c hc
  rw [segText] at hc
  rcases List.mem_append.mp hc with hc | hc
  · split at hc
    · rw [List.mem_singleton.mp hc]
      decide
    · cases hc
  · exact ⟨(keyChar_ne (hs.2 c hc)).2.2.1, (keyChar_ne (hs.2 c hc)).2.1⟩

theorem rawSegs_pathText (hs : PlainSeg s) (hss : ∀ t ∈ ss, PlainSeg t) :
    rawSegs [] (pathText (s :: ss)) = (s :: ss).map segText := by
  induction ss generalizing s with
  | nil =>
    rw [pathText, ← List.append_nil (segText s), rawSegs_text (segText_chars hs)]
    simp [rawSegs]
  | cons t ss ih =>
    rw [List.forall_mem_cons] at hss
    rw [pathText, rawSegs_text (segText_chars hs), rawSegs, ih hss.1 hss.2]
    simp

def keyOf (s : PathSeg) : PathKey :=
  ⟨s, s.name.toList⟩

theorem pathSegments_pathText (hs : PlainSeg s) (hss : ∀ t ∈ ss, PlainSeg t) :
    pathSegments (pathText (s :: ss)) = some ((s :: ss).map keyOf) := by
  rw [pathSegments, splitPath_pathText hs hss, rawSegs_pathText hs hss, Option.map_some]
  congr 1
  rw [List.zipWith_map_right, List.zipWith_self]
  refine List.map_congr_left fun t _ => ?_
  rw [keyOf, segText]
  cases t.force with
  | false => rfl
  | true => rfl

end Text

section Numbers

variable {s : PathSeg} {ss : List PathSeg}

theorem index_keyOf (s : PathSeg) :
    (keyOf s).index = none ∧ s.atoui = none ∧ ¬Huge s ∨ (keyOf s).index = some none ∧ Huge s ∨
      ∃ n : Nat, (keyOf s).index = some (some n) ∧ s.atoui = some (n : Int) ∧ ¬Huge s ∧
        n = Nat.ofDigitChars 10 s.name.toList 0 := by
  by_cases hindex : (s.force || !s.name.toList.all isDigit) = true
  · refine .inl ⟨?_, ?_, ?_⟩
    · rw [PathKey.index]
      exact if_pos hindex
    · rw [PathSeg.atoui]
      exact if_pos hindex
    · rintro ⟨hforce, hdigits, -⟩
      rw [hforce, hdigits] at hindex
      cases hindex
  · have hkey : (keyOf s).index = some (if Nat.ofDigitChars 10 s.name.toList 0 ≤ 2 ^ 63 - 1 then
        some (Nat.ofDigitChars 10 s.name.toList 0) else none) := by
      rw [PathKey.index]
      exact if_neg hindex
    have hatoui : s.atoui = some (digitsValue s.name.toList) := by
      rw [PathSeg.atoui]
      exact if_neg hindex
    by_cases hlt : Nat.ofDigitChars 10 s.name.toList 0 < 2 ^ 63
    · refine .inr (.inr ⟨_, ?_, ?_, ?_, rfl⟩)
      · rw [hkey, if_pos (by omega)]
      · rw [hatoui, digitsValue_of_lt hlt]
      · rintro ⟨-, -, hge⟩
        omega
    · refine .inr (.inl ⟨?_, ?_⟩)
      · rw [hkey, if_neg (by omega)]
      · rw [Bool.or_eq_true, not_or, Bool.not_eq_true, Bool.not_eq_true,
          Bool.not_eq_false'] at hindex
        exact ⟨hindex.1, hindex.2, by omega⟩

def createPads (v : Json F) (ss : List PathSeg) : Nat :=
  (createCount ss v).2

theorem createPads_cons_none (v : Json F) (h : s.atoui = none) :
    createPads v (s :: ss) = createPads v ss := by
  simp only [createPads, createCount, h]

theorem createPads_cons_some (v : Json F) {n : Nat} (h : s.atoui = some (n : Int)) :
    createPads v (s :: ss) = n + createPads v ss := by
  simp only [createPads, createCount, h, Int.toNat_natCast]

theorem padding_isNone (v : Json F) {max pad : Nat} (hpad : pad ≤ max) :
    (padding max pad (ss.map keyOf)).isNone = true ↔
      (∃ t ∈ ss, Huge t) ∨ max < pad + createPads v ss := by
  induction ss generalizing pad with
  | nil => simp [padding, createPads, createCount, hpad]
  | cons s ss ih =>
    rw [List.map_cons, padding]
    rcases index_keyOf s with ⟨hkey, hatoui, hhuge⟩ | ⟨hkey, hhuge⟩ | ⟨n, hkey, hatoui, hhuge, -⟩
    · rw [hkey, createPads_cons_none v hatoui]
      simp only [List.exists_mem_cons_iff, hhuge, false_or]
      exact ih hpad
    · rw [hkey]
      exact iff_of_true rfl (.inl ⟨s, List.mem_cons_self, hhuge⟩)
    · rw [hkey, createPads_cons_some v hatoui]
      simp only [List.exists_mem_cons_iff, hhuge, false_or]
      split
      · exact iff_of_true rfl (.inr (by omega))
      · rw [ih (by omega), Nat.add_assoc]

end Numbers

section Walk

variable {s : PathSeg} {ss : List PathSeg} {v : Json F} {max : Nat}

/-- `padsArray` behind its shortcut. -/
def padsWalk (G : Gjson (Option (Json F))) (doc : Option (Json F)) (keys : List PathKey)
    (max : Nat) : Bool :=
  match existing G doc keys with
  | none => false
  | some (doc, k, ks) =>
    if G.isArray doc then
      match k.index with
      | some none => true
      | some (some n) =>
        if max < n - G.arrayLen doc then true
        else (padding max (n - G.arrayLen doc) ks).isNone
      | none => (padding max 0 ks).isNone
    else if G.isObject doc then (padding max 0 ks).isNone
    else (padding max 0 (k :: ks)).isNone

theorem padsArray_eq {doc : Option (Json F)} {path : PathText} {keys : List PathKey}
    (h : pathSegments path = some keys) :
    padsArray onJson doc path max =
      if !digitsCanExceed path max then false else padsWalk onJson doc keys max := by
  rw [padsArray, h]
  cases hwalk : existing onJson doc keys with
  | none => simp only [padsWalk, hwalk]
  | some found =>
    obtain ⟨sub, k, ks⟩ := found
    rcases hindex : k.index with - | - | n
    · simp only [padsWalk, hwalk, hindex]
    · simp only [padsWalk, hwalk, hindex]
    · simp only [padsWalk, hwalk, hindex]

theorem get_object (ms : List (String × Json F)) (s : PathSeg) :
    onJson.get (some (.obj ms)) (keyOf s).raw = (ms.lookup s.name).map some := by
  show (ms.lookup (String.ofList s.name.toList)).map some = _
  rw [String.ofList_toList]

theorem get_array (xs : List (Json F)) (s : PathSeg) :
    onJson.get (some (.arr xs)) (keyOf s).raw =
      (Json.arrayHit xs s).map fun i => some (xs.getD i .null) := by
  show (Json.arrayHit xs ⟨String.ofList s.name.toList, false⟩).map _ = _
  rw [String.ofList_toList]
  rfl

theorem padsWalk_cons_some {doc w : Option (Json F)} {k : PathKey} {ks : List PathKey}
    (h : onJson.get doc k.raw = some w) :
      padsWalk onJson doc (k :: ks) max = padsWalk onJson w ks max := by
  rw [padsWalk, existing, h]
  rfl

theorem createRootCount_snd (s : PathSeg) (ss : List PathSeg) (v : Json F) :
    (createRootCount s ss v).2 = createPads v (s :: ss) := by
  cases hn : s.atoui with
  | some n => simp only [createRootCount, createPads, hn]
  | none =>
    rw [createPads_cons_none v hn]
    simp only [createRootCount, createPads, hn]

theorem padsWalk_fresh {doc : Option (Json F)} (hget : onJson.get doc (keyOf s).raw = none)
    (harr : onJson.isArray doc = false) (hobj : onJson.isObject doc = false) :
    padsWalk onJson doc ((s :: ss).map keyOf) max = true ↔
      (∃ t ∈ s :: ss, Huge t) ∨ max < (createRootCount s ss v).2 := by
  have hwalk : padsWalk onJson doc ((s :: ss).map keyOf) max =
      (padding max 0 ((s :: ss).map keyOf)).isNone := by
    rw [List.map_cons, padsWalk, existing, hget]
    simp only [harr, hobj, if_false, Bool.false_eq_true]
  rw [hwalk, padding_isNone v (Nat.zero_le max), createRootCount_snd, Nat.zero_add]

theorem padsWalk_object {ms : List (String × Json F)} (hm : ms.lookup s.name = none) :
    padsWalk onJson (some (.obj ms)) ((s :: ss).map keyOf) max = true ↔
      (∃ t ∈ ss, Huge t) ∨ max < createPads v ss := by
  have hget : onJson.get (some (.obj ms)) (keyOf s).raw = none := by
    rw [get_object, hm]
    rfl
  have hwalk : padsWalk onJson (some (.obj ms)) ((s :: ss).map keyOf) max =
      (padding max 0 (ss.map keyOf)).isNone := by
    rw [List.map_cons, padsWalk, existing, hget]
    rfl
  rw [hwalk, padding_isNone v (Nat.zero_le max), Nat.zero_add]

theorem padsWalk_array {xs : List (Json F)} {r : Json F × Nat} (hhit : Json.arrayHit xs s = none)
    (hr : setCount (s :: ss) (.arr xs) v = some r) :
    padsWalk onJson (some (.arr xs)) ((s :: ss).map keyOf) max = true ↔
      (∃ t ∈ s :: ss, Huge t) ∨ max < r.2 := by
  have hget : onJson.get (some (.arr xs)) (keyOf s).raw = none := by
    rw [get_array, hhit]
    rfl
  rw [List.map_cons, padsWalk, existing, hget]
  have harr : onJson.isArray (some (.arr xs)) = true := rfl
  have hlen : onJson.arrayLen (some (.arr xs)) = xs.length := rfl
  simp only [harr, if_true, hlen]
  rcases index_keyOf s with ⟨hkey, hatoui, hhuge⟩ | ⟨hkey, hhuge⟩ | ⟨n, hkey, hatoui, hhuge, -⟩
  · simp only [setCount, hhit, hatoui] at hr
    simp only [hkey, List.exists_mem_cons_iff, hhuge, false_or]
    split at hr
    · cases hr
      rw [padding_isNone v (Nat.zero_le max), Nat.zero_add]
      rfl
    · cases hr
  · rw [hkey]
    exact iff_of_true rfl (.inl ⟨s, List.mem_cons_self, hhuge⟩)
  · simp only [setCount, hhit, hatoui, Int.toNat_natCast] at hr
    cases hr
    simp only [hkey, List.exists_mem_cons_iff, hhuge, false_or]
    split
    · exact iff_of_true rfl (.inr (by omega))
    · next hle =>
      rw [padding_isNone v (by omega)]
      rfl

theorem padsWalk_iff {doc : Option (Json F)} {r : Json F × Nat}
    (hr : writeCount doc ss v = some r) :
    padsWalk onJson doc (ss.map keyOf) max = true ↔ Overflows ss doc ∨ max < r.2 := by
  induction ss generalizing doc r with
  | nil =>
    cases doc with
    | none => cases hr
    | some j =>
      cases hr
      exact iff_of_false (by simp [padsWalk, existing]) (by simp [Overflows])
  | cons s ss ih =>
    cases doc with
    | none =>
      cases hr
      exact padsWalk_fresh rfl rfl rfl
    | some j =>
      cases j with
      | null | bool | num | str =>
        cases hr
        exact padsWalk_fresh rfl rfl rfl
      | obj ms =>
        rw [writeCount, setCount] at hr
        rw [Overflows]
        cases hm : ms.lookup s.name with
        | none =>
          rw [hm] at hr
          cases hr
          exact padsWalk_object hm
        | some w =>
          rw [hm] at hr
          obtain ⟨r', hr', rfl⟩ := Option.map_eq_some_iff.mp hr
          have hget : onJson.get (some (.obj ms)) (keyOf s).raw = some (some w) := by
            rw [get_object, hm]
            rfl
          have hwrite : writeCount (some w) ss v = some r' := hr'
          have hrest := ih hwrite
          rw [List.map_cons, padsWalk_cons_some hget]
          exact hrest
      | arr xs =>
        rw [Overflows]
        cases hhit : Json.arrayHit xs s with
        | none => exact padsWalk_array hhit hr
        | some i =>
          rw [writeCount, setCount, hhit] at hr
          obtain ⟨r', hr', rfl⟩ := Option.map_eq_some_iff.mp hr
          have hget : onJson.get (some (.arr xs)) (keyOf s).raw =
            some (some (xs.getD i .null)) := by
            rw [get_array, hhit]
            rfl
          have hwrite : writeCount (some (xs.getD i .null)) ss v = some r' := hr'
          have hrest := ih hwrite
          rw [List.map_cons, padsWalk_cons_some hget]
          exact hrest

end Walk

section Shortcut

variable {s : PathSeg} {ss : List PathSeg} {v : Json F} {max : Nat}

def digitCount (text : List Char) : Nat :=
  (text.filter isDigit).length

def pathDigits : List PathSeg → Nat
  | [] => 0
  | s :: ss => digitCount s.name.toList + pathDigits ss

theorem ofDigitChars_lt {cs : List Char} (h : cs.all isDigit = true) (n : Nat) :
    Nat.ofDigitChars 10 cs n < (n + 1) * 10 ^ cs.length := by
  induction cs generalizing n with
  | nil => simp
  | cons c cs ih =>
    rw [List.all_cons, Bool.and_eq_true] at h
    have hc : c.toNat - '0'.toNat ≤ 9 := by
      have h9 : c ≤ '9' := by
        have := h.1
        rw [isDigit, Bool.and_eq_true, decide_eq_true_eq, decide_eq_true_eq] at this
        exact this.2
      have : c.toNat ≤ '9'.toNat := h9
      have h0 : '0'.toNat = 48 := rfl
      have h9' : '9'.toNat = 57 := rfl
      omega
    rw [Nat.ofDigitChars_cons, List.length_cons]
    refine Nat.lt_of_lt_of_le (ih h.2 _) ?_
    rw [Nat.pow_succ', ← Nat.mul_assoc]
    exact Nat.mul_le_mul_right _ (by omega)

theorem digitCount_of_digits {cs : List Char} (h : cs.all isDigit = true) :
    digitCount cs = cs.length := by
  rw [digitCount, List.filter_eq_self.mpr fun c hc => List.all_eq_true.mp h c hc]

theorem digitCount_append (a b : List Char) :
    digitCount (a ++ b) = digitCount a + digitCount b := by
  rw [digitCount, List.filter_append, List.length_append]
  rfl

theorem digitCount_segText (s : PathSeg) : digitCount (segText s) = digitCount s.name.toList := by
  rw [segText, digitCount_append]
  cases s.force with
  | false => simp [digitCount]
  | true =>
    have hcolon : digitCount [':'] = 0 := by decide
    rw [if_pos rfl, hcolon, Nat.zero_add]

theorem digitCount_pathText (ss : List PathSeg) : digitCount (pathText ss) = pathDigits ss := by
  induction ss with
  | nil => rfl
  | cons s ss ih =>
    cases ss with
    | nil => exact digitCount_segText s
    | cons t ss =>
      have hdot : digitCount ('.' :: pathText (t :: ss)) = digitCount (pathText (t :: ss)) := rfl
      rw [pathText, digitCount_append, digitCount_segText, hdot, ih]
      rfl

theorem add_lt_pow {m n a b : Nat} (hm : m < 10 ^ a) (hn : n < 10 ^ b) : m + n < 10 ^ (a + b) := by
  rw [Nat.pow_add]
  have hb : 1 ≤ 10 ^ b := Nat.one_le_pow _ _ (by decide)
  calc m + n < m * 10 ^ b + 10 ^ b := by
        have : m * 1 ≤ m * 10 ^ b := Nat.mul_le_mul_left m hb
        omega
    _ = (m + 1) * 10 ^ b := by rw [Nat.add_mul, Nat.one_mul]
    _ ≤ 10 ^ a * 10 ^ b := Nat.mul_le_mul_right _ hm

theorem createPads_lt (v : Json F) (hss : ∀ t ∈ ss, ¬Huge t) :
    createPads v ss < 10 ^ pathDigits ss := by
  induction ss with
  | nil => exact Nat.one_pos
  | cons s ss ih =>
    rw [List.forall_mem_cons] at hss
    have hrest := ih hss.2
    rw [pathDigits]
    rcases index_keyOf s with ⟨-, hatoui, -⟩ | ⟨-, hhuge⟩ | ⟨n, -, hatoui, -, hn⟩
    · rw [createPads_cons_none v hatoui]
      exact Nat.lt_of_lt_of_le hrest (Nat.pow_le_pow_right (by decide) (by omega))
    · exact absurd hhuge hss.1
    · rw [createPads_cons_some v hatoui]
      refine add_lt_pow ?_ hrest
      have hdigits : s.name.toList.all isDigit = true := by
        by_contra hnot
        rw [PathSeg.atoui, if_pos (by simp [hnot])] at hatoui
        cases hatoui
      rw [digitCount_of_digits hdigits, hn]
      have hlt := ofDigitChars_lt hdigits 0
      rwa [Nat.zero_add, Nat.one_mul] at hlt

theorem huge_le {t : PathSeg} (ht : t ∈ ss) (h : Huge t) : 2 ^ 63 ≤ 10 ^ pathDigits ss := by
  obtain ⟨-, hdigits, hge⟩ := h
  have hlt := ofDigitChars_lt hdigits 0
  rw [Nat.zero_add, Nat.one_mul, ← digitCount_of_digits hdigits] at hlt
  have hle : digitCount t.name.toList ≤ pathDigits ss := by
    clear hge hlt
    induction ss with
    | nil => cases ht
    | cons s ss ih =>
      rw [pathDigits]
      rcases List.mem_cons.mp ht with rfl | ht
      · omega
      · have := ih ht
        omega
  have hpow : 10 ^ digitCount t.name.toList ≤ 10 ^ pathDigits ss :=
    Nat.pow_le_pow_right (by decide) hle
  omega

theorem overflows_mem {doc : Option (Json F)} (h : Overflows ss doc) : ∃ t ∈ ss, Huge t := by
  induction ss generalizing doc with
  | nil => cases h
  | cons s ss ih =>
    cases doc with
    | none => exact h
    | some j =>
      cases j with
      | null | bool | num | str => exact h
      | obj ms =>
        rw [Overflows] at h
        split at h
        · obtain ⟨t, ht, hhuge⟩ := ih h
          exact ⟨t, List.mem_cons_of_mem _ ht, hhuge⟩
        · obtain ⟨t, ht, hhuge⟩ := h
          exact ⟨t, List.mem_cons_of_mem _ ht, hhuge⟩
      | arr xs =>
        rw [Overflows] at h
        split at h
        · obtain ⟨t, ht, hhuge⟩ := ih h
          exact ⟨t, List.mem_cons_of_mem _ ht, hhuge⟩
        · exact h

theorem createPads_le_cons (v : Json F) (s : PathSeg) (ss : List PathSeg) :
    createPads v ss ≤ createPads v (s :: ss) := by
  simp only [createPads, createCount]
  split
  · exact Nat.le_add_left _ _
  · exact Nat.le_refl _

theorem writeCount_le {doc : Option (Json F)} {r : Json F × Nat}
    (hr : writeCount doc ss v = some r) :
    r.2 ≤ createPads v ss := by
  induction ss generalizing doc r with
  | nil =>
    cases doc with
    | none => cases hr
    | some j =>
      cases hr
      exact Nat.zero_le _
  | cons s ss ih =>
    cases doc with
    | none =>
      cases hr
      exact Nat.le_of_eq (createRootCount_snd s ss v)
    | some j =>
      cases j with
      | null | bool | num | str =>
        cases hr
        exact Nat.le_of_eq (createRootCount_snd s ss v)
      | obj ms =>
        rw [writeCount, setCount] at hr
        split at hr
        · next w hw =>
          obtain ⟨r', hr', rfl⟩ := Option.map_eq_some_iff.mp hr
          have hwrite : writeCount (some w) ss v = some r' := hr'
          have hrest := ih hwrite
          exact Nat.le_trans hrest (createPads_le_cons v s ss)
        · cases hr
          exact createPads_le_cons v s ss
      | arr xs =>
        rw [writeCount, setCount] at hr
        split at hr
        · next i hi =>
          obtain ⟨r', hr', rfl⟩ := Option.map_eq_some_iff.mp hr
          have hwrite : writeCount (some (xs.getD i .null)) ss v = some r' := hr'
          have hrest := ih hwrite
          exact Nat.le_trans hrest (createPads_le_cons v s ss)
        · split at hr
          · next n hn =>
            cases hr
            simp only [createPads, createCount, hn]
            omega
          · split at hr
            · cases hr
              exact createPads_le_cons v s ss
            · cases hr

end Shortcut

/-- For every document and every path of plain segments whose set the setter does not refuse, the
guard answers true exactly if the set adds too many nulls or builds up to an index that is no
`int`. -/
theorem padsArray_iff {doc : Option (Json F)} {s : PathSeg} {ss : List PathSeg} (hs : PlainSeg s)
    (hss : ∀ t ∈ ss, PlainSeg t) {v : Json F} {r : Json F × Nat}
    (hr : writeCount doc (s :: ss) v = some r) :
    padsArray onJson doc (pathText (s :: ss)) maxArrayPad = true ↔
      Overflows (s :: ss) doc ∨ maxArrayPad < r.2 := by
  rw [padsArray_eq (pathSegments_pathText hs hss)]
  split
  · next hfew =>
    have hmax : 10 ^ pathDigits (s :: ss) - 1 ≤ maxArrayPad := by
      have hcount : ((pathText (s :: ss)).filter isDigit).length = pathDigits (s :: ss) :=
        digitCount_pathText (s :: ss)
      rw [digitsCanExceed, hcount] at hfew
      simpa using hfew
    have hnot : ∀ t ∈ s :: ss, ¬Huge t := by
      intro t ht hhuge
      have := huge_le ht hhuge
      rw [maxArrayPad] at hmax
      omega
    refine iff_of_false Bool.false_ne_true ?_
    rintro (hover | hmore)
    · obtain ⟨t, ht, hhuge⟩ := overflows_mem hover
      exact hnot t ht hhuge
    · have hle := writeCount_le hr
      have hlt := createPads_lt v hnot
      omega
  · exact padsWalk_iff hr

theorem plainSeg_ofList {name : List Char} (hne : name ≠ []) (h : name.all keyChar = true)
    (force : Bool) :
    PlainSeg ⟨String.ofList name, force⟩ := by
  rw [PlainSeg, String.toList_ofList]
  exact ⟨hne, List.all_eq_true.mp h⟩

/-- A new member of an object that is padded to the index 70000. -/
theorem padsArray_far :
    padsArray onJson (some (.obj [("b", (.null : Json Nat))])) "a.70000".toList maxArrayPad =
      true := by
  have hs : PlainSeg ⟨"a", false⟩ := plainSeg_ofList (by decide) (by decide) false
  have hss : ∀ t ∈ [(⟨"70000", false⟩ : PathSeg)], PlainSeg t := by
    intro t ht
    rw [List.mem_singleton.mp ht]
    exact plainSeg_ofList (by decide) (by decide) false
  have hmore : maxArrayPad < (createCount [⟨"70000", false⟩] (.bool true : Json Nat)).2 := by
    decide +kernel
  have hwrite : writeCount (some (.obj [("b", (.null : Json Nat))]))
    [⟨"a", false⟩, ⟨"70000", false⟩]
      (.bool true) =
        some (.obj [("a", (createCount [⟨"70000", false⟩] (.bool true)).1), ("b", .null)],
        (createCount [⟨"70000", false⟩] (.bool true : Json Nat)).2) := rfl
  exact (padsArray_iff hs hss hwrite).mpr (.inr hmore)

/-- The setter wraps an index of 2^64 to the first element and pads nothing; the guard takes it
for unbounded. -/
theorem not_padsArray_iff_wrapped :
    writeCount none [⟨"18446744073709551616", false⟩] (.bool true : Json Nat) =
        some (.arr [.bool true], 0) ∧
      PlainSeg ⟨"18446744073709551616", false⟩ ∧
      ¬(padsArray onJson (none : Option (Json Nat)) (pathText [⟨"18446744073709551616", false⟩])
        maxArrayPad = true ↔ maxArrayPad < 0) := by
  refine ⟨rfl, plainSeg_ofList (by decide) (by decide) false, ?_⟩
  have htrue : padsArray onJson (none : Option (Json Nat))
    (pathText [⟨"18446744073709551616", false⟩])
      maxArrayPad = true := by
    decide +kernel
  intro h
  exact absurd (h.mp htrue) (by decide)

end ThanksComputer.Guard
