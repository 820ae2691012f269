import ThanksComputer.Json.Builder

/-! The segments of a path, there and back.  `joinSegs` writes a list of segments as a path; it has
no way to write the one segment that is empty and not forced.  `PathSegments` finds the raw text of
every segment that `splitPath` reads, with a scanner of its own. -/

namespace ThanksComputer.Builder

open Json Lib.Separate

section Join

variable {s t : PathSeg} {ss : List PathSeg}

/-- Behind a segment comes the end of the path or a dot. -/
def Ends (rest : List Char) : Prop :=
  rest = [] ∨ ∃ cs, rest = '.' :: cs

theorem splitSegs_start {rest : List Char} (h : Ends rest) (cur : List Char) (force : Bool) :
    splitSegs cur force true rest = splitSegs cur force false rest := by
  rcases h with rfl | ⟨cs, rfl⟩
  · rfl
  · rw [splitSegs.eq_def, splitSegs.eq_def cur force false]
    simp

theorem splitSegs_joinSeg_of_ends (s : PathSeg) {rest : List Char} (h : Ends rest) :
    splitSegs [] false true (joinSeg s ++ rest) = splitSegs s.name.toList s.force false rest := by
  by_cases hname : s.name.toList = []
  · rw [joinSeg, hname]
    cases s.force with
    | false => exact splitSegs_start h [] false
    | true =>
      rw [List.flatMap_nil, List.append_nil, if_pos rfl, List.singleton_append, splitSegs.eq_def]
      simp
  · exact splitSegs_joinSeg hname rest

theorem splitSegs_joinSegs_all (s : PathSeg) (ss : List PathSeg) :
    splitSegs [] false true (joinSegs (s :: ss)) = some (s :: ss) := by
  induction ss generalizing s with
  | nil =>
    show splitSegs [] false true (joinSeg s) = _
    rw [← List.append_nil (joinSeg s), splitSegs_joinSeg_of_ends s (.inl rfl), splitSegs,
      String.ofList_toList]
  | cons t ss ih =>
    show splitSegs [] false true (joinSeg s ++ '.' :: joinSegs (t :: ss)) = _
    rw [splitSegs_joinSeg_of_ends s (.inr ⟨_, rfl⟩), splitSegs_dot, ih, Option.map_some,
      String.ofList_toList]

theorem joinSeg_eq_nil : joinSeg s = [] ↔ s = ⟨"", false⟩ := by
  constructor
  · intro h
    obtain ⟨hforce, hname⟩ := List.append_eq_nil_iff.mp h
    obtain ⟨name, force⟩ := s
    cases force with
    | true => cases hforce
    | false =>
      cases hlist : name.toList with
      | nil => rw [String.toList_eq_nil_iff.mp hlist]
      | cons c cs =>
        rw [hlist, List.flatMap_cons, List.append_eq_nil_iff] at hname
        cases hspecial : isSpecial c with
        | true => rw [hspecial, if_pos rfl] at hname; cases hname.1
        | false => rw [hspecial, if_neg Bool.false_ne_true] at hname; cases hname.1
  · rintro rfl
    rfl

theorem joinSegs_eq_nil : joinSegs (s :: ss) = [] ↔ s :: ss = [⟨"", false⟩] := by
  cases ss with
  | nil =>
    show joinSeg s = [] ↔ _
    rw [joinSeg_eq_nil, List.cons_eq_cons, and_iff_left rfl]
  | cons t ss =>
    refine iff_of_false (fun h => ?_) (fun h => by cases h)
    cases (List.append_eq_nil_iff.mp (h : joinSeg s ++ '.' :: joinSegs (t :: ss) = [])).2

end Join

/-- A list of segments is read back from the path it is joined to, apart from the one segment that
is written as the empty path. -/
theorem splitPath_joinSegs_iff {segs : List PathSeg} (h : segs ≠ []) :
    splitPath (joinSegs segs) = some segs ↔ segs ≠ [⟨"", false⟩] := by
  obtain ⟨s, ss, rfl⟩ := List.exists_cons_of_ne_nil h
  cases htext : joinSegs (s :: ss) with
  | nil =>
    rw [splitPath]
    exact iff_of_false (fun h => by cases h) (fun hne => hne (joinSegs_eq_nil.mp htext))
  | cons c cs =>
    have hsplit := splitSegs_joinSegs_all s ss
    rw [htext] at hsplit
    refine iff_of_true hsplit fun heq => ?_
    rw [joinSegs_eq_nil.mpr heq] at htext
    cases htext

theorem splitPath_joinSegs_escaped :
    splitPath (joinSegs [⟨"a.b", false⟩, ⟨"", true⟩, ⟨":", false⟩]) =
      some [⟨"a.b", false⟩, ⟨"", true⟩, ⟨":", false⟩] :=
  (splitPath_joinSegs_iff (by decide)).mpr (by decide)

/-- The segment behind the dot of `a.` is empty: below a raw leaf it is joined to a path that is
refused. -/
theorem not_splitPath_joinSegs_empty :
    ¬∀ segs : List PathSeg, segs ≠ [] → splitPath (joinSegs segs) = some segs := by
  intro h
  exact absurd rfl ((splitPath_joinSegs_iff (List.cons_ne_nil _ _)).mp
    (h [⟨"", false⟩] (by decide)))

section Raw

/-- One resolved segment of a path. -/
structure PathKey where
  name : String
  force : Bool
  raw : List Char
  deriving DecidableEq

/-- A slice expression that panics. -/
inductive SliceError
  | outOfRange
  deriving DecidableEq

/-- `s[i:j]`. -/
def slice (s : List Char) (i j : Nat) : Except SliceError (List Char) :=
  if i ≤ j ∧ j ≤ s.length then .ok ((s.drop i).take (j - i)) else .error .outOfRange

/-- How far the inner loop walks over a text: to the next dot without a backslash before it.  A
backslash at the very end takes it one byte past the text. -/
def segEnd : List Char → Nat
  | [] => 0
  | c :: cs =>
    if c = '.' then 0
    else if c = '\\' then
      match cs with
      | [] => 2
      | _ :: ds => segEnd ds + 2
    else segEnd cs + 1

/-- `raw[1:]` of a forced segment. -/
def dropColon (force : Bool) (raw : List Char) : Except SliceError (List Char) :=
  if force then slice raw 1 raw.length else .ok raw

/-- The loop of `PathSegments`: the keys of the segments, the first of which starts at `start`. -/
def keysFrom (path : List Char) : List PathSeg → Nat → Except SliceError (List PathKey)
  | [], _ => .ok []
  | s :: ss, start => do
    let stop := min (start + segEnd (path.drop start)) path.length
    let raw ← slice path start stop
    let raw ← dropColon s.force raw
    let keys ← keysFrom path ss (stop + 1)
    return ⟨s.name, s.force, raw⟩ :: keys

def pathSegments (path : List Char) : Except SliceError (Option (List PathKey)) :=
  match splitPath path with
  | none => .ok none
  | some segs => (keysFrom path segs 0).map some

def PathKey.seg (k : PathKey) : PathSeg :=
  ⟨k.name, k.force⟩

/-- The segment as it is written. -/
def PathKey.text (k : PathKey) : List Char :=
  if k.force then ':' :: k.raw else k.raw

theorem slice_append (pre raw tail : List Char) :
    slice (pre ++ (raw ++ tail)) pre.length (pre.length + raw.length) = .ok raw := by
  rw [slice, if_pos (by simp), List.drop_left, Nat.add_sub_cancel_left, List.take_left]

theorem segEnd_char {c : Char} (hdot : c ≠ '.') (hesc : c ≠ '\\') (cs : List Char) :
    segEnd (c :: cs) = segEnd cs + 1 := by
  rw [segEnd.eq_def]
  simp [hdot, hesc]

/-- What the two scanners make of the first segment of a text: `splitSegs` reads it off `raw`, and
the walk to the next dot ends behind `raw`. -/
structure FirstSeg (force segStart : Bool) (text : List Char) (s : PathSeg) (ss : List PathSeg)
    (raw tail : List Char) : Prop where
  text_eq : text = raw ++ tail
  stop : min (segEnd text) text.length = raw.length
  unforced : segStart = false → s.force = force
  forced : segStart = true → force = false → s.force = true → ∃ r, raw = ':' :: r
  rest : tail = [] ∧ ss = [] ∨ ∃ t, tail = '.' :: t ∧ splitSegs [] false true t = some ss

theorem FirstSeg.cons {force force' segStart : Bool} {text : List Char} {s : PathSeg}
    {ss : List PathSeg} {raw tail : List Char} (h : FirstSeg force' false text s ss raw tail)
    {pre : List Char} (hstop : segEnd (pre ++ text) = segEnd text + pre.length)
    (hforce : segStart = true ∧ force' = true ∧ (∃ r, pre = ':' :: r) ∨ force' = force) :
    FirstSeg force segStart (pre ++ text) s ss (pre ++ raw) tail where
  text_eq := by rw [h.text_eq, List.append_assoc]
  stop := by
    have hraw := h.stop
    rw [hstop, List.length_append, List.length_append]
    omega
  unforced hstart := by
    rcases hforce with ⟨hstart', -, -⟩ | rfl
    · rw [hstart] at hstart'
      cases hstart'
    · exact h.unforced rfl
  forced hstart hfalse htrue := by
    rcases hforce with ⟨-, -, r, rfl⟩ | rfl
    · exact ⟨r ++ raw, rfl⟩
    · rw [h.unforced rfl, hfalse] at htrue
      cases htrue
  rest := h.rest

theorem FirstSeg.nil (force segStart : Bool) (cur : List Char) :
    FirstSeg force segStart [] ⟨String.ofList cur, force⟩ [] [] [] where
  text_eq := rfl
  stop := rfl
  unforced _ := rfl
  forced _ hfalse htrue := by cases hfalse.symm.trans htrue
  rest := .inl ⟨rfl, rfl⟩

theorem FirstSeg.dangling (force segStart : Bool) (cur : List Char) :
    FirstSeg force segStart ['\\'] ⟨String.ofList cur, force⟩ [] ['\\'] [] where
  text_eq := rfl
  stop := by decide
  unforced _ := rfl
  forced _ hfalse htrue := by cases hfalse.symm.trans htrue
  rest := .inl ⟨rfl, rfl⟩

theorem FirstSeg.dot {force segStart : Bool} {cur cs : List Char} {ss : List PathSeg}
    (h : splitSegs [] false true cs = some ss) :
    FirstSeg force segStart ('.' :: cs) ⟨String.ofList cur, force⟩ ss [] ('.' :: cs) where
  text_eq := rfl
  stop := by
    rw [segEnd.eq_def]
    simp
  unforced _ := rfl
  forced _ hfalse htrue := by cases hfalse.symm.trans htrue
  rest := .inr ⟨cs, rfl, h⟩

theorem firstSeg_of_splitSegs {cur : List Char} {force segStart : Bool} {text : List Char}
    {segs : List PathSeg} (h : splitSegs cur force segStart text = some segs) :
    ∃ s ss raw tail, segs = s :: ss ∧ FirstSeg force segStart text s ss raw tail := by
  induction cur, force, segStart, text using splitSegs.induct generalizing segs with
  | case1 cur force segStart =>
    rw [splitSegs] at h
    cases h
    exact ⟨_, _, _, _, rfl, .nil force segStart cur⟩
  | case2 cur force segStart c cs hcolon ih =>
    rw [splitSegs.eq_def] at h
    simp only [hcolon, if_true] at h
    obtain ⟨s, ss, raw, tail, rfl, hfirst⟩ := ih h
    rw [Bool.and_eq_true, beq_iff_eq] at hcolon
    obtain ⟨rfl, rfl⟩ := hcolon
    have hstop : segEnd ([':'] ++ cs) = segEnd cs + 1 := segEnd_char (by decide) (by decide) cs
    exact ⟨s, ss, _, tail, rfl, hfirst.cons hstop (.inl ⟨rfl, rfl, [], rfl⟩)⟩
  | case3 cur force segStart hcolon =>
    rw [splitSegs.eq_def] at h
    simp at h
    subst h
    exact ⟨_, _, _, _, rfl, .dangling force segStart cur⟩
  | case4 cur force segStart d ds hcolon ih =>
    rw [splitSegs_escape] at h
    obtain ⟨s, ss, raw, tail, rfl, hfirst⟩ := ih h
    have hstop : segEnd (['\\', d] ++ ds) = segEnd ds + 2 := by
      rw [List.cons_append, segEnd.eq_def]
      simp
    exact ⟨s, ss, _, tail, rfl, hfirst.cons hstop (.inr rfl)⟩
  | case5 cur force segStart cs hcolon hesc ih =>
    rw [splitSegs.eq_def] at h
    simp at h
    obtain ⟨ss, hss, rfl⟩ := h
    exact ⟨_, ss, _, _, rfl, .dot hss⟩
  | case6 cur force segStart c cs hcolon hesc hdot hwild =>
    rw [splitSegs.eq_def] at h
    simp [hcolon, hesc, hdot, hwild] at h
  | case7 cur force segStart c cs hcolon hesc hdot hwild ih =>
    rw [splitSegs_char (by simpa using hcolon) hesc hdot hwild] at h
    obtain ⟨s, ss, raw, tail, rfl, hfirst⟩ := ih h
    have hstop : segEnd ([c] ++ cs) = segEnd cs + 1 := segEnd_char hdot hesc cs
    exact ⟨s, ss, _, tail, rfl, hfirst.cons hstop (.inr rfl)⟩

theorem FirstSeg.dropColon {text : List Char} {s : PathSeg} {ss : List PathSeg}
    {raw tail : List Char} (h : FirstSeg false true text s ss raw tail) :
    ∃ raw', Builder.dropColon s.force raw = .ok raw' ∧ (⟨s.name, s.force, raw'⟩ : PathKey).text =
      raw := by
  cases hforce : s.force with
  | false => exact ⟨raw, rfl, rfl⟩
  | true =>
    obtain ⟨r, rfl⟩ := h.forced rfl rfl hforce
    have hslice := slice_append [':'] r []
    rw [List.append_nil, List.singleton_append, List.length_singleton, Nat.add_comm] at hslice
    exact ⟨r, hslice, rfl⟩

theorem keysFrom_spec {segs : List PathSeg} {text : List Char}
    (h : splitSegs [] false true text = some segs) (pre : List Char) :
    ∃ keys, keysFrom (pre ++ text) segs pre.length = .ok keys ∧ keys.map PathKey.seg = segs ∧
      sepBy '.' (keys.map PathKey.text) = text := by
  induction segs generalizing text pre with
  | nil =>
    obtain ⟨s, ss, _, _, hcons, -⟩ := firstSeg_of_splitSegs h
    cases hcons
  | cons s ss ih =>
    obtain ⟨s', ss', raw, tail, hcons, hfirst⟩ := firstSeg_of_splitSegs h
    cases hcons
    have hstop : min (pre.length + segEnd ((pre ++ text).drop pre.length)) (pre ++ text).length =
        pre.length + raw.length := by
      have hraw := hfirst.stop
      rw [List.drop_left, List.length_append]
      omega
    obtain ⟨raw', hraw', htext⟩ := hfirst.dropColon
    have hslice := slice_append pre raw tail
    rw [← hfirst.text_eq] at hslice
    rcases hfirst.rest with ⟨rfl, rfl⟩ | ⟨t, rfl, ht⟩
    · refine ⟨[⟨s.name, s.force, raw'⟩], ?_, rfl, ?_⟩
      · simp only [keysFrom, hstop, hslice, hraw', bind, Except.bind, pure, Except.pure]
      · rw [hfirst.text_eq, List.append_nil]
        exact htext
    · have hpre : pre ++ text = (pre ++ raw ++ ['.']) ++ t := by
        rw [hfirst.text_eq]
        simp
      have hlength : (pre ++ raw ++ ['.']).length = pre.length + raw.length + 1 := by
        rw [List.length_append, List.length_append, List.length_singleton]
      obtain ⟨keys, hkeys, hsegs, hsep⟩ := ih ht (pre ++ raw ++ ['.'])
      rw [← hpre, hlength] at hkeys
      refine ⟨⟨s.name, s.force, raw'⟩ :: keys, ?_, ?_, ?_⟩
      · simp only [keysFrom, hstop, hslice, hraw', hkeys, bind, Except.bind, pure, Except.pure]
      · rw [List.map_cons, hsegs]
        rfl
      · cases keys with
        | nil =>
          obtain ⟨s', ss', _, _, hcons, -⟩ := firstSeg_of_splitSegs ht
          rw [← hsegs] at hcons
          cases hcons
        | cons k keys =>
          show PathKey.text _ ++ '.' :: sepBy '.' ((k :: keys).map PathKey.text) = text
          rw [htext, hsep, hfirst.text_eq]

end Raw

/-- `PathSegments` slices inside its path: the keys are the segments of `splitPath`, and their raw
texts spell the path. -/
theorem pathSegments_exact {path : List Char} {segs : List PathSeg}
    (h : splitPath path = some segs) :
    ∃ keys, pathSegments path = .ok (some keys) ∧ keys.map PathKey.seg = segs ∧
      sepBy '.' (keys.map PathKey.text) = path := by
  have hsplit : splitSegs [] false true path = some segs := by
    cases path with
    | nil => cases h
    | cons c cs => exact h
  obtain ⟨keys, hkeys, hsegs, hsep⟩ := keysFrom_spec hsplit []
  refine ⟨keys, ?_, hsegs, hsep⟩
  rw [pathSegments, h]
  exact congrArg (Except.map some) hkeys

theorem pathSegments_dangling :
    splitPath ":a\\.b.\\".toList = some [⟨"a.b", true⟩, ⟨"", false⟩] ∧
      ∃ keys, pathSegments ":a\\.b.\\".toList = .ok (some keys) ∧
        keys.map PathKey.seg = [⟨"a.b", true⟩, ⟨"", false⟩] ∧
        sepBy '.' (keys.map PathKey.text) = ":a\\.b.\\".toList :=
  have h : splitPath ":a\\.b.\\".toList = some [⟨"a.b", true⟩, ⟨"", false⟩] := by decide +kernel
  ⟨h, pathSegments_exact h⟩

end ThanksComputer.Builder
