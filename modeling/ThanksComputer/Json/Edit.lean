import ThanksComputer.Json.Path
import ThanksComputer.Json.Text

/-! Reading and editing JSON texts.  The parts of gjson and sjson that edit well-formed object texts
are written out; `JsonLib` holds the rest of these libraries and of encoding/json. -/

universe u

namespace ThanksComputer

open Lib.Assoc

structure JsonLib (F : Type u) where
  /-- The number is not infinite, which is all a JSON number can fail to be. -/
  fin : F → Bool
  /-- Which of several members of one name gjson's `Value` keeps. -/
  dup : Dup
  marshalString : String → String
  formatFloat : F → String
  marshal : Json F → String
  /-- The bytes of a value after a set below it. -/
  spliceRaw : String → List PathSeg → String → String
  /-- The bytes of the value at a path inside a value. -/
  sliceRaw : String → List String → String
  /-- `gjson.Get` where the path or the text is not a plain one. -/
  getOther : Text F → List Char → Option (String × Json F)
  /-- `ForEach` over a text that opens a brace and is not well formed. -/
  eachOther : Text F → List (String × Json F)
  setOther : Text F → List PathSeg → String → Json F → Option (Text F)
  deleteOther : Text F → List Char → Option (Text F)

variable {F : Type u}

def mustMarshalString (s : String) : Bool :=
  s.toList.any fun c => c < ' ' || '\x7f' < c || c == '"' || c == '\\'

def ObjText.finite (fin : F → Bool) (o : ObjText F) : Bool :=
  o.members.all fun m => m.val.finite fin

def ObjText.prepend (o : ObjText F) (rawKey name raw : String) (v : Json F) : ObjText F where
  lead := []
  inner := []
  members := ⟨[], rawKey, name, [], [], raw, v, o.inner⟩ :: o.members
  trail := o.trail
  inner_nil _ := rfl

def replaceMember (k raw : String) (v : Json F) : List (Member F) → List (Member F)
  | [] => []
  | m :: ms => if m.name = k then { m with raw, val := v } :: ms else m :: replaceMember k raw v ms

theorem replaceMember_eq_nil {k raw : String} {v : Json F} {ms : List (Member F)} :
    replaceMember k raw v ms = [] ↔ ms = [] := by
  cases ms with
  | nil => simp [replaceMember]
  | cons m ms =>
    rw [replaceMember]
    split <;> simp

def ObjText.replace (o : ObjText F) (k raw : String) (v : Json F) : ObjText F where
  lead := o.lead
  inner := o.inner
  members := replaceMember k raw v o.members
  trail := o.trail
  inner_nil h := o.inner_nil fun hnil => h (replaceMember_eq_nil.mpr hnil)

def ObjText.find? (o : ObjText F) (k : String) : Option (Member F) :=
  o.members.find? fun m => m.name == k

/-- The members left by `sjson.Delete` of a name, with the blank of an emptied object. -/
def deleteMember (k : String) : List (Member F) → List (Member F) × List Char
  | [] => ([], [])
  | [m] => if m.name = k then ([], m.post) else ([m], [])
  | m :: m' :: ms =>
    if m.name = k then (m' :: ms, [])
    else if m'.name = k then ({ m with post := m.post ++ m'.post } :: ms, [])
    else (m :: (deleteMember k (m' :: ms)).1, [])

def ObjText.delete (o : ObjText F) (k : String) : ObjText F where
  lead := o.lead
  inner := if (deleteMember k o.members).1.isEmpty then o.inner ++ (deleteMember k o.members).2
    else []
  members := (deleteMember k o.members).1
  trail := o.trail
  inner_nil h := by simp [h]

theorem lookup_map_members (ms : List (Member F)) (k : String) :
    (ms.map fun m => (m.name, m.val)).lookup k =
      (ms.find? fun m => m.name == k).map Member.val := by
  induction ms with
  | nil => rfl
  | cons m ms ih =>
    by_cases hk : k = m.name
    · subst hk
      simp
    · have hk' : (m.name == k) = false := by simpa using fun h => hk h.symm
      rw [List.map_cons, lookup_cons_of_ne (e := (m.name, m.val)) hk, ih, List.find?_cons, hk']

theorem ObjText.lookup_entries (o : ObjText F) (k : String) :
    o.entries.lookup k = (o.find? k).map Member.val :=
  lookup_map_members o.members k

theorem map_replaceMember (k raw : String) (v : Json F) (ms : List (Member F)) :
    (replaceMember k raw v ms).map (fun m => (m.name, m.val)) =
      replaceFirst k v (ms.map fun m => (m.name, m.val)) := by
  induction ms with
  | nil => rfl
  | cons m ms ih =>
    rw [replaceMember, List.map_cons, replaceFirst]
    split
    · next h => rw [← h]; rfl
    · rw [List.map_cons, ih]

@[simp] theorem ObjText.entries_replace (o : ObjText F) (k raw : String) (v : Json F) :
    (o.replace k raw v).entries = replaceFirst k v o.entries :=
  map_replaceMember k raw v o.members

@[simp] theorem ObjText.entries_prepend (o : ObjText F) (rawKey k raw : String) (v : Json F) :
    (o.prepend rawKey k raw v).entries = (k, v) :: o.entries := rfl

theorem ObjText.find?_replace_of_ne {k k' : String} (h : k' ≠ k) (raw : String) (v : Json F)
    (o : ObjText F) : (o.replace k raw v).find? k' = o.find? k' := by
  rw [find?, find?, replace]
  simp only
  induction o.members with
  | nil => rfl
  | cons m ms ih =>
    rw [replaceMember]
    split
    · next hm =>
      have hk : (m.name == k') = false := by simpa [hm] using h.symm
      simp [hk]
    · rw [List.find?_cons, List.find?_cons, ih]

theorem ObjText.find?_prepend_of_ne {k k' : String} (h : k' ≠ k) (rawKey raw : String) (v : Json F)
    (o : ObjText F) : (o.prepend rawKey k raw v).find? k' = o.find? k' := by
  have hk : (k == k') = false := by simpa using h.symm
  simp [find?, prepend, hk]

theorem ObjText.renderBody_prepend (o : ObjText F) (rawKey k raw : String) (v : Json F) :
    (o.prepend rawKey k raw v).renderBody =
      [.key rawKey k, .colon, .val raw v] ++ (if o.members.isEmpty then [] else [.comma]) ++
        o.renderBody := by
  cases hms : o.members with
  | nil => simp [prepend, renderBody, renderMembers, Member.render, hms]
  | cons m ms =>
    have hin : o.inner = [] := o.inner_nil (by simp [hms])
    simp [prepend, renderBody, renderMembers, Member.render, hms, hin]

theorem ObjText.finite_iff (fin : F → Bool) (o : ObjText F) :
    o.finite fin = true ↔ ∀ e ∈ o.entries, e.2.finite fin = true := by
  simp [finite, entries]

theorem map_deleteMember (k : String) (ms : List (Member F)) :
    (deleteMember k ms).1.map (fun m => (m.name, m.val)) =
      (ms.map fun m => (m.name, m.val)).eraseP fun e => e.1 == k := by
  fun_induction deleteMember k ms with
  | case1 => rfl
  | case2 m h => simp [h]
  | case3 m h => simp [h]
  | case4 m m' ms h => simp [h]
  | case5 m m' ms h h' => simp [h, h']
  | case6 m m' ms h h' ih =>
    rw [List.map_cons, ih]
    exact (List.eraseP_cons_of_neg (p := fun e : String × Json F => e.1 == k)
      (by simpa using h)).symm

@[simp] theorem ObjText.entries_delete (o : ObjText F) (k : String) :
    (o.delete k).entries = o.entries.eraseP fun e => e.1 == k :=
  map_deleteMember k o.members

namespace JsonLib

variable (L : JsonLib F)

def appendStringify (s : String) : String :=
  if mustMarshalString s then L.marshalString s else "\"" ++ s ++ "\""

def encodeValue : Json F → Option String
  | .null => some "null"
  | .bool true => some "true"
  | .bool false => some "false"
  | .num n => some (L.formatFloat n)
  | .str s => some (L.appendStringify s)
  | .arr xs => if (Json.arr xs).finite L.fin then some (L.marshal (.arr xs)) else none
  | .obj ms => if (Json.obj ms).finite L.fin then some (L.marshal (.obj ms)) else none

def createRaw : List PathSeg → String → String
  | [], raw => raw
  | s :: ss, raw =>
    match s.atoui with
    | some n => "[" ++ String.join (List.replicate n.toNat "null,") ++ createRaw ss raw ++ "]"
    | none =>
      if s.isAppend then "[" ++ createRaw ss raw ++ "]"
      else "\x7b" ++ L.appendStringify s.name ++ ":" ++ createRaw ss raw ++ "\x7d"

def emptyObj : ObjText F :=
  ⟨[], [], [], [], fun _ => rfl⟩

/-- The compact text of an object with the given members. -/
def ofEntries (es : List (String × Json F)) : ObjText F where
  lead := []
  inner := []
  members := es.map fun e =>
    ⟨[], L.appendStringify e.1, e.1, [], [], (L.encodeValue e.2).getD "", e.2, []⟩
  trail := []
  inner_nil _ := rfl

@[simp] theorem entries_ofEntries (es : List (String × Json F)) :
    (L.ofEntries es).entries = es := by
  rw [ObjText.entries, ofEntries, List.map_map]
  exact List.map_id _

/-- A set on an object text; `none` is sjson's error. -/
def setObj (o : ObjText F) (s : PathSeg) (ss : List PathSeg) (raw : String) (v : Json F) :
    Option (ObjText F) :=
  match o.find? s.name with
  | some m =>
    match ss with
    | [] => some (o.replace s.name raw v)
    | _ :: _ => (Json.setNode ss m.val v).map fun w => o.replace s.name (L.spliceRaw m.raw ss raw) w
  | none =>
    some (o.prepend (L.appendStringify s.name) s.name (L.createRaw ss raw) (Json.createValue ss v))

def setBlank (s : PathSeg) (ss : List PathSeg) (raw : String) (v : Json F) : Text F :=
  match s.atoui with
  | some _ => [.val (L.createRaw (s :: ss) raw) (Json.createValue (s :: ss) v)]
  | none =>
    (emptyObj.prepend (L.appendStringify s.name) s.name (L.createRaw ss raw)
      (Json.createValue ss v)).render

/-- `sjson.SetRaw`; `none` is its error. -/
def setRaw (t : Text F) (path : List Char) (raw : String) (v : Json F) : Option (Text F) :=
  match splitPath path with
  | none | some [] => none
  | some (s :: ss) =>
    match parse t with
    | some o => (L.setObj o s ss raw v).map ObjText.render
    | none =>
      if (allWs t).isSome then some (L.setBlank s ss raw v) else L.setOther t (s :: ss) raw v

/-- `src, _ = sjson.Set(src, escapeDot(key), v)`: an error leaves the empty text. -/
def set (t : Text F) (key : String) (v : Json F) : Text F :=
  ((L.encodeValue v).bind fun raw => L.setRaw t (escapeDot key) raw v).getD []

/-- `gjson.Get(src, escapeDot(key))`. -/
def get (t : Text F) (key : String) : Option (Json F) :=
  match parse t with
  | some o =>
    if plainMergeKey key then o.entries.lookup key
    else (L.getOther t (escapeDot key)).map Prod.snd
  | none => if (allWs t).isSome then none else (L.getOther t (escapeDot key)).map Prod.snd

/-- The members `ForEach` visits. -/
def each (t : Text F) : List (String × Json F) :=
  match parse t with
  | some o => o.entries
  | none => L.eachOther t

variable {L}

theorem get_plain {k : String} (hk : plainMergeKey k = true) (o : ObjText F) :
    L.get o.render k = o.entries.lookup k := by
  simp [get, parse_render, hk]

/-- A name whose path leads to the members of that name. -/
structure Addressed (L : JsonLib F) (k : String) : Prop where
  path : splitPath (escapeDot k) = some [⟨k, false⟩]
  get : ∀ o : ObjText F, L.get o.render k = o.entries.lookup k

theorem addressed_of_plain {k : String} (hk : plainMergeKey k = true) : L.Addressed k :=
  ⟨splitPath_escapeDot_plain hk, get_plain hk⟩

theorem set_addressed {k : String} (hk : L.Addressed k) {v : Json F} {raw : String}
    (hv : L.encodeValue v = some raw) (o : ObjText F) :
    L.set o.render k v =
      match o.entries.lookup k with
      | some _ => (o.replace k raw v).render
      | none => (o.prepend (L.appendStringify k) k raw v).render := by
  simp only [set, hv, Option.bind_some, setRaw, hk.path, parse_render, setObj,
    o.lookup_entries k]
  cases o.find? k <;> simp [createRaw, Json.createValue]

theorem set_plain {k : String} (hk : plainMergeKey k = true) {v : Json F} {raw : String}
    (hv : L.encodeValue v = some raw) (o : ObjText F) :
    L.set o.render k v =
      match o.entries.lookup k with
      | some _ => (o.replace k raw v).render
      | none => (o.prepend (L.appendStringify k) k raw v).render :=
  set_addressed (addressed_of_plain hk) hv o

/-- gjson makes up no numbers: what it reads off an object in range is in range. -/
def ReadsFinite (L : JsonLib F) : Prop :=
  ∀ (o : ObjText F) (path : List Char) (raw : String) (v : Json F),
    o.finite L.fin = true → L.getOther o.render path = some (raw, v) → v.finite L.fin = true

theorem finite_get (hL : L.ReadsFinite) {o : ObjText F} (ho : o.finite L.fin = true) {k : String}
    {v : Json F} (h : L.get o.render k = some v) : v.finite L.fin = true := by
  rw [get, parse_render] at h
  simp only at h
  split at h
  · exact (o.finite_iff L.fin).mp ho _ (mem_of_lookup h)
  · obtain ⟨⟨raw, w⟩, hw, rfl⟩ := Option.map_eq_some_iff.mp h
    exact hL o _ raw w ho hw

theorem encodeValue_isSome {v : Json F} (h : v.finite L.fin = true) :
    (L.encodeValue v).isSome = true := by
  cases v with
  | bool b => cases b <;> rfl
  | arr xs => simp [encodeValue, h]
  | obj ms => simp [encodeValue, h]
  | null | num | str => rfl

theorem finite_setObj {o o' : ObjText F} (ho : o.finite L.fin = true) {s : PathSeg}
    {ss : List PathSeg} {raw : String} {v : Json F} (hv : v.finite L.fin = true)
    (h : L.setObj o s ss raw v = some o') : o'.finite L.fin = true := by
  rw [ObjText.finite_iff] at ho ⊢
  rw [setObj] at h
  split at h
  · next m hm =>
    have hmem : (m.name, m.val) ∈ o.entries :=
      List.mem_map_of_mem (List.mem_of_find?_eq_some hm)
    split at h
    · cases h
      intro e he
      rw [ObjText.entries_replace] at he
      rcases mem_replaceFirst he with rfl | he
      · exact hv
      · exact ho e he
    · obtain ⟨w, hw, rfl⟩ := Option.map_eq_some_iff.mp h
      intro e he
      rw [ObjText.entries_replace] at he
      rcases mem_replaceFirst he with rfl | he
      · exact Json.finite_setNode (ho _ hmem) hv hw
      · exact ho e he
  · cases h
    intro e he
    rw [ObjText.entries_prepend] at he
    rcases List.mem_cons.mp he with rfl | he
    · exact Json.finite_createValue hv
    · exact ho e he

theorem lookup_setObj_of_ne {o o' : ObjText F} {s : PathSeg} {ss : List PathSeg} {raw : String}
    {v : Json F} (h : L.setObj o s ss raw v = some o') {k : String} (hk : k ≠ s.name) :
    o'.entries.lookup k = o.entries.lookup k := by
  rw [setObj] at h
  split at h
  · split at h
    · cases h
      rw [ObjText.entries_replace, lookup_replaceFirst_of_ne hk]
    · obtain ⟨w, hw, rfl⟩ := Option.map_eq_some_iff.mp h
      rw [ObjText.entries_replace, lookup_replaceFirst_of_ne hk]
  · cases h
    rw [ObjText.entries_prepend, lookup_cons_of_ne (e := (s.name, _)) hk]

theorem setObj_isSome {o : ObjText F} {s : PathSeg} {ss : List PathSeg}
    (hs : ∀ s ∈ ss, s.indexLike = true) (raw : String) (v : Json F) :
    (L.setObj o s ss raw v).isSome = true := by
  rw [setObj]
  split
  · split
    · rfl
    · rw [Option.isSome_map]
      exact Json.setNode_isSome hs _ v
  · rfl

end JsonLib

mutual

def marshalInt : Json Int → String
  | .null => "null"
  | .bool b => toString b
  | .num n => toString n
  | .str s => "\"" ++ s ++ "\""
  | .arr xs => "[" ++ ",".intercalate (marshalInts xs) ++ "]"
  | .obj ms => "\x7b" ++ ",".intercalate (marshalIntMembers ms) ++ "\x7d"

def marshalInts : List (Json Int) → List String
  | [] => []
  | x :: xs => marshalInt x :: marshalInts xs

def marshalIntMembers : List (String × Json Int) → List String
  | [] => []
  | (k, v) :: ms => ("\"" ++ k ++ "\":" ++ marshalInt v) :: marshalIntMembers ms

end

/-- The libraries on texts with integer numbers, plain strings and plain paths. -/
def intLib (dup : Lib.Assoc.Dup) : JsonLib Int where
  fin _ := true
  dup := dup
  marshalString s := "\"" ++ s ++ "\""
  formatFloat := toString
  marshal := marshalInt
  spliceRaw _ _ raw := raw
  sliceRaw raw _ := raw
  getOther _ _ := none
  eachOther _ := []
  setOther _ _ _ _ := none
  deleteOther _ _ := none

mutual

theorem finite_intLib (dup : Dup) : ∀ j : Json Int, j.finite (intLib dup).fin = true
  | .null | .bool _ | .num _ | .str _ => rfl
  | .arr xs => finiteElems_intLib dup xs
  | .obj ms => finiteMembers_intLib dup ms

theorem finiteElems_intLib (dup : Dup) :
    ∀ xs : List (Json Int), Json.finiteElems (intLib dup).fin xs = true
  | [] => rfl
  | x :: xs => Bool.and_eq_true_iff.mpr ⟨finite_intLib dup x, finiteElems_intLib dup xs⟩

theorem finiteMembers_intLib (dup : Dup) :
    ∀ ms : List (String × Json Int), Json.finiteMembers (intLib dup).fin ms = true
  | [] => rfl
  | (_, v) :: ms => Bool.and_eq_true_iff.mpr ⟨finite_intLib dup v, finiteMembers_intLib dup ms⟩

end

end ThanksComputer
