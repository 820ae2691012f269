import ThanksComputer.Json.Value

/-! JSON texts at the grain the merger edits them: a text is the list of its top-level tokens, each
with its spelling.  A value token carries both its bytes and the value gjson reads off them. -/

universe u

namespace ThanksComputer

inductive Tok (F : Type u) : Type u
  | ws (c : Char)
  | lbrace
  | rbrace
  | comma
  | colon
  | key (raw : String) (name : String)
  | val (raw : String) (v : Json F)
  | junk (raw : String)

abbrev Text (F : Type u) := List (Tok F)

variable {F : Type u}

def Tok.bytes : Tok F → String
  | .ws c => c.toString
  | .lbrace => "\x7b"
  | .rbrace => "\x7d"
  | .comma => ","
  | .colon => ":"
  | .key raw _ => raw
  | .val raw _ => raw
  | .junk raw => raw

def bytes (t : Text F) : String :=
  String.join (t.map Tok.bytes)

def blank (b : List Char) : Text F :=
  b.map .ws

/-- One member of an object text with the blanks around its parts. -/
structure Member (F : Type u) where
  pre : List Char
  rawKey : String
  name : String
  sepL : List Char
  sepR : List Char
  raw : String
  val : Json F
  post : List Char

def Member.render (m : Member F) : Text F :=
  blank m.pre ++ .key m.rawKey m.name :: blank m.sepL ++ .colon :: blank m.sepR ++
    .val m.raw m.val :: blank m.post

def renderMembers : List (Member F) → Text F
  | [] => []
  | [m] => m.render
  | m :: m' :: ms => m.render ++ .comma :: renderMembers (m' :: ms)

/-- A well-formed object text.  `inner` is the blank of an empty object. -/
structure ObjText (F : Type u) where
  lead : List Char
  inner : List Char
  members : List (Member F)
  trail : List Char
  inner_nil : members ≠ [] → inner = []

def ObjText.render (o : ObjText F) : Text F :=
  blank o.lead ++ .lbrace :: blank o.inner ++ renderMembers o.members ++ .rbrace :: blank o.trail

/-- The members of an object text as its reader lists them. -/
def ObjText.entries (o : ObjText F) : List (String × Json F) :=
  o.members.map fun m => (m.name, m.val)

def allWs : Text F → Option (List Char)
  | [] => some []
  | .ws c :: t => (allWs t).map (c :: ·)
  | _ :: _ => none

/-- Where the reader of an object text stands. -/
inductive Place (F : Type u) : Type u
  | first (pre : List Char)
  | next (pre : List Char)
  | name (pre : List Char) (rawKey name : String) (sepL : List Char)
  | value (pre : List Char) (rawKey name : String) (sepL sepR : List Char)
  | after (m : Member F)

def ObjText.cons (m : Member F) (o : ObjText F) : ObjText F :=
  ⟨o.lead, [], m :: o.members, o.trail, fun _ => rfl⟩

def parseBody : Place F → Text F → Option (ObjText F)
  | .first pre, .ws c :: t => parseBody (.first (pre ++ [c])) t
  | .first pre, .rbrace :: t => (allWs t).map fun trail => ⟨[], pre, [], trail, by simp⟩
  | .first pre, .key r k :: t => parseBody (.name pre r k []) t
  | .next pre, .ws c :: t => parseBody (.next (pre ++ [c])) t
  | .next pre, .key r k :: t => parseBody (.name pre r k []) t
  | .name pre r k l, .ws c :: t => parseBody (.name pre r k (l ++ [c])) t
  | .name pre r k l, .colon :: t => parseBody (.value pre r k l []) t
  | .value pre r k l s, .ws c :: t => parseBody (.value pre r k l (s ++ [c])) t
  | .value pre r k l s, .val raw v :: t => parseBody (.after ⟨pre, r, k, l, s, raw, v, []⟩) t
  | .after m, .ws c :: t => parseBody (.after { m with post := m.post ++ [c] }) t
  | .after m, .comma :: t => (parseBody (.next []) t).map (.cons m)
  | .after m, .rbrace :: t => (allWs t).map fun trail => ⟨[], [], [m], trail, fun _ => rfl⟩
  | _, _ => none

def parseFrom (lead : List Char) : Text F → Option (ObjText F)
  | .ws c :: t => parseFrom (lead ++ [c]) t
  | .lbrace :: t => (parseBody (.first []) t).map fun o => { o with lead := lead }
  | _ => none

/-- The strict reading of a text as an object, `gjson.Valid` and `IsObject` together. -/
def parse (t : Text F) : Option (ObjText F) :=
  parseFrom [] t

/-- `gjson.Parse(t).IsObject()`: the first byte that is not blank is a brace. -/
def isObjectText : Text F → Bool
  | .ws _ :: t => isObjectText t
  | .lbrace :: _ => true
  | _ => false

def Place.consumed : Place F → Text F
  | .first pre => blank pre
  | .next pre => blank pre
  | .name pre r k l => blank pre ++ .key r k :: blank l
  | .value pre r k l s => blank pre ++ .key r k :: blank l ++ .colon :: blank s
  | .after m => m.render

def ObjText.renderBody (o : ObjText F) : Text F :=
  blank o.inner ++ renderMembers o.members ++ .rbrace :: blank o.trail

theorem ObjText.render_eq (o : ObjText F) :
    o.render = blank o.lead ++ .lbrace :: o.renderBody := by
  simp [render, renderBody]

@[simp] theorem blank_nil : (blank [] : Text F) = [] := rfl

theorem blank_append (a b : List Char) : (blank (a ++ b) : Text F) = blank a ++ blank b := by
  simp [blank]

@[simp] theorem blank_cons (c : Char) (b : List Char) :
    (blank (c :: b) : Text F) = .ws c :: blank b :=
  rfl

@[simp] theorem allWs_blank (b : List Char) : allWs (blank b : Text F) = some b := by
  induction b with
  | nil => rfl
  | cons c b ih => simp [allWs, ih]

theorem eq_blank_of_allWs {t : Text F} {b : List Char} (h : allWs t = some b) : t = blank b := by
  induction t generalizing b with
  | nil =>
    cases h
    rfl
  | cons x t ih =>
    cases x with
    | ws c =>
      simp only [allWs, Option.map_eq_some_iff] at h
      obtain ⟨b', hb, rfl⟩ := h
      rw [ih hb, blank_cons]
    | lbrace | rbrace | comma | colon | key | val | junk => cases h

theorem renderMembers_cons {m : Member F} {ms : List (Member F)} (h : ms ≠ []) :
    renderMembers (m :: ms) = m.render ++ .comma :: renderMembers ms := by
  cases ms with
  | nil => exact absurd rfl h
  | cons m' ms => rfl

def Place.isFirst : Place F → Bool
  | .first _ => true
  | _ => false

def Place.push : Place F → List Char → Place F
  | .first pre, b => .first (pre ++ b)
  | .next pre, b => .next (pre ++ b)
  | .name pre r k l, b => .name pre r k (l ++ b)
  | .value pre r k l s, b => .value pre r k l (s ++ b)
  | .after m, b => .after { m with post := m.post ++ b }

@[simp] theorem Place.push_nil (p : Place F) : p.push [] = p := by
  cases p <;> simp [push]

@[simp] theorem Place.isFirst_push (p : Place F) (b : List Char) :
    (p.push b).isFirst = p.isFirst := by
  cases p <;> rfl

theorem parseBody_ws (p : Place F) (c : Char) (t : Text F) :
    parseBody p (.ws c :: t) = parseBody (p.push [c]) t := by
  cases p <;> rfl

theorem parseBody_colon (pre : List Char) (r k : String) (l : List Char) (t : Text F) :
    parseBody (.name pre r k l) (.colon :: t) = parseBody (.value pre r k l []) t := rfl

theorem parseBody_val (pre : List Char) (r k : String) (l s : List Char) (raw : String) (v : Json F)
    (t : Text F) :
    parseBody (.value pre r k l s) (.val raw v :: t) = parseBody
      (.after ⟨pre, r, k, l, s, raw, v, []⟩) t := rfl

theorem parseBody_comma (m : Member F) (t : Text F) :
    parseBody (.after m) (.comma :: t) = (parseBody (.next []) t).map (.cons m) := rfl

theorem parseBody_last (m : Member F) (t : Text F) : parseBody (.after m) (.rbrace :: t) =
    (allWs t).map fun trail => ⟨[], [], [m], trail, fun _ => rfl⟩ := rfl

theorem parseBody_empty (pre : List Char) (t : Text F) : parseBody (.first pre) (.rbrace :: t) =
    (allWs t).map fun trail => ⟨[], pre, [], trail, by simp⟩ := rfl

theorem parseBody_blank (p : Place F) (b : List Char) (t : Text F) :
    parseBody p (blank b ++ t) = parseBody (p.push b) t := by
  induction b generalizing p with
  | nil => simp
  | cons c b ih =>
    rw [blank_cons, List.cons_append, parseBody_ws, ih]
    congr 1
    cases p <;> simp [Place.push]

theorem parseBody_member {p : Place F} (hp : p = .first [] ∨ p = .next []) (m : Member F)
    (t : Text F) : parseBody p (m.render ++ t) = parseBody (.after m) t := by
  have hm : m.render ++ t = blank m.pre ++ (.key m.rawKey m.name :: (blank m.sepL ++
      (.colon :: (blank m.sepR ++ (.val m.raw m.val :: (blank m.post ++ t)))))) := by
    simp [Member.render]
  have hkey : ∀ t, parseBody (p.push m.pre) (.key m.rawKey m.name :: t) =
      parseBody (.name m.pre m.rawKey m.name []) t := by
    rcases hp with rfl | rfl <;> intro t <;> rfl
  rw [hm, parseBody_blank, hkey, parseBody_blank]
  simp only [Place.push, List.nil_append, parseBody_colon]
  rw [parseBody_blank]
  simp only [Place.push, List.nil_append, parseBody_val]
  rw [parseBody_blank]
  rfl

theorem parseBody_members {p : Place F} (hp : p = .first [] ∨ p = .next [])
    {ms : List (Member F)} (h : ms ≠ []) (trail : List Char) :
    parseBody p (renderMembers ms ++ .rbrace :: blank trail) =
      some ⟨[], [], ms, trail, fun _ => rfl⟩ := by
  induction ms generalizing p with
  | nil => exact absurd rfl h
  | cons m ms ih =>
    by_cases hms : ms = []
    · subst hms
      rw [show renderMembers [m] = m.render from rfl, parseBody_member hp]
      simp [parseBody_last]
    · rw [renderMembers_cons hms, List.append_assoc, parseBody_member hp, List.cons_append,
        parseBody_comma, ih (.inr rfl) hms]
      rfl

theorem parseFrom_blank (lead b : List Char) (t : Text F) :
    parseFrom lead (blank b ++ t) = parseFrom (lead ++ b) t := by
  induction b generalizing lead with
  | nil => simp
  | cons c b ih => rw [blank_cons, List.cons_append, parseFrom, ih]; simp

theorem parse_render (o : ObjText F) : parse o.render = some o := by
  obtain ⟨lead, inner, members, trail, inner_nil⟩ := o
  rw [ObjText.render_eq, parse, parseFrom_blank, List.nil_append, parseFrom, ObjText.renderBody]
  by_cases hms : members = []
  · subst hms
    simp only [renderMembers, List.append_nil]
    rw [parseBody_blank]
    simp [Place.push, parseBody_empty]
  · have hin : inner = [] := inner_nil hms
    subst hin
    simp only [blank_nil, List.nil_append]
    rw [parseBody_members (.inl rfl) hms]
    rfl

theorem renderBody_of_parseBody {p : Place F} {t : Text F} {o : ObjText F}
    (h : parseBody p t = some o) :
    p.consumed ++ t = o.renderBody ∧ (p.isFirst = false → o.members ≠ []) := by
  induction t generalizing p o with
  | nil => cases p <;> cases h
  | cons x t ih =>
    cases x with
    | ws c =>
      rw [parseBody_ws] at h
      obtain ⟨hr, hne⟩ := ih h
      constructor
      · rw [← hr]
        cases p <;> simp [Place.push, Place.consumed, blank_append, Member.render]
      · intro hp
        rw [Place.isFirst_push] at hne
        exact hne hp
    | rbrace =>
      cases p with
      | first pre =>
        simp only [parseBody_empty, Option.map_eq_some_iff] at h
        obtain ⟨b, hb, rfl⟩ := h
        simp [Place.consumed, Place.isFirst, ObjText.renderBody, renderMembers,
          eq_blank_of_allWs hb]
      | after m =>
        simp only [parseBody_last, Option.map_eq_some_iff] at h
        obtain ⟨b, hb, rfl⟩ := h
        simp [Place.consumed, Place.isFirst, ObjText.renderBody, renderMembers,
          eq_blank_of_allWs hb]
      | next | name | value => cases h
    | key r k =>
      cases p with
      | first pre | next pre =>
        obtain ⟨hr, hne⟩ := ih (p := .name pre r k []) h
        exact ⟨by rw [← hr]; simp [Place.consumed], fun _ => hne rfl⟩
      | name | value | after => cases h
    | colon =>
      cases p with
      | name pre r k l =>
        obtain ⟨hr, hne⟩ := ih (p := .value pre r k l []) h
        exact ⟨by rw [← hr]; simp [Place.consumed], fun _ => hne rfl⟩
      | first | next | value | after => cases h
    | val raw v =>
      cases p with
      | value pre r k l s =>
        obtain ⟨hr, hne⟩ := ih (p := .after ⟨pre, r, k, l, s, raw, v, []⟩) h
        exact ⟨by rw [← hr]; simp [Place.consumed, Member.render], fun _ => hne rfl⟩
      | first | next | name | after => cases h
    | comma =>
      cases p with
      | after m =>
        simp only [parseBody_comma, Option.map_eq_some_iff] at h
        obtain ⟨o', ho', rfl⟩ := h
        obtain ⟨hr, hne⟩ := ih ho'
        have hms : o'.members ≠ [] := hne rfl
        have hin : o'.inner = [] := o'.inner_nil hms
        constructor
        · rw [Place.consumed, blank_nil, List.nil_append] at hr
          rw [hr, ObjText.renderBody, ObjText.renderBody, hin]
          simp [Place.consumed, ObjText.cons, renderMembers_cons hms]
        · intro _
          simp [ObjText.cons]
      | first | next | name | value => cases h
    | lbrace | junk => cases p <;> cases h

theorem parseFrom_eq_some {lead : List Char} {t : Text F} {o : ObjText F}
    (h : parseFrom lead t = some o) : blank lead ++ t = o.render := by
  induction t generalizing lead with
  | nil => cases h
  | cons x t ih =>
    cases x with
    | ws c =>
      rw [← ih h]
      simp [blank_append]
    | lbrace =>
      simp only [parseFrom, Option.map_eq_some_iff] at h
      obtain ⟨o', ho', rfl⟩ := h
      have hr := (renderBody_of_parseBody ho').1
      rw [Place.consumed, blank_nil, List.nil_append] at hr
      rw [hr, ObjText.render_eq]
      rfl
    | rbrace | comma | colon | key | val | junk => cases h

theorem render_of_parse {t : Text F} {o : ObjText F} (h : parse t = some o) : o.render = t :=
  (parseFrom_eq_some h).symm

theorem isObjectText_render (o : ObjText F) : isObjectText o.render = true := by
  rw [ObjText.render_eq]
  induction o.lead with
  | nil => rfl
  | cons c b ih => exact ih

theorem parse_eq_some_iff {t : Text F} {o : ObjText F} : parse t = some o ↔ t = o.render :=
  ⟨fun h => (render_of_parse h).symm, fun h => h ▸ parse_render o⟩

end ThanksComputer
