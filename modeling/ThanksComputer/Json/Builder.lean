import ThanksComputer.Json.Path
import ThanksComputer.Json.Follow

/-! The document builder of `jsonx`: a tree of objects, arrays and raw texts that is written once.
A set that descends into a raw text is left to sjson, which is a parameter here. -/

namespace ThanksComputer.Builder

open Json Lib.Separate Lib.Assoc

section Stringify

/-- The byte length of a text. -/
def bytes : List Char → Nat
  | [] => 0
  | c :: cs => c.utf8Size + bytes cs

def hexChar (n : Nat) : Char :=
  if n < 10 then Char.ofNat ('0'.toNat + n) else Char.ofNat ('a'.toNat + (n - 10))

/-- A character that `json.Marshal` writes as a code unit: a control character, one of HTML or a
line separator. -/
def isUnit (c : Char) : Bool :=
  c.toNat < 0x20 || c = '<' || c = '>' || c = '&' || c.toNat = 0x2028 || c.toNat = 0x2029

def unitText (n : Nat) : List Char :=
  ['\\', 'u', hexChar (n / 0x1000 % 16), hexChar (n / 0x100 % 16), hexChar (n / 16 % 16),
    hexChar (n % 16)]

/-- A character of a string, as `json.Marshal` writes it. -/
def marshalChar (c : Char) : List Char :=
  if c = '"' ∨ c = '\\' then ['\\', c]
  else if c = '\x08' then ['\\', 'b']
  else if c = '\x0c' then ['\\', 'f']
  else if c = '\n' then ['\\', 'n']
  else if c = '\r' then ['\\', 'r']
  else if c = '\t' then ['\\', 't']
  else if isUnit c then unitText c.toNat
  else [c]

/-- `MustMarshalString`: a byte that is not printable ASCII, a quote or a backslash. -/
def mustMarshalString (s : List Char) : Bool :=
  s.any fun c => c.toNat < 0x20 || 0x7f < c.toNat || c = '"' || c = '\\'

def appendStringify (s : String) : List Char :=
  if mustMarshalString s.toList then '"' :: (s.toList.flatMap marshalChar ++ ['"'])
  else '"' :: (s.toList ++ ['"'])

end Stringify

section Tree

/-- A node of the document; the keys of an object are quoted when it is written. -/
inductive Node
  | raw (text : List Char)
  | obj (entries : List (String × Node))
  | arr (elems : List Node)

mutual

def sizeNode : Node → Nat
  | .raw text => bytes text
  | .obj es => 2 + sizeEntries 0 es
  | .arr xs => 2 + sizeElems 0 xs

def sizeEntries (i : Nat) : List (String × Node) → Nat
  | [] => 0
  | (k, v) :: es =>
    (if 0 < i then 1 else 0) + (bytes (appendStringify k) + 1 + sizeNode v) + sizeEntries (i + 1) es

def sizeElems (i : Nat) : List Node → Nat
  | [] => 0
  | x :: xs => (if 0 < i then 1 else 0) + sizeNode x + sizeElems (i + 1) xs

end

mutual

def writeNode : Node → List Char
  | .raw text => text
  | .obj es => '\x7b' :: (writeEntries 0 es ++ ['\x7d'])
  | .arr xs => '[' :: (writeElems 0 xs ++ [']'])

def writeEntries (i : Nat) : List (String × Node) → List Char
  | [] => []
  | (k, v) :: es =>
    (if 0 < i then [','] else []) ++ (appendStringify k ++ ':' :: writeNode v) ++
      writeEntries (i + 1) es

def writeElems (i : Nat) : List Node → List Char
  | [] => []
  | x :: xs => (if 0 < i then [','] else []) ++ writeNode x ++ writeElems (i + 1) xs

end

def nullLeaf : Node := .raw ['n', 'u', 'l', 'l']

def createValue : List PathSeg → List Char → Node
  | [], raw => .raw raw
  | s :: ss, raw =>
    match s.atoui with
    | some n => .arr (List.replicate n.toNat nullLeaf ++ [createValue ss raw])
    | none => if s.isAppend then .arr [createValue ss raw] else .obj [(s.name, createValue ss raw)]

def createRoot (s : PathSeg) (ss : List PathSeg) (raw : List Char) : Node :=
  match s.atoui with
  | some _ => createValue (s :: ss) raw
  | none => .obj [(s.name, createValue ss raw)]

def elemHit (xs : List Node) (s : PathSeg) : Option Nat :=
  match gjsonArrayIndex s.name with
  | some i => if 0 ≤ i ∧ i.toNat < xs.length then some i.toNat else none
  | none => none

/-- What `joinSegs` escapes. -/
def isSpecial (c : Char) : Bool :=
  c = '\\' || c = '.' || c = '*' || c = '?' || c = '#' || c = ':'

def joinSeg (s : PathSeg) : List Char :=
  (if s.force then [':'] else []) ++ s.name.toList.flatMap fun c => if isSpecial c then ['\\', c]
    else [c]

def joinSegs (segs : List PathSeg) : List Char :=
  sepBy '.' (segs.map joinSeg)

/-- `sjson.SetRawOptions`: a text, a path and a raw value. -/
abbrev Sjson := List Char → List Char → List Char → Option (List Char)

def setNode (sjson : Sjson) : List PathSeg → Node → List Char → Option Node
  | [], _, raw => some (.raw raw)
  | s :: ss, .obj es, raw =>
    match es.lookup s.name with
    | some v => (setNode sjson ss v raw).map fun v => .obj (replaceFirst s.name v es)
    | none => some (.obj ((s.name, createValue ss raw) :: es))
  | s :: ss, .arr xs, raw =>
    match elemHit xs s with
    | some i => (setNode sjson ss (xs.getD i nullLeaf) raw).map fun v => .arr (xs.set i v)
    | none =>
      match s.atoui with
      | some n =>
        some (.arr (xs ++ List.replicate (n.toNat - xs.length) nullLeaf ++ [createValue ss raw]))
      | none => if s.isAppend then some (.arr (xs ++ [createValue ss raw])) else none
  | s :: ss, .raw text, raw => (sjson text (joinSegs (s :: ss)) raw).map .raw

/-- `apply`: no root is the empty document, which is also what an error leaves. -/
def apply (sjson : Sjson) (root : Option Node) (path raw : List Char) : Option Node :=
  match splitPath path, root with
  | none, _ => none
  | some segs, some n => setNode sjson segs n raw
  | some (s :: ss), none => some (createRoot s ss raw)
  | some [], none => none

/-- A `Set` or a `SetRaw`: its path and the encoded value, `none` where the value cannot be
marshalled. -/
structure Op where
  path : List Char
  raw : Option (List Char)

def set (sjson : Sjson) (root : Option Node) (op : Op) : Option Node :=
  op.raw.bind (apply sjson root op.path)

/-- `New`, `NewObject` and `NewArray`. -/
inductive Start
  | empty
  | object
  | array

def Start.root : Start → Option Node
  | .empty => none
  | .object => some (.obj [])
  | .array => some (.arr [])

def run (sjson : Sjson) (start : Start) (ops : List Op) : Option Node :=
  ops.foldl (set sjson) start.root

/-- `String`. -/
def document : Option Node → List Char
  | none => []
  | some n => writeNode n

/-- The capacity that `String` asks for. -/
def documentSize : Option Node → Nat
  | none => 0
  | some n => sizeNode n

end Tree

section Names

variable {c : Char} {read : List Nat} {rest : List Char}

theorem hexDigit_hexChar : ∀ n < 16, hexDigit (hexChar n) = some n := by
  decide

theorem scan_string_char (hquote : c ≠ '"') (hesc : c ≠ '\\') (hctl : ¬c.toNat < 0x20) :
    scan (.string read) (c :: rest) = scan (.string ((utf16 c).reverse ++ read)) rest := by
  rw [scan, scanChar, if_neg hquote, if_neg hesc, if_neg hctl]
  show (scan (.string ((utf16 c).reverse ++ read)) rest).map _ = _
  simp

theorem scan_string_escape {e : Char} (hu : c ≠ 'u') (he : escapedChar c = some e) :
    scan (.string read) ('\\' :: c :: rest) = scan (.string ((utf16 e).reverse ++ read)) rest := by
  have hback : scanChar (.string read) '\\' = some ([], .escape read) := rfl
  have hchar : scanChar (.escape read) c = some ([], .string ((utf16 e).reverse ++ read)) := by
    rw [scanChar, if_neg hu, he]
    rfl
  rw [scan, hback]
  show (scan (.escape read) (c :: rest)).map _ = _
  rw [scan, hchar]
  show ((scan (.string ((utf16 e).reverse ++ read)) rest).map _).map _ = _
  simp

theorem scan_hex {unit left n : Nat} (hn : n < 16) (hleft : left ≠ 1) :
    scan (.hex read unit left) (hexChar n :: rest) =
      scan (.hex read (unit * 16 + n) (left - 1)) rest := by
  have hchar : scanChar (.hex read unit left) (hexChar n) =
      some ([], .hex read (unit * 16 + n) (left - 1)) := by
    rw [scanChar, hexDigit_hexChar n hn, Option.map_some, if_neg hleft]
  rw [scan, hchar]
  show (scan (.hex read (unit * 16 + n) (left - 1)) rest).map _ = _
  simp

theorem scan_hex_last {unit n : Nat} (hn : n < 16) :
    scan (.hex read unit 1) (hexChar n :: rest) =
      scan (.string ((unit * 16 + n) :: read)) rest := by
  have hchar : scanChar (.hex read unit 1) (hexChar n) =
      some ([], .string ((unit * 16 + n) :: read)) := by
    rw [scanChar, hexDigit_hexChar n hn, Option.map_some, if_pos rfl]
  rw [scan, hchar]
  show (scan (.string ((unit * 16 + n) :: read)) rest).map _ = _
  simp

theorem scan_unitText {n : Nat} (hn : n < 0x10000) :
    scan (.string read) (unitText n ++ rest) = scan (.string (n :: read)) rest := by
  have hback : scanChar (.string read) '\\' = some ([], .escape read) := rfl
  have hu : scanChar (.escape read) 'u' = some ([], .hex read 0 4) := rfl
  have hunit : (((0 * 16 + n / 0x1000 % 16) * 16 + n / 0x100 % 16) * 16 + n / 16 % 16) * 16 +
      n % 16 = n := by
    omega
  have hopen : scan (.string read) (unitText n ++ rest) =
      scan (.hex read 0 4) ([hexChar (n / 0x1000 % 16), hexChar (n / 0x100 % 16),
        hexChar (n / 16 % 16), hexChar (n % 16)] ++ rest) := by
    rw [unitText, List.cons_append, scan, hback]
    show (scan (.escape read) (_ :: _)).map _ = _
    rw [scan, hu]
    show ((scan (.hex read 0 4) _).map _).map _ = _
    simp
  rw [hopen]
  simp only [List.cons_append, List.nil_append]
  rw [scan_hex (Nat.mod_lt _ (by decide)) (by decide),
    scan_hex (Nat.mod_lt _ (by decide)) (by decide),
    scan_hex (Nat.mod_lt _ (by decide)) (by decide), scan_hex_last (Nat.mod_lt _ (by decide)),
      hunit]

theorem isUnit_lt (h : isUnit c = true) : c.toNat < 0xd800 := by
  simp only [isUnit, Bool.or_eq_true, decide_eq_true_eq] at h
  rcases h with ((((h | rfl) | rfl) | rfl) | h) | h
  · omega
  · decide
  · decide
  · decide
  · omega
  · omega

theorem utf16_of_isUnit (h : isUnit c = true) : utf16 c = [c.toNat] := by
  have hlt := isUnit_lt h
  rw [utf16, if_pos (by omega)]

theorem scan_marshalChar (c : Char) (read : List Nat) (rest : List Char) :
    scan (.string read) (marshalChar c ++ rest) =
      scan (.string ((utf16 c).reverse ++ read)) rest := by
  rw [marshalChar]
  split_ifs with h1 h2 h3 h4 h5 h6 h7
  · rcases h1 with rfl | rfl
    · exact scan_string_escape (by decide +kernel) rfl
    · exact scan_string_escape (by decide +kernel) rfl
  · subst h2
    exact scan_string_escape (by decide +kernel) rfl
  · subst h3
    exact scan_string_escape (by decide +kernel) rfl
  · subst h4
    exact scan_string_escape (by decide +kernel) rfl
  · subst h5
    exact scan_string_escape (by decide +kernel) rfl
  · subst h6
    exact scan_string_escape (by decide +kernel) rfl
  · have hlt := isUnit_lt h7
    rw [utf16_of_isUnit h7]
    exact scan_unitText (by omega)
  · rw [not_or] at h1
    have hctl : ¬c.toNat < 0x20 := by
      intro hlt
      simp [isUnit, hlt] at h7
    exact scan_string_char h1.1 h1.2 hctl

theorem scan_closing (read : List Nat) :
    scan (.string read) ['"'] = some [.str read.reverse] := rfl

theorem scan_marshal (cs : List Char) (read : List Nat) (rest : List Char) :
    scan (.string read) (cs.flatMap marshalChar ++ rest) =
      scan (.string ((cs.flatMap utf16).reverse ++ read)) rest := by
  induction cs generalizing read with
  | nil => rfl
  | cons c cs ih =>
    rw [List.flatMap_cons, List.append_assoc, scan_marshalChar, ih]
    simp

theorem scan_plain {cs : List Char} (h : mustMarshalString cs = false) (read : List Nat)
    (rest : List Char) :
    scan (.string read) (cs ++ rest) = scan
      (.string ((cs.flatMap utf16).reverse ++ read)) rest := by
  induction cs generalizing read with
  | nil => rfl
  | cons c cs ih =>
    rw [mustMarshalString, List.any_cons, Bool.or_eq_false_iff] at h
    simp only [Bool.or_eq_false_iff, decide_eq_false_iff_not] at h
    obtain ⟨⟨⟨⟨hctl, -⟩, hquote⟩, hesc⟩, hrest⟩ := h
    rw [List.cons_append, scan_string_char hquote hesc hctl, ih hrest]
    simp

theorem scan_appendStringify (k : String) :
    scan .between (appendStringify k) = some [.str (units k)] := by
  have hopen : ∀ cs, scan .between ('"' :: cs) = scan (.string []) cs := by
    intro cs
    have hquote : scanChar .between '"' = some ([], .string []) := rfl
    rw [scan, hquote]
    show (scan (.string []) cs).map _ = _
    simp
  rw [appendStringify]
  split
  · rw [hopen, scan_marshal, List.append_nil, scan_closing, List.reverse_reverse, units]
  · next h =>
    rw [hopen, scan_plain (Bool.not_eq_true _ ▸ h), List.append_nil, scan_closing,
      List.reverse_reverse, units]

end Names

section Paths

variable {s : PathSeg} {ss : List PathSeg}

theorem isSpecial_false {c : Char} (h : isSpecial c = false) :
    c ≠ ':' ∧ c ≠ '\\' ∧ c ≠ '.' ∧ ¬(c = '*' ∨ c = '?' ∨ c = '#') := by
  simp only [isSpecial, Bool.or_eq_false_iff, decide_eq_false_iff_not] at h
  obtain ⟨⟨⟨⟨⟨hesc, hdot⟩, hstar⟩, hquery⟩, hhash⟩, hcolon⟩ := h
  refine ⟨hcolon, hesc, hdot, ?_⟩
  rintro (rfl | rfl | rfl)
  · exact hstar rfl
  · exact hquery rfl
  · exact hhash rfl

theorem splitSegs_escaped (name cur : List Char) (force segStart : Bool) (rest : List Char)
    (hstart : name ≠ [] ∨ segStart = false) :
    splitSegs cur force segStart
      ((name.flatMap fun c => if isSpecial c then ['\\', c] else [c]) ++ rest) =
      splitSegs (cur ++ name) force false rest := by
  induction name generalizing cur segStart with
  | nil =>
    rcases hstart with hne | rfl
    · exact absurd rfl hne
    · simp
  | cons c name ih =>
    rw [List.flatMap_cons, List.append_assoc]
    cases hspecial : isSpecial c with
    | true =>
      rw [if_pos rfl, List.cons_append, List.singleton_append, splitSegs_escape, ih _ _ (.inr rfl)]
      simp
    | false =>
      obtain ⟨hcolon, hesc, hdot, hwild⟩ := isSpecial_false hspecial
      rw [if_neg Bool.false_ne_true, List.singleton_append,
        splitSegs_char (by simp [hcolon]) hesc hdot hwild,
        ih _ _ (.inr rfl)]
      simp

theorem splitSegs_joinSeg (hs : s.name.toList ≠ []) (rest : List Char) :
    splitSegs [] false true (joinSeg s ++ rest) = splitSegs s.name.toList s.force false rest := by
  rw [joinSeg]
  cases hforce : s.force with
  | false => exact splitSegs_escaped s.name.toList [] false true rest (.inl hs)
  | true =>
    rw [if_pos rfl, List.append_assoc, List.singleton_append, splitSegs.eq_def]
    exact splitSegs_escaped s.name.toList [] true false rest (.inr rfl)

theorem splitSegs_joinSegs (hs : s.name.toList ≠ []) (hss : ∀ t ∈ ss, t.name.toList ≠ []) :
    splitSegs [] false true (joinSegs (s :: ss)) = some (s :: ss) := by
  induction ss generalizing s with
  | nil =>
    show splitSegs [] false true (joinSeg s) = _
    rw [← List.append_nil (joinSeg s), splitSegs_joinSeg hs, splitSegs, String.ofList_toList]
  | cons t ss ih =>
    rw [List.forall_mem_cons] at hss
    show splitSegs [] false true (joinSeg s ++ '.' :: joinSegs (t :: ss)) = _
    rw [splitSegs_joinSeg hs, splitSegs_dot, ih hss.1 hss.2, Option.map_some, String.ofList_toList]

theorem splitPath_joinSegs (hs : s.name.toList ≠ []) (hss : ∀ t ∈ ss, t.name.toList ≠ []) :
    splitPath (joinSegs (s :: ss)) = some (s :: ss) := by
  have hsplit := splitSegs_joinSegs hs hss
  cases htext : joinSegs (s :: ss) with
  | nil =>
    rw [htext, splitSegs] at hsplit
    cases hsplit
    exact absurd rfl hs
  | cons c cs =>
    rw [splitPath, ← htext]
    exact hsplit

end Paths

end ThanksComputer.Builder
