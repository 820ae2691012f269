import ThanksComputer.Guard.Paths
import ThanksComputer.Txcl.Scan

/-! Branch paths: how the lexer writes the segments of one, and the keys sjson reads off what it
wrote. -/

namespace ThanksComputer.Txcl

section Keys

/-- A segment as `appendQuotedSegment` escapes it.  The bytes of a bare run need no escape. -/
def escaped (name : Bytes) : Bytes :=
  name.flatMap escapePath

def dotted (segs : List Bytes) : Bytes :=
  List.intercalate ['.'] segs

theorem dotted_cons (a b : Bytes) (l : List Bytes) :
    dotted (a :: b :: l) = a ++ '.' :: dotted (b :: l) := by
  rw [dotted, List.intercalate_cons_cons, List.append_assoc]
  rfl

def ownName (name : Bytes) : Bytes :=
  if head name = ':' then name.tail else name

def keyOf (name : Bytes) : PathSeg :=
  ⟨String.ofList (ownName name), head name == ':'⟩

/-- `splitPath` in a segment of which `name` is read. -/
def splitFrom (name rest : Bytes) : Option (List PathSeg) :=
  splitSegs (ownName name) (head name == ':') name.isEmpty rest

theorem ownName_snoc {name : Bytes} {c : Char} (h : name = [] → c ≠ ':') :
    ownName (name ++ [c]) = ownName name ++ [c] ∧ (head (name ++ [c]) == ':') =
      (head name == ':') := by
  cases name with
  | nil =>
    have hc := h rfl
    simp [ownName, hc, nul]
  | cons d name =>
    refine ⟨?_, rfl⟩
    unfold ownName
    by_cases hd : d = ':'
    · rw [if_pos (show head (d :: name ++ [c]) = ':' from hd),
        if_pos (show head (d :: name) = ':' from hd)]
      rfl
    · rw [if_neg (show ¬head (d :: name ++ [c]) = ':' from hd),
        if_neg (show ¬head (d :: name) = ':' from hd)]

theorem splitFrom_char {c : Char} (hc : c ≠ '#') (name rest : Bytes) :
    splitFrom name (escapePath c ++ rest) = splitFrom (name ++ [c]) rest := by
  have hne : (name ++ [c]).isEmpty = false := by simp
  by_cases hesc : c = '\\' ∨ c = '.' ∨ c = '*' ∨ c = '?'
  · have hpath : escapePath c = ['\\', c] := if_pos hesc
    have hcolon : c ≠ ':' := by
      rintro rfl
      revert hesc
      decide
    obtain ⟨hname, hforce⟩ := ownName_snoc fun _ => hcolon
    rw [hpath, splitFrom, splitFrom, List.cons_append, List.cons_append, List.nil_append,
      splitSegs_escape, hne,
      hname, hforce]
  · have hpath : escapePath c = [c] := if_neg hesc
    simp only [not_or] at hesc
    have hwild : ¬(c = '*' ∨ c = '?' ∨ c = '#') := by
      simp only [not_or]
      exact ⟨hesc.2.2.1, hesc.2.2.2, hc⟩
    rw [hpath, List.singleton_append, splitFrom, splitFrom, hne]
    by_cases hcolon : name = [] ∧ c = ':'
    · obtain ⟨rfl, rfl⟩ := hcolon
      rw [splitSegs.eq_def]
      rfl
    · have hstart : (name.isEmpty && c == ':') = false := by
        rw [Bool.eq_false_iff]
        intro h
        rw [Bool.and_eq_true, List.isEmpty_iff, beq_iff_eq] at h
        exact hcolon h
      obtain ⟨hname, hforce⟩ := ownName_snoc fun h hc' => hcolon ⟨h, hc'⟩
      rw [splitSegs_char hstart hesc.1 hesc.2.1 hwild, hname, hforce]

theorem splitFrom_hash (name rest : Bytes) : splitFrom name (escapePath '#' ++ rest) = none := by
  have hpath : escapePath '#' = ['#'] := by decide
  rw [hpath, splitFrom, List.singleton_append, splitSegs.eq_def]
  simp

theorem splitFrom_escaped (name s rest : Bytes) :
    splitFrom name (escaped s ++ rest) = if '#' ∈ s then none else splitFrom (name ++ s) rest := by
  induction s generalizing name with
  | nil => simp [escaped]
  | cons c s ih =>
    rw [escaped, List.flatMap_cons, List.append_assoc]
    by_cases hc : c = '#'
    · subst hc
      rw [splitFrom_hash, if_pos List.mem_cons_self]
    · have hmem : '#' ∈ c :: s ↔ '#' ∈ s := by
        rw [List.mem_cons]
        exact or_iff_right fun h => hc h.symm
      rw [splitFrom_char hc]
      simp only [hmem]
      simpa [escaped] using ih (name ++ [c])

theorem splitFrom_end (name : Bytes) : splitFrom name [] = some [keyOf name] := by
  rw [splitFrom, splitSegs.eq_def]
  rfl

theorem splitFrom_dot (name rest : Bytes) :
    splitFrom name ('.' :: rest) = (splitFrom [] rest).map (keyOf name :: ·) := by
  have hstart : (name.isEmpty && '.' == ':') = false := Bool.and_false _
  have hnil : splitFrom [] rest = splitSegs [] false true rest := rfl
  rw [hnil, splitFrom, splitSegs.eq_def]
  dsimp only
  rw [hstart]
  rfl

theorem splitFrom_dotted (names : List Bytes) (hne : names ≠ []) :
    splitFrom [] (dotted (names.map escaped)) =
      if ∃ name ∈ names, '#' ∈ name then none else some (names.map keyOf) := by
  induction names with
  | nil => exact absurd rfl hne
  | cons name names ih =>
    cases names with
    | nil =>
      have hone : dotted ([name].map escaped) = escaped name ++ [] := by
        rw [List.append_nil]
        exact List.intercalate_singleton
      rw [hone, splitFrom_escaped, List.nil_append, splitFrom_end]
      simp
    | cons name' names =>
      rw [List.map_cons, List.map_cons, dotted_cons, ← List.map_cons, splitFrom_escaped,
        List.nil_append, splitFrom_dot, ih (List.cons_ne_nil _ _)]
      by_cases hhash : '#' ∈ name
      · rw [if_pos hhash, if_pos ⟨name, List.mem_cons_self, hhash⟩]
      · have hiff : (∃ n ∈ name :: name' :: names, '#' ∈ n) ↔ ∃ n ∈ name' :: names, '#' ∈ n := by
          rw [List.exists_mem_cons_iff]
          exact or_iff_right hhash
        rw [if_neg hhash]
        simp only [hiff]
        split <;> rfl

end Keys

/-- A part of a segment as it is written: a bare run, or a text in quotes. -/
inductive Part
  | bare (s : Bytes)
  | quoted (s : Bytes)
  deriving DecidableEq

namespace Part

def text : Part → Bytes
  | bare s => s
  | quoted s => '"' :: s ++ ['"']

def name : Part → Bytes
  | bare s => s
  | quoted s => s

def Wf : Part → Prop
  | bare s => ∀ c ∈ s, isBranchChar c = true ∧ c ≠ '.'
  | quoted s => '"' ∉ s ∧ nul ∉ s

instance (part : Part) : Decidable part.Wf :=
  match part with
  | bare s => List.decidableBAll (fun c => isBranchChar c = true ∧ c ≠ '.') s
  | quoted s => inferInstanceAs (Decidable ('"' ∉ s ∧ nul ∉ s))

end Part

abbrev Seg := List Part

namespace Seg

def text (seg : Seg) : Bytes :=
  seg.flatMap Part.text

def name (seg : Seg) : Bytes :=
  seg.flatMap Part.name

end Seg

/-- A branch path as it is written, behind its `.` or its `@`.  A segment may mix bare runs and
quotes. -/
structure BranchPath where
  sugar : Bool
  segs : List Seg
  wf : ∀ seg ∈ segs, ∀ part ∈ seg, part.Wf
  letter : isLetter (head (dotted (segs.map Seg.text))) = true

namespace BranchPath

variable (p : BranchPath)

def lead : Char :=
  if p.sugar then '@' else '.'

def body : Bytes :=
  dotted (p.segs.map Seg.text)

def source : Bytes :=
  p.lead :: p.body

/-- The keys the author wrote; `@` stands for the control plane. -/
def names : List Bytes :=
  if p.sugar then "_txc".toList :: p.segs.map Seg.name else p.segs.map Seg.name

end BranchPath

section Lexing

variable {stop : Bytes}

theorem branchBody_bare {s : Bytes} (h : ∀ c ∈ s, isBranchChar c = true) (t : Bytes) :
    branchBody false (s ++ t) = (branchBody false t).write s := by
  induction s with
  | nil => rfl
  | cons c s ih =>
    have hc := h c List.mem_cons_self
    have hquote : c ≠ '"' := by
      rintro rfl
      exact absurd hc (by decide)
    rw [List.cons_append, branchBody_char _ hquote hc, ih fun d hd =>
      h d (List.mem_cons_of_mem _ hd)]
    rfl

theorem branchBody_quoted {s : Bytes} (hquote : '"' ∉ s) (hnul : nul ∉ s) (t : Bytes) :
    branchBody true (s ++ '"' :: t) = (branchBody false t).write (escaped s) := by
  induction s with
  | nil => rfl
  | cons c s ih =>
    rw [List.mem_cons, not_or] at hquote hnul
    have hc : ¬(c = nul ∨ c = '"') := by
      rw [not_or]
      exact ⟨Ne.symm hnul.1, Ne.symm hquote.1⟩
    rw [List.cons_append, branchBody_inside _ hc, ih hquote.2 hnul.2]
    simp [Body.write, escaped]

theorem escapePath_branchChar {c : Char} (h : isBranchChar c = true) (hdot : c ≠ '.') :
    escapePath c = [c] := by
  apply if_neg
  rintro (rfl | rfl | rfl | rfl)
  · exact absurd h (by decide)
  · exact hdot rfl
  · exact absurd h (by decide)
  · exact absurd h (by decide)

theorem escaped_bare {s : Bytes} (h : ∀ c ∈ s, isBranchChar c = true ∧ c ≠ '.') :
    escaped s = s := by
  induction s with
  | nil => rfl
  | cons c s ih =>
    obtain ⟨hc, hdot⟩ := h c List.mem_cons_self
    rw [escaped, List.flatMap_cons, escapePath_branchChar hc hdot, ← escaped,
      ih fun d hd => h d (List.mem_cons_of_mem _ hd)]
    rfl

theorem branchBody_part {part : Part} (h : part.Wf) (t : Bytes) :
    branchBody false (part.text ++ t) = (branchBody false t).write (escaped part.name) := by
  cases part with
  | bare s =>
    rw [Part.text, branchBody_bare fun c hc => (h c hc).1]
    rw [Part.name, escaped_bare h]
  | quoted s =>
    have htext : (Part.quoted s).text ++ t = '"' :: (s ++ '"' :: t) := by simp [Part.text]
    rw [htext, branchBody_open, branchBody_quoted h.1 h.2]
    rfl

theorem branchBody_seg {seg : Seg} (h : ∀ part ∈ seg, part.Wf) (t : Bytes) :
    branchBody false (seg.text ++ t) = (branchBody false t).write (escaped seg.name) := by
  induction seg with
  | nil => rfl
  | cons part seg ih =>
    have hsplit : Seg.text (part :: seg) ++ t = part.text ++ (Seg.text seg ++ t) := by
      simp [Seg.text]
    have hname : escaped (Seg.name (part :: seg)) = escaped part.name ++
      escaped (Seg.name seg) := by
      simp [Seg.name, escaped]
    rw [hsplit, branchBody_part (h part List.mem_cons_self),
      ih fun q hq => h q (List.mem_cons_of_mem _ hq), write_write, hname]

theorem branchBody_segs {segs : List Seg} (h : ∀ seg ∈ segs, ∀ part ∈ seg, part.Wf)
    (hstop : Stops stop) :
    branchBody false (dotted (segs.map Seg.text) ++ stop) =
      ⟨dotted ((segs.map Seg.name).map escaped), stop, []⟩ := by
  induction segs with
  | nil => exact branchBody_stops hstop
  | cons seg segs ih =>
    have hseg := h seg List.mem_cons_self
    cases segs with
    | nil =>
      have htext : dotted ([seg].map Seg.text) = seg.text := by simp [dotted]
      have hname : dotted (([seg].map Seg.name).map escaped) = escaped seg.name := by simp [dotted]
      rw [htext, hname, branchBody_seg hseg, branchBody_stops hstop]
      simp [Body.write]
    | cons seg' segs =>
      have hrest := ih fun s hs => h s (List.mem_cons_of_mem _ hs)
      simp only [List.map_cons, dotted_cons, List.append_assoc, List.cons_append] at hrest ⊢
      rw [branchBody_seg hseg, branchBody_char _ (by decide) (by decide), hrest]
      simp [Body.write]

end Lexing

namespace BranchPath

variable (p : BranchPath)

theorem body_read {stop : Bytes} (hstop : Stops stop) :
    ∃ c s content, p.body = c :: s ∧ isLetter c = true ∧
      dotted ((p.segs.map Seg.name).map escaped) = c :: content ∧
      branchBody false (s ++ stop) = ⟨content, stop, []⟩ := by
  have hbody := branchBody_segs p.wf hstop
  have hletter := p.letter
  rw [← body] at hletter hbody
  cases hcs : p.body with
  | nil =>
    rw [hcs] at hletter
    exact absurd hletter (by decide)
  | cons c s =>
    rw [hcs, head_cons] at hletter
    have hbranch : isBranchChar c = true := by simp [isBranchChar, hletter]
    have hquote : c ≠ '"' := by
      rintro rfl
      exact absurd hletter (by decide)
    rw [hcs, List.cons_append, branchBody_char _ hquote hbranch] at hbody
    obtain ⟨hcontent, hrest, herrs⟩ := Body.mk.inj hbody
    refine ⟨c, s, (branchBody false (s ++ stop)).content, rfl, hletter, hcontent.symm, ?_⟩
    have hrest' : (branchBody false (s ++ stop)).rest = stop := hrest
    have herrs' : (branchBody false (s ++ stop)).errs = [] := herrs
    generalize branchBody false (s ++ stop) = x at hrest' herrs'
    obtain ⟨content, rest, errs⟩ := x
    exact congrArg₂ (Body.mk content) hrest' herrs'

theorem segs_ne_nil : p.segs.map Seg.name ≠ [] := by
  intro hnil
  have hletter := p.letter
  rw [List.map_eq_nil_iff] at hnil
  rw [hnil] at hletter
  exact absurd hletter (by decide)

theorem lexeme_source (last : TokenType) {stop : Bytes} (hstop : Stops stop) :
    lexeme last p.lead
      (p.body ++ stop) = ⟨⟨.branch, '.' :: dotted (p.names.map escaped)⟩, stop, []⟩ := by
  obtain ⟨c, s, content, hbody, hletter, hcontent, hread⟩ := p.body_read hstop
  have hwrite (w : Bytes) : ((branchBody false (c :: (s ++ stop)).tail).write w).toLexeme .branch =
      ⟨⟨.branch, w ++ content⟩, stop, []⟩ := by
    rw [List.tail_cons, hread]
    rfl
  obtain ⟨a, l, hl⟩ := List.exists_cons_of_ne_nil p.segs_ne_nil
  rw [hbody, List.cons_append]
  unfold lexeme lead names
  cases p.sugar with
  | false =>
    have hshape : shape last '.' c = .branch := if_pos hletter
    rw [if_neg Bool.false_ne_true, if_neg Bool.false_ne_true, head_cons, hshape, hcontent]
    exact hwrite _
  | true =>
    have hshape : shape last '@' c = .atBranch := if_pos hletter
    rw [hl] at hcontent
    rw [if_pos rfl, if_pos rfl, head_cons, hshape, hl, List.map_cons, List.map_cons, dotted_cons,
      ← List.map_cons,
      hcontent]
    exact hwrite _

/-- The path of the token, without its dot, as everything that reads an envelope takes it. -/
def lexedPath (stop : Bytes) : Bytes :=
  Lib.trimDot (next .untyped (p.source ++ stop)).tok.literal

theorem lexedPath_eq {stop : Bytes} (hstop : Stops stop) :
    p.lexedPath stop = dotted (p.names.map escaped) := by
  have hblank : skipBlank false (p.source ++ stop) = p.lead :: (p.body ++ stop) := by
    apply skipBlank_token
    · unfold lead
      cases p.sugar <;> decide
    · unfold lead
      cases p.sugar <;> decide
  rw [lexedPath, next, hblank, head_cons, List.tail_cons, p.lexeme_source _ hstop]
  rfl

/-- Where the key of a segment stands among the keys of the path. -/
def keyIndex (i : Nat) : Nat :=
  if p.sugar then i + 1 else i

theorem names_keyIndex (i : Nat) : p.names[p.keyIndex i]? = (p.segs.map Seg.name)[i]? := by
  unfold names keyIndex
  cases p.sugar <;> rfl

theorem splitPath_lexedPath {stop : Bytes} (hstop : Stops stop) :
    splitPath (p.lexedPath stop) =
      if ∃ seg ∈ p.segs, '#' ∈ seg.name then none else some (p.names.map keyOf) := by
  have hnames : p.names ≠ [] := by
    unfold names
    split
    · exact List.cons_ne_nil _ _
    · exact p.segs_ne_nil
  have hpath : splitPath (p.lexedPath stop) = splitFrom [] (dotted (p.names.map escaped)) := by
    obtain ⟨c, s, content, -, -, hcontent, -⟩ := p.body_read hstop
    obtain ⟨a, l, hl⟩ := List.exists_cons_of_ne_nil p.segs_ne_nil
    rw [lexedPath_eq p hstop]
    unfold names
    cases p.sugar with
    | false =>
      rw [if_neg Bool.false_ne_true, hcontent]
      rfl
    | true =>
      rw [if_pos rfl, hl, List.map_cons, List.map_cons, dotted_cons]
      rfl
  have hhash : (∃ name ∈ p.names, '#' ∈ name) ↔ ∃ seg ∈ p.segs, '#' ∈ seg.name := by
    unfold names
    cases p.sugar <;> simp
  rw [hpath, splitFrom_dotted _ hnames]
  simp only [hhash]

/-- A quoted segment is one key of the path, under its own name, and no array index. -/
def OneKey (stop : Bytes) (i : Nat) (t : Bytes) : Prop :=
  ∃ keys seg, splitPath (p.lexedPath stop) = some keys ∧ keys.length = p.names.length ∧
    keys[p.keyIndex i]? = some seg ∧ seg.name = String.ofList t ∧
    ∀ raw, (Guard.PathKey.mk seg raw).index = none

/-- The lexer escapes four bytes; sjson also minds a hash, a leading colon and a segment of
digits. -/
theorem oneKey_iff {stop : Bytes} (hstop : Stops stop) {i : Nat} {t : Bytes} (ht : t ≠ [])
    (h : p.segs[i]? = some [.quoted t]) :
    p.OneKey stop i t ↔ (∀ seg ∈ p.segs, '#' ∉ seg.name) ∧ head t ≠ ':' ∧
    ¬t.all ThanksComputer.isDigit = true := by
  have hname : p.names[p.keyIndex i]? = some t := by
    rw [names_keyIndex, List.getElem?_map, h]
    simp [Seg.name, Part.name]
  have hkey : (p.names.map keyOf)[p.keyIndex i]? = some (keyOf t) := by
    rw [List.getElem?_map, hname]; rfl
  have hown : (keyOf t).name = String.ofList t ↔ head t ≠ ':' := by
    rw [keyOf, String.ofList_inj, ownName]
    split
    · next hcolon =>
      obtain ⟨c, s, rfl⟩ := List.exists_cons_of_ne_nil ht
      simp [hcolon]
    · next hcolon => simp [hcolon]
  have hindex (hcolon : head t ≠ ':') (raw : Guard.PathText) :
      (Guard.PathKey.mk (keyOf t) raw).index = none ↔ ¬t.all ThanksComputer.isDigit = true := by
    have hforce : (keyOf t).force = false := by simpa [keyOf] using hcolon
    have htext : (keyOf t).name.toList = t := by rw [hown.mpr hcolon, String.toList_ofList]
    rw [Guard.PathKey.index, hforce, htext]
    cases t.all ThanksComputer.isDigit <;> simp
  unfold OneKey
  rw [p.splitPath_lexedPath hstop]
  constructor
  · rintro ⟨keys, seg, hkeys, -, hseg, hsegname, hnone⟩
    split at hkeys
    · cases hkeys
    · next hhash =>
      obtain rfl := Option.some.inj hkeys
      obtain rfl := Option.some.inj (hkey.symm.trans hseg)
      have hcolon := hown.mp hsegname
      refine ⟨fun seg hseg hmem => hhash ⟨seg, hseg, hmem⟩, hcolon,
        (hindex hcolon []).mp (hnone [])⟩
  · rintro ⟨hhash, hcolon, hdigits⟩
    refine ⟨p.names.map keyOf, keyOf t, ?_, List.length_map _, hkey, hown.mpr hcolon, fun raw =>
      (hindex hcolon raw).mpr hdigits⟩
    rw [if_neg]
    rintro ⟨seg, hseg, hmem⟩
    exact hhash seg hseg hmem

def mailPath : BranchPath :=
  ⟨true, [[.bare "from".toList], [.quoted "user.email".toList]], by decide, by decide⟩

theorem oneKey_user_email : mailPath.OneKey [' '] 1 "user.email".toList :=
  (mailPath.oneKey_iff (by decide) (by decide) rfl).mpr ⟨by decide, by decide, by decide⟩

def itemPath : BranchPath :=
  ⟨false, [[.bare "a".toList], [.quoted "item#1".toList]], by decide, by decide⟩

theorem not_oneKey_item :
    ¬∀ (p : BranchPath) (stop : Bytes) (i : Nat) (t : Bytes), Stops stop → t ≠ [] →
    p.segs[i]? = some [.quoted t] → p.OneKey stop i t := by
  intro h
  obtain ⟨keys, seg, hkeys, -⟩ := h itemPath [] 1 "item#1".toList (by decide) (by decide) rfl
  have hnone : splitPath (itemPath.lexedPath []) = none := by decide +kernel
  rw [hnone] at hkeys
  cases hkeys

end BranchPath

end ThanksComputer.Txcl
