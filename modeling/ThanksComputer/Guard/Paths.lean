import Mathlib.Algebra.Ring.Nat
import Mathlib.Data.List.TakeWhile
import ThanksComputer.Guard.Confined
import ThanksComputer.Guard.Sanitize
import ThanksComputer.Json.Apart
import ThanksComputer.Lib.Builtin

/-! The path checks of txcguard.go: which path texts an author may write or delete, and what a set
or a delete at an accepted one does to the control plane. -/

universe u

namespace ThanksComputer.Guard

open Lib (trimDot)

variable {F : Type u}

abbrev PathText := List Char

section Checks

/-- `unicode.IsSpace`. -/
def isSpace (c : Char) : Bool :=
  c == '\t' || c == '\n' || c == '\x0b' || c == '\x0c' || c == '\r' || c == ' ' || c == '\x85' ||
    c == '\xa0' || c == '\u1680' || ('\u2000' ≤ c && c ≤ '\u200a') || c == '\u2028' ||
    c == '\u2029' || c == '\u202f' || c == '\u205f' || c == '\u3000'

def trimSpace (p : PathText) : PathText :=
  ((p.dropWhile isSpace).reverse.dropWhile isSpace).reverse

/-- A leading `@` stands for `_txc.`, a leading dot is dropped. -/
def normalizePath (p : PathText) : PathText :=
  match trimSpace p with
  | [] => []
  | '@' :: rest => trimDot ("_txc.".toList ++ trimDot rest)
  | p => trimDot p

def authorDeletable : List String :=
  ["web.req.body", "imap.msg.text", "imap.msg.html", "imap.msg.headers", "calendar.ical",
    "calendar.event", "calendar.prior", "contacts.vcard", "contacts.card", "contacts.prior",
    "git.commands", "git.changes", "git.commits", "websocket.msg.text", "websocket.msg.data"]

def splitAll (list : List String) : List (List String) :=
  list.map fun entry => (entry.toList.splitOn '.').map String.ofList

def authorKeys : List (List String) :=
  splitAll authorWritable

def deleteKeys : List (List String) :=
  splitAll authorDeletable

/-- `jsonx.PathKeys`. -/
def pathKeys (path : PathText) : Option (List String) :=
  (splitPath path).map segNames

inductive TxcKeys
  | rejected
  | outside
  | reserved (sub : List String)

def txcSubKeys (path : PathText) : TxcKeys :=
  match pathKeys path with
  | none => .rejected
  | some [] => .rejected
  | some (k :: sub) => if k = "_txc" then .reserved sub else .outside

def under (sub : List String) (lists : List (List String)) : Bool :=
  lists.any fun want => want.isPrefixOf sub

/-- A path without escape, force or wildcard characters whose first key is plainly not `_txc`. -/
def plainlyOutside (path : PathText) : Bool :=
  !path.isEmpty && !path.any ("\\:*?#".toList.contains ·) && path != "_txc".toList &&
    !"_txc.".toList.isPrefixOf path

def mayTouch (path : PathText) (lists : List (List String)) : Bool :=
  plainlyOutside path ||
    match txcSubKeys path with
    | .rejected => false
    | .outside => true
    | .reserved sub => under sub lists

def authorMayWrite (path : PathText) : Bool :=
  mayTouch path authorKeys

def authorMayDelete (path : PathText) : Bool :=
  mayTouch path (authorKeys ++ deleteKeys)

def danglingEscape (path : PathText) : Bool :=
  (path.reverse.takeWhile (· == '\\')).length % 2 == 1

end Checks

section Target

/-- What padsArray asks gjson about a document: the value at a raw segment, and its shape. -/
structure Gjson (D : Type u) where
  empty : D
  get : D → PathText → Option D
  isArray : D → Bool
  isObject : D → Bool
  arrayLen : D → Nat

/-- The raw text of each segment of a path, up to the next unescaped dot. -/
def rawSegs (cur : PathText) : PathText → List PathText
  | [] => [cur]
  | '.' :: p => cur :: rawSegs [] p
  | '\\' :: c :: p => rawSegs (cur ++ ['\\', c]) p
  | c :: p => rawSegs (cur ++ [c]) p

structure PathKey where
  seg : PathSeg
  raw : PathText

/-- `jsonx.PathSegments`: the segments with the texts sjson hands gjson. -/
def pathSegments (path : PathText) : Option (List PathKey) :=
  (splitPath path).map fun segs =>
    segs.zipWith (fun s raw => ⟨s, if s.force then raw.drop 1 else raw⟩) (rawSegs [] path)

/-- `PathKey.Index`; the inner `none` is an index that overflows an `int`. -/
def PathKey.index (k : PathKey) : Option (Option Nat) :=
  if k.seg.force || !k.seg.name.toList.all isDigit then none
  else
    let n := Nat.ofDigitChars 10 k.seg.name.toList 0
    some (if n ≤ 2 ^ 63 - 1 then some n else none)

def maxArrayPad : Nat :=
  65535

def digitsCanExceed (path : PathText) (max : Nat) : Bool :=
  max < 10 ^ (path.filter isDigit).length - 1

variable {D : Type u}

/-- sjson's walk down the segments that exist; `none` where the last one does. -/
def existing (G : Gjson D) : D → List PathKey → Option (D × PathKey × List PathKey)
  | _, [] => none
  | doc, k :: ks =>
    match G.get doc k.raw with
    | some v => existing G v ks
    | none => some (doc, k, ks)

/-- The elements the new segments pad with; `none` is past the limit. -/
def padding (max : Nat) : Nat → List PathKey → Option Nat
  | pad, [] => some pad
  | pad, k :: ks =>
    match k.index with
    | none => padding max pad ks
    | some none => none
    | some (some n) => if max - pad < n then none else padding max (pad + n) ks

def padsArray (G : Gjson D) (doc : D) (path : PathText) (max : Nat) : Bool :=
  if !digitsCanExceed path max then false
  else
    match pathSegments path with
    | none => false
    | some segs =>
      match existing G doc segs with
      | none => false
      | some (doc, k, ks) =>
        if G.isArray doc then
          match k.index with
          | some none => true
          | some (some n) =>
            if max < n - G.arrayLen doc then true
            else (padding max (n - G.arrayLen doc) ks).isNone
          | none => (padding max 0 ks).isNone
        else if G.isObject doc then (padding max 0 ks).isNone
        else (padding max 0 (k :: ks)).isNone

def targetShapeOK (G : Gjson D) (path : PathText) : Bool :=
  !danglingEscape path && !padsArray G G.empty path maxArrayPad

/-- The path of an op's output target, and whether the author may name it. -/
def authorTarget (G : Gjson D) (raw : PathText) : PathText × Bool :=
  let path := normalizePath raw
  if path.isEmpty then ([], true) else (path, targetShapeOK G path && authorMayWrite path)

end Target

section Split

theorem danglingEscape_cons {c : Char} (hc : c ≠ '\\') (path : PathText) :
    danglingEscape (c :: path) = danglingEscape path := by
  have hc' : (c == '\\') = false := by simpa using hc
  rw [danglingEscape, danglingEscape, List.reverse_cons, List.takeWhile_append]
  split
  · next hall =>
    have heq : path.reverse.takeWhile (· == '\\') = path.reverse :=
      (List.takeWhile_sublist _).eq_of_length hall
    simp [hc', heq]
  · rfl

theorem danglingEscape_pair (d : Char) (path : PathText) :
    danglingEscape ('\\' :: d :: path) = danglingEscape path := by
  by_cases hd : d = '\\'
  · subst hd
    rw [danglingEscape, danglingEscape, List.reverse_cons, List.reverse_cons, List.append_assoc,
      List.takeWhile_append]
    split
    · next hall =>
      have heq : path.reverse.takeWhile (· == '\\') = path.reverse :=
        (List.takeWhile_sublist _).eq_of_length hall
      simp [heq]
    · rfl
  · have hlen : ((d :: path).reverse.takeWhile (· == '\\')).length ≠
      (d :: path).reverse.length := by
      intro hall
      have heq : (d :: path).reverse.takeWhile (· == '\\') = (d :: path).reverse :=
        (List.takeWhile_sublist _).eq_of_length hall
      have hmem : d ∈ (d :: path).reverse.takeWhile (· == '\\') := by
        rw [heq]
        simp
      exact hd (by simpa using List.mem_takeWhile_imp hmem)
    rw [danglingEscape, List.reverse_cons, List.takeWhile_append, if_neg hlen]
    exact danglingEscape_cons hd path

theorem splitSegs_append_dot {cur path : List Char} {force segStart : Bool} {segs : List PathSeg}
    (hd : danglingEscape path = false) (h : splitSegs cur force segStart path = some segs)
    (suffix : List Char) :
    splitSegs cur force segStart (path ++ '.' :: suffix) =
      (splitSegs [] false true suffix).map (segs ++ ·) := by
  fun_induction splitSegs cur force segStart path generalizing segs with
  | case1 cur force segStart =>
    cases h
    rw [List.nil_append, splitSegs.eq_def]
    simp
  | case2 cur force segStart c cs hcolon ih =>
    have hc : c = ':' := by simpa using (Bool.and_eq_true_iff.mp hcolon).2
    rw [danglingEscape_cons (by rw [hc]; decide)] at hd
    rw [List.cons_append, splitSegs.eq_def]
    simp only [hcolon, if_true]
    exact ih hd h
  | case3 cur force segStart hcolon => cases hd
  | case4 cur force segStart d ds hcolon ih =>
    rw [danglingEscape_pair] at hd
    rw [List.cons_append, List.cons_append, splitSegs_escape]
    exact ih hd h
  | case5 cur force segStart cs hcolon hesc ih =>
    obtain ⟨rest, hrest, rfl⟩ := Option.map_eq_some_iff.mp h
    rw [danglingEscape_cons (by decide)] at hd
    rw [List.cons_append, splitSegs.eq_def]
    simp only [hcolon, if_false, Bool.false_eq_true]
    rw [if_neg (by decide), if_pos trivial, ih hd hrest, Option.map_map]
    rfl
  | case6 cur force segStart c cs hcolon hesc hdot hwild => cases h
  | case7 cur force segStart c cs hcolon hesc hdot hwild ih =>
    rw [danglingEscape_cons hesc] at hd
    rw [List.cons_append, splitSegs.eq_def]
    simp only [hcolon, hesc, hdot, hwild, if_false, Bool.false_eq_true]
    exact ih hd h

theorem splitPath_append_dot {path : PathText} {segs : List PathSeg}
    (hd : danglingEscape path = false) (h : splitPath path = some segs) (suffix : PathText) :
    splitPath (path ++ '.' :: suffix) = (splitSegs [] false true suffix).map (segs ++ ·) := by
  cases path with
  | nil => cases h
  | cons c cs => exact splitSegs_append_dot hd h suffix

theorem splitSegs_plain {cs : PathText} (h : cs.any ("\\:*?#".toList.contains ·) = false)
    (cur : List Char) (segStart : Bool) :
    ∃ segs, splitSegs cur false segStart cs =
      some (⟨String.ofList (cur ++ cs.takeWhile (· != '.')), false⟩ :: segs) := by
  induction cs generalizing cur segStart with
  | nil => exact ⟨[], by simp [splitSegs]⟩
  | cons c cs ih =>
    rw [List.any_cons, Bool.or_eq_false_iff] at h
    obtain ⟨hc, hcs⟩ := h
    have hspecial : c ≠ '\\' ∧ c ≠ ':' ∧ ¬(c = '*' ∨ c = '?' ∨ c = '#') := by
      refine ⟨?_, ?_, ?_⟩
      · rintro rfl
        revert hc
        decide +kernel
      · rintro rfl
        revert hc
        decide +kernel
      · rintro (rfl | rfl | rfl) <;> revert hc <;> decide +kernel
    obtain ⟨hesc, hcolon, hwild⟩ := hspecial
    have hcolon' : (segStart && c == ':') = false := by simp [hcolon]
    by_cases hdot : c = '.'
    · subst hdot
      obtain ⟨segs, hsegs⟩ := ih hcs [] true
      refine ⟨⟨String.ofList (cs.takeWhile (· != '.')), false⟩ :: segs, ?_⟩
      rw [splitSegs.eq_def]
      simp [hsegs]
    · obtain ⟨segs, hsegs⟩ := ih hcs (cur ++ [c]) false
      refine ⟨segs, ?_⟩
      rw [splitSegs_char hcolon' hesc hdot hwild, hsegs]
      simp [hdot]

end Split

section Frame

/-- The keys go past the control plane, or to a listed subtree of it. -/
def TouchesOnly (lists : List (List String)) (names : List String) : Prop :=
  ∃ k rest, names = k :: rest ∧ (k = "_txc" → ∃ e ∈ lists, e <+: rest)

theorem TouchesOnly.append {lists : List (List String)} {names : List String}
    (h : TouchesOnly lists names) (more : List String) : TouchesOnly lists (names ++ more) := by
  obtain ⟨k, rest, rfl, hk⟩ := h
  refine ⟨k, rest ++ more, rfl, fun htxc => ?_⟩
  obtain ⟨e, he, hpre⟩ := hk htxc
  exact ⟨e, he, hpre.trans (List.prefix_append rest more)⟩

theorem TouchesOnly.apart {lists : List (List String)} {names : List String}
    (h : TouchesOnly lists names) {q : List String} (hq : Outside lists q) :
    Apart names ("_txc" :: q) := by
  obtain ⟨k, rest, rfl, hk⟩ := h
  by_cases htxc : k = "_txc"
  · subst htxc
    obtain ⟨e, he, hpre⟩ := hk rfl
    obtain ⟨hunder, habove⟩ := hq e he
    constructor
    · intro hp
      exact hunder (hpre.trans ((List.prefix_cons_inj _).mp hp))
    · intro hp
      rcases List.prefix_or_prefix_of_prefix hpre ((List.prefix_cons_inj _).mp hp) with h | h
      · exact hunder h
      · exact habove h
  · constructor
    · intro hp
      exact htxc (List.cons_prefix_cons.mp hp).1
    · intro hp
      exact htxc (List.cons_prefix_cons.mp hp).1.symm

theorem TouchesOnly.not_prefix {lists : List (List String)} {names : List String}
    (h : TouchesOnly lists names) {q : List String} (hq : ∀ e ∈ lists, ¬e <+: q) :
    ¬names <+: "_txc" :: q := by
  obtain ⟨k, rest, rfl, hk⟩ := h
  intro hp
  obtain ⟨htxc, hrest⟩ := List.cons_prefix_cons.mp hp
  obtain ⟨e, he, hpre⟩ := hk htxc
  exact hq e he (hpre.trans hrest)

theorem mayTouch_spec {path : PathText} {lists : List (List String)}
    (h : mayTouch path lists = true) :
    ∃ segs, splitPath path = some segs ∧ TouchesOnly lists (segNames segs) := by
  rw [mayTouch, Bool.or_eq_true] at h
  rcases h with h | h
  · simp only [plainlyOutside, Bool.and_eq_true, Bool.not_eq_true', bne_iff_ne,
      List.isEmpty_eq_false_iff] at h
    obtain ⟨⟨⟨hne, hplain⟩, htxc⟩, hpre⟩ := h
    obtain ⟨segs, hsegs⟩ := splitSegs_plain hplain [] true
    cases path with
    | nil => exact absurd rfl hne
    | cons c cs =>
      refine ⟨_, hsegs, _, segNames segs, rfl, fun hname => ?_⟩
      have hhead : (c :: cs).takeWhile (· != '.') = "_txc".toList := by
        have := congrArg String.toList hname
        simpa using this
      have hsplit := List.takeWhile_append_dropWhile (p := (· != '.')) (l := c :: cs)
      rw [hhead] at hsplit
      cases hdrop : (c :: cs).dropWhile (· != '.') with
      | nil =>
        rw [hdrop, List.append_nil] at hsplit
        exact absurd hsplit.symm htxc
      | cons d ds =>
        have hd : d = '.' := by
          have hnot := List.head_dropWhile_not (l := c :: cs) (· != '.') (by rw [hdrop]; simp)
          simpa [hdrop] using hnot
        rw [hdrop, hd] at hsplit
        have hstarts : "_txc.".toList.isPrefixOf (c :: cs) = true := by
          rw [List.isPrefixOf_iff_prefix, ← hsplit]
          exact ⟨ds, by simp⟩
        rw [hstarts] at hpre
        cases hpre
  · rw [txcSubKeys, pathKeys] at h
    cases hsplit : splitPath path with
    | none => simp [hsplit] at h
    | some segs =>
      refine ⟨segs, rfl, ?_⟩
      rw [hsplit, Option.map_some] at h
      cases hnames : segNames segs with
      | nil => simp [hnames] at h
      | cons k rest =>
        refine ⟨k, rest, rfl, fun htxc => ?_⟩
        simp only [hnames, htxc, if_true, under, List.any_eq_true, List.isPrefixOf_iff_prefix] at h
        exact h

/-- `sjson.Set` at a path text; `none` where sjson returns an error. -/
def setPath (path : PathText) (doc v : Json F) : Option (Json F) :=
  (splitPath path).bind fun segs => doc.setNode segs v

/-- `sjson.Delete` at a path text; what it refuses or does not find stays. -/
def deletePath (path : PathText) (doc : Json F) : Json F :=
  ((splitPath path).bind fun segs => doc.deleteNode segs).getD doc

/-- Off the listed paths and those that lead to them the control plane is as it was, and an object
above a listed path is still one. -/
structure KeepsControl (lists : List (List String)) (doc doc' : Json F) : Prop where
  value : ∀ q, Outside lists q → doc'.getPath ("_txc" :: q) = doc.getPath ("_txc" :: q)
  object : ∀ q w, (∀ e ∈ lists, ¬e <+: q) → doc.getPath ("_txc" :: q) = some w →
    w.isObject = true → ∃ w', doc'.getPath ("_txc" :: q) = some w' ∧ w'.isObject = true

variable {lists : List (List String)} {doc doc' v : Json F}

theorem keepsControl_setPath {path : PathText} {segs : List PathSeg}
    (hsplit : splitPath path = some segs) (h : TouchesOnly lists (segNames segs))
    (hset : setPath path doc v = some doc') : KeepsControl lists doc doc' := by
  rw [setPath, hsplit, Option.bind_some] at hset
  constructor
  · intro q hq
    exact Json.getPath_setNode_of_apart (h.apart hq) hset
  · intro q w hq hget hw
    exact Json.isObject_setNode (h.not_prefix hq) hset hget hw

theorem keepsControl_deletePath {path : PathText} {segs : List PathSeg}
    (hsplit : splitPath path = some segs) (h : TouchesOnly lists (segNames segs)) :
    KeepsControl lists doc (deletePath path doc) := by
  rw [deletePath, hsplit, Option.bind_some]
  cases hdel : doc.deleteNode segs with
  | none => exact ⟨fun _ _ => rfl, fun _ w _ hget hw => ⟨w, hget, hw⟩⟩
  | some doc' =>
    constructor
    · intro q hq
      exact Json.getPath_deleteNode_of_apart (h.apart hq) hdel
    · intro q w hq hget hw
      exact Json.isObject_deleteNode (h.not_prefix hq) hdel hget hw

theorem authorTarget_suffix {D : Type u} {G : Gjson D} {raw : PathText}
    (h : (authorTarget G raw).2 = true) {suffix : PathText} {segs : List PathSeg}
    (hsplit : splitPath ((authorTarget G raw).1 ++ '.' :: suffix) = some segs) :
    TouchesOnly authorKeys (segNames segs) := by
  rw [authorTarget] at h hsplit
  split at h
  · next hempty =>
    rw [if_pos hempty, List.nil_append, splitPath, splitSegs.eq_def] at hsplit
    simp only [Bool.true_and, beq_iff_eq] at hsplit
    rw [if_neg (by decide), if_neg (by decide), if_pos trivial] at hsplit
    obtain ⟨rest, -, rfl⟩ := Option.map_eq_some_iff.mp hsplit
    exact ⟨_, _, rfl, fun hname => absurd hname (by decide)⟩
  · next hne =>
    rw [if_neg hne] at hsplit
    simp only [targetShapeOK, Bool.and_eq_true, Bool.not_eq_true'] at h
    obtain ⟨⟨hdangling, -⟩, hwrite⟩ := h
    obtain ⟨segs', hsegs', htouch⟩ := mayTouch_spec hwrite
    rw [splitPath_append_dot hdangling hsegs'] at hsplit
    obtain ⟨rest, -, rfl⟩ := Option.map_eq_some_iff.mp hsplit
    rw [segNames, List.map_append]
    exact htouch.append _

theorem authorTarget_alone {D : Type u} {G : Gjson D} {raw : PathText}
    (h : (authorTarget G raw).2 = true) {segs : List PathSeg}
    (hsplit : splitPath (authorTarget G raw).1 = some segs) :
    TouchesOnly authorKeys (segNames segs) := by
  rw [authorTarget] at h hsplit
  split at h
  · next hempty =>
    rw [if_pos hempty] at hsplit
    cases hsplit
  · next hne =>
    rw [if_neg hne] at hsplit
    rw [Bool.and_eq_true] at h
    obtain ⟨segs', hsegs', htouch⟩ := mayTouch_spec h.2
    rw [hsegs', Option.some.injEq] at hsplit
    exact hsplit ▸ htouch

/-- Whatever path text the checks let through, setting or deleting it keeps the control plane off
the lists of that check. -/
theorem accepted_paths_keep_control {D : Type u} (G : Gjson D) (doc v : Json F) :
    (∀ path doc', authorMayWrite path = true → setPath path doc v = some doc' →
      KeepsControl authorKeys doc doc') ∧
    (∀ path, authorMayDelete path = true →
      KeepsControl (authorKeys ++ deleteKeys) doc (deletePath path doc)) ∧
    ∀ raw doc', (authorTarget G raw).2 = true →
      (setPath (authorTarget G raw).1 doc v = some doc' → KeepsControl authorKeys doc doc') ∧
      ∀ suffix, setPath ((authorTarget G raw).1 ++ '.' :: suffix) doc v = some doc' →
        KeepsControl authorKeys doc doc' := by
  have hset : ∀ (path : PathText) doc', (∀ segs, splitPath path = some segs →
      TouchesOnly authorKeys (segNames segs)) → setPath path doc v = some doc' →
        KeepsControl authorKeys doc doc' := by
    intro path doc' htouch hset
    cases hsplit : splitPath path with
    | none =>
      rw [setPath, hsplit] at hset
      cases hset
    | some segs => exact keepsControl_setPath hsplit (htouch segs hsplit) hset
  refine ⟨fun path doc' h => hset path doc' fun segs hsplit => ?_, fun path h => ?_, ?_⟩
  · obtain ⟨segs', hsegs', htouch⟩ := mayTouch_spec h
    rw [hsegs', Option.some.injEq] at hsplit
    exact hsplit ▸ htouch
  · obtain ⟨segs, hsegs, htouch⟩ := mayTouch_spec h
    exact keepsControl_deletePath hsegs htouch
  · intro raw doc' h
    exact ⟨hset _ doc' fun _ => authorTarget_alone h,
      fun suffix => hset _ doc' fun _ => authorTarget_suffix h⟩

/-- What gjson says of the empty object. -/
def emptyGjson : Gjson Unit where
  empty := ()
  get _ _ := none
  isArray _ := false
  isObject _ := true
  arrayLen _ := 0

def requestDoc : Json Int :=
  .obj [("_txc", .obj [("tenant", .str "acme"),
    ("web", .obj [("req", .obj [("body", .str "aGk=")]), ("res", .obj [("status", .num 200)])])])]

theorem request_edits_keep_control :
    authorMayWrite "_tx\\c.:web.res.status".toList = true ∧
    (∃ doc', setPath "_tx\\c.:web.res.status".toList requestDoc (.num 404) = some doc' ∧
      KeepsControl authorKeys requestDoc doc') ∧
    authorMayDelete "_txc.web.req.body".toList = true ∧
    KeepsControl (authorKeys ++ deleteKeys) requestDoc
      (deletePath "_txc.web.req.body".toList requestDoc) ∧
    (authorTarget emptyGjson "@web.res".toList).2 = true ∧
    ∃ doc', setPath ((authorTarget emptyGjson "@web.res".toList).1 ++ '.' :: "items.0".toList)
        requestDoc (.num 404) = some doc' ∧ KeepsControl authorKeys requestDoc doc' := by
  obtain ⟨hwrite, hdelete, htarget⟩ :=
    accepted_paths_keep_control emptyGjson requestDoc (.num 404)
  have hmay : authorMayWrite "_tx\\c.:web.res.status".toList = true := by decide +kernel
  have hdel : authorMayDelete "_txc.web.req.body".toList = true := by decide +kernel
  have hok : (authorTarget emptyGjson "@web.res".toList).2 = true := by decide +kernel
  have hset : (setPath "_tx\\c.:web.res.status".toList requestDoc (.num 404)).isSome = true := by
    decide +kernel
  have hsetBelow : (setPath ((authorTarget emptyGjson "@web.res".toList).1 ++
      '.' :: "items.0".toList) requestDoc (.num 404)).isSome = true := by decide +kernel
  obtain ⟨doc', hdoc'⟩ := Option.isSome_iff_exists.mp hset
  obtain ⟨doc'', hdoc''⟩ := Option.isSome_iff_exists.mp hsetBelow
  exact ⟨hmay, ⟨doc', hdoc', hwrite _ doc' hmay hdoc'⟩, hdel, hdelete _ hdel, hok, doc'', hdoc'',
    (htarget _ doc'' hok).2 _ hdoc''⟩

/-- The delete check lets an author take the inbound body away, which no author may write. -/
theorem deleted_body_is_no_author_path :
    authorMayDelete "_txc.web.req.body".toList = true ∧
      Outside authorKeys ["web", "req", "body"] ∧
      (requestDoc.getPath ["_txc", "web", "req", "body"]).isSome = true ∧
      ((deletePath "_txc.web.req.body".toList requestDoc).getPath
        ["_txc", "web", "req", "body"]).isSome = false ∧
      ¬KeepsControl authorKeys requestDoc (deletePath "_txc.web.req.body".toList requestDoc) := by
  have hout : Outside authorKeys ["web", "req", "body"] := by decide +kernel
  have hbefore : (requestDoc.getPath ["_txc", "web", "req", "body"]).isSome = true := by
    decide +kernel
  have hafter : ((deletePath "_txc.web.req.body".toList requestDoc).getPath
      ["_txc", "web", "req", "body"]).isSome = false := by decide +kernel
  refine ⟨by decide +kernel, hout, hbefore, hafter, fun h => ?_⟩
  rw [h.value _ hout, hbefore] at hafter
  cases hafter

end Frame

end ThanksComputer.Guard
