import ThanksComputer.Json.Decode
import ThanksComputer.Lib.Separate

/-! Valid texts, and following a path in a text: the first member of a name, the element at an
index.  What is found is a piece of the text itself. -/

namespace ThanksComputer.Json

open Lib.Separate

section Grammar

inductive IsValue : List Token → Prop
  | null : IsValue [.null]
  | bool (b : Bool) : IsValue [.bool b]
  | num (n : Numeral) : IsValue [.num n]
  | str (us : List Nat) : IsValue [.str us]
  | arr {xs : List (List Token)} (h : ∀ x ∈ xs, IsValue x) :
      IsValue (.lbrack :: (sepBy .comma xs ++ [.rbrack]))
  | obj {ms : List (List Nat × List Token)} (h : ∀ m ∈ ms, IsValue m.2) :
      IsValue (.lbrace :: (sepBy .comma (ms.map fun m => .str m.1 :: .colon :: m.2) ++ [.rbrace]))

/-- The text is JSON, of any depth. -/
def Valid (text : List Char) : Prop :=
  ∃ ts, scan .between text = some ts ∧ IsValue ts

end Grammar

section Cutting

inductive Quote
  | outside
  | inside
  | escaped
  deriving DecidableEq

def Quote.step (q : Quote) (c : Char) : Quote :=
  match q with
  | .outside => if c = '"' then .inside else .outside
  | .inside => if c = '"' then .outside else if c = '\\' then .escaped else .inside
  | .escaped => .inside

def nesting (c : Char) (depth : Nat) : Nat :=
  if c = '[' ∨ c = '\x7b' then depth + 1 else if c = ']' ∨ c = '\x7d' then depth - 1 else depth

/-- Cuts a text at the separators that stand in no string and no bracket. -/
def cutter (sep : Char) : Cutter Char (Quote × Nat) where
  start := (.outside, 0)
  step s c := (s.1.step c, if s.1 = .outside then nesting c s.2 else s.2)
  cut s c := s.1 = .outside && s.2 = 0 && c = sep

def cutAt (sep : Char) (text : List Char) : List (List Char) :=
  (cutter sep).pieces (cutter sep).start [] text

def trim (text : List Char) : List Char :=
  ((text.dropWhile isSpace).reverse.dropWhile isSpace).reverse

def enclosed (l r : Char) (text : List Char) : Option (List Char) :=
  match trim text with
  | [] => none
  | c :: cs => if c = l ∧ cs.getLast? = some r then some cs.dropLast else none

/-- The pieces between the brackets; there are none where there is only white space. -/
def inBrackets (l r : Char) (text : List Char) : List (List Char) :=
  match enclosed l r text with
  | none => []
  | some inner => if inner.all isSpace then [] else cutAt ',' inner

def readName (text : List Char) : Option String :=
  match scan .between text with
  | some [.str us] => some (unquoted us)
  | _ => none

def readMember (text : List Char) : Option (String × List Char) :=
  match cutAt ':' text with
  | [name, v] => (readName name).map fun k => (k, v)
  | _ => none

/-- The text of the value at a place. -/
def follow : List Place → List Char → Option (List Char)
  | [], text => some (trim text)
  | .elem i :: p, text => (inBrackets '[' ']' text)[i]?.bind (follow p)
  | .name k :: p, text =>
    (((inBrackets '\x7b' '\x7d' text).filterMap readMember).lookup k).bind (follow p)

end Cutting

section Scan

variable {mode : Mode} {text rest : List Char} {ts : List Token} {c : Char} {t : Token}

theorem scanBetween_punct (h : punct c = some t) : scanBetween c = ([t], .between) := by
  have hspace : isSpace c = false := by
    by_contra hs
    rw [Bool.not_eq_false, isSpace] at hs
    simp only [Bool.or_eq_true, decide_eq_true_eq] at hs
    rcases hs with ((rfl | rfl) | rfl) | rfl
    · cases h
    · cases h
    · cases h
    · cases h
  have hquote : c ≠ '"' := by
    rintro rfl
    cases h
  rw [scanBetween, hspace, if_neg Bool.false_ne_true, if_neg hquote, h]

theorem scan_append_punct (h : scan mode text = some ts) (hc : punct c = some t)
    (rest : List Char) :
    scan mode (text ++ c :: rest) = (scan .between rest).map fun us => ts ++ t :: us := by
  induction text generalizing mode ts with
  | nil =>
    rw [List.nil_append, scan]
    cases mode with
    | between =>
      cases h
      simp only [scanChar, scanBetween_punct hc]
      rfl
    | word read =>
      obtain ⟨w, hw, rfl⟩ := Option.map_eq_some_iff.mp h
      simp only [scanChar, hw, hc, scanBetween_punct hc, Option.isSome_some, or_true, if_true]
      rfl
    | string | escape | hex => cases h
  | cons a text ih =>
    rw [scan] at h
    obtain ⟨⟨us, mode'⟩, hchar, h⟩ := Option.bind_eq_some_iff.mp h
    obtain ⟨vs, hvs, rfl⟩ := Option.map_eq_some_iff.mp h
    rw [List.cons_append, scan, hchar]
    show (scan mode' (text ++ c :: rest)).map _ = _
    rw [ih hvs, Option.map_map]
    congr 1
    funext ws
    simp

end Scan

section Depth

variable {mode mode' : Mode} {text : List Char} {ts us : List Token} {c sep : Char} {t : Token}
    {d d' : Nat}

/-- The depth behind a token; outside of all brackets nothing is closed or separated. -/
def tokenDepth (d : Nat) : Token → Option Nat
  | .lbrack | .lbrace => some (d + 1)
  | .rbrack | .rbrace => if d = 0 then none else some (d - 1)
  | .comma | .colon => if d = 0 then none else some d
  | _ => some d

def Mode.quote : Mode → Quote
  | .between | .word _ => .outside
  | .string _ | .hex _ _ _ => .inside
  | .escape _ => .escaped

theorem foldlM_tokenDepth_sepBy {xs : List (List Token)}
    (h : ∀ x ∈ xs, x.foldlM tokenDepth (d + 1) = some (d + 1)) :
    (sepBy .comma xs).foldlM tokenDepth (d + 1) = some (d + 1) := by
  induction xs with
  | nil => rfl
  | cons x xs ih =>
    rw [List.forall_mem_cons] at h
    cases xs with
    | nil => exact h.1
    | cons y xs =>
      rw [sepBy, List.foldlM_append, h.1]
      exact ih h.2

theorem IsValue.balanced (h : IsValue ts) (d : Nat) : ts.foldlM tokenDepth d = some d := by
  induction h generalizing d with
  | null | bool | num | str => rfl
  | arr _ ih =>
    have hxs := foldlM_tokenDepth_sepBy fun x hx => ih x hx (d + 1)
    show (sepBy Token.comma _ ++ [Token.rbrack]).foldlM tokenDepth (d + 1) = some d
    rw [List.foldlM_append, hxs]
    rfl
  | obj _ ih =>
    show (sepBy Token.comma _ ++ [Token.rbrace]).foldlM tokenDepth (d + 1) = some d
    rw [List.foldlM_append, foldlM_tokenDepth_sepBy]
    · rfl
    · intro x hx
      obtain ⟨m, hm, rfl⟩ := List.mem_map.mp hx
      exact ih m hm (d + 1)

theorem tokenDepth_wordToken {cs : List Char} (h : wordToken cs = some t) :
    tokenDepth d t = some d := by
  rw [wordToken] at h
  split at h
  · cases h
    rfl
  · split at h
    · cases h
      rfl
    · split at h
      · cases h
        rfl
      · obtain ⟨n, -, rfl⟩ := Option.map_eq_some_iff.mp h
        rfl

theorem hexDigit_ne {n : Nat} (h : hexDigit c = some n) : c ≠ '"' ∧ c ≠ '\\' := by
  refine ⟨?_, ?_⟩
  · rintro rfl
    have hnone : hexDigit '"' = none := by decide
    rw [hnone] at h
    cases h
  · rintro rfl
    have hnone : hexDigit '\\' = none := by decide
    rw [hnone] at h
    cases h

theorem step_plain (hsep : sep = ',' ∨ sep = ':') (hquote : c ≠ '"') (hpunct : punct c = none) :
    (cutter sep).cut (.outside, d) c = false ∧ (cutter sep).step (.outside, d) c =
      (.outside, d) := by
  have hne : ∀ x t, punct x = some t → c ≠ x := by
    rintro x t hx rfl
    rw [hpunct] at hx
    cases hx
  have hl := hne '[' _ rfl
  have hr := hne ']' _ rfl
  have hl' := hne '\x7b' _ rfl
  have hr' := hne '\x7d' _ rfl
  have hc : c ≠ sep := by
    rcases hsep with rfl | rfl
    · exact hne ',' _ rfl
    · exact hne ':' _ rfl
  simp [cutter, Quote.step, nesting, hquote, hl, hr, hl', hr', hc]

theorem punct_of_isSpace (h : isSpace c = true) : c ≠ '"' ∧ punct c = none := by
  rw [isSpace] at h
  simp only [Bool.or_eq_true, decide_eq_true_eq] at h
  rcases h with ((rfl | rfl) | rfl) | rfl
  · decide
  · decide
  · decide
  · decide

theorem punct_cases (h : punct c = some t) :
    c = '[' ∧ t = .lbrack ∨ c = ']' ∧ t = .rbrack ∨ c = '\x7b' ∧ t = .lbrace ∨ c = '\x7d' ∧
    t = .rbrace ∨
      c = ':' ∧ t = .colon ∨ c = ',' ∧ t = .comma := by
  rw [punct] at h
  split_ifs at h with h1 h2 h3 h4 h5 h6
  · simp [h1, (Option.some.inj h).symm]
  · simp [h2, (Option.some.inj h).symm]
  · simp [h3, (Option.some.inj h).symm]
  · simp [h4, (Option.some.inj h).symm]
  · simp [h5, (Option.some.inj h).symm]
  · simp [h6, (Option.some.inj h).symm]

theorem step_scanBetween (hsep : sep = ',' ∨ sep = ':')
    (hd : (scanBetween c).1.foldlM tokenDepth d = some d') :
    (cutter sep).cut (.outside, d) c = false ∧
      (cutter sep).step (.outside, d) c = ((scanBetween c).2.quote, d') := by
  by_cases hspace : isSpace c = true
  · rw [scanBetween, if_pos hspace] at hd ⊢
    cases hd
    exact step_plain hsep (punct_of_isSpace hspace).1 (punct_of_isSpace hspace).2
  · rw [scanBetween, if_neg hspace] at hd ⊢
    by_cases hquote : c = '"'
    · subst hquote
      cases hd
      rcases hsep with rfl | rfl
      · simp [cutter, Quote.step, nesting, Mode.quote]
      · simp [cutter, Quote.step, nesting, Mode.quote]
    · rw [if_neg hquote] at hd ⊢
      cases hpunct : punct c with
      | none =>
        rw [hpunct] at hd
        cases hd
        exact step_plain hsep hquote hpunct
      | some t =>
        rw [hpunct] at hd
        have hdepth : tokenDepth d t = some d' := by simpa using hd
        rcases punct_cases hpunct with ⟨rfl, rfl⟩ | ⟨rfl, rfl⟩ | ⟨rfl, rfl⟩ | ⟨rfl, rfl⟩
          | ⟨rfl, rfl⟩ | ⟨rfl, rfl⟩ <;>
          rcases hsep with rfl | rfl <;>
            simp [cutter, Quote.step, nesting, Mode.quote, tokenDepth] at hdepth ⊢ <;> omega

theorem step_inside (h : c ≠ '"') (h' : c ≠ '\\') :
    (cutter sep).cut (.inside, d) c = false ∧ (cutter sep).step (.inside, d) c = (.inside, d) := by
  simp [cutter, Quote.step, h, h']

theorem step_scanChar (hsep : sep = ',' ∨ sep = ':') (h : scanChar mode c = some (us, mode'))
    (hd : us.foldlM tokenDepth d = some d') :
    (cutter sep).cut (mode.quote, d) c = false ∧ (cutter sep).step (mode.quote, d) c =
      (mode'.quote, d') := by
  cases mode with
  | between =>
    obtain ⟨rfl, rfl⟩ := Prod.mk.inj (Option.some.inj h)
    exact step_scanBetween hsep hd
  | word read =>
    rw [scanChar] at h
    split at h
    · obtain ⟨t, ht, heq⟩ := Option.map_eq_some_iff.mp h
      obtain ⟨rfl, rfl⟩ := Prod.mk.inj heq
      rw [List.foldlM_cons, tokenDepth_wordToken ht] at hd
      exact step_scanBetween hsep hd
    · next hword =>
      simp only [not_or] at hword
      obtain ⟨rfl, rfl⟩ := Prod.mk.inj (Option.some.inj h)
      cases hd
      exact step_plain hsep hword.2.1 (Option.not_isSome_iff_eq_none.mp hword.2.2)
  | string read =>
    rw [scanChar] at h
    split_ifs at h with hquote hesc hctl
    · obtain ⟨rfl, rfl⟩ := Prod.mk.inj (Option.some.inj h)
      cases hd
      simp [cutter, Quote.step, Mode.quote, hquote]
    · obtain ⟨rfl, rfl⟩ := Prod.mk.inj (Option.some.inj h)
      cases hd
      simp [cutter, Quote.step, Mode.quote, hesc]
    · obtain ⟨rfl, rfl⟩ := Prod.mk.inj (Option.some.inj h)
      cases hd
      exact step_inside hquote hesc
  | escape read =>
    rw [scanChar] at h
    split at h
    · obtain ⟨rfl, rfl⟩ := Prod.mk.inj (Option.some.inj h)
      cases hd
      simp [cutter, Quote.step, Mode.quote]
    · obtain ⟨e, -, heq⟩ := Option.map_eq_some_iff.mp h
      obtain ⟨rfl, rfl⟩ := Prod.mk.inj heq
      cases hd
      simp [cutter, Quote.step, Mode.quote]
  | hex read unit left =>
    obtain ⟨n, hn, heq⟩ := Option.map_eq_some_iff.mp h
    obtain ⟨rfl, rfl⟩ := Prod.mk.inj heq
    cases hd
    have hstep : (cutter sep).cut (.inside, d) c = false ∧
      (cutter sep).step (.inside, d) c = (.inside, d) :=
      step_inside (hexDigit_ne hn).1 (hexDigit_ne hn).2
    split
    · exact hstep
    · exact hstep

theorem passes_of_scan (hsep : sep = ',' ∨ sep = ':') (h : scan mode text = some ts)
    (hd : ts.foldlM tokenDepth d = some d') :
    (cutter sep).Passes (mode.quote, d) text (.outside, d') := by
  induction text generalizing mode ts d with
  | nil =>
    cases mode with
    | between =>
      cases h
      cases hd
      exact .nil
    | word read =>
      obtain ⟨t, ht, rfl⟩ := Option.map_eq_some_iff.mp h
      rw [List.foldlM_cons, tokenDepth_wordToken ht] at hd
      cases hd
      exact .nil
    | string | escape | hex => cases h
  | cons c text ih =>
    rw [scan] at h
    obtain ⟨⟨us, mode'⟩, hchar, h⟩ := Option.bind_eq_some_iff.mp h
    obtain ⟨vs, hvs, rfl⟩ := Option.map_eq_some_iff.mp h
    rw [List.foldlM_append] at hd
    obtain ⟨d₁, hus, hd⟩ := Option.bind_eq_some_iff.mp hd
    obtain ⟨hcut, hstep⟩ := step_scanChar hsep hchar hus
    refine .cons hcut ?_
    rw [hstep]
    exact ih hvs hd

theorem Valid.passes (h : Valid text) (hsep : sep = ',' ∨ sep = ':') (d : Nat) :
    (cutter sep).Passes (.outside, d) text (.outside, d) := by
  obtain ⟨ts, hscan, hts⟩ := h
  exact passes_of_scan hsep hscan (hts.balanced d)

end Depth

section Written

variable {text : List Char} {l r : Char} {xs : List (List Char)} {ms : List (String × List Char)}

theorem scan_of_all_isSpace (h : text.all isSpace = true) : scan .between text = some [] := by
  induction text with
  | nil => rfl
  | cons c text ih =>
    rw [List.all_cons, Bool.and_eq_true] at h
    rw [scan, scanChar, scanBetween, if_pos h.1]
    show (scan .between text).map _ = _
    rw [ih h.2]
    rfl

theorem Valid.not_all_isSpace (h : Valid text) : text.all isSpace = false := by
  by_contra hspace
  obtain ⟨ts, hscan, hts⟩ := h
  rw [scan_of_all_isSpace (Bool.not_eq_false _ ▸ hspace)] at hscan
  cases hscan
  cases hts

theorem trim_enclosed (hl : isSpace l = false) (hr : isSpace r = false) (text : List Char) :
    trim (l :: (text ++ [r])) = l :: (text ++ [r]) := by
  rw [trim, List.dropWhile_cons_of_neg (by rw [hl]; exact Bool.false_ne_true)]
  rw [← List.cons_append, List.reverse_append, List.reverse_singleton, List.singleton_append,
    List.dropWhile_cons_of_neg (by rw [hr]; exact Bool.false_ne_true), List.reverse_cons,
      List.reverse_reverse]

theorem enclosed_self (hl : isSpace l = false) (hr : isSpace r = false) (text : List Char) :
    enclosed l r (l :: (text ++ [r])) = some text := by
  rw [enclosed, trim_enclosed hl hr]
  simp

theorem inBrackets_of_ne {l' r' : Char} (hl : isSpace l = false) (hr : isSpace r = false)
    (hne : l ≠ l') (text : List Char) : inBrackets l' r' (l :: (text ++ [r])) = [] := by
  rw [inBrackets, enclosed, trim_enclosed hl hr]
  simp [hne]

theorem inBrackets_sepBy (hl : isSpace l = false) (hr : isSpace r = false)
    (hxs : ∀ x ∈ xs, (cutter ',').Passes (.outside, 0) x (.outside, 0) ∧ x.all isSpace = false) :
    inBrackets l r (l :: (sepBy ',' xs ++ [r])) = xs := by
  rw [inBrackets, enclosed_self hl hr]
  cases xs with
  | nil => rfl
  | cons x xs =>
    rw [List.forall_mem_cons] at hxs
    have hspace : (sepBy ',' (x :: xs)).all isSpace = false := by
      cases xs with
      | nil => exact hxs.1.2
      | cons y xs => rw [sepBy, List.all_append, hxs.1.2, Bool.false_and]
    simp only [hspace, if_false, Bool.false_eq_true]
    have hcut : (cutter ',').cut (cutter ',').start ',' = true := rfl
    exact Cutter.pieces_sepBy hcut hxs.1.1 fun y hy => (hxs.2 y hy).1

theorem readMember_written {name : List Char} {k : String}
    (hname : scan .between name = some [.str (units k)]) (h : Valid text) :
    readMember (name ++ ':' :: text) = some (k, text) := by
  have hcolon : (cutter ':').cut (cutter ':').start ':' = true := rfl
  have hcut : cutAt ':' (name ++ ':' :: text) = [name, text] := by
    show (cutter ':').pieces (cutter ':').start [] (sepBy ':' [name, text]) = _
    refine Cutter.pieces_sepBy hcolon ?_ fun y hy => ?_
    · exact passes_of_scan (.inr rfl) hname ((IsValue.str _).balanced 0)
    · rw [List.mem_singleton.mp hy]
      exact h.passes (.inr rfl) 0
  simp only [readMember, hcut, readName, hname, unquoted_units]
  rfl

def arrayText (xs : List (List Char)) : List Char :=
  '[' :: (sepBy ',' xs ++ [']'])

/-- An object whose names are written by `quote`. -/
def objectText (quote : String → List Char) (ms : List (String × List Char)) : List Char :=
  '\x7b' :: (sepBy ',' (ms.map fun m => quote m.1 ++ ':' :: m.2) ++ ['\x7d'])

theorem trim_arrayText (xs : List (List Char)) : trim (arrayText xs) = arrayText xs :=
  trim_enclosed rfl rfl _

theorem trim_objectText (quote : String → List Char) (ms : List (String × List Char)) :
    trim (objectText quote ms) = objectText quote ms :=
  trim_enclosed rfl rfl _

theorem follow_elem_arrayText (h : ∀ x ∈ xs, Valid x) (i : Nat) (p : List Place) :
    follow (.elem i :: p) (arrayText xs) = xs[i]?.bind (follow p) := by
  rw [follow, arrayText, inBrackets_sepBy rfl rfl]
  intro x hx
  exact ⟨(h x hx).passes (.inl rfl) 0, (h x hx).not_all_isSpace⟩

theorem follow_name_arrayText (xs : List (List Char)) (k : String) (p : List Place) :
    follow (.name k :: p) (arrayText xs) = none := by
  rw [follow, arrayText, inBrackets_of_ne rfl rfl (by decide)]
  rfl

theorem follow_elem_objectText (quote : String → List Char) (ms : List (String × List Char))
    (i : Nat) (p : List Place) : follow (.elem i :: p) (objectText quote ms) = none := by
  rw [follow, objectText, inBrackets_of_ne rfl rfl (by decide)]
  rfl

theorem follow_name_objectText {quote : String → List Char}
    (hquote : ∀ k, scan .between (quote k) = some [.str (units k)]) (h : ∀ m ∈ ms, Valid m.2)
    (k : String) (p : List Place) :
      follow (.name k :: p) (objectText quote ms) = (ms.lookup k).bind (follow p) := by
  have hmembers : (ms.map fun m => quote m.1 ++ ':' :: m.2).filterMap readMember = ms := by
    rw [List.filterMap_map]
    conv_rhs => rw [← List.filterMap_some (l := ms)]
    refine List.filterMap_congr fun m hm => ?_
    exact readMember_written (hquote m.1) (h m hm)
  rw [follow, objectText, inBrackets_sepBy rfl rfl, hmembers]
  intro x hx
  obtain ⟨m, hm, rfl⟩ := List.mem_map.mp hx
  have hname : (cutter ',').Passes (.outside, 0) (quote m.1) (.outside, 0) :=
    passes_of_scan (.inl rfl) (hquote m.1) ((IsValue.str _).balanced 0)
  refine ⟨hname.append (.cons rfl ((h m hm).passes (.inl rfl) 0)), ?_⟩
  rw [List.all_append, List.all_cons, (h m hm).not_all_isSpace, Bool.and_false, Bool.and_false]

theorem scan_sepBy {tss : List (List Token)} {c : Char} {t : Token}
    (h : List.Forall₂ (fun x ts => scan .between x = some ts) xs tss) (hc : punct c = some t)
    (rest : List Char) : scan .between (sepBy ',' xs ++ c :: rest) =
      (scan .between rest).map fun us => sepBy .comma tss ++ t :: us := by
  induction h with
  | nil => exact scan_append_punct rfl hc rest
  | cons hx hxs ih =>
    cases hxs with
    | nil => exact scan_append_punct hx hc rest
    | cons hy hys =>
      have hcomma : punct ',' = some .comma := rfl
      rw [sepBy, List.append_assoc, List.cons_append, scan_append_punct hx hcomma, ih,
        Option.map_map, sepBy]
      congr 1
      funext us
      simp

theorem scan_bracketed {tss : List (List Token)} {tl tr : Token}
    (h : List.Forall₂ (fun x ts => scan .between x = some ts) xs tss) (hl : punct l = some tl)
    (hr : punct r = some tr) :
    scan .between (l :: (sepBy ',' xs ++ [r])) = some (tl :: (sepBy .comma tss ++ [tr])) := by
  have hopen : scan .between (l :: (sepBy ',' xs ++ [r])) =
      (scan .between (sepBy ',' xs ++ [r])).map fun us => [] ++ tl :: us := by
    rw [← List.nil_append (l :: _)]
    exact scan_append_punct rfl hl _
  rw [hopen, scan_sepBy h hr]
  rfl

theorem valid_arrayText (h : ∀ x ∈ xs, Valid x) : Valid (arrayText xs) := by
  have htokens : ∃ tss, List.Forall₂ (fun x ts => scan .between x = some ts) xs tss ∧
      ∀ ts ∈ tss, IsValue ts := by
    induction xs with
    | nil => exact ⟨[], .nil, by simp⟩
    | cons x xs ih =>
      rw [List.forall_mem_cons] at h
      obtain ⟨ts, hscan, hts⟩ := h.1
      obtain ⟨tss, hall, htss⟩ := ih h.2
      exact ⟨ts :: tss, .cons hscan hall, List.forall_mem_cons.mpr ⟨hts, htss⟩⟩
  obtain ⟨tss, hall, htss⟩ := htokens
  exact ⟨_, scan_bracketed hall rfl rfl, .arr htss⟩

theorem valid_objectText {quote : String → List Char}
    (hquote : ∀ k, scan .between (quote k) = some [.str (units k)]) (h : ∀ m ∈ ms, Valid m.2) :
    Valid (objectText quote ms) := by
  have htokens : ∃ ns : List (List Nat × List Token),
      List.Forall₂ (fun x ts => scan .between x = some ts) (ms.map fun m => quote m.1 ++ ':' :: m.2)
        (ns.map fun n => .str n.1 :: .colon :: n.2) ∧ ∀ n ∈ ns, IsValue n.2 := by
    induction ms with
    | nil => exact ⟨[], .nil, by simp⟩
    | cons m ms ih =>
      rw [List.forall_mem_cons] at h
      obtain ⟨ts, hscan, hts⟩ := h.1
      obtain ⟨ns, hall, hns⟩ := ih h.2
      refine ⟨(units m.1, ts) :: ns, .cons ?_ hall, List.forall_mem_cons.mpr ⟨hts, hns⟩⟩
      have hcolon : punct ':' = some .colon := rfl
      rw [scan_append_punct (hquote m.1) hcolon, hscan]
      rfl
  obtain ⟨ns, hall, hns⟩ := htokens
  exact ⟨_, scan_bracketed hall rfl rfl, .obj hns⟩

end Written

end ThanksComputer.Json
