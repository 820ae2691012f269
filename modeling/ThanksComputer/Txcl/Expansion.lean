import Mathlib.Data.List.Chain
import ThanksComputer.Lib.Checks
import ThanksComputer.Txcl.Include
import ThanksComputer.Txcl.Local

/-! Lexing across a splice: a source whose includes are written out reads as the source did, unless
a literal lands right behind a token that goes on with a quote. -/

namespace ThanksComputer.Txcl

namespace Include

inductive Item
  | tok (p : Piece)
  | call (amp left arg right : Piece)

namespace Item

variable (content : Bytes → Bytes)

def pieces : Item → List Piece
  | tok p => [p]
  | call amp left arg right => [amp, left, arg, right]

/-- What `Expand` writes for it. -/
def written : Item → Bytes
  | tok p => p.gap ++ p.text
  | call amp _ arg _ => amp.gap ++ quote (content arg.tok.literal)

def wanted : Item → Token
  | tok p => p.tok
  | call _ _ arg _ => ⟨.string, content arg.tok.literal⟩

end Item

/-- The items of a source and what is left behind the last of them. -/
inductive Reads : TokenType → Bytes → List Item → Bytes → Prop
  | done {last : TokenType} {s : Bytes} : (next last s).tok.type = .eof → Reads last s [] s
  | tok {last : TokenType} {s rest tail : Bytes} {p : Piece} {items : List Item} :
    Takes last s p rest → isDirective p.tok = false → Reads p.tok.type rest items tail →
      Reads last s (.tok p :: items) tail
  | call {last : TokenType} {s s₁ s₂ s₃ rest tail : Bytes} {amp left arg right : Piece}
    {items : List Item} :
    Takes last s amp s₁ → isDirective amp.tok = true → Takes .ampIdent s₁ left s₂ →
      left.tok.type = .lparen →
      Takes .lparen s₂ arg s₃ → arg.tok.type = .string → Takes .string s₃ right rest →
      right.tok.type = .rparen → Reads .rparen rest items tail →
      Reads last s (.call amp left arg right :: items) tail

section Law

variable {content : Bytes → Bytes} {last last' : TokenType} {s tail : Bytes} {items : List Item}

def outFrom (content : Bytes → Bytes) (items : List Item) (tail : Bytes) : Bytes :=
  items.flatMap (Item.written content) ++ tail

/-- The first item is no include whose literal the token in front would take in. -/
def Apart (absorbing : Bool) : List Item → Prop
  | .call amp _ _ _ :: _ => ¬(absorbing = true ∧ amp.gap = [])
  | _ => True

def Clear (absorbing : Bool) : List Item → Prop
  | [] => True
  | .tok p :: items => Clear (absorbs p.tok) items
  | .call amp _ _ _ :: items => ¬(absorbing = true ∧ amp.gap = []) ∧ Clear false items

theorem Clear.apart {b : Bool} (h : Clear b items) : Apart b items := by
  cases items with
  | nil => trivial
  | cons item items =>
    cases item with
    | tok p => trivial
    | call amp left arg right => exact h.1

theorem of_not_apart {b : Bool} (h : ¬Apart b items) :
    b = true ∧ ∃ amp left arg right items', items = .call amp left arg right :: items' ∧
      amp.gap = [] := by
  cases items with
  | nil => exact absurd trivial h
  | cons item items =>
    cases item with
    | tok p => exact absurd trivial h
    | call amp left arg right =>
      obtain ⟨hb, hgap⟩ := not_not.mp h
      exact ⟨hb, amp, left, arg, right, items, rfl, hgap⟩

theorem absorbs_cases {t : Token} (h : absorbs t = true) :
    t.type = .branch ∨ t = ⟨.ident, "b64".toList⟩ := by
  rwa [absorbs, Bool.or_eq_true, beq_iff_eq, beq_iff_eq] at h

theorem clear_of_apart {b : Bool} (h : Apart b items) (hclear : Clear false items) :
    Clear b items := by
  cases items with
  | nil => trivial
  | cons item items =>
    cases item with
    | tok p => exact hclear
    | call amp left arg right => exact ⟨h, hclear.2⟩

inductive Lexes : TokenType → Bytes → List Token → Prop
  | done {last : TokenType} {s : Bytes} : (next last s).tok.type = .eof → Lexes last s []
  | token {last : TokenType} {s : Bytes} {ts : List Token} : (next last s).tok.type ≠ .eof →
    Lexes (next last s).tok.type (next last s).rest ts → Lexes last s ((next last s).tok :: ts)

theorem Lexes.unique {ts ts' : List Token} (h : Lexes last s ts) (h' : Lexes last s ts') :
    ts = ts' := by
  induction h generalizing ts' with
  | done heof =>
    cases h' with
    | done => rfl
    | token hne => exact absurd heof hne
  | token hne _ ih =>
    cases h' with
    | done heof => exact absurd heof hne
    | token _ h' => rw [ih h']

theorem Lexes.alike {ts : List Token} (hlast : Alike last last') (h : Lexes last s ts) :
    Lexes last' s ts := by
  have hnext : next last s = next last' s := by
    unfold next
    rw [lexeme_alike hlast]
  cases h with
  | done heof =>
    rw [hnext] at heof
    exact .done heof
  | token hne h =>
    rw [hnext] at hne h ⊢
    exact .token hne h

theorem alike_string : Alike .rparen .string :=
  ⟨rfl, by decide⟩

theorem Lexes.of_lexeme {c : Char} {x out : Bytes} {gap : Bytes} {t : Token} {e : List String}
    {ts : List Token} (hskip : skipBlank false (gap ++ (c :: x)) = c :: x) (hc : c ≠ nul)
    (hlex : lexeme last c x = ⟨t, out, e⟩) (h : Lexes t.type out ts) :
      Lexes last (gap ++ (c :: x)) (t :: ts) := by
  have hnext : next last (gap ++ (c :: x)) = ⟨t, out, e⟩ := by
    unfold next
    rw [hskip]
    exact hlex
  have htok : (next last (gap ++ (c :: x))).tok = t := by rw [hnext]
  have hrest : (next last (gap ++ (c :: x))).rest = out := by rw [hnext]
  have hne : (next last (gap ++ (c :: x))).tok.type ≠ .eof := by
    rw [ne_eq, next_eof_iff, hskip]
    exact hc
  have := Lexes.token hne (by rw [htok, hrest]; exact h)
  rwa [htok] at this

theorem quoteChar_plain {c : Char} (hslash : c ≠ '\\') (hquote : c ≠ '"') (hn : c ≠ '\n')
    (hr : c ≠ '\r') (ht : c ≠ '\t') : quoteChar c = [c] := by
  unfold quoteChar
  split
  · exact absurd rfl hslash
  · exact absurd rfl hquote
  · exact absurd rfl hn
  · exact absurd rfl hr
  · exact absurd rfl ht
  · rfl

theorem stringBody_quoteChar {c : Char} (hnul : c ≠ nul) (s : Bytes) :
    stringBody (quoteChar c ++ s) = (stringBody s).write [c] := by
  by_cases hslash : c = '\\'
  · subst hslash
    exact stringBody_escape (by decide)
  by_cases hquote : c = '"'
  · subst hquote
    exact stringBody_escape (by decide)
  by_cases hn : c = '\n'
  · subst hn
    exact stringBody_escape (by decide)
  by_cases hr : c = '\r'
  · subst hr
    exact stringBody_escape (by decide)
  by_cases htab : c = '\t'
  · subst htab
    exact stringBody_escape (by decide)
  rw [quoteChar_plain hslash hquote hn hr htab]
  exact stringBody_char hnul hquote hslash

theorem stringBody_quote {t : Bytes} (ht : nul ∉ t) (out : Bytes) :
    stringBody (t.flatMap quoteChar ++ '"' :: out) = ⟨t, out, []⟩ := by
  induction t with
  | nil => exact stringBody_close
  | cons c t ih =>
    rw [List.mem_cons, not_or] at ht
    rw [List.flatMap_cons, List.append_assoc, stringBody_quoteChar (Ne.symm ht.1), ih ht.2]
    rfl

theorem lexeme_quote {t : Bytes} (ht : nul ∉ t) (last : TokenType) (out : Bytes) :
    lexeme last '"' (t.flatMap quoteChar ++ '"' :: out) = ⟨⟨.string, t⟩, out, []⟩ := by
  have hshape : shape last '"' (head (t.flatMap quoteChar ++ '"' :: out)) = .string := rfl
  unfold lexeme
  rw [hshape]
  dsimp only
  rw [stringBody_quote ht]
  rfl

theorem next_quote {t : Bytes} (ht : nul ∉ t) (last : TokenType) (out : Bytes) :
    next last (quote t ++ out) = ⟨⟨.string, t⟩, out, []⟩ := by
  have htext : quote t ++ out = '"' :: (t.flatMap quoteChar ++ '"' :: out) := by simp [quote]
  rw [next, htext, skipBlank_token (by decide) (by decide), head_cons, List.tail_cons,
    lexeme_quote ht]

theorem newline_notMem_quoteChar (c : Char) : '\n' ∉ quoteChar c := by
  by_cases hn : c = '\n'
  · subst hn
    decide
  · unfold quoteChar
    split
    · decide
    · decide
    · decide
    · decide
    · decide
    · exact fun h => hn (List.mem_singleton.mp h).symm

theorem newline_notMem_quote (t : Bytes) : '\n' ∉ quote t := by
  intro h
  rcases List.mem_append.mp h with h | h
  · rcases List.mem_cons.mp h with h | h
    · cases h
    · obtain ⟨c, -, hc⟩ := List.mem_flatMap.mp h
      exact newline_notMem_quoteChar c hc
  · cases List.mem_singleton.mp h

/-- A lexer that stands at the literal of a text reads the text as one token and stands behind the
literal. -/
theorem nextToken_quote {s : Bytes} (hs : nul ∉ s) {l : Lexer} {following : Bytes}
    (hl : l.rest = quote s ++ following) :
    (∃ l', l.nextToken = some (⟨.string, s⟩, l') ∧ l'.input = l.input ∧ l'.rest = following ∧
      l'.errs = l.errs) ∧ '\n' ∉ quote s := by
  obtain ⟨l', htok, hscan⟩ := l.nextToken_eq
  have hnext := next_quote hs l.lastToken.type following
  have htoken := hscan.lastToken
  have hrest := hscan.rest
  have herrs := hscan.errs
  rw [hl, hnext] at htoken hrest herrs
  rw [htoken] at htok
  exact ⟨⟨l', htok, hscan.input, hrest, by rw [herrs, List.append_nil]⟩, newline_notMem_quote s⟩

theorem nextToken_quote_lines :
    (∃ l', (Lexer.new (quote "a\"\n\\x".toList ++ " &z".toList)).nextToken =
        some (⟨.string, "a\"\n\\x".toList⟩, l') ∧
      l'.input = (Lexer.new (quote "a\"\n\\x".toList ++ " &z".toList)).input ∧
      l'.rest = " &z".toList ∧
      l'.errs = (Lexer.new (quote "a\"\n\\x".toList ++ " &z".toList)).errs) ∧
      '\n' ∉ quote "a\"\n\\x".toList :=
  nextToken_quote (by decide) rfl

theorem outFrom_tok (p : Piece) (items : List Item) (tail : Bytes) :
    outFrom content (.tok p :: items) tail = p.gap ++ (p.text ++ outFrom content items tail) := by
  simp [outFrom, Item.written]

theorem outFrom_call (amp left arg right : Piece) (items : List Item) (tail : Bytes) :
    outFrom content (.call amp left arg right :: items) tail =
      amp.gap ++
        ('"' :: ((content arg.tok.literal).flatMap quoteChar ++ '"' ::
          outFrom content items tail)) := by
  simp [outFrom, Item.written, quote]

theorem takes_amp {p : Piece} {rest : Bytes} (h : Takes last s p rest)
    (hdir : isDirective p.tok = true) :
    ∃ x, p.text = '&' :: x := by
  obtain ⟨c, x, htext, -, hlex⟩ := h.lexed
  have htype : (lexeme last c (x ++ rest)).tok.type = .ampIdent := by
    rw [hlex]
    rw [isDirective, Bool.and_eq_true, beq_iff_eq] at hdir
    exact hdir.1
  obtain ⟨-, rfl⟩ := begins_of_shape (shape_of_ampIdent htype)
  exact ⟨x, htext⟩

theorem fits_out {b : Bool} (h : Reads last s items tail) (hapart : Apart b items) :
    Fits b s (outFrom content items tail) := by
  cases h with
  | done heof => exact ⟨Iff.rfl, .inl rfl⟩
  | @tok _ _ rest _ p items htakes _ _ =>
    obtain ⟨c, x, htext, -, -⟩ := htakes.lexed
    rw [outFrom_tok, htakes.split, htext]
    cases p.gap with
    | nil => exact ⟨by simp, .inl rfl⟩
    | cons d gap => exact ⟨by simp, .inl rfl⟩
  | @call _ _ _ _ _ rest _ amp left arg right items htakes hdir _ _ _ _ _ _ _ =>
    obtain ⟨x, htext⟩ := takes_amp htakes hdir
    rw [outFrom_call, htakes.split, htext]
    cases hgap : amp.gap with
    | nil =>
      refine ⟨by simp, .inr ⟨?_, rfl, rfl⟩⟩
      rw [Bool.eq_false_iff]
      intro hb
      exact hapart ⟨hb, hgap⟩
    | cons d gap => exact ⟨by simp, .inl rfl⟩

theorem skipBlank_quote (z : Bytes) : skipBlank false ('"' :: z) = '"' :: z := rfl

theorem lexes_out (hnul : ∀ path, nul ∉ content path) (h : Reads last s items tail) {b : Bool}
    (hclear : Clear b items) :
      Lexes last (outFrom content items tail) (items.map (Item.wanted content)) := by
  induction h generalizing b with
  | done heof => exact .done heof
  | @tok last s rest tail p items htakes _ hreads ih =>
    obtain ⟨c, x, htext, hc, hlex⟩ := htakes.lexed
    have hfit : Fits (absorbs p.tok) rest (outFrom content items tail) :=
      fits_out hreads (Clear.apart hclear)
    have hlocal := lexeme_local hlex hfit
    have hskip := htakes.skip
    rw [htakes.split, htext] at hskip
    rw [outFrom_tok, htext]
    exact Lexes.of_lexeme (skipBlank_local hskip hc (htakes.skipBlank_text htext hc _)) hc hlocal
      (ih hclear)
  | @call last s s₁ s₂ s₃ rest tail amp left arg right items htakes hdir _ _ _ _ _ _ hreads ih =>
    obtain ⟨x, htext⟩ := takes_amp htakes hdir
    have hskip := htakes.skip
    rw [htakes.split, htext] at hskip
    rw [outFrom_call]
    have hamp : head ('&' :: x ++ s₁) ≠ nul := by
      rw [List.cons_append, head_cons]
      decide
    exact Lexes.of_lexeme (skipBlank_local hskip hamp (skipBlank_quote _)) (by decide)
      (lexeme_quote (hnul _) last _) ((ih hclear.2).alike alike_string)

theorem Lexes.inv {c : Char} {x out gap : Bytes} {t : Token} {e : List String} {ts : List Token}
    (hskip : skipBlank false (gap ++ (c :: x)) = c :: x) (hc : c ≠ nul)
    (hlex : lexeme last c x = ⟨t, out, e⟩) (h : Lexes last (gap ++ (c :: x)) ts) :
      ∃ ts', ts = t :: ts' ∧ Lexes t.type out ts' := by
  have hnext : next last (gap ++ (c :: x)) = ⟨t, out, e⟩ := by
    unfold next
    rw [hskip]
    exact hlex
  cases h with
  | done heof =>
    rw [next_eof_iff, hskip] at heof
    exact absurd heof hc
  | token hne h =>
    rw [hnext] at h ⊢
    exact ⟨_, rfl, h⟩

theorem quoteChar_head {c : Char} (hnul : c ≠ nul) :
    ∃ a w, quoteChar c = a :: w ∧ ¬(a = nul ∨ a = '"') := by
  unfold quoteChar
  split
  · exact ⟨_, _, rfl, by decide⟩
  · exact ⟨_, _, rfl, by decide⟩
  · exact ⟨_, _, rfl, by decide⟩
  · exact ⟨_, _, rfl, by decide⟩
  · exact ⟨_, _, rfl, by decide⟩
  · next hquote _ _ _ => exact ⟨c, [], rfl, not_or.mpr ⟨hnul, hquote⟩⟩

theorem escapePath_ne_nil (c : Char) : escapePath c ≠ [] := by
  unfold escapePath
  split
  · exact List.cons_ne_nil _ _
  · exact List.cons_ne_nil _ _

theorem branchBody_true_content {a : Char} {z : Bytes}
    (h : (branchBody true (a :: z)).content = []) :
    a = nul ∨ a = '"' := by
  by_contra ha
  rw [branchBody_inside _ ha] at h
  exact escapePath_ne_nil a (List.append_eq_nil_iff.mp h).1

theorem branchBody_quote {t : Bytes} (ht : nul ∉ t) {out : Bytes}
    (h : (branchBody true (t.flatMap quoteChar ++ '"' :: out)).content = []) : t = [] := by
  cases t with
  | nil => rfl
  | cons c t =>
    rw [List.mem_cons, not_or] at ht
    obtain ⟨a, w, hq, ha⟩ := quoteChar_head (Ne.symm ht.1)
    rw [List.flatMap_cons, hq, List.cons_append, List.cons_append] at h
    exact absurd (branchBody_true_content h) ha

theorem stops_tail (heof : (next last s).tok.type = .eof) : Stops s := by
  rw [next_eof_iff] at heof
  cases s with
  | nil => exact ⟨rfl, by decide⟩
  | cons d s =>
    by_cases hd : skipBlank false (d :: s) = d :: s
    · rw [hd, head_cons] at heof
      subst heof
      exact ⟨rfl, show nul ≠ '"' by decide⟩
    · exact stops_blank hd

theorem stops_gap {p : Piece} {d : Char} {gap rest : Bytes} (h : Takes last s p rest)
    (hgap : p.gap = d :: gap) (out : Bytes) : Stops (d :: gap ++ out) := by
  have hskip := h.skip
  rw [h.split, hgap] at hskip
  have hlonger : skipBlank false (d :: (gap ++ (p.text ++ rest))) ≠ d ::
    (gap ++ (p.text ++ rest)) := by
    intro heq
    have hlen := congrArg List.length (heq.symm.trans hskip)
    simp only [List.length_cons, List.length_append] at hlen
    omega
  have hstop := stops_blank hlonger
  exact hstop

theorem string_absorbed {p : Piece} {x rest out : Bytes} (h : Takes last s p rest)
    (htext : p.text = '"' :: x) (hempty : (branchBody true (x ++ out)).content = []) :
      p.tok = ⟨.string, []⟩ ∧ x = ['"'] := by
  obtain ⟨c, x', htext', -, hlex⟩ := h.lexed
  obtain ⟨rfl, rfl⟩ := List.cons.inj (htext.symm.trans htext')
  have hbody : (stringBody (x ++ rest)).toLexeme .string = ⟨p.tok, rest, []⟩ := hlex
  obtain ⟨htok, hrest, herrs⟩ := Lexeme.mk.inj hbody
  cases x with
  | nil =>
    exfalso
    rw [List.nil_append] at hrest herrs
    by_cases hnil : rest = []
    · rw [hnil] at herrs
      cases herrs
    · exact stringBody_shorter hnil hrest
  | cons a x =>
    rw [List.cons_append] at htok hrest herrs hempty
    rcases branchBody_true_content hempty with rfl | rfl
    · rw [stringBody_nul] at herrs
      cases herrs
    · rw [stringBody_close] at htok hrest
      rw [List.append_left_eq_self.mp hrest]
      exact ⟨htok.symm, rfl⟩

theorem branch_absorbs (hnul : ∀ path, nul ∉ content path) (h : Reads last s items tail)
    (hlast : Alike last .branch)
    (hempty : (branchBody false (outFrom content items tail)).content = []) :
    ∃ k last₂ s₂ items₂, Reads last₂ s₂ items₂ tail ∧ Alike last₂ .branch ∧
      items₂.length ≤ items.length ∧
      items.map (Item.wanted content) =
        List.replicate k ⟨.string, []⟩ ++ items₂.map (Item.wanted content) ∧
      branchBody false (outFrom content items tail) = ⟨[], outFrom content items₂ tail, []⟩ := by
  induction h with
  | done heof =>
    exact ⟨0, _, _, [], .done heof, hlast, le_refl _, rfl, branchBody_stops (stops_tail heof)⟩
  | @tok last s rest tail p items htakes hdir hreads ih =>
    have hself := Reads.tok htakes hdir hreads
    obtain ⟨c, x, htext, hc, hlex⟩ := htakes.lexed
    cases hgap : p.gap with
    | cons d gap =>
      refine ⟨0, _, _, _, hself, hlast, le_refl _, rfl, ?_⟩
      rw [outFrom_tok, hgap]
      exact branchBody_stops (stops_gap htakes hgap _)
    | nil =>
      have hout : outFrom content (.tok p :: items) tail = c ::
        (x ++ outFrom content items tail) := by
        rw [outFrom_tok, hgap, htext]
        rfl
      by_cases hquote : c = '"'
      · subst hquote
        rw [hout, branchBody_open] at hempty
        obtain ⟨htok, rfl⟩ := string_absorbed htakes htext hempty
        rw [List.singleton_append, branchBody_close _ (.inr rfl)] at hempty
        rw [htok] at ih
        obtain ⟨k, last₂, s₂, items₂, hreads₂, hlast₂, hlen, hwanted, hbody⟩ :=
          ih ⟨rfl, by decide⟩ hempty
        refine ⟨k + 1, last₂, s₂, items₂, hreads₂, hlast₂, hlen.trans (Nat.le_succ _), ?_, ?_⟩
        · rw [List.map_cons, hwanted, Item.wanted, htok]
          rfl
        · rw [hout, branchBody_open, List.singleton_append, branchBody_close _ (.inr rfl), hbody]
      · by_cases hbranch : isBranchChar c = true
        · rw [hout, branchBody_char _ hquote hbranch] at hempty
          exact absurd hempty (List.cons_ne_nil _ _)
        · refine ⟨0, _, _, _, hself, hlast, le_refl _, rfl, ?_⟩
          rw [hout]
          exact branchBody_stop _ hquote hbranch
  | @call last s s₁ s₂ s₃ rest tail amp left arg right items htakes hdir hl hltype ha hatype hr
      hrtype hreads ih =>
    have hself := Reads.call htakes hdir hl hltype ha hatype hr hrtype hreads
    cases hgap : amp.gap with
    | cons d gap =>
      refine ⟨0, _, _, _, hself, hlast, le_refl _, rfl, ?_⟩
      rw [outFrom_call, hgap]
      exact branchBody_stops (stops_gap htakes hgap _)
    | nil =>
      rw [outFrom_call, hgap, List.nil_append, branchBody_open] at hempty ⊢
      have hnone := branchBody_quote (hnul _) hempty
      rw [hnone, List.flatMap_nil, List.nil_append, branchBody_close _ (.inr rfl)] at hempty ⊢
      obtain ⟨k, last₂, s₂, items₂, hreads₂, hlast₂, hlen, hwanted, hbody⟩ :=
        ih ⟨rfl, by decide⟩ hempty
      refine ⟨k + 1, last₂, s₂, items₂, hreads₂, hlast₂, hlen.trans (Nat.le_succ _), ?_, hbody⟩
      rw [List.map_cons, hwanted, Item.wanted, hnone]
      rfl

/-- The tokens by which a reading may fall behind: empty literals and the word `b64`. -/
def Owed (S : List Token) : Prop :=
  ∀ t ∈ S, t = ⟨.string, []⟩ ∨ t = ⟨.ident, "b64".toList⟩

theorem Owed.append {S S' : List Token} (h : Owed S) (h' : Owed S') : Owed (S ++ S') := by
  intro t ht
  rcases List.mem_append.mp ht with ht | ht
  · exact h t ht
  · exact h' t ht

theorem owed_empty (k : Nat) : Owed (List.replicate k ⟨.string, []⟩) := by
  intro t ht
  exact .inl (List.eq_of_mem_replicate ht)

theorem Owed.shift {S ts W : List Token} {t : Token} (h : Owed S) (heq : S ++ t :: W = t :: ts) :
    ∃ S', Owed S' ∧ (S' = [] → S = []) ∧ ts = S' ++ W := by
  cases S with
  | nil => exact ⟨[], h, fun _ => rfl, (List.cons.inj heq).2.symm⟩
  | cons a S =>
    rw [List.cons_append] at heq
    obtain ⟨rfl, rfl⟩ := List.cons.inj heq
    refine ⟨S ++ [a], ?_, by simp, by simp⟩
    intro t ht
    apply h t
    rcases List.mem_append.mp ht with ht | ht
    · exact List.mem_cons_of_mem _ ht
    · rw [List.mem_singleton.mp ht]
      exact List.mem_cons_self

theorem base64_eq_nil {t : Bytes} (h : base64 t = []) : t = [] := by
  unfold base64 at h
  split at h
  · exact absurd h (List.cons_ne_nil _ _)
  · exact absurd h (List.cons_ne_nil _ _)
  · exact absurd h (List.cons_ne_nil _ _)
  · rfl

theorem Owed.b64 {S ts W : List Token} {t : Bytes} (h : Owed S)
    (heq : S ++ ⟨.ident, "b64".toList⟩ :: ⟨.string, t⟩ :: W = ⟨.string, base64 t⟩ :: ts) :
    ∃ S', Owed S' ∧ S' ≠ [] ∧ ts = S' ++ W := by
  cases S with
  | nil => exact absurd (Token.mk.inj (List.cons.inj heq).1).1 (by decide)
  | cons a S =>
    rw [List.cons_append] at heq
    obtain ⟨rfl, rfl⟩ := List.cons.inj heq
    have hnone : t = [] := by
      rcases h _ List.mem_cons_self with hbase | hident
      · exact base64_eq_nil (Token.mk.inj hbase).2
      · exact absurd (Token.mk.inj hident).1 (by decide)
    subst hnone
    refine ⟨S ++ [⟨.ident, "b64".toList⟩, ⟨.string, []⟩], ?_, by simp, by simp⟩
    refine Owed.append (fun t ht => h t (List.mem_cons_of_mem _ ht)) ?_
    intro t ht
    rcases List.mem_cons.mp ht with rfl | ht
    · exact .inr rfl
    · exact .inl (List.mem_singleton.mp ht)

theorem Owed.branch {S ts W : List Token} {tok : Token} {more : Bytes} (h : Owed S)
    (heq : S ++ tok :: W = ⟨.branch, tok.literal ++ more⟩ :: ts) : more = [] ∧ ts = W := by
  cases S with
  | nil =>
    rw [List.nil_append] at heq
    obtain ⟨htok, rfl⟩ := List.cons.inj heq
    have hlit := congrArg Token.literal htok
    exact ⟨List.append_right_eq_self.mp hlit.symm, rfl⟩
  | cons a S =>
    rw [List.cons_append] at heq
    obtain ⟨rfl, -⟩ := List.cons.inj heq
    rcases h _ List.mem_cons_self with hempty | hb64
    · exact absurd (Token.mk.inj hempty).1 (by decide)
    · exact absurd (Token.mk.inj hb64).1 (by decide)

theorem clear_of_lexes (hnul : ∀ path, nul ∉ content path) {S : List Token}
    (h : Reads last s items tail) (hlast : Alike last last') (hS : Owed S)
    (hlexes : Lexes last' (outFrom content items tail) (S ++ items.map (Item.wanted content))) :
    S = [] ∧ Clear false items := by
  induction hn : items.length using Nat.strong_induction_on generalizing last last' s items S with
  | _ n ih =>
    subst hn
    cases h with
    | done heof =>
      have heof' : (next last' tail).tok.type = .eof := by
        rw [next_eof_iff] at heof ⊢
        exact heof
      exact ⟨List.append_eq_nil_iff.mp ((Lexes.done heof').unique hlexes).symm |>.1, trivial⟩
    | @tok _ _ rest _ p items htakes hdir hreads =>
      obtain ⟨c, x, htext, hc, hlex⟩ := htakes.lexed
      rw [lexeme_alike hlast] at hlex
      have hskip := htakes.skip
      rw [htakes.split, htext] at hskip
      have hskip' :=
        skipBlank_local hskip hc (htakes.skipBlank_text htext hc (outFrom content items tail))
      rw [outFrom_tok, htext] at hlexes
      by_cases hapart : Apart (absorbs p.tok) items
      · have hfit : Fits (absorbs p.tok) rest (outFrom content items tail) := fits_out hreads hapart
        obtain ⟨ts, heq, hlexes⟩ := hlexes.inv hskip' hc (lexeme_local hlex hfit)
        obtain ⟨S', hS', himp, rfl⟩ := hS.shift heq
        obtain ⟨hnil, hclear⟩ :=
          ih items.length (Nat.lt_succ_self _) hreads ⟨rfl, Iff.rfl⟩ hS' hlexes rfl
        exact ⟨himp hnil, clear_of_apart (b := absorbs p.tok) hapart hclear⟩
      · exfalso
        obtain ⟨habsorbs, amp, left, arg, right, items, rfl, hgap⟩ := of_not_apart hapart
        rw [outFrom_call, hgap, List.nil_append] at hlexes hskip'
        cases hreads with
        | call hamp hdir' _ _ _ _ _ _ hreads =>
          have hrest : rest ≠ [] := by
            obtain ⟨y, hy⟩ := takes_amp hamp hdir'
            rw [hamp.split, hy, hgap]
            exact List.cons_ne_nil _ _
          have hlt : items.length < (Item.tok p :: Item.call amp left arg right :: items).length :=
            Nat.lt_succ_of_lt (Nat.lt_succ_self _)
          rcases absorbs_cases habsorbs with hbranch | hb64
          · obtain ⟨ts, heq, hlexes⟩ :=
              hlexes.inv hskip' hc (lexeme_branch_grows hrest hlex hbranch _)
            obtain ⟨hmore, rfl⟩ := hS.branch heq
            rw [branchBody_open] at hmore hlexes
            have hnone := branchBody_quote (hnul _) hmore
            rw [hnone, List.flatMap_nil, List.nil_append,
              branchBody_close _ (.inr rfl)] at hmore hlexes
            obtain ⟨k, last₂, s₂, items₂, hreads₂, hlast₂, hlen, hwanted, hbody⟩ :=
              branch_absorbs hnul hreads ⟨rfl, by decide⟩ hmore
            rw [hbody, List.map_cons, hwanted, Item.wanted, hnone, ← List.cons_append,
              ← List.replicate_succ] at hlexes
            obtain ⟨hnil, -⟩ :=
              ih items₂.length (hlen.trans_lt hlt) hreads₂ hlast₂ (owed_empty _) hlexes rfl
            exact List.cons_ne_nil _ _ hnil
          · rw [hb64] at hlex
            have hgrown := lexeme_b64_grows hrest hlex
              ((content arg.tok.literal).flatMap quoteChar ++ '"' :: outFrom content items tail)
            rw [stringBody_quote (hnul _)] at hgrown
            obtain ⟨ts, heq, hlexes⟩ := hlexes.inv hskip' hc hgrown
            rw [List.map_cons, List.map_cons, Item.wanted, Item.wanted, hb64] at heq
            obtain ⟨S', hS', hne, rfl⟩ := hS.b64 heq
            exact hne (ih items.length hlt hreads alike_string hS' hlexes rfl).1
    | @call _ _ s₁ s₂ s₃ rest _ amp left arg right items htakes hdir hl hltype ha hatype hr hrtype
      hreads =>
      obtain ⟨x, htext⟩ := takes_amp htakes hdir
      have hskip := htakes.skip
      rw [htakes.split, htext] at hskip
      have hamp : head ('&' :: x ++ s₁) ≠ nul := by
        rw [List.cons_append, head_cons]
        decide
      rw [outFrom_call] at hlexes
      obtain ⟨ts, heq, hlexes⟩ :=
        hlexes.inv (skipBlank_local hskip hamp (skipBlank_quote _)) (by decide)
        (lexeme_quote (hnul _) last' _)
      obtain ⟨S', hS', himp, rfl⟩ := hS.shift heq
      obtain ⟨hnil, hclear⟩ :=
        ih items.length (Nat.lt_succ_self _) hreads alike_string hS' hlexes rfl
      exact ⟨himp hnil, fun hb => Bool.false_ne_true hb.1, hclear⟩

end Law

section Spliced

/-- The tokens of a text with their spans, up to its end of input. -/
def spansOf (src : Bytes) : List SpanTok :=
  ((lex src).getD ([], [])).1

def tokens (src : Bytes) : List Token :=
  (spansOf src).map SpanTok.tok

/-- The four tokens of each include call give way to one literal. -/
def replaceCalls (content : Bytes → Bytes) : List Token → List Token
  | t :: left :: arg :: right :: ts =>
    if isDirective t then ⟨.string, content arg.literal⟩ :: replaceCalls content ts
    else t :: replaceCalls content (left :: arg :: right :: ts)
  | ts => ts

/-- An include right behind a token that takes quotes in. -/
def Glued (t d : SpanTok) : Prop :=
  absorbs t.tok = true ∧ isDirective d.tok = true ∧ t.stop = d.start

instance (t d : SpanTok) : Decidable (Glued t d) :=
  inferInstanceAs (Decidable (_ ∧ _ ∧ _))

variable {content : Bytes → Bytes} {src s tail : Bytes} {last : TokenType} {items : List Item}

theorem replaceCalls_cons {t : Token} (h : isDirective t = false) (ts : List Token) :
    replaceCalls content (t :: ts) = t :: replaceCalls content ts := by
  rcases ts with - | ⟨a, - | ⟨b, - | ⟨c, ts⟩⟩⟩
  · rfl
  · rfl
  · rfl
  · rw [replaceCalls, h, if_neg Bool.false_ne_true]

theorem replaceCalls_of_none {ts : List Token} (h : ∀ t ∈ ts, isDirective t = false) :
    replaceCalls content ts = ts := by
  induction ts with
  | nil => rfl
  | cons t ts ih =>
    rw [replaceCalls_cons (h t List.mem_cons_self), ih fun t ht => h t (List.mem_cons_of_mem _ ht)]

theorem isDirective_of_type {t : Token} (h : t.type ≠ .ampIdent) : isDirective t = false := by
  rw [isDirective, beq_eq_false_iff_ne.mpr h, Bool.false_and]

theorem Lexes.of_collect {n : Nat} {l l' : Lexer} {ts : List SpanTok}
    (h : Lexer.collect n l = some (ts, l')) :
    Lexes l.lastToken.type l.rest (ts.map SpanTok.tok) := by
  induction n generalizing l ts with
  | zero => cases h
  | succ n ih =>
    obtain ⟨m, htok, hscan⟩ := l.nextToken_eq
    rw [Lexer.collect, htok] at h
    dsimp only at h
    split at h
    · next heof =>
      obtain ⟨rfl, -⟩ := Prod.mk.inj (Option.some.inj h)
      rw [hscan.lastToken] at heof
      exact .done heof
    · next htype =>
      obtain ⟨r, hr, heq⟩ := Option.map_eq_some_iff.mp h
      obtain ⟨rfl, rfl⟩ := Prod.mk.inj heq
      have hlexes := ih hr
      rw [hscan.lastToken] at htype
      rw [hscan.lastToken, hscan.rest] at hlexes
      rw [List.map_cons, hscan.lastToken]
      exact .token htype hlexes

theorem lexes_tokens (src : Bytes) : Lexes .untyped src (tokens src) := by
  obtain ⟨⟨ts, errs⟩, hlex⟩ := Option.isSome_iff_exists.mp (lex_isSome src)
  have htokens : tokens src = ts.map SpanTok.tok := by
    rw [tokens, spansOf, hlex]
    rfl
  obtain ⟨r, hr, heq⟩ := Option.map_eq_some_iff.mp hlex
  rw [htokens, ← (Prod.mk.inj heq).1]
  exact Lexes.of_collect hr

theorem Lexes.infix_of_directive {ts : List Token} (h : Lexes last s ts) {t : Token} (ht : t ∈ ts)
    (hdir : isDirective t = true) : ('&' :: fn) <:+: s := by
  induction h with
  | done => cases ht
  | @token last s ts _ _ ih =>
    obtain ⟨gap, hgap⟩ := skipBlank_suffix false s
    rcases List.mem_cons.mp ht with rfl | ht
    · rw [isDirective, Bool.and_eq_true, beq_iff_eq, beq_iff_eq] at hdir
      have hshape := shape_of_ampIdent hdir.1
      have hhead := (begins_of_shape hshape).2
      obtain ⟨r, hr⟩ := cons_of_head hhead (by decide)
      have hnext : (next last s).tok.literal = r.takeWhile isWordChar := by
        unfold next lexeme
        rw [hshape, hr]
        rfl
      rw [← hdir.2, hnext, ← hgap, hr]
      obtain ⟨r', hr'⟩ := List.takeWhile_prefix (l := r) isWordChar
      exact ⟨gap, r', by rw [List.append_assoc, List.cons_append, hr']⟩
    · refine (ih ht).trans (List.IsSuffix.isInfix ?_)
      have hsuffix := lexeme_suffix last (head (skipBlank false s)) (skipBlank false s).tail
      exact (hsuffix.trans (List.tail_suffix _)).trans ⟨gap, hgap⟩

theorem findFrom_cons {errs : List String} {t : SpanTok} (h : isDirective t.tok = false)
    (ts : List SpanTok) :
    findFrom src errs (t :: ts) = findFrom src errs ts := by
  rw [findFrom.eq_def]
  exact if_neg (by rw [h]; exact Bool.false_ne_true)

theorem findFrom_directive {errs : List String} {t : SpanTok} {ts : List SpanTok} {refs : List Ref}
    (h : isDirective t.tok = true) (hfind : findFrom src errs (t :: ts) = .ok refs) :
    errs = [] ∧ ∃ arg right more, argument src ts = some (arg, right) ∧
      findFrom src errs ts = .ok more ∧
      refs = ⟨t.start, right.stop, arg.tok.literal, lineAt src t.start⟩ :: more := by
  rw [findFrom.eq_def] at hfind
  dsimp only at hfind
  rw [if_pos h] at hfind
  cases errs with
  | cons e errs => cases hfind
  | nil =>
    dsimp only at hfind
    split at hfind
    · cases hfind
    · next arg right hargs =>
      obtain ⟨more, hmore, rfl⟩ := Lib.Checks.map_eq_ok.mp hfind
      exact ⟨rfl, arg, right, more, hargs, hmore, rfl⟩

theorem findFrom_nil {errs : List String} {ts : List SpanTok} (h : findFrom src errs ts = .ok []) :
    ∀ t ∈ ts, isDirective t.tok = false := by
  induction ts with
  | nil =>
    intro t ht
    cases ht
  | cons t ts ih =>
    by_cases hdir : isDirective t.tok = true
    · obtain ⟨-, arg, right, more, -, -, hrefs⟩ := findFrom_directive hdir h
      cases hrefs
    · rw [Bool.not_eq_true] at hdir
      rw [findFrom_cons hdir] at h
      intro u hu
      rcases List.mem_cons.mp hu with rfl | hu
      · exact hdir
      · exact ih h u hu

theorem findFrom_errs {errs : List String} {ts : List SpanTok} {refs : List Ref}
    (h : findFrom src errs ts = .ok refs) (hne : refs ≠ []) : errs = [] := by
  induction ts with
  | nil =>
    cases h
    exact absurd rfl hne
  | cons t ts ih =>
    by_cases hdir : isDirective t.tok = true
    · exact (findFrom_directive hdir h).1
    · rw [Bool.not_eq_true] at hdir
      rw [findFrom_cons hdir] at h
      exact ih h

def Item.length : Item → Nat
  | .tok p => p.gap.length + p.text.length
  | .call amp left arg right =>
    amp.gap.length + amp.text.length + left.gap.length + left.text.length + arg.gap.length +
      arg.text.length +
      right.gap.length + right.text.length

/-- What `Find` reports of the items that start at `pos`. -/
def refsFrom (src : Bytes) (pos : Nat) : List Item → List Ref
  | [] => []
  | .tok p :: items => refsFrom src (pos + (Item.tok p).length) items
  | .call amp left arg right :: items =>
    ⟨pos + amp.gap.length, pos + (Item.call amp left arg right).length, arg.tok.literal,
      lineAt src (pos + amp.gap.length)⟩ ::
        refsFrom src (pos + (Item.call amp left arg right).length) items

theorem argument_spec {ts : List SpanTok} {arg right : SpanTok}
    (h : argument src ts = some (arg, right)) :
    ∃ left more, ts = left :: arg :: right :: more ∧ left.tok.type = .lparen ∧
      arg.tok.type = .string ∧
      right.tok.type = .rparen := by
  unfold argument at h
  split at h
  · split at h
    · next hcond =>
      obtain ⟨rfl, rfl⟩ := Prod.mk.inj (Option.some.inj h)
      exact ⟨_, _, rfl, hcond.1, hcond.2.1, hcond.2.2.2⟩
    · cases h
  · cases h

theorem reads_of_find {pos : Nat} {ps : List Piece} {refs : List Ref}
    (hchain : Chain last s ps tail) (h : findFrom src [] (spans pos ps) = .ok refs) :
    ∃ items, Reads last s items tail ∧ items.flatMap Item.pieces = ps ∧
      refs = refsFrom src pos items := by
  induction hn : ps.length using Nat.strong_induction_on generalizing last s ps pos refs with
  | _ n ih =>
    subst hn
    cases hchain with
    | done heof =>
      cases h
      exact ⟨[], .done heof, rfl, rfl⟩
    | @token _ _ rest _ p ps htakes hchain =>
      by_cases hdir : isDirective p.tok = true
      · obtain ⟨-, arg, right, more, hargs, hfind, rfl⟩ :=
          findFrom_directive (t := ⟨p.tok, _, _⟩) hdir h
        obtain ⟨left, more, hspans, hlt, hat, hrt⟩ := argument_spec hargs
        cases hchain with
        | done => cases hspans
        | @token _ _ s₂ _ pl ps hl hchain =>
          cases hchain with
          | done => cases hspans
          | @token _ _ s₃ _ pa ps ha hchain =>
            cases hchain with
            | done => cases hspans
            | @token _ _ s₄ _ pr ps hr hchain =>
              simp only [spans] at hspans hfind
              obtain ⟨hleft, hspans⟩ := List.cons.inj hspans
              obtain ⟨harg, hspans⟩ := List.cons.inj hspans
              obtain ⟨hright, -⟩ := List.cons.inj hspans
              subst hleft harg hright
              dsimp only at hlt hat hrt
              have hamp : p.tok.type = .ampIdent := by
                rw [isDirective, Bool.and_eq_true, beq_iff_eq] at hdir
                exact hdir.1
              rw [findFrom_cons (isDirective_of_type (by rw [hlt]; decide)),
                findFrom_cons (isDirective_of_type (by rw [hat]; decide)),
                findFrom_cons (isDirective_of_type (by rw [hrt]; decide))] at hfind
              rw [hrt] at hchain
              rw [hat] at hr
              rw [hlt] at ha
              rw [hamp] at hl
              obtain ⟨items, hreads, hpieces, rfl⟩ := ih ps.length (by simp; omega) hchain hfind rfl
              refine ⟨.call p pl pa pr :: items, .call htakes hdir hl hlt ha hat hr hrt hreads,
                ?_, ?_⟩
              · rw [List.flatMap_cons, hpieces]
                rfl
              · simp only [refsFrom, Item.length, Nat.add_assoc]
      · rw [Bool.not_eq_true] at hdir
        rw [spans, findFrom_cons hdir] at h
        obtain ⟨items, hreads, hpieces, rfl⟩ := ih ps.length (Nat.lt_succ_self _) hchain h rfl
        refine ⟨.tok p :: items, .tok htakes hdir hreads, ?_, ?_⟩
        · rw [List.flatMap_cons, hpieces]
          rfl
        · simp only [refsFrom, Item.length, Nat.add_assoc]

theorem wanted_eq (h : Reads last s items tail) :
    items.map (Item.wanted content) = replaceCalls content
      ((items.flatMap Item.pieces).map Piece.tok) := by
  induction h with
  | done => rfl
  | tok _ hdir _ ih =>
    rw [List.map_cons, ih, List.flatMap_cons, List.map_append]
    exact (replaceCalls_cons hdir _).symm
  | call _ hdir _ _ _ _ _ _ _ ih =>
    rw [List.map_cons, ih, List.flatMap_cons, List.map_append]
    simp only [Item.pieces, List.map_cons, List.map_nil, List.cons_append, List.nil_append]
    rw [replaceCalls, if_pos hdir]
    rfl

theorem absorbs_of_type {t : Token} (hbranch : t.type ≠ .branch) (hident : t.type ≠ .ident) :
    absorbs t = false := by
  rw [Bool.eq_false_iff]
  intro h
  rcases absorbs_cases h with h | h
  · exact hbranch h
  · exact hident (congrArg Token.type h)

theorem not_glued {tok : Token} {type : TokenType} (h : tok.type = type) (htype : type ≠ .ampIdent)
    (t : SpanTok) (start stop : Nat) : ¬Glued t ⟨tok, start, stop⟩ := by
  intro hglued
  have hfalse := isDirective_of_type (t := tok) (by rw [h]; exact htype)
  exact Bool.false_ne_true (hfalse.symm.trans hglued.2.1)

theorem isChain_spans_iff (h : Reads last s items tail) (t : SpanTok) :
    List.IsChain (fun t d => ¬Glued t d) (t :: spans t.stop (items.flatMap Item.pieces)) ↔
      Clear (absorbs t.tok) items := by
  induction h generalizing t with
  | done => exact ⟨fun _ => trivial, fun _ => .singleton t⟩
  | @tok _ _ _ _ p items _ hdir _ ih =>
    rw [List.flatMap_cons, Item.pieces, List.singleton_append, spans, List.isChain_cons_cons]
    have hfree : ¬Glued t
      ⟨p.tok, t.stop + p.gap.length, t.stop + p.gap.length + p.text.length⟩ := by
      intro hglued
      exact Bool.false_ne_true (hdir.symm.trans hglued.2.1)
    rw [Clear, ← ih ⟨p.tok, t.stop + p.gap.length, t.stop + p.gap.length + p.text.length⟩]
    exact and_iff_right hfree
  | @call _ _ _ _ _ _ _ amp left arg right items _ hdir _ hlt _ hat _ hrt _ ih =>
    rw [List.flatMap_cons]
    simp only [Item.pieces, List.cons_append, List.nil_append, spans, List.isChain_cons_cons, Clear]
    have hright : absorbs right.tok = false :=
      absorbs_of_type (by rw [hrt]; decide) (by rw [hrt]; decide)
    have hih :=
      ih ⟨right.tok, t.stop + amp.gap.length + amp.text.length + left.gap.length +
        left.text.length +
      arg.gap.length + arg.text.length + right.gap.length,
        t.stop + amp.gap.length + amp.text.length +
      left.gap.length + left.text.length + arg.gap.length + arg.text.length + right.gap.length +
      right.text.length⟩
    dsimp only at hih
    rw [hright] at hih
    rw [hih, and_iff_right (not_glued hlt (by decide) _ _ _),
      and_iff_right (not_glued hat (by decide) _ _ _),
      and_iff_right (not_glued hrt (by decide) _ _ _)]
    apply and_congr_left'
    apply not_congr
    constructor
    · rintro ⟨hb, -, hpos⟩
      exact ⟨hb, List.length_eq_zero_iff.mp (Nat.left_eq_add.mp hpos)⟩
    · rintro ⟨hb, hgap⟩
      refine ⟨hb, hdir, ?_⟩
      rw [hgap]
      rfl

/-- The text `Expand` puts in for a path. -/
def Tree.text (T : Tree) (stackDir txclPath path : Bytes) : Bytes :=
  match T.read stackDir (dir txclPath) path with
  | .ok (_, text) => text
  | .error _ => []

theorem decode_text {p raw : Bytes} {r : Bytes × Bytes} (h : Tree.decode p raw = .ok r) :
    nul ∉ r.2 := by
  unfold Tree.decode at h
  rw [Lib.Checks.check_eq_ok, Lib.Checks.check_eq_ok, Lib.Checks.check_eq_ok] at h
  obtain ⟨-, -, hnul, hr⟩ := h
  cases hr
  exact hnul

theorem read_text {T : Tree} {stackDir dir rel : Bytes} {r : Bytes × Bytes}
    (h : T.read stackDir dir rel = .ok r) : nul ∉ r.2 := by
  unfold Tree.read at h
  rw [Lib.Checks.check_eq_ok, Lib.Checks.check_eq_ok, Lib.Checks.check_eq_ok] at h
  obtain ⟨-, -, -, h⟩ := h
  dsimp only at h
  split at h
  · cases h
  · rw [Lib.Checks.check_eq_ok, Lib.Checks.check_eq_ok] at h
    obtain ⟨-, -, h⟩ := h
    split at h
    · cases h
    · exact decode_text h

theorem Tree.nul_notMem_text (T : Tree) (stackDir txclPath path : Bytes) :
    nul ∉ T.text stackDir txclPath path := by
  unfold Tree.text
  split
  · next hread => exact read_text hread
  · exact List.not_mem_nil

theorem expandFrom_eq {T : Tree} {stackDir txclPath before out : Bytes} {from_ : Nat}
    {deps deps' : List Bytes} (h : Reads last s items tail) (hsrc : src = before ++ s)
    (hfrom : from_ ≤ before.length)
    (hout : T.expandFrom stackDir txclPath src from_ deps (refsFrom src before.length items) =
      .ok (out, deps')) :
    out = before.drop from_ ++ outFrom (T.text stackDir txclPath) items tail := by
  induction h generalizing before from_ deps out with
  | done =>
    cases hout
    rw [hsrc, List.drop_append_of_le_length hfrom]
    rfl
  | @tok _ _ rest _ p items htakes _ _ ih =>
    have hsrc' : src = before ++ p.gap ++ p.text ++ rest := by
      rw [hsrc, htakes.split]
      simp only [List.append_assoc]
    have hlen : (before ++ p.gap ++ p.text).length = before.length + (Item.tok p).length := by
      simp only [List.length_append, Item.length, Nat.add_assoc]
    rw [refsFrom, ← hlen] at hout
    rw [ih hsrc' (by omega) hout, outFrom_tok, List.append_assoc,
      List.drop_append_of_le_length hfrom]
    simp only [List.append_assoc]
  | @call _ _ s₁ s₂ s₃ rest _ amp left arg right items hamp _ hl _ ha _ hr _ _ ih =>
    have hsrc' : src = before ++ amp.gap ++ amp.text ++ left.gap ++ left.text ++ arg.gap ++
      arg.text ++ right.gap ++
        right.text ++ rest := by
      rw [hsrc, hamp.split, hl.split, ha.split, hr.split]
      simp only [List.append_assoc]
    have hlen : (before ++ amp.gap ++ amp.text ++ left.gap ++ left.text ++ arg.gap ++ arg.text ++
      right.gap ++
        right.text).length = before.length + (Item.call amp left arg right).length := by
      simp only [List.length_append, Item.length, Nat.add_assoc]
    rw [refsFrom, ← hlen, Tree.expandFrom] at hout
    dsimp only at hout
    split at hout
    · cases hout
    · next p text hread =>
      obtain ⟨⟨out', deps''⟩, hrest, heq⟩ := Lib.Checks.map_eq_ok.mp hout
      obtain ⟨rfl, rfl⟩ := Prod.mk.inj heq
      have htext : T.text stackDir txclPath arg.tok.literal = text := by
        unfold Tree.text
        rw [hread]
      have htake : src.take (before.length + amp.gap.length) = before ++ amp.gap := by
        rw [hsrc, hamp.split, ← List.append_assoc, ← List.length_append, List.take_left]
      rw [htake, ih hsrc' (le_refl _) hrest, outFrom_call, htext,
        List.drop_append_of_le_length hfrom,
        List.drop_length]
      simp [quote]

theorem map_tok_spans (pos : Nat) (ps : List Piece) :
    (spans pos ps).map SpanTok.tok = ps.map Piece.tok := by
  induction ps generalizing pos with
  | nil => rfl
  | cons p ps ih => rw [spans, List.map_cons, List.map_cons, ih]

theorem isChain_of_none {ts : List SpanTok} (h : ∀ t ∈ ts, isDirective t.tok = false) :
    List.IsChain (fun t d => ¬Glued t d) ts := by
  induction ts with
  | nil => exact .nil
  | cons t ts ih =>
    refine List.isChain_cons.mpr ⟨?_, ih fun u hu => h u (List.mem_cons_of_mem _ hu)⟩
    intro d hd hglued
    have hfalse := h d (List.mem_cons_of_mem _ (List.mem_of_mem_head? hd))
    exact Bool.false_ne_true (hfalse.symm.trans hglued.2.1)

theorem find_cases {refs : List Ref} (h : find src = .ok refs) :
    (refs = [] ∧ ∀ t ∈ spansOf src, isDirective t.tok = false) ∨
      refs ≠ [] ∧ ∃ items tail, Reads .untyped src items tail ∧ refs = refsFrom src 0 items ∧
        spansOf src = spans 0 (items.flatMap Item.pieces) := by
  obtain ⟨⟨ts, errs⟩, hlex⟩ := Option.isSome_iff_exists.mp (lex_isSome src)
  have hspans : spansOf src = ts := by
    rw [spansOf, hlex]
    rfl
  unfold find at h
  split at h
  · rw [hlex] at h
    dsimp only at h
    rw [hspans]
    by_cases hrefs : refs = []
    · rw [hrefs] at h
      exact .inl ⟨hrefs, findFrom_nil h⟩
    · have herrs := findFrom_errs h hrefs
      rw [herrs] at h hlex
      obtain ⟨ps, tail, hchain, rfl⟩ := lex_chain hlex
      obtain ⟨items, hreads, rfl, heq⟩ := reads_of_find hchain h
      exact .inr ⟨hrefs, items, tail, hreads, heq, rfl⟩
  · next hinfix =>
    cases h
    refine .inl ⟨rfl, ?_⟩
    intro t ht
    rw [Bool.eq_false_iff]
    intro hdir
    exact hinfix ((lexes_tokens src).infix_of_directive (List.mem_map_of_mem ht) hdir)

/-- The expanded source reads as the source with a literal for each call exactly when no include is
glued to a token that takes quotes in. -/
theorem Tree.expand_replaces_iff (T : Tree) (stackDir txclPath src out : Bytes) (deps : List Bytes)
    (h : T.expand stackDir txclPath src = .ok (out, deps)) :
    tokens out = replaceCalls (T.text stackDir txclPath) (tokens src) ↔
      List.IsChain (fun t d => ¬Glued t d) (spansOf src) := by
  unfold Tree.expand at h
  split at h
  · cases h
  · next hfind =>
    cases h
    rcases find_cases hfind with ⟨-, hnone⟩ | ⟨hne, -⟩
    · have hsame : replaceCalls (T.text stackDir txclPath) (tokens src) = tokens src := by
        apply replaceCalls_of_none
        intro t ht
        obtain ⟨u, hu, rfl⟩ := List.mem_map.mp ht
        exact hnone u hu
      rw [hsame]
      exact iff_of_true rfl (isChain_of_none hnone)
    · exact absurd rfl hne
  · next refs hrefs hfind =>
    rcases find_cases hfind with ⟨hnil, -⟩ | ⟨-, items, tail, hreads, rfl, hspans⟩
    · exact absurd hnil hrefs
    · have hsrc : src = [] ++ src := rfl
      have hout := expandFrom_eq hreads hsrc (Nat.zero_le _) h
      rw [List.drop_nil, List.nil_append] at hout
      have hwanted : replaceCalls (T.text stackDir txclPath) (tokens src) =
          items.map (Item.wanted (T.text stackDir txclPath)) := by
        rw [wanted_eq hreads, tokens, hspans, map_tok_spans]
      have hchain : List.IsChain (fun t d => ¬Glued t d) (spansOf src) ↔ Clear false items := by
        have hfirst := isChain_spans_iff hreads ⟨⟨.untyped, []⟩, 0, 0⟩
        rw [List.isChain_cons] at hfirst
        rw [hspans]
        refine Iff.trans (and_iff_right ?_).symm hfirst
        intro d _ hglued
        exact Bool.false_ne_true hglued.1
      have hnul := T.nul_notMem_text stackDir txclPath
      rw [hwanted, hchain]
      constructor
      · intro heq
        have hlexes := lexes_tokens out
        rw [heq, hout] at hlexes
        exact (clear_of_lexes hnul (S := []) hreads ⟨rfl, Iff.rfl⟩ (owed_empty 0) hlexes).2
      · intro hclear
        have hlexes := lexes_out hnul hreads hclear
        rw [← hout] at hlexes
        exact (lexes_tokens out).unique hlexes

/-- A checkout with one file. -/
def oneFile (path text : Bytes) : Tree where
  lstat p := if p = path then .ok ⟨false, true, text.length⟩ else .error .notExist
  readFile p := if p = path then .ok text else .error "no such file"
  quoted p := String.ofList p

theorem Tree.expand_replaces_exec :
    ∃ out deps, (oneFile "s/m.md".toList "hi \"you\"".toList).expand "s".toList "s/a.txcl".toList
        "EXEC &include(\"m.md\") # ask".toList = .ok (out, deps) ∧
      tokens out = replaceCalls (Tree.text (oneFile "s/m.md".toList "hi \"you\"".toList) "s".toList
        "s/a.txcl".toList) (tokens "EXEC &include(\"m.md\") # ask".toList) := by
  refine ⟨"EXEC \"hi \\\"you\\\"\" # ask".toList, ["s/m.md".toList], by decide +kernel, ?_⟩
  exact (Tree.expand_replaces_iff _ _ _ _ _ ["s/m.md".toList] (by decide +kernel)).mpr (by decide +kernel)

/-- A literal behind a path becomes a part of the path. -/
theorem Tree.expand_not_replaces_path :
    (oneFile "s/m.md".toList "hi".toList).expand "s".toList "s/a.txcl".toList
        "SELECT .a&include(\"m.md\")".toList = .ok ("SELECT .a\"hi\"".toList, ["s/m.md".toList]) ∧
      tokens "SELECT .a\"hi\"".toList ≠ replaceCalls
        (Tree.text (oneFile "s/m.md".toList "hi".toList) "s".toList
        "s/a.txcl".toList) (tokens "SELECT .a&include(\"m.md\")".toList) := by
  decide +kernel

end Spliced

end Include

end ThanksComputer.Txcl
