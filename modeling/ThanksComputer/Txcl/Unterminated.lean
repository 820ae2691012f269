import ThanksComputer.Txcl.Phrases
import ThanksComputer.Txcl.Validate

/-! Texts that end inside a literal, and what strict validation says of them. -/

namespace ThanksComputer.Txcl

/-- A literal that is still open at the end of a text. -/
inductive Open
  -- `dangling` says that the last byte is a backslash that escapes nothing
  | string (dangling : Bool)
  | regex
  | segment
  deriving DecidableEq

namespace Open

/-- The lexer reports the literal. -/
def reported : Open → Bool
  | string dangling => !dangling
  | regex => true
  | segment => false

/-- The text with the literal closed; a dangling backslash is dropped. -/
def close : Open → Bytes → Bytes
  | string true, s => s.dropLast ++ ['"']
  | string false, s => s ++ ['"']
  | regex, s => s ++ ['/']
  | segment, s => s ++ ['"']

end Open

section Literals

/-- Behind the opening quote of a string that is not closed: whether it ends on a dangling
backslash. -/
def openString : Bytes → Option Bool
  | [] => some false
  | c :: s =>
    if c = '"' then none
    else if c = '\\' then
      match s with
      | [] => some true
      | _ :: s => openString s
    else openString s

def openRegex (prev : Char) : Bytes → Bool
  | [] => true
  | c :: s => if c = '/' ∧ prev ≠ '\\' then false else openRegex c s

/-- Behind the first letter of a branch, or inside one of its quoted segments: whether the text ends
in one. -/
def openSegment (quoted : Bool) : Bytes → Bool
  | [] => quoted
  | c :: s =>
    if quoted then if c = '"' then openSegment false s else openSegment true s
    else if c = '"' then openSegment true s
    else if isBranchChar c then openSegment false s
    else false

/-- The literal that is open at the end of a text that starts with a token. -/
def opens (last : TokenType) : Bytes → Option Open
  | [] => none
  | c :: s =>
    match shape last c (head s) with
    | .string => (openString s).map .string
    | .regex => if openRegex c s then some .regex else none
    | .branch => if openSegment false s.tail then some .segment else none
    | .atBranch => if openSegment false s.tail then some .segment else none
    | .word =>
      let rest := (c :: s).dropWhile isWordChar
      if (c :: s).takeWhile isWordChar = "b64".toList ∧
        head rest = '"' then (openString rest.tail).map .string
      else none
    | _ => none

/-- The text `s` behind a token of type `last` ends inside the literal `k`. -/
inductive EndsInside : TokenType → Bytes → Open → Prop
  | here {last : TokenType} {s : Bytes} {k : Open} :
    opens last (skipBlank false s) = some k → EndsInside last s k
  | later {last : TokenType} {s : Bytes} {k : Open} : (next last s).tok.type ≠ .eof →
    EndsInside (next last s).tok.type (next last s).rest k → EndsInside last s k

end Literals

section Bodies

variable {s : Bytes}

theorem stringBody_open {dangling : Bool} (hnul : nul ∉ s) (h : openString s = some dangling) :
    (stringBody s).rest = [] ∧ (stringBody s).errs = if dangling then [] else
      [unterminatedString] := by
  induction hn : s.length using Nat.strong_induction_on generalizing s with
  | _ n ih =>
    subst hn
    cases s with
    | nil =>
      cases h
      exact ⟨rfl, rfl⟩
    | cons c s =>
      obtain ⟨hc, hs⟩ : c ≠ nul ∧ nul ∉ s := by
        rw [List.mem_cons, not_or] at hnul
        exact ⟨fun h => hnul.1 h.symm, hnul.2⟩
      unfold openString at h
      split at h
      · cases h
      next hquote =>
      split at h
      · next hslash =>
        subst hslash
        cases s with
        | nil =>
          cases h
          rw [stringBody_escape_end]
          exact ⟨rfl, rfl⟩
        | cons d s =>
          obtain ⟨hd, hs'⟩ : d ≠ nul ∧ nul ∉ s := by
            rw [List.mem_cons, not_or] at hs
            exact ⟨fun h => hs.1 h.symm, hs.2⟩
          rw [stringBody_escape hd]
          exact ih s.length (by simp only [List.length_cons]; omega) hs' h rfl
      · next hslash =>
        rw [stringBody_char hc hquote hslash]
        exact ih s.length (by simp) hs h rfl

theorem regexBody_open {prev : Char} (hnul : nul ∉ s) (h : openRegex prev s = true) :
    (regexBody prev s).rest = [] ∧ (regexBody prev s).errs = [unterminatedRegex] := by
  induction s generalizing prev with
  | nil => exact ⟨rfl, rfl⟩
  | cons c s ih =>
    rw [List.mem_cons, not_or] at hnul
    rw [openRegex] at h
    split at h
    · cases h
    · next hclose =>
      rw [regexBody_inside (fun hc => hnul.1 hc.symm) hclose]
      exact ih hnul.2 h

theorem branchBody_unclosed {quoted : Bool} (hnul : nul ∉ s) (h : openSegment quoted s = true) :
    (branchBody quoted s).rest = [] ∧ branchBody quoted (s ++ ['"']) = branchBody quoted s := by
  induction s generalizing quoted with
  | nil =>
    rw [openSegment] at h
    subst h
    exact ⟨rfl, rfl⟩
  | cons c s ih =>
    rw [List.mem_cons, not_or] at hnul
    have hc : c ≠ nul := fun hc => hnul.1 hc.symm
    rw [openSegment] at h
    rw [List.cons_append]
    cases quoted with
    | true =>
      rw [if_pos rfl] at h
      split at h
      · next hquote =>
        rw [branchBody_close _ (.inr hquote), branchBody_close _ (.inr hquote)]
        exact ih hnul.2 h
      · next hquote =>
        have hin : ¬(c = nul ∨ c = '"') := not_or.mpr ⟨hc, hquote⟩
        obtain ⟨hrest, hclose⟩ := ih hnul.2 h
        rw [branchBody_inside _ hin, branchBody_inside _ hin, hclose]
        exact ⟨hrest, rfl⟩
    | false =>
      rw [if_neg Bool.false_ne_true] at h
      split at h
      · next hquote =>
        subst hquote
        rw [branchBody_open, branchBody_open]
        exact ih hnul.2 h
      · next hquote =>
        split at h
        · next hchar =>
          obtain ⟨hrest, hclose⟩ := ih hnul.2 h
          rw [branchBody_char _ hquote hchar, branchBody_char _ hquote hchar, hclose]
          exact ⟨hrest, rfl⟩
        · cases h

theorem stringBody_dangling (hnul : nul ∉ s) (h : openString s = some true) :
    ∃ t, s = t ++ ['\\'] ∧ stringBody (t ++ ['"']) = stringBody s := by
  induction hn : s.length using Nat.strong_induction_on generalizing s with
  | _ n ih =>
    subst hn
    cases s with
    | nil => cases h
    | cons c s =>
      obtain ⟨hc, hs⟩ : c ≠ nul ∧ nul ∉ s := by
        rw [List.mem_cons, not_or] at hnul
        exact ⟨fun h => hnul.1 h.symm, hnul.2⟩
      unfold openString at h
      split at h
      · cases h
      next hquote =>
      split at h
      · next hslash =>
        subst hslash
        cases s with
        | nil =>
          refine ⟨[], rfl, ?_⟩
          rw [List.nil_append, stringBody_close, stringBody_escape_end]
        | cons d s =>
          obtain ⟨hd, hs'⟩ : d ≠ nul ∧ nul ∉ s := by
            rw [List.mem_cons, not_or] at hs
            exact ⟨fun h => hs.1 h.symm, hs.2⟩
          obtain ⟨t, rfl, ht⟩ := ih s.length (by simp only [List.length_cons]; omega) hs' h rfl
          refine ⟨'\\' :: d :: t, rfl, ?_⟩
          rw [List.cons_append, List.cons_append, stringBody_escape hd, ht, stringBody_escape hd]
      · next hslash =>
        obtain ⟨t, rfl, ht⟩ := ih s.length (by simp) hs h rfl
        refine ⟨c :: t, rfl, ?_⟩
        rw [List.cons_append, stringBody_char hc hquote hslash, ht,
          stringBody_char hc hquote hslash]

end Bodies

section Lexemes

variable {last : TokenType} {c : Char} {s : Bytes} {k : Open}

theorem shape_branch_peek {peek : Char}
    (h : shape last c peek = .branch ∨ shape last c peek = .atBranch) :
    isLetter peek = true := by
  rcases h with h | h
  · exact (begins_of_shape h).1
  · exact (begins_of_shape h).1

theorem b64_split (hword : (c :: s).takeWhile isWordChar = "b64".toList)
    (hquote : head ((c :: s).dropWhile isWordChar) = '"') :
    ∃ r, c = 'b' ∧ s = '6' :: '4' :: '"' :: r ∧ ((c :: s).dropWhile isWordChar).tail = r := by
  obtain ⟨r, hr⟩ := cons_of_head hquote (by decide)
  have hsplit := List.takeWhile_append_dropWhile (p := isWordChar) (l := c :: s)
  rw [hword, hr] at hsplit
  refine ⟨r, ?_, ?_, by rw [hr]; rfl⟩
  · exact (List.cons.inj hsplit).1.symm
  · exact (List.cons.inj hsplit).2.symm

theorem lexeme_b64 (r : Bytes) : lexeme last 'b' ('6' :: '4' :: '"' :: r) =
    ⟨⟨.string, base64 (stringBody r).content⟩, (stringBody r).rest, (stringBody r).errs⟩ := rfl

theorem lexeme_reported (hnul : nul ∉ s) (h : opens last (c :: s) = some k)
    (hk : k.reported = true) :
    (lexeme last c s).errs ≠ [] := by
  have hstring : ∀ r, nul ∉ r → (openString r).map Open.string = some k →
    (stringBody r).errs ≠ [] := by
    intro r hr hopen
    obtain ⟨dangling, hd, rfl⟩ := Option.map_eq_some_iff.mp hopen
    have hfalse : dangling = false := by
      rw [Open.reported, Bool.not_eq_true'] at hk
      exact hk
    subst hfalse
    rw [(stringBody_open hr hd).2]
    exact List.cons_ne_nil _ _
  rw [opens] at h
  unfold lexeme
  cases hs : shape last c (head s) with
  | string =>
    rw [hs] at h
    exact hstring s hnul h
  | regex =>
    rw [hs] at h
    dsimp only at h ⊢
    split at h
    · next hopen =>
      rw [(regexBody_open hnul hopen).2]
      exact List.cons_ne_nil _ _
    · cases h
  | branch | atBranch =>
    rw [hs] at h
    dsimp only at h
    split at h
    · cases h
      cases hk
    · cases h
  | word =>
    rw [hs] at h
    dsimp only at h ⊢
    split at h
    · next hb64 =>
      obtain ⟨r, rfl, rfl, hr⟩ := b64_split hb64.1 hb64.2
      rw [if_pos hb64]
      rw [hr] at h ⊢
      refine hstring r ?_ h
      intro hmem
      exact hnul (List.mem_cons_of_mem _ (List.mem_cons_of_mem _ (List.mem_cons_of_mem _ hmem)))
    · cases h
  | one | two | bare | number | call | eof =>
    rw [hs] at h
    cases h

theorem lexeme_close (hnul : nul ∉ s) (h : opens last (c :: s) = some k) (hk : k.reported = false) :
    ∃ t, k.close (c :: s) = c :: t ∧ lexeme last c t = lexeme last c s := by
  -- a dangling backslash behind some text
  have hstring : ∀ r, nul ∉ r → (openString r).map Open.string = some k →
      ∃ t, r = t ++ ['\\'] ∧ k = .string true ∧ stringBody (t ++ ['"']) = stringBody r := by
    intro r hr hopen
    obtain ⟨dangling, hd, rfl⟩ := Option.map_eq_some_iff.mp hopen
    have htrue : dangling = true := by
      rw [Open.reported, Bool.not_eq_false'] at hk
      exact hk
    subst htrue
    obtain ⟨t, ht, hbody⟩ := stringBody_dangling hr hd
    exact ⟨t, ht, rfl, hbody⟩
  -- a branch goes on behind its first letter
  have hbranch : shape last c (head s) = .branch ∨ shape last c (head s) = .atBranch →
      openSegment false s.tail = true → head (s ++ ['"']) = head s ∧
        branchBody false (s ++ ['"']).tail = branchBody false s.tail := by
    intro hshape hopen
    cases s with
    | nil => exact absurd (shape_branch_peek hshape) (by decide)
    | cons d s =>
      refine ⟨rfl, ?_⟩
      rw [List.mem_cons, not_or] at hnul
      exact (branchBody_unclosed hnul.2 hopen).2
  rw [opens] at h
  cases hs : shape last c (head s) with
  | string =>
    rw [hs] at h
    obtain ⟨t, rfl, rfl, hbody⟩ := hstring s hnul h
    have hc := begins_of_shape hs
    subst hc
    refine ⟨t ++ ['"'], ?_, ?_⟩
    · rw [Open.close, ← List.cons_append, List.dropLast_concat, List.cons_append]
    · show (stringBody _).toLexeme .string = (stringBody _).toLexeme .string
      rw [hbody]
  | branch =>
    rw [hs] at h
    dsimp only at h
    split at h
    · next hopen =>
      cases h
      obtain ⟨hhead, hbody⟩ := hbranch (.inl hs) hopen
      refine ⟨s ++ ['"'], rfl, ?_⟩
      unfold lexeme
      rw [hhead, hs]
      dsimp only
      rw [hbody]
    · cases h
  | atBranch =>
    rw [hs] at h
    dsimp only at h
    split at h
    · next hopen =>
      cases h
      obtain ⟨hhead, hbody⟩ := hbranch (.inr hs) hopen
      refine ⟨s ++ ['"'], rfl, ?_⟩
      unfold lexeme
      rw [hhead, hs]
      dsimp only
      rw [hbody]
    · cases h
  | word =>
    rw [hs] at h
    dsimp only at h
    split at h
    · next hb64 =>
      obtain ⟨r, rfl, rfl, hr⟩ := b64_split hb64.1 hb64.2
      rw [hr] at h
      have hnul' : nul ∉ r := by
        intro hmem
        exact hnul (List.mem_cons_of_mem _ (List.mem_cons_of_mem _ (List.mem_cons_of_mem _ hmem)))
      obtain ⟨t, rfl, rfl, hbody⟩ := hstring r hnul' h
      refine ⟨'6' :: '4' :: '"' :: (t ++ ['"']), ?_, ?_⟩
      · show ('b' :: '6' :: '4' :: '"' :: t ++ ['\\']).dropLast ++ ['"'] = _
        rw [List.dropLast_concat]
        rfl
      · rw [lexeme_b64, lexeme_b64, hbody]
    · cases h
  | regex =>
    rw [hs] at h
    dsimp only at h
    split at h
    · cases h
      cases hk
    · cases h
  | one | two | bare | number | call | eof =>
    rw [hs] at h
    cases h

end Lexemes

section Streams

variable {last : TokenType} {s : Bytes} {k : Open}

theorem nul_not_mem_next (hnul : nul ∉ s) : nul ∉ (next last s).rest := by
  intro hmem
  have hskip := skipBlank_suffix false s
  rw [next] at hmem
  exact hnul (hskip.mem (List.mem_of_mem_tail ((lexeme_suffix last _ _).mem hmem)))

theorem EndsInside.skipBlank_ne (h : EndsInside last s k) (hnul : nul ∉ s) :
    ∃ c t, skipBlank false s = c :: t ∧ c ≠ nul := by
  have hmem : ∀ c t, skipBlank false s = c :: t → c ≠ nul := by
    rintro c t ht rfl
    exact hnul ((skipBlank_suffix false s).mem (ht ▸ List.mem_cons_self))
  cases hs : skipBlank false s with
  | cons c t => exact ⟨c, t, rfl, hmem c t hs⟩
  | nil =>
    cases h with
    | here hopen =>
      rw [hs] at hopen
      cases hopen
    | later hne =>
      rw [ne_eq, next_eof_iff, hs] at hne
      exact absurd rfl hne

theorem EndsInside.reported (h : EndsInside last s k) (hnul : nul ∉ s) (hk : k.reported = true)
    {ts : List (Token × List String)} (hts : Streams last s ts) : ts.flatMap Prod.snd ≠ [] := by
  induction h generalizing ts with
  | @here last s k hopen =>
    obtain ⟨c, t, hs, hc⟩ := EndsInside.skipBlank_ne (.here hopen) hnul
    have hnul' : nul ∉ t := by
      intro hmem
      exact hnul ((skipBlank_suffix false s).mem (hs ▸ List.mem_cons_of_mem _ hmem))
    have hne : (next last s).tok.type ≠ .eof := by
      rw [ne_eq, next_eof_iff, hs]
      exact hc
    rw [hs] at hopen
    have herrs := lexeme_reported hnul' hopen hk
    cases hts with
    | done heof => exact absurd heof hne
    | token =>
      rw [List.flatMap_cons, ne_eq, List.append_eq_nil_iff, not_and_or]
      left
      rw [next, hs]
      exact herrs
  | later hne _ ih =>
    cases hts with
    | done heof => exact absurd heof hne
    | token _ hts =>
      rw [List.flatMap_cons, ne_eq, List.append_eq_nil_iff, not_and_or]
      exact .inr (ih (nul_not_mem_next hnul) hk hts)

theorem Open.close_append (k : Open) (a : Bytes) (hs : s ≠ []) :
    k.close (a ++ s) = a ++ k.close s := by
  cases k with
  | string dangling =>
    cases dangling with
    | false => exact List.append_assoc _ _ _
    | true =>
      rw [Open.close, Open.close, List.dropLast_append_of_ne_nil hs, List.append_assoc]
  | regex => exact List.append_assoc _ _ _
  | segment => exact List.append_assoc _ _ _

theorem skip_split {c : Char} {t : Bytes} (hs : skipBlank false s = c :: t) (hc : c ≠ nul) :
    ∃ gap, s = gap ++ c :: t ∧ ∀ u, skipBlank false (gap ++ c :: u) = c :: u := by
  obtain ⟨gap, hgap⟩ := skipBlank_suffix false s
  rw [hs] at hgap
  refine ⟨gap, hgap.symm, ?_⟩
  intro u
  have hidem := skipBlank_skipBlank false s (by rw [hs]; exact hc)
  rw [hs] at hidem
  have hskip : skipBlank false (gap ++ c :: t) = c :: t := by rw [hgap, hs]
  exact skipBlank_local hskip hc (skipBlank_swap hidem)

theorem EndsInside.close_split (h : EndsInside last s k) (hnul : nul ∉ s)
    (hk : k.reported = false) :
    ∃ a c t u, s = a ++ c :: t ∧ k.close s = a ++ c :: u := by
  induction h with
  | @here last s k hopen =>
    obtain ⟨c, t, hs, hc⟩ := EndsInside.skipBlank_ne (.here hopen) hnul
    obtain ⟨gap, rfl, -⟩ := skip_split hs hc
    rw [hs] at hopen
    obtain ⟨u, hu, -⟩ :=
      lexeme_close (fun h => hnul (List.mem_append_right _ (List.mem_cons_of_mem _ h))) hopen hk
    refine ⟨gap, c, t, u, rfl, ?_⟩
    rw [Open.close_append k gap (List.cons_ne_nil _ _), hu]
  | @later last s k _ hends ih =>
    obtain ⟨a, c, t, u, hr, hclose⟩ := ih (nul_not_mem_next hnul) hk
    obtain ⟨pre, hpre⟩ : (next last s).rest <:+ s :=
      ((lexeme_suffix last _ _).trans (List.tail_suffix _)).trans (skipBlank_suffix false s)
    refine ⟨pre ++ a, c, t, u, ?_, ?_⟩
    · rw [← hpre, hr, List.append_assoc]
    · rw [← hpre, Open.close_append k pre (by rw [hr]; simp), hclose, List.append_assoc]

theorem next_close (hne : (next last s).tok.type ≠ .eof)
    (h : EndsInside (next last s).tok.type (next last s).rest k) (hnul : nul ∉ s)
    (hk : k.reported = false) :
    next last
      (k.close s) = ⟨(next last s).tok, k.close (next last s).rest, (next last s).errs⟩ := by
  obtain ⟨a, d, t', u, hr, hclose⟩ := h.close_split (nul_not_mem_next hnul) hk
  rw [ne_eq, next_eof_iff] at hne
  obtain ⟨c, t, hs⟩ : ∃ c t, skipBlank false s = c :: t := by
    refine List.exists_cons_of_ne_nil ?_
    intro hnil
    rw [hnil] at hne
    exact hne rfl
  rw [hs, head_cons] at hne
  obtain ⟨gap, rfl, hskip⟩ := skip_split hs hne
  have hnext : ∀ u, next last (gap ++ c :: u) = lexeme last c u := by
    intro u
    rw [next, hskip u]
    rfl
  rw [hnext] at hr hclose ⊢
  obtain ⟨x, hx⟩ := lexeme_suffix last c t
  have hfits : Fits (absorbs (lexeme last c t).tok) (lexeme last c t).rest
    (k.close (lexeme last c t).rest) := by
    rw [hclose, hr]
    refine ⟨by simp, .inl ?_⟩
    cases a with
    | nil => rfl
    | cons b a => rfl
  have hlocal := lexeme_local (x := x) (by rw [hx]) hfits
  have hshut : k.close (gap ++ c :: t) = gap ++ c :: (x ++ k.close (lexeme last c t).rest) := by
    have happ :=
      Open.close_append k (gap ++ c :: x) (s := (lexeme last c t).rest) (by rw [hr]; simp)
    rw [List.append_assoc, List.cons_append, hx, List.append_assoc, List.cons_append] at happ
    exact happ
  rw [hshut, hnext, hlocal]

theorem Streams.congr {s' : Bytes} {ts : List (Token × List String)}
    (h : next last s' = next last s) (hts : Streams last s ts) : Streams last s' ts := by
  cases hts with
  | done heof hrest => exact .done (h ▸ heof) (h ▸ hrest)
  | token hne hts =>
    have htoken := Streams.token (s := s') (h.symm ▸ hne) (h.symm ▸ hts)
    rw [h] at htoken
    exact htoken

theorem EndsInside.streams_close (h : EndsInside last s k) (hnul : nul ∉ s)
    (hk : k.reported = false) {ts : List (Token × List String)} (hts : Streams last s ts) :
      Streams last (k.close s) ts := by
  induction h generalizing ts with
  | @here last s k hopen =>
    obtain ⟨c, t, hs, hc⟩ := EndsInside.skipBlank_ne (.here hopen) hnul
    obtain ⟨gap, rfl, hskip⟩ := skip_split hs hc
    rw [hs] at hopen
    obtain ⟨u, hu, hlex⟩ :=
      lexeme_close (fun h => hnul (List.mem_append_right _ (List.mem_cons_of_mem _ h))) hopen hk
    refine hts.congr ?_
    rw [Open.close_append k gap (List.cons_ne_nil _ _), hu, next, hskip, next, hskip]
    exact hlex
  | @later last s k hne hends ih =>
    have hnext := next_close hne hends hnul hk
    cases hts with
    | done heof => exact absurd heof hne
    | token _ hts =>
      have hrest := ih (nul_not_mem_next hnul) hk hts
      have htoken := Streams.token (s := k.close s)
        (by rw [hnext]; exact fun h => hne h.1) (by rw [hnext]; exact hrest)
      rw [hnext] at htoken
      exact htoken

theorem Streams.type_ne_eof {ts : List (Token × List String)} (h : Streams last s ts)
    (hnul : nul ∉ s) :
    ∀ t ∈ ts, t.1.type ≠ .eof := by
  induction h with
  | done => exact List.forall_mem_nil _
  | @token last s ts hne _ ih =>
    refine List.forall_mem_cons.mpr ⟨?_, ih (nul_not_mem_next hnul)⟩
    intro heof
    refine hne ⟨heof, ?_⟩
    rw [next_eof_iff] at heof
    cases hs : skipBlank false s with
    | nil =>
      have hrest := lexeme_suffix last (head (skipBlank false s)) (skipBlank false s).tail
      rw [hs, List.tail_nil, List.suffix_nil] at hrest
      rw [next, hs]
      exact hrest
    | cons c t =>
      rw [hs, head_cons] at heof
      subst heof
      exact absurd ((skipBlank_suffix false s).mem (hs ▸ List.mem_cons_self)) hnul

end Streams

section Validation

variable {F R : Type} (H : Host F R)

theorem validate_drained {text : Bytes} (hnul : nul ∉ text) :
    ∃ errors, validate H text = some ((stream text).flatMap Prod.snd ++ errors) := by
  obtain ⟨phrases, q, hparse, hfinished⟩ :=
    parseEvent_sound H (Parser.new ((stream text).map Prod.fst) true)
  have hne := (stream_streams text).type_ne_eof hnul
  have hend : q.toks = [] := by
    cases htoks : q.toks with
    | nil => rfl
    | cons t ts =>
      -- the parser stands on an end of input, which is no token of the text
      have hsuffix := hfinished.within
      rw [Within, htoks] at hsuffix
      obtain ⟨x, hx, hxt⟩ := List.mem_map.mp (hsuffix.mem List.mem_cons_self)
      have heof := hfinished.eof
      rw [Parser.cur, htoks, List.headD_cons, ← hxt] at heof
      exact absurd heof (hne x hx)
  refine ⟨(q.checked H phrases).errors, ?_⟩
  have hlexer : lexerErrors (stream text) (q.checked H phrases) =
    (stream text).flatMap Prod.snd := by
    have htoks : (q.checked H phrases).toks = [] := hend
    rw [lexerErrors, htoks, List.drop_nil, List.length_nil, Nat.sub_zero, List.take_length]
  unfold validate parse
  rw [hparse]
  dsimp only
  rw [hlexer]

theorem validate_congr {text text' : Bytes} (h : stream text' = stream text) :
    validate H text' = validate H text := by
  unfold validate parse
  rw [h]

/-- Strict validation has a diagnostic for a text that ends inside a literal exactly if the lexer
reports the literal, which it does not for a quoted segment and a string with a dangling backslash,
or the text with the literal closed has one. -/
theorem validate_unterminated_iff {text : Bytes} {k : Open} (hnul : nul ∉ text)
    (h : EndsInside .untyped text k) :
    (∃ d ds, validate H text = some (d :: ds)) ↔
      k.reported = true ∨ ∃ d ds, validate H (k.close text) = some (d :: ds) := by
  cases hk : k.reported with
  | true =>
    refine iff_of_true ?_ (.inl rfl)
    obtain ⟨errors, hvalid⟩ := validate_drained H hnul
    have hne := h.reported hnul hk (stream_streams text)
    obtain ⟨d, ds, hds⟩ := List.exists_cons_of_ne_nil hne
    rw [hds] at hvalid
    exact ⟨d, _, hvalid⟩
  | false =>
    have hstream :=
      (stream_streams (k.close text)).unique (h.streams_close hnul hk (stream_streams text))
    rw [validate_congr H hstream]
    exact ⟨.inr, fun h => h.resolve_left Bool.false_ne_true⟩

/-- The text of a `SELECT` that stops in a quoted segment. -/
def selectCut : Bytes := "SELECT .a.\"b".toList

/-- The text of an `EXEC` that stops on a backslash. -/
def execCut : Bytes := "EXEC \"abc\\".toList

theorem endsInside_selectCut : EndsInside .untyped selectCut .segment := by
  refine .later (by decide) (.here ?_)
  decide

theorem endsInside_execCut : EndsInside .untyped execCut (.string true) := by
  refine .later (by decide) (.here ?_)
  decide +kernel

theorem validate_unterminated_silent :
    (nul ∉ selectCut ∧ EndsInside .untyped selectCut .segment ∧
    validate bareHost selectCut = some []) ∧
      nul ∉ execCut ∧ EndsInside .untyped execCut (.string true) ∧
      validate bareHost execCut = some [] :=
  ⟨⟨by decide, endsInside_selectCut, by decide⟩, by decide, endsInside_execCut, by decide⟩

theorem validate_unterminated_garbage :
    (∃ d ds, validate bareHost "EXEC \"abc".toList = some (d :: ds)) ↔
      (Open.string false).reported = true ∨
        ∃ d ds, validate bareHost ((Open.string false).close "EXEC \"abc".toList) = some
          (d :: ds) :=
  validate_unterminated_iff bareHost (by decide)
    (.later (by decide +kernel) (.here (by decide +kernel)))

end Validation

end ThanksComputer.Txcl
