import ThanksComputer.Txcl.Spans

/-! Reading a token looks one byte past its end at most, so a token reads the same in front of any
text that starts alike.  A source without lexer errors is a chain of such tokens. -/

namespace ThanksComputer.Txcl

section Local

variable {c : Char} {x rest out : Bytes}

theorem run_local {p : Char → Bool} {w : Bytes} (hrest : rest ≠ [])
    (h : (w ++ rest).dropWhile p = rest) :
    (∀ a ∈ w, p a = true) ∧ p (head rest) = false := by
  obtain ⟨d, r, rfl⟩ := List.exists_cons_of_ne_nil hrest
  have hhead := List.head?_dropWhile_not p (w ++ d :: r)
  rw [h] at hhead
  refine ⟨?_, by simpa using hhead⟩
  have hsplit := List.takeWhile_append_dropWhile (p := p) (l := w ++ d :: r)
  rw [h] at hsplit
  have hw := List.append_cancel_right hsplit
  intro a ha
  rw [← hw] at ha
  exact List.mem_takeWhile_imp ha

theorem run_exact {p : Char → Bool} {w : Bytes} (hw : ∀ a ∈ w, p a = true)
    (hout : p (head out) = false) : (w ++ out).takeWhile p = w ∧ (w ++ out).dropWhile p = out := by
  rw [List.takeWhile_append_of_pos hw, List.dropWhile_append_of_pos hw]
  cases out with
  | nil => simp
  | cons d r =>
    have hd : ¬p d = true := by simpa using hout
    rw [List.takeWhile_cons_of_neg hd, List.dropWhile_cons_of_neg hd, List.append_nil]
    exact ⟨rfl, rfl⟩

theorem Body.eq_mk {x : Body} {s : Bytes} (h : x.rest = s) : x = ⟨x.content, s, x.errs⟩ :=
  congrArg (Body.mk x.content · x.errs) h

theorem not_suffix_self {c : Char} {s t : Bytes} (h : c :: s <:+ t) (ht : t <:+ s) : False := by
  have h1 := h.length_le
  have h2 := ht.length_le
  rw [List.length_cons] at h1
  omega

theorem stringBody_shorter (hrest : rest ≠ []) : (stringBody rest).rest ≠ rest := by
  intro h
  obtain ⟨d, r, rfl⟩ := List.exists_cons_of_ne_nil hrest
  have hlt : (stringBody (d :: r)).rest.length ≤ r.length := by
    by_cases hnul : d = nul
    · rw [hnul, stringBody_nul]
    by_cases hquote : d = '"'
    · rw [hquote, stringBody_close]
    by_cases hslash : d = '\\'
    · subst hslash
      cases r with
      | nil => rw [stringBody_escape_end]
      | cons e r =>
        by_cases he : e = nul
        · rw [he, stringBody_escape_nul]
          exact Nat.le_succ _
        · rw [stringBody_escape he]
          exact (stringBody_suffix r).length_le.trans (Nat.le_succ _)
    · rw [stringBody_char hnul hquote hslash]
      exact (stringBody_suffix r).length_le
  rw [h, List.length_cons] at hlt
  omega

theorem stringBody_local {b : Bytes} {e : List String} (hrest : rest ≠ [])
    (h : stringBody (x ++ rest) = ⟨b, rest, e⟩) (out : Bytes) :
      stringBody (x ++ out) = ⟨b, out, e⟩ := by
  induction hn : x.length using Nat.strong_induction_on generalizing x b e with
  | _ n ih =>
    subst hn
    cases x with
    | nil => exact absurd (congrArg Body.rest h) (stringBody_shorter hrest)
    | cons a x =>
      rw [List.cons_append] at h ⊢
      by_cases hnul : a = nul
      · subst hnul
        rw [stringBody_nul] at h ⊢
        obtain ⟨rfl, hx, rfl⟩ := Body.mk.inj h
        rw [List.append_left_eq_self.mp hx]
        rfl
      by_cases hquote : a = '"'
      · subst hquote
        rw [stringBody_close] at h ⊢
        obtain ⟨rfl, hx, rfl⟩ := Body.mk.inj h
        rw [List.append_left_eq_self.mp hx]
        rfl
      by_cases hslash : a = '\\'
      · subst hslash
        cases x with
        | nil =>
          exfalso
          obtain ⟨d, r, rfl⟩ := List.exists_cons_of_ne_nil hrest
          have hlt : (stringBody ('\\' :: d :: r)).rest.length ≤ r.length := by
            by_cases hd : d = nul
            · rw [hd, stringBody_escape_nul]
            · rw [stringBody_escape hd]
              exact (stringBody_suffix r).length_le
          rw [List.nil_append] at h
          rw [h, List.length_cons] at hlt
          omega
        | cons d x =>
          rw [List.cons_append] at h ⊢
          by_cases hd : d = nul
          · subst hd
            rw [stringBody_escape_nul] at h ⊢
            obtain ⟨rfl, hx, rfl⟩ := Body.mk.inj h
            rw [List.append_left_eq_self.mp hx]
            rfl
          · rw [stringBody_escape hd] at h ⊢
            obtain ⟨rfl, hx, rfl⟩ := Body.mk.inj h
            rw [ih x.length (by rw [List.length_cons, List.length_cons]; omega) (Body.eq_mk hx) rfl]
            rfl
      · rw [stringBody_char hnul hquote hslash] at h ⊢
        obtain ⟨rfl, hx, rfl⟩ := Body.mk.inj h
        rw [ih x.length (by simp) (Body.eq_mk hx) rfl]
        rfl

theorem regexBody_shorter (prev : Char) (hrest : rest ≠ []) :
    (regexBody prev rest).rest ≠ rest := by
  intro h
  obtain ⟨d, r, rfl⟩ := List.exists_cons_of_ne_nil hrest
  have hlt : (regexBody prev (d :: r)).rest.length ≤ r.length := by
    rw [regexBody]
    split
    · exact le_refl _
    · split
      · exact le_refl _
      · exact (regexBody_suffix d r).length_le
  rw [h, List.length_cons] at hlt
  omega

theorem regexBody_local {prev : Char} {b : Bytes} {e : List String} (hrest : rest ≠ [])
    (h : regexBody prev (x ++ rest) = ⟨b, rest, e⟩) (out : Bytes) :
      regexBody prev (x ++ out) = ⟨b, out, e⟩ := by
  induction x generalizing prev b e with
  | nil => exact absurd (congrArg Body.rest h) (regexBody_shorter prev hrest)
  | cons a x ih =>
    rw [List.cons_append, regexBody] at h ⊢
    split at h
    · next hnul =>
      rw [if_pos hnul]
      obtain ⟨rfl, hx, rfl⟩ := Body.mk.inj h
      rw [List.append_left_eq_self.mp hx]
      rfl
    · next hnul =>
      rw [if_neg hnul]
      split at h
      · next hclose =>
        rw [if_pos hclose]
        obtain ⟨rfl, hx, rfl⟩ := Body.mk.inj h
        rw [List.append_left_eq_self.mp hx]
        rfl
      · next hclose =>
        rw [if_neg hclose]
        obtain ⟨rfl, hx, rfl⟩ := Body.mk.inj h
        rw [ih (Body.eq_mk hx)]
        rfl

theorem branchBody_local {quoted : Bool} {b : Bytes} (hrest : rest ≠ [])
    (h : branchBody quoted (x ++ rest) = ⟨b, rest, []⟩) (out : Bytes) :
    branchBody quoted (x ++ out) = (branchBody false out).write b := by
  induction x generalizing quoted b with
  | nil =>
    obtain ⟨d, r, rfl⟩ := List.exists_cons_of_ne_nil hrest
    rw [List.nil_append] at h ⊢
    cases quoted with
    | false =>
      have hb : b = [] := by
        rw [branchBody, if_neg Bool.false_ne_true] at h
        split at h
        · exact (not_suffix_self (List.suffix_refl _)
            ((congrArg Body.rest h) ▸ branchBody_suffix true r)).elim
        · split at h
          · exact (not_suffix_self (List.suffix_refl _)
              ((congrArg Body.rest h) ▸ branchBody_suffix false r)).elim
          · exact (congrArg Body.content h).symm
      rw [hb]
      rfl
    | true =>
      exfalso
      rw [branchBody, if_pos rfl] at h
      split at h
      · exact not_suffix_self (List.suffix_refl _)
          ((congrArg Body.rest h) ▸ branchBody_suffix false r)
      · exact not_suffix_self (List.suffix_refl _)
          ((congrArg Body.rest h) ▸ branchBody_suffix true r)
  | cons a x ih =>
    rw [List.cons_append] at h ⊢
    cases quoted with
    | true =>
      by_cases ha : a = nul ∨ a = '"'
      · rw [branchBody_close _ ha] at h ⊢
        exact ih h
      · rw [branchBody_inside _ ha] at h ⊢
        obtain ⟨rfl, hx, he⟩ := Body.mk.inj h
        have hbody := Body.eq_mk hx
        rw [show (branchBody true (x ++ rest)).errs = [] from he] at hbody
        rw [ih hbody, write_write]
    | false =>
      by_cases hquote : a = '"'
      · subst hquote
        rw [branchBody_open] at h ⊢
        exact ih h
      by_cases ha : isBranchChar a = true
      · rw [branchBody_char _ hquote ha] at h ⊢
        obtain ⟨rfl, hx, he⟩ := Body.mk.inj h
        have hbody := Body.eq_mk hx
        rw [show (branchBody false (x ++ rest)).errs = [] from he] at hbody
        rw [ih hbody, write_write]
      · rw [branchBody_stop _ hquote ha] at h
        have hlen := congrArg (fun y : Body => y.rest.length) h
        simp only [List.length_cons, List.length_append] at hlen
        omega

theorem stops_of_rest (hrest : rest ≠ []) (h : (branchBody false rest).rest = rest) :
    Stops rest := by
  obtain ⟨d, r, rfl⟩ := List.exists_cons_of_ne_nil hrest
  by_cases hquote : d = '"'
  · subst hquote
    rw [branchBody_open] at h
    exact (not_suffix_self (List.suffix_refl _) (h ▸ branchBody_suffix true r)).elim
  by_cases hd : isBranchChar d = true
  · rw [branchBody_char _ hquote hd] at h
    have h' : (branchBody false r).rest = d :: r := h
    exact (not_suffix_self (List.suffix_refl _) (h' ▸ branchBody_suffix false r)).elim
  · exact ⟨by simpa using hd, hquote⟩

theorem branch_read {t : Token} {w : Bytes} {e : List String} (hrest : rest ≠ [])
    (h : ((branchBody false (x ++ rest).tail).write w).toLexeme .branch = ⟨t, rest, e⟩) :
    ∃ a x' b, x = a :: x' ∧ t = ⟨.branch, w ++ b⟩ ∧ e = [] ∧ Stops rest ∧
      ∀ out, branchBody false (x' ++ out) = (branchBody false out).write b := by
  obtain ⟨rfl, hx, rfl⟩ := Lexeme.mk.inj h
  cases x with
  | nil =>
    obtain ⟨d, r, rfl⟩ := List.exists_cons_of_ne_nil hrest
    have hx' : (branchBody false r).rest = d :: r := hx
    exact (not_suffix_self (List.suffix_refl _) (hx' ▸ branchBody_suffix false r)).elim
  | cons a x =>
    rw [List.cons_append, List.tail_cons] at *
    have hx' : (branchBody false (x ++ rest)).rest = rest := hx
    have hbody := Body.eq_mk hx'
    rw [branchBody_errs] at hbody
    have hlocal := branchBody_local hrest hbody
    refine ⟨a, x, (branchBody false (x ++ rest)).content, rfl, rfl, branchBody_errs _ _, ?_, hlocal⟩
    apply stops_of_rest hrest
    have := congrArg Body.rest (hlocal rest)
    rw [hx'] at this
    exact this.symm

theorem branch_go_on {w b x' out : Bytes} {a : Char}
    (h : ∀ out, branchBody false (x' ++ out) = (branchBody false out).write b) (hstop : Stops out) :
    ((branchBody false (a :: x' ++ out).tail).write w).toLexeme .branch =
      ⟨⟨.branch, w ++ b⟩, out, []⟩ := by
  rw [List.cons_append, List.tail_cons, h out, branchBody_stops hstop]
  simp [Body.write, Body.toLexeme]

theorem cons_of_head {s : Bytes} (h : head s = c) (hc : c ≠ nul) : ∃ t, s = c :: t := by
  cases s with
  | nil => exact absurd h.symm hc
  | cons d t =>
    rw [head_cons] at h
    exact ⟨t, by rw [h]⟩

theorem shape_of_type {last : TokenType} {s : Bytes} (h : (lexeme last c s).tok.type ∉ signs) :
    ∀ type, shape last c (head s) ≠ .one type ∧ shape last c (head s) ≠ .two type := by
  intro type
  constructor
  · intro hs
    unfold lexeme at h
    rw [hs] at h
    exact h (shape_sign (.inl hs))
  · intro hs
    unfold lexeme at h
    rw [hs] at h
    exact h (shape_sign (.inr hs))

theorem numberType_cases (literal : Bytes) :
    numberType literal = .float ∨ numberType literal = .int := by
  unfold numberType
  split
  · exact .inl rfl
  · exact .inr rfl

theorem shape_of_ampIdent {last : TokenType} {s : Bytes}
    (h : (lexeme last c s).tok.type = .ampIdent) :
    shape last c (head s) = .call := by
  have hsign := shape_of_type (c := c) (s := s) (by rw [h]; decide)
  unfold lexeme at h
  cases hs : shape last c (head s) with
  | one type => exact absurd hs (hsign type).1
  | two type => exact absurd hs (hsign type).2
  | call => rfl
  | number =>
    rw [hs] at h
    rcases numberType_cases ((c :: s).takeWhile isDigit) with hn | hn
    all_goals exact absurd (hn.symm.trans h) (by decide)
  | word =>
    rw [hs] at h
    dsimp only at h
    split at h
    · cases h
    · exact absurd h (lookupIdent_ne (by decide) (by decide) _)
  | eof | bare | regex | branch | atBranch | string =>
    rw [hs] at h
    cases h

theorem shape_of_branch {last : TokenType} {s : Bytes} (h : (lexeme last c s).tok.type = .branch) :
    shape last c (head s) = .branch ∨ shape last c (head s) = .atBranch := by
  have hsign := shape_of_type (c := c) (s := s) (by rw [h]; decide)
  unfold lexeme at h
  cases hs : shape last c (head s) with
  | one type => exact absurd hs (hsign type).1
  | two type => exact absurd hs (hsign type).2
  | branch => exact .inl rfl
  | atBranch => exact .inr rfl
  | number =>
    rw [hs] at h
    rcases numberType_cases ((c :: s).takeWhile isDigit) with hn | hn
    all_goals exact absurd (hn.symm.trans h) (by decide)
  | word =>
    rw [hs] at h
    dsimp only at h
    split at h
    · cases h
    · exact absurd h (lookupIdent_ne (by decide) (by decide) _)
  | eof | bare | regex | call | string =>
    rw [hs] at h
    cases h

theorem shape_of_ident {last : TokenType} {s : Bytes} (h : (lexeme last c s).tok.type = .ident) :
    shape last c (head s) = .word := by
  have hsign := shape_of_type (c := c) (s := s) (by rw [h]; decide)
  unfold lexeme at h
  cases hs : shape last c (head s) with
  | one type => exact absurd hs (hsign type).1
  | two type => exact absurd hs (hsign type).2
  | word => rfl
  | number =>
    rw [hs] at h
    rcases numberType_cases ((c :: s).takeWhile isDigit) with hn | hn
    all_goals exact absurd (hn.symm.trans h) (by decide)
  | eof | bare | regex | call | string | branch | atBranch =>
    rw [hs] at h
    cases h

/-- The tokens that go on when a quote comes right behind them. -/
def absorbs (t : Token) : Bool :=
  t.type == .branch || t == ⟨.ident, "b64".toList⟩

/-- `out` may stand in the place of `rest` behind a token. -/
structure Fits (absorbing : Bool) (rest out : Bytes) : Prop where
  nil_iff : rest = [] ↔ out = []
  heads : head out = head rest ∨ (absorbing = false ∧ head rest = '&' ∧ head out = '"')

theorem shape_quote (last : TokenType) (hc : c ≠ '&') : shape last c '"' = shape last c '&' := by
  unfold shape
  split
  all_goals first | rfl | exact absurd rfl hc

theorem Fits.class_eq {b : Bool} (h : Fits b rest out) {p : Char → Bool} (hp : p '"' = p '&') :
    p (head out) = p (head rest) := by
  rcases h.heads with h | ⟨-, hrest, hout⟩
  · rw [h]
  · rw [hrest, hout, hp]

theorem Fits.shape_eq {b : Bool} (h : Fits b rest out) {last : TokenType}
    (hlex : (lexeme last c (x ++ rest)).rest = rest) :
    shape last c (head (x ++ out)) = shape last c (head (x ++ rest)) := by
  cases x with
  | cons a x => rfl
  | nil =>
    rw [List.nil_append, List.nil_append] at *
    rcases h.heads with h | ⟨-, hrest, hout⟩
    · rw [h]
    · rw [hrest, hout]
      apply shape_quote
      rintro rfl
      -- two ampersands are one token, which does not end between them
      have hshape : shape last '&' (head rest) = .two .land := by rw [hrest]; rfl
      unfold lexeme at hlex
      rw [hshape] at hlex
      have hne : rest ≠ [] := by
        rintro rfl
        exact absurd hrest (by decide)
      obtain ⟨d, r, rfl⟩ := List.exists_cons_of_ne_nil hne
      exact not_suffix_self (List.suffix_refl (d :: r)) (by rw [← hlex]; exact List.suffix_refl r)

theorem Fits.stops {b : Bool} (h : Fits b rest out) (hb : b = true) (hstop : Stops rest) :
    Stops out := by
  rcases h.heads with h | ⟨hfalse, -, -⟩
  · rw [Stops, h]
    exact hstop
  · rw [hb] at hfalse
    cases hfalse

theorem lexeme_local {last : TokenType} {t : Token} {e : List String}
    (h : lexeme last c (x ++ rest) = ⟨t, rest, e⟩) (hfit : Fits (absorbs t) rest out) :
    lexeme last c (x ++ out) = ⟨t, out, e⟩ := by
  by_cases hnil : rest = []
  · rw [hfit.nil_iff.mp hnil]
    rw [hnil] at h
    exact h
  have hshape := hfit.shape_eq (c := c) (x := x) (congrArg Lexeme.rest h)
  unfold lexeme at h ⊢
  rw [hshape]
  cases hs : shape last c (head (x ++ rest)) with
  | one type =>
    rw [hs] at h
    obtain ⟨rfl, hx, rfl⟩ := Lexeme.mk.inj h
    rw [List.append_left_eq_self.mp hx]
    rfl
  | bare =>
    rw [hs] at h
    obtain ⟨rfl, hx, rfl⟩ := Lexeme.mk.inj h
    rw [List.append_left_eq_self.mp hx]
    rfl
  | eof =>
    rw [hs] at h
    obtain ⟨rfl, hx, rfl⟩ := Lexeme.mk.inj h
    rw [List.append_left_eq_self.mp hx]
    rfl
  | two type =>
    rw [hs] at h
    obtain ⟨rfl, hx, rfl⟩ := Lexeme.mk.inj h
    cases x with
    | nil =>
      obtain ⟨d, r, rfl⟩ := List.exists_cons_of_ne_nil hnil
      exact (not_suffix_self (List.suffix_refl (d :: r))
        (by rw [← hx]; exact List.suffix_refl r)).elim
    | cons a x =>
      rw [List.cons_append, List.tail_cons] at hx
      rw [List.append_left_eq_self.mp hx]
      rfl
  | number =>
    rw [hs] at h
    obtain ⟨rfl, hx, rfl⟩ := Lexeme.mk.inj h
    rw [← List.cons_append] at hx
    obtain ⟨hw, hstop⟩ := run_local hnil hx
    have hold := run_exact hw hstop
    have hnew := run_exact hw ((hfit.class_eq (p := isDigit) (by decide +kernel)).trans hstop)
    rw [List.cons_append] at hold hnew
    dsimp only
    rw [hold.1, hnew.1, hnew.2]
  | regex =>
    rw [hs] at h
    obtain ⟨rfl, hx, rfl⟩ := Lexeme.mk.inj h
    dsimp only
    rw [regexBody_local hnil (Body.eq_mk hx) out]
  | string =>
    rw [hs] at h
    obtain ⟨rfl, hx, rfl⟩ := Lexeme.mk.inj h
    dsimp only
    rw [stringBody_local hnil (Body.eq_mk hx) out]
    rfl
  | call =>
    rw [hs] at h
    obtain ⟨rfl, hx, rfl⟩ := Lexeme.mk.inj h
    obtain ⟨hw, hstop⟩ := run_local hnil hx
    have hold := run_exact hw hstop
    have hnew := run_exact hw ((hfit.class_eq (p := isWordChar) (by decide +kernel)).trans hstop)
    dsimp only
    rw [hold.1, hnew.1, hnew.2]
  | branch =>
    rw [hs] at h
    obtain ⟨a, x', b, rfl, rfl, rfl, hstop, hread⟩ := branch_read hnil h
    exact branch_go_on hread (hfit.stops rfl hstop)
  | atBranch =>
    rw [hs] at h
    obtain ⟨a, x', b, rfl, rfl, rfl, hstop, hread⟩ := branch_read hnil h
    exact branch_go_on hread (hfit.stops rfl hstop)
  | word =>
    rw [hs] at h
    dsimp only at h ⊢
    split at h
    · next hb64 =>
      obtain ⟨hword, hquote⟩ := hb64
      obtain ⟨z, hz⟩ :=
        cons_of_head (s := (c :: (x ++ rest)).dropWhile isWordChar) hquote (by decide +kernel)
      rw [hz, List.tail_cons] at h
      obtain ⟨rfl, hx, rfl⟩ := Lexeme.mk.inj h
      obtain ⟨z', hz'⟩ := stringBody_suffix z
      rw [hx] at hz'
      have hsplit := List.takeWhile_append_dropWhile (p := isWordChar) (l := c :: (x ++ rest))
      rw [hword, hz, ← hz', ← List.cons_append, ← List.cons_append, ← List.append_assoc] at hsplit
      have hcx : "b64".toList ++ '"' :: z' = c :: x := List.append_cancel_right hsplit
      have hout : c :: (x ++ out) = "b64".toList ++ '"' :: (z' ++ out) := by
        rw [← List.cons_append, ← hcx, List.append_assoc, List.cons_append]
      have hends : isWordChar (head ('"' :: (z' ++ out))) = false := by rw [head_cons]; decide
      obtain ⟨hrun, hdrop⟩ := run_exact (w := "b64".toList) (List.all_eq_true.mp rfl) hends
      rw [hout, hrun, hdrop, if_pos ⟨rfl, rfl⟩, List.tail_cons]
      rw [← hz'] at hx
      rw [stringBody_local hnil (Body.eq_mk hx) out, hz']
    · next hb64 =>
      obtain ⟨rfl, hx, rfl⟩ := Lexeme.mk.inj h
      rw [← List.cons_append] at hx hb64 ⊢
      obtain ⟨hw, hstop⟩ := run_local hnil hx
      have hold := run_exact hw hstop
      have hnew := run_exact hw ((hfit.class_eq (p := isWordChar) (by decide +kernel)).trans hstop)
      rw [← List.cons_append, hnew.1, hnew.2, hold.1]
      rw [hold.1, hold.2] at hb64
      apply if_neg
      rintro ⟨hword, hquote⟩
      have habsorb : absorbs ⟨lookupIdent (c :: x), c :: x⟩ = true := by
        rw [hword]
        decide +kernel
      rw [List.cons_append] at hold
      rw [hold.1] at hfit
      rcases hfit.heads with hhead | ⟨hfalse, -, -⟩
      · exact hb64 ⟨hword, hhead ▸ hquote⟩
      · rw [habsorb] at hfalse
        cases hfalse

theorem lexeme_branch_grows {last : TokenType} {t : Token} {e : List String} (hrest : rest ≠ [])
    (h : lexeme last c (x ++ rest) = ⟨t, rest, e⟩) (ht : t.type = .branch) (out : Bytes) :
    lexeme last c (x ++ out) =
      ⟨⟨.branch, t.literal ++ (branchBody false out).content⟩, (branchBody false out).rest,
        []⟩ := by
  have hshape := shape_of_branch (c := c) (s := x ++ rest) (by rw [h]; exact ht)
  unfold lexeme at h ⊢
  rcases hshape with hs | hs
  all_goals
    rw [hs] at h
    obtain ⟨a, x', b, rfl, rfl, rfl, -, hread⟩ := branch_read hrest h
    rw [List.cons_append, head_cons] at hs ⊢
    rw [hs, List.tail_cons, hread]
    simp [Body.write, Body.toLexeme, branchBody_errs]

theorem lexeme_b64_grows {last : TokenType} {e : List String} (hrest : rest ≠ [])
    (h : lexeme last c (x ++ rest) = ⟨⟨.ident, "b64".toList⟩, rest, e⟩) (out : Bytes) :
    lexeme last c (x ++ '"' :: out) =
      ⟨⟨.string, base64 (stringBody out).content⟩, (stringBody out).rest,
        (stringBody out).errs⟩ := by
  have hshape := shape_of_ident (c := c) (s := x ++ rest) (by rw [h])
  have hcx : c :: x = "b64".toList := by
    unfold lexeme at h
    rw [hshape] at h
    dsimp only at h
    split at h
    · cases (Lexeme.mk.inj h).1
    · obtain ⟨htok, hx, -⟩ := Lexeme.mk.inj h
      rw [← List.cons_append] at hx htok
      obtain ⟨hw, hstop⟩ := run_local hrest hx
      rw [(run_exact hw hstop).1] at htok
      exact (Token.mk.inj htok).2
  have hsplit : c :: (x ++ '"' :: out) = "b64".toList ++ '"' :: out := by
    rw [← List.cons_append, hcx]
  have hword : shape last c (head (x ++ '"' :: out)) = .word := by
    obtain ⟨rfl, rfl⟩ := List.cons.inj hcx
    rfl
  have hends : isWordChar (head ('"' :: out)) = false := by rw [head_cons]; decide
  obtain ⟨hrun, hdrop⟩ := run_exact (w := "b64".toList) (List.all_eq_true.mp rfl) hends
  unfold lexeme
  rw [hword]
  dsimp only
  rw [hsplit, hrun, hdrop, if_pos ⟨rfl, rfl⟩, List.tail_cons]

/-- Only a regex and a star look at the token before, and these two look for the same few types. -/
def Alike (last last' : TokenType) : Prop :=
  isBinding last = isBinding last' ∧ (last = .whenKw ↔ last' = .whenKw)

theorem shape_alike {last last' : TokenType} (h : Alike last last') (c peek : Char) :
    shape last c peek = shape last' c peek := by
  unfold shape
  split
  all_goals first | rfl | simp only [h.1] | simp only [h.2]

theorem lexeme_alike {last last' : TokenType} (h : Alike last last') (c : Char) (s : Bytes) :
    lexeme last c s = lexeme last' c s := by
  unfold lexeme
  rw [shape_alike h]

theorem skipBlank_local {comment : Bool} {gap : Bytes} (h : skipBlank comment (gap ++ rest) = rest)
    (hrest : head rest ≠ nul) (hout : skipBlank false out = out) :
      skipBlank comment (gap ++ out) = out := by
  have hne : rest ≠ [] := by
    rintro rfl
    exact hrest rfl
  obtain ⟨d, r, rfl⟩ := List.exists_cons_of_ne_nil hne
  rw [head_cons] at hrest
  induction gap generalizing comment with
  | nil =>
    cases comment with
    | false => exact hout
    | true =>
      rw [List.nil_append, skipBlank, if_pos rfl] at h
      split at h
      · exact (not_suffix_self (List.suffix_refl _) (h ▸ skipBlank_suffix false r)).elim
      · exact (not_suffix_self (List.suffix_refl _) (h ▸ skipBlank_suffix true r)).elim
  | cons a gap ih =>
    have hlonger : a :: (gap ++ d :: r) ≠ d :: r := by
      intro heq
      have := congrArg List.length heq
      simp at this
      omega
    rw [List.cons_append, skipBlank] at h ⊢
    split at h
    · next hcomment =>
      rw [if_pos hcomment]
      split at h
      · next hline =>
        rw [if_pos hline]
        exact ih h
      · next hline =>
        rw [if_neg hline]
        split at h
        · exact absurd h hlonger
        · next hnul =>
          rw [if_neg hnul]
          exact ih h
    · next hcomment =>
      rw [if_neg hcomment]
      split at h
      · next hspace =>
        rw [if_pos hspace]
        exact ih h
      · next hspace =>
        rw [if_neg hspace]
        split at h
        · next hhash =>
          rw [if_pos hhash]
          exact ih h
        · exact absurd h hlonger

theorem skipBlank_skipBlank (comment : Bool) (s : Bytes) (h : head (skipBlank comment s) ≠ nul) :
    skipBlank false (skipBlank comment s) = skipBlank comment s := by
  induction s generalizing comment with
  | nil => exact absurd rfl h
  | cons c s ih =>
    rw [skipBlank] at h ⊢
    split at h
    · next hcomment =>
      rw [if_pos hcomment]
      split at h
      · next hline =>
        rw [if_pos hline]
        exact ih false h
      · next hline =>
        rw [if_neg hline]
        split at h
        · next hnul => exact absurd hnul h
        · next hnul =>
          rw [if_neg hnul]
          exact ih true h
    · next hcomment =>
      rw [if_neg hcomment]
      split at h
      · next hspace =>
        rw [if_pos hspace]
        exact ih false h
      · next hspace =>
        rw [if_neg hspace]
        split at h
        · next hhash =>
          rw [if_pos hhash]
          exact ih true h
        · next hhash =>
          rw [if_neg hhash]
          exact skipBlank_token hspace hhash s

theorem skipBlank_swap {s t : Bytes} (h : skipBlank false (c :: s) = c :: s) :
    skipBlank false (c :: t) = c :: t := by
  rw [skipBlank, if_neg Bool.false_ne_true] at h
  split at h
  · exact (not_suffix_self (List.suffix_refl _) (h ▸ skipBlank_suffix false s)).elim
  · next hspace =>
    split at h
    · exact (not_suffix_self (List.suffix_refl _) (h ▸ skipBlank_suffix true s)).elim
    · next hhash => exact skipBlank_token hspace hhash t

theorem stops_blank {d : Char} {s : Bytes} (h : skipBlank false (d :: s) ≠ d :: s) :
    Stops (d :: s) := by
  have hblank : isSpace d = true ∨ d = '#' := by
    by_contra hne
    rw [not_or] at hne
    exact h (skipBlank_token hne.1 hne.2 s)
  have hcases : d ∈ [' ', '\t', '\n', '\r', '#'] := by
    rcases hblank with hspace | rfl
    · simp only [isSpace, Bool.or_eq_true, beq_iff_eq] at hspace
      simp only [List.mem_cons]
      tauto
    · decide
  have hall : [' ', '\t', '\n', '\r', '#'].all (fun e => !isBranchChar e && e != '"') = true := by
    decide
  have hd := List.all_eq_true.mp hall d hcases
  rw [Bool.and_eq_true, Bool.not_eq_true', bne_iff_ne] at hd
  exact hd

end Local

section Chains

structure Piece where
  gap : Bytes
  text : Bytes
  tok : Token

/-- The lexer reads `p` and stops in front of `rest`, without an error. -/
structure Takes (last : TokenType) (s : Bytes) (p : Piece) (rest : Bytes) : Prop where
  split : s = p.gap ++ (p.text ++ rest)
  skip : skipBlank false s = p.text ++ rest
  lexed : ∃ c x, p.text = c :: x ∧ c ≠ nul ∧ lexeme last c (x ++ rest) = ⟨p.tok, rest, []⟩

theorem Takes.skipBlank_text {last : TokenType} {s rest x : Bytes} {c : Char} {p : Piece}
    (h : Takes last s p rest) (htext : p.text = c :: x) (hc : c ≠ nul) (out : Bytes) :
    skipBlank false (c :: x ++ out) = c :: x ++ out := by
  have hskip := h.skip
  rw [htext] at hskip
  have hidem := skipBlank_skipBlank false s (by rw [hskip]; exact hc)
  rw [hskip] at hidem
  exact skipBlank_swap hidem

/-- The pieces of a source up to its end of input, and what is left there. -/
inductive Chain : TokenType → Bytes → List Piece → Bytes → Prop
  | done {last : TokenType} {s : Bytes} : (next last s).tok.type = .eof → Chain last s [] s
  | token {last : TokenType} {s rest tail : Bytes} {p : Piece} {ps : List Piece} :
    Takes last s p rest → Chain p.tok.type rest ps tail → Chain last s (p :: ps) tail

/-- The spans of the pieces, from `pos` on. -/
def spans (pos : Nat) : List Piece → List SpanTok
  | [] => []
  | p :: ps =>
    ⟨p.tok, pos + p.gap.length, pos + p.gap.length + p.text.length⟩ ::
      spans (pos + p.gap.length + p.text.length) ps

theorem next_eof_iff {last : TokenType} {s : Bytes} :
    (next last s).tok.type = .eof ↔ head (skipBlank false s) = nul := by
  constructor
  · intro h
    by_contra hne
    exact lexeme_type_ne_eof hne _ h
  · intro h
    unfold next
    rw [h]
    rfl

theorem takes_next {last : TokenType} {s : Bytes} (htype : (next last s).tok.type ≠ .eof)
    (herrs : (next last s).errs = []) :
    ∃ p, Takes last s p (next last s).rest ∧ p.tok = (next last s).tok := by
  rw [ne_eq, next_eof_iff] at htype
  obtain ⟨gap, hgap⟩ := skipBlank_suffix false s
  cases hs : skipBlank false s with
  | nil =>
    rw [hs] at htype
    exact absurd rfl htype
  | cons c t =>
    rw [hs, head_cons] at htype
    have hnext : next last s = lexeme last c t := by
      unfold next
      rw [hs]
      rfl
    rw [hnext] at herrs ⊢
    obtain ⟨x, hx⟩ := lexeme_suffix last c t
    refine ⟨⟨gap, c :: x, (lexeme last c t).tok⟩, ⟨?_, ?_, c, x, rfl, htype, ?_⟩, rfl⟩
    · rw [List.cons_append, hx, ← hs, hgap]
    · rw [List.cons_append, hx, hs]
    · rw [hx]
      generalize lexeme last c t = y at herrs
      obtain ⟨tok, rest, errs⟩ := y
      exact congrArg (Lexeme.mk tok rest) herrs

namespace Lexer

variable {l l' : Lexer}

theorem collect_errs {n : Nat} {ts : List SpanTok} (h : collect n l = some (ts, l')) :
    l.errs <+: l'.errs := by
  induction n generalizing l ts with
  | zero => cases h
  | succ n ih =>
    obtain ⟨m, htok, hscan⟩ := l.nextToken_eq
    have hm : l.errs <+: m.errs := ⟨_, hscan.errs.symm⟩
    rw [collect, htok] at h
    dsimp only at h
    split at h
    · obtain ⟨-, rfl⟩ := Prod.mk.inj (Option.some.inj h)
      exact hm
    · obtain ⟨r, hr, heq⟩ := Option.map_eq_some_iff.mp h
      obtain ⟨-, rfl⟩ := Prod.mk.inj heq
      exact hm.trans (ih hr)

theorem collect_chain {n : Nat} {ts : List SpanTok} (h : collect n l = some (ts, l'))
    (herrs : l'.errs = []) :
    ∃ ps tail, Chain l.lastToken.type l.rest ps tail ∧
      ts = spans (l.input.length - l.rest.length) ps := by
  induction n generalizing l ts with
  | zero => cases h
  | succ n ih =>
    obtain ⟨m, htok, hscan⟩ := l.nextToken_eq
    rw [collect, htok] at h
    dsimp only at h
    split at h
    · next heof =>
      obtain ⟨rfl, -⟩ := Prod.mk.inj (Option.some.inj h)
      rw [hscan.lastToken] at heof
      exact ⟨[], l.rest, .done heof, rfl⟩
    · next htype =>
      obtain ⟨r, hr, heq⟩ := Option.map_eq_some_iff.mp h
      obtain ⟨rfl, rfl⟩ := Prod.mk.inj heq
      have hnone : m.errs = [] := by
        have hpre := collect_errs hr
        rw [herrs] at hpre
        exact List.prefix_nil.mp hpre
      have hnext : (next l.lastToken.type l.rest).errs = [] := by
        have := hscan.errs
        rw [hnone] at this
        exact (List.append_eq_nil_iff.mp this.symm).2
      rw [hscan.lastToken] at htype
      obtain ⟨p, htakes, hp⟩ := takes_next htype hnext
      obtain ⟨ps, tail, hchain, hspans⟩ := ih hr
      rw [← hscan.rest] at htakes
      have htype' : m.lastToken.type = p.tok.type := by rw [hscan.lastToken, hp]
      rw [htype'] at hchain
      refine ⟨p :: ps, tail, .token htakes hchain, ?_⟩
      have hlen := congrArg List.length htakes.split
      have hskip := congrArg List.length htakes.skip
      have hin : l.rest.length ≤ l.input.length := by
        rw [length_rest]
        omega
      have hstart := hscan.start
      have hstop := m.spanEnd_eq
      rw [List.length_append, List.length_append] at hlen
      rw [List.length_append] at hskip
      rw [hscan.input] at hspans hstop
      have hpos : l.input.length - l.rest.length + p.gap.length = m.start := by omega
      have hend : m.start + p.text.length = m.spanEnd := by omega
      rw [spans, hpos, hend, hspans, hstop, hp, hscan.lastToken]

theorem collect_isSome {n : Nat} (hn : l.rest.length < n) : (collect n l).isSome = true := by
  induction n generalizing l with
  | zero => omega
  | succ n ih =>
    obtain ⟨m, htok, hscan⟩ := l.nextToken_eq
    rw [collect, htok]
    dsimp only
    split
    · rfl
    · next htype =>
      rw [hscan.lastToken, next_eof_iff] at htype
      have hlt : m.rest.length < n := by
        obtain ⟨c, s, hs⟩ : ∃ c s, skipBlank false l.rest = c :: s := by
          cases hs : skipBlank false l.rest with
          | nil =>
            rw [hs] at htype
            exact absurd rfl htype
          | cons c s => exact ⟨c, s, rfl⟩
        have hblank := (skipBlank_suffix false l.rest).length_le
        have hlex := (lexeme_suffix l.lastToken.type c s).length_le
        rw [hscan.rest, next, hs]
        rw [hs, List.length_cons] at hblank
        exact lt_of_le_of_lt hlex (by omega)
      rw [Option.isSome_map]
      exact ih hlt

end Lexer

theorem lex_isSome (src : Bytes) : (lex src).isSome = true := by
  rw [lex, Option.isSome_map]
  apply Lexer.collect_isSome
  exact Nat.lt_succ_self _

theorem lex_chain {src : Bytes} {ts : List SpanTok} (h : lex src = some (ts, [])) :
    ∃ ps tail, Chain .untyped src ps tail ∧ ts = spans 0 ps := by
  obtain ⟨r, hr, heq⟩ := Option.map_eq_some_iff.mp h
  obtain ⟨rfl, herrs⟩ := Prod.mk.inj heq
  obtain ⟨ps, tail, hchain, hspans⟩ := Lexer.collect_chain hr herrs
  have hpos : (Lexer.new src).input.length - (Lexer.new src).rest.length = 0 := Nat.sub_self _
  rw [hpos] at hspans
  exact ⟨ps, tail, hchain, hspans⟩

end Chains

end ThanksComputer.Txcl
