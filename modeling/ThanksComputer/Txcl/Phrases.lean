import ThanksComputer.Txcl.Sound

/-! The phrases of a rule and the loop over them: every reader ends on a token that was in front of
it, and the predicates it makes are in the grammar. -/

namespace ThanksComputer.Txcl

open Lib (Outcome)

variable {F R : Type} (H : Host F R)

section Steps

variable {p q q' : Parser} {w : List Token}

/-- A reader stands on one of the tokens that were left. -/
def Within (p q : Parser) : Prop :=
  q.toks <:+ p.toks

structure Past (p q : Parser) : Prop where
  within : Within p q
  shorter : q.nextToken.toks.length < p.toks.length

theorem Within.refl (p : Parser) : Within p p :=
  List.suffix_refl _

theorem within_nextToken (p : Parser) : Within p p.nextToken :=
  List.tail_suffix _

theorem Within.trans (h : Within p q) (h' : Within q q') : Within p q' :=
  List.IsSuffix.trans h' h

theorem Within.after_nextToken (h : Within p.nextToken q) : Within p q :=
  (within_nextToken p).trans h

theorem Gave.within (h : Gave p q) : Within p q :=
  h.suffix

theorem Took.past (h : Took p w q) : Past p q :=
  ⟨h.suffix, h.length_lt⟩

theorem past_self (h : p.cur.type ≠ .eof) : Past p p :=
  (Took.one h).past

theorem Past.after_nextToken (h : Past p.nextToken q) : Past p q :=
  ⟨h.within.after_nextToken,
    Nat.lt_of_lt_of_le h.shorter (within_nextToken p).length_le⟩

theorem Past.trans (h : Past p q) (h' : Within q q') : Past p q' := by
  refine ⟨h.within.trans h', ?_⟩
  have hlen := List.IsSuffix.length_le h'
  have hshort := h.shorter
  rw [Parser.toks_nextToken, List.length_tail] at hshort ⊢
  omega

theorem length_nextToken_lt (hne : p.cur.type ≠ .eof) (h : Within p q) :
    q.nextToken.toks.length < p.toks.length :=
  ((past_self hne).trans h).shorter

variable {α β : Type} {x : Outcome Parser α}

/-- The reader ends with tokens taken, or gives up among those that were left. -/
def Passes (p : Parser) (x : Outcome Parser α) : Prop :=
  x.Meets (fun _ q => Past p q) (Within p)

def Stays (p : Parser) (x : Outcome Parser α) : Prop :=
  x.Meets (fun _ q => Within p q) (Within p)

theorem Passes.after_nextToken (h : Passes p.nextToken x) : Passes p x :=
  h.imp (fun _ _ hq => hq.after_nextToken) fun _ hq => hq.after_nextToken

theorem Passes.map {f : α → β} (h : Passes p x) : Passes p (x.map f) :=
  Outcome.Meets.map h fun _ _ hq => hq

theorem Passes.bind {f : α → Parser → Outcome Parser β} (h : Passes p x)
    (hf : ∀ a q, Past p q → Stays p (f a q)) : Stays p (x.bind f) :=
  Outcome.Meets.bind h hf

theorem Stays.from (h : Within p q) {y : Outcome Parser α} (hy : Stays q y) : Stays p y :=
  hy.imp (fun _ _ h' => h.trans h') fun _ h' => h.trans h'

theorem valueHere_passes (p : Parser) : Passes p (valueHere H p) :=
  (valueHere_sound H p).imp (fun _ _ ⟨_, htook, _⟩ => htook.past) fun _ hgave => hgave.within

end Steps

section Entries

variable {p : Parser}

theorem parseAssignment_passes (expecting : String) (p : Parser) :
    Passes p (parseAssignment H expecting p) := by
  rw [parseAssignment]
  split
  · exact (gave_error _ _).within
  split
  · exact (gave_error _ _).within.after_nextToken
  · exact (valueHere_passes H _).after_nextToken.after_nextToken.map

theorem parseWithEntry_passes (p : Parser) : Passes p (parseWithEntry H p) := by
  rw [parseWithEntry]
  split
  · exact (gave_error _ _).within
  split
  · split
    · exact (gave_error _ _).within.after_nextToken.after_nextToken
    · exact (valueHere_passes H _).after_nextToken.after_nextToken.after_nextToken.map
  · split
    · exact (gave_error _ _).within.after_nextToken
    · exact (valueHere_passes H _).after_nextToken.after_nextToken.map

variable {α : Type} {skips stops : List TokenType} {entry : Parser → Outcome Parser α}

theorem parseEntries_stop {n : Nat} {acc : List α} (h : p.peek.type ∈ stops) :
    parseEntries skips stops entry (n + 1) acc p = .ok acc p := by
  rw [parseEntries, if_neg fun hgo => hgo.2 h]

theorem parseEntries_stays (hentry : ∀ p, Passes p (entry p)) {n : Nat} (hn : p.toks.length < n)
    (acc : List α) : Stays p (parseEntries skips stops entry n acc p) := by
  induction n generalizing p acc with
  | zero => omega
  | succ n ih =>
    rw [parseEntries]
    split
    · have hfirst : Passes p (entry (if p.cur.type ∈ skips then p.nextToken else p)) := by
        split
        · exact (hentry _).after_nextToken
        · exact hentry p
      refine hfirst.bind fun e q hq => ?_
      -- over a comma
      obtain ⟨r, hr, hpast⟩ :
          ∃ r, (if q.peek.type = .comma then q.nextToken else q) = r ∧ Past p r := by
        split
        · exact ⟨_, rfl, hq.trans (within_nextToken q)⟩
        · exact ⟨_, rfl, hq⟩
      have hshort := hpast.shorter
      rw [stepOver, hr]
      split
      · exact (ih (by omega) _).from (hpast.within.trans (within_nextToken r))
      · next hstop =>
        obtain ⟨m, rfl⟩ : ∃ m, n = m + 1 := ⟨n - 1, by omega⟩
        rw [parseEntries_stop (not_not.mp hstop)]
        exact hpast.within
    · exact Within.refl p

end Entries

section Select

variable {p : Parser}

theorem parseSelectDest_passes (hb : p.cur.type = .branch) : Passes p (parseSelectDest p) := by
  have hself : Past p p := past_self (by rw [hb]; decide)
  rw [parseSelectDest]
  split
  · split
    · exact (gave_error _ _).within.after_nextToken
    · exact hself.trans ((within_nextToken p).trans (within_nextToken _))
  · exact hself

theorem parseSelectDefault_stays (p : Parser) : Stays p (parseSelectDefault H p) := by
  rw [parseSelectDefault]
  split
  · exact (valueHere_passes H _).after_nextToken.after_nextToken.map.imp (fun _ _ hq => hq.within)
      fun _ hq => hq
  · exact Within.refl p

theorem parseSelectItems_stays {n : Nat} (hn : p.toks.length < n)
    (acc : List (SelectAssignment F)) : Stays p (parseSelectItems H n acc p) := by
  induction n generalizing p acc with
  | zero => omega
  | succ n ih =>
    rw [parseSelectItems]
    split
    · exact (gave_error _ _).within.after_nextToken
    next hb =>
    refine ((parseSelectDest_passes (not_not.mp hb)).after_nextToken).bind fun dest q hq => ?_
    refine Outcome.Meets.bind (parseSelectDefault_stays H q |>.imp (fun _ _ h => hq.trans h)
      fun _ h => hq.within.trans h) fun dflt r hr => ?_
    split
    · have hshort := hr.shorter
      exact (ih (by omega) _).from (hr.within.trans (within_nextToken r))
    · exact hr.within

end Select

section Loops

variable {p : Parser}

def Grammatical (e : WhenExpr F R) : Prop :=
  e = .starred ∨ ∃ w parts, OrToks H w parts ∧ e = joined .ofOr parts

theorem parseLoopSet_stays {n : Nat} (hn : p.toks.length < n) (acc : List (BranchValue F)) :
    Stays p (parseLoopSet H n acc p) := by
  induction n generalizing p acc with
  | zero => omega
  | succ n ih =>
    rw [parseLoopSet]
    refine (parseAssignment_passes H _ _).after_nextToken.bind fun bv q hq => ?_
    split
    · exact hq.within
    · have hshort := hq.shorter
      exact (ih (by omega) _).from (hq.within.trans (within_nextToken q))

theorem parseLoopUntil_sound (p : Parser) :
    (parseLoopUntil H p).Meets (fun e q => Within p q ∧ Grammatical H e) (Within p) := by
  rw [parseLoopUntil]
  split
  · exact (gave_error _ _).within
  · have hsound := parseWhenOr_sound H p.turns { p.nextToken with predicateKeyword := "LOOP UNTIL" }
      (Nat.lt_succ_of_le (within_nextToken p).length_le)
    generalize parseWhenOr H p.turns { p.nextToken with predicateKeyword := "LOOP UNTIL" } = x
      at hsound
    cases x with
    | ok e q =>
      obtain ⟨w, parts, htook, hor, rfl⟩ := hsound
      exact ⟨(within_nextToken p).trans htook.suffix, .inr ⟨w, parts, hor, rfl⟩⟩
    | nil q => exact (within_nextToken p).trans hsound.suffix
    | stuck => exact hsound

theorem parseLoopEvery_stays (p : Parser) : Stays p (parseLoopEvery H p) := by
  rw [parseLoopEvery]
  split
  · split
    · exact (gave_error _ _).within
    · split
      · exact (gave_error _ _).within
      · exact Within.refl p
  · split
    · exact (gave_error _ _).within
    · exact Within.refl p
  · exact (gave_error _ _).within

theorem parseLoopMax_stays (p : Parser) : Stays p (parseLoopMax p) := by
  rw [parseLoopMax]
  split
  · exact (gave_error _ _).within
  split
  · exact (gave_error _ _).within
  · exact Within.refl p

theorem toks_note (seen : List Modifier) (m : Modifier) (p : Parser) :
    (note seen m p).toks = p.toks := by
  rw [note]
  split
  · rfl
  · rfl

theorem parseLoopModifiers_sound {n : Nat} (hn : p.toks.length < n) (seen : List Modifier)
    (l : Loop F R) (hl : ∀ e, l.untilExpr = some e → Grammatical H e) :
    (parseLoopModifiers H n seen l p).Meets
      (fun l' q => Within p q ∧ ∀ e, l'.untilExpr = some e → Grammatical H e) (Within p) := by
  induction n generalizing p seen l with
  | zero => omega
  | succ n ih =>
    -- one modifier, then the rest
    have hrest : p.peek.type ≠ .eof → ∀ {q : Parser} {m : Modifier} {l' : Loop F R},
        Within p.nextToken q → (∀ e, l'.untilExpr = some e → Grammatical H e) →
        (parseLoopModifiers H n (m :: seen) l' (note seen m q)).Meets
          (fun l'' q' => Within p q' ∧ ∀ e, l''.untilExpr = some e → Grammatical H e)
          (Within p) := by
      intro hne q m l' hq hl'
      have hlen : (note seen m q).toks.length < n := by
        have hpast := (past_self (p := p.nextToken) hne).shorter
        have hle := List.IsSuffix.length_le hq
        have hnext := (within_nextToken p).length_le
        rw [Parser.toks_nextToken, List.length_tail] at hpast hle
        rw [toks_note]
        omega
      have hwithin : Within p (note seen m q) := by
        rw [Within, toks_note]
        exact hq.after_nextToken
      exact (ih hlen (m :: seen) l' hl').imp (fun _ _ h => ⟨hwithin.trans h.1, h.2⟩)
        fun _ h => hwithin.trans h
    rw [parseLoopModifiers]
    split
    · next ht =>
      refine Outcome.Meets.bind ((parseLoopUntil_sound H p.nextToken).imp (fun _ _ h => h)
        fun _ h => h.after_nextToken) fun e q hq => ?_
      refine hrest (by rw [ht]; decide) hq.1 fun e' he' => ?_
      cases he'
      exact hq.2
    split
    · next ht =>
      have hp : p.nextToken.toks.length < p.turns :=
        Nat.lt_succ_of_le (within_nextToken p).length_le
      exact Outcome.Meets.bind ((parseLoopSet_stays H hp []).imp (fun _ _ h => h)
        fun _ h => h.after_nextToken) fun _ q hq => hrest (by rw [ht]; decide) hq hl
    split
    · next hword =>
      rw [peekIsWord, Bool.and_eq_true, beq_iff_eq] at hword
      exact Outcome.Meets.bind ((parseLoopEvery_stays H _).imp (fun _ _ h => h.after_nextToken)
        fun _ h => h.after_nextToken.after_nextToken)
        fun _ q hq => hrest (by rw [hword.1]; decide) hq hl
    split
    · next hword =>
      rw [peekIsWord, Bool.and_eq_true, beq_iff_eq] at hword
      exact Outcome.Meets.bind ((parseLoopMax_stays _).imp (fun _ _ h => h.after_nextToken)
        fun _ h => h.after_nextToken.after_nextToken)
        fun _ q hq => hrest (by rw [hword.1]; decide) hq hl
    split
    · exact (gave_error _ _).within
    · exact ⟨Within.refl p, hl⟩

end Loops

section Phrases

/-- The predicates of a phrase. -/
def Phrase.exprs : Phrase F R → List (WhenExpr F R)
  | .when_ w => w.expr.toList
  | .loop l => l.untilExpr.toList
  | _ => []

structure Clause (p : Parser) (phrase : Phrase F R) (q : Parser) : Prop where
  within : Within p q
  exprs : ∀ e ∈ phrase.exprs, Grammatical H e

def ReadsPhrase (p : Parser) (x : Outcome Parser (Phrase F R)) : Prop :=
  x.Meets (fun phrase q => Clause H p phrase q) (Within p)

variable {p : Parser}

theorem Stays.phrase {α : Type} {x : Outcome Parser α} (h : Stays p x) {f : α → Phrase F R}
    (hf : ∀ a, (f a).exprs = []) : ReadsPhrase H p (x.map f) :=
  Outcome.Meets.map h fun a _ hq => ⟨hq, fun e he => by rw [hf] at he; cases he⟩

theorem parseWhenPhrase_sound (p : Parser) : ReadsPhrase H p (parseWhenPhrase H p) := by
  have hstarred : ∀ e ∈ (Phrase.when_ ⟨some .starred, []⟩ : Phrase F R).exprs, Grammatical H e := by
    intro e he
    rw [List.mem_singleton.mp he]
    exact .inl rfl
  rw [parseWhenPhrase]
  split
  · exact ⟨within_nextToken p, hstarred⟩
  split
  · exact ⟨Within.refl p, hstarred⟩
  · have hp : p.nextToken.toks.length < p.turns :=
      Nat.lt_succ_of_le (within_nextToken p).length_le
    refine Outcome.Meets.map ((parseWhenOr_sound H p.turns p.nextToken hp).imp (fun _ _ h => h)
      fun _ h => h.within.after_nextToken) ?_
    rintro _ q ⟨w, parts, htook, hor, rfl⟩
    refine ⟨(within_nextToken p).trans htook.suffix, fun e he => ?_⟩
    rw [List.mem_singleton.mp he]
    exact .inr ⟨w, parts, hor, rfl⟩

theorem parsePriorityPhrase_sound (p : Parser) : ReadsPhrase H p (parsePriorityPhrase H p) := by
  rw [parsePriorityPhrase]
  split
  · exact (gave_error _ _).within.after_nextToken
  · exact ⟨within_nextToken p, fun e he => absurd he List.not_mem_nil⟩

theorem parseExecPhrase_sound (p : Parser) : ReadsPhrase (R := R) H p (parseExecPhrase p) := by
  rw [parseExecPhrase]
  split
  · exact (gave_error _ _).within
  · exact ⟨within_nextToken p, fun e he => absurd he List.not_mem_nil⟩

theorem parseSelectPhrase_sound (p : Parser) : ReadsPhrase H p (parseSelectPhrase H p) := by
  rw [parseSelectPhrase]
  split
  · split
    · exact (gave_error _ _).within.after_nextToken
    · exact ⟨within_nextToken p, fun e he => absurd he List.not_mem_nil⟩
  · exact Outcome.Meets.bind (parseSelectItems_stays H (Nat.lt_succ_self _) [])
      fun _ _ hq => ⟨hq, fun e he => absurd he List.not_mem_nil⟩

theorem parseLoopPhrase_sound (p : Parser) : ReadsPhrase H p (parseLoopPhrase H p) := by
  rw [parseLoopPhrase]
  refine Outcome.Meets.map (parseLoopModifiers_sound H (Nat.lt_succ_self _) []
    ⟨none, .zero, .zero, []⟩ fun e he => by cases he) ?_
  rintro l q ⟨hq, hl⟩
  exact ⟨hq, fun e he => hl e (Option.mem_toList.mp he)⟩

theorem parseGarbage_within (p : Parser) : Within p (parseGarbage H p) := by
  rw [parseGarbage]
  split
  · exact List.suffix_refl _
  · exact Within.refl p

theorem parseEventPhrase_sound (p : Parser) :
    ReadsPhrase H { p with inGarbage := false } (parseEventPhrase H p) := by
  have hset (expecting : String) {skips stops : List TokenType}
      {f : List (BranchValue F) → Phrase F R} (hf : ∀ os, (f os).exprs = []) (p : Parser) :
      ReadsPhrase H p
        ((parseEntries skips stops (parseAssignment H expecting) p.turns [] p).map f) :=
    (parseEntries_stays (parseAssignment_passes H expecting) (Nat.lt_succ_self _) []).phrase H hf
  unfold parseEventPhrase
  dsimp only
  split
  · exact parseWhenPhrase_sound H _
  · split
    · exact hset _ (fun _ => rfl) _
    · exact hset _ (fun _ => rfl) _
  · exact (parseEntries_stays (parseWithEntry_passes H) (Nat.lt_succ_self _) []).phrase H
      fun _ => rfl
  · exact parseSelectPhrase_sound H _
  · exact parsePriorityPhrase_sound H _
  · exact parseExecPhrase_sound H _
  · exact hset _ (fun _ => rfl) _
  · exact parseLoopPhrase_sound H _
  · exact parseGarbage_within H p

end Phrases

section Event

variable {p q : Parser}

structure Finished (p : Parser) (phrases : List (Phrase F R)) (q : Parser) : Prop where
  eof : q.cur.type = .eof
  within : Within p q
  exprs : ∀ phrase ∈ phrases, ∀ e ∈ phrase.exprs, Grammatical H e

theorem parsePhrases_sound {n : Nat} (hn : p.toks.length < n) (phrases : List (Phrase F R)) :
    (parsePhrases H n phrases p).Meets
      (fun all q => ∃ new, all = phrases ++ new ∧ Finished H p new q) (fun _ => False) := by
  induction n generalizing p phrases with
  | zero => omega
  | succ n ih =>
    rw [parsePhrases]
    split
    · next heof =>
      exact ⟨[], (List.append_nil _).symm, heof, Within.refl p, List.forall_mem_nil _⟩
    · next hne =>
      have hphrase := parseEventPhrase_sound H p
      generalize parseEventPhrase H p = x at hphrase
      cases x with
      | ok phrase q =>
        have hlen := length_nextToken_lt hne hphrase.within
        refine (ih (p := q.nextToken) (by omega) (phrases ++ [phrase])).imp ?_ fun _ h => h
        rintro all q' ⟨new, rfl, hfinished⟩
        exact ⟨phrase :: new, by simp, hfinished.eof,
          hphrase.within.trans hfinished.within.after_nextToken,
          List.forall_mem_cons.mpr ⟨hphrase.exprs, hfinished.exprs⟩⟩
      | nil q =>
        have hlen := length_nextToken_lt (q := q) hne hphrase
        refine (ih (p := q.nextToken) (by omega) phrases).imp ?_ fun _ h => h
        rintro all q' ⟨new, rfl, hfinished⟩
        exact ⟨new, rfl, hfinished.eof, Within.trans hphrase hfinished.within.after_nextToken,
          hfinished.exprs⟩
      | stuck => exact hphrase

theorem parsePhrases_cons {n : Nat} {phrase : Phrase F R} (hn : p.toks.length < n)
    (hne : p.cur.type ≠ .eof) (hphrase : parseEventPhrase H p = .ok phrase q) :
    ∃ new q', parsePhrases H n [] p = .ok (phrase :: new) q' ∧
      (q.nextToken.toks = [] → new = [] ∧ q' = q.nextToken) := by
  obtain ⟨n, rfl⟩ : ∃ m, n = m + 1 := ⟨n - 1, by omega⟩
  have hfirst : parsePhrases H (n + 1) [] p = parsePhrases H n [phrase] q.nextToken := by
    rw [parsePhrases, if_neg hne, hphrase]
    rfl
  have hsound := parseEventPhrase_sound H p
  rw [hphrase] at hsound
  have hlen := length_nextToken_lt hne hsound.within
  have hmore := parsePhrases_sound H (p := q.nextToken) (n := n) (by omega) [phrase]
  rw [hfirst]
  generalize hx : parsePhrases H n [phrase] q.nextToken = x at hmore
  cases x with
  | ok all q' =>
    obtain ⟨new, rfl, -⟩ := hmore
    refine ⟨new, q', rfl, ?_⟩
    intro hnil
    obtain ⟨m, rfl⟩ : ∃ m, n = m + 1 := ⟨n - 1, by omega⟩
    have heof : q.nextToken.cur.type = .eof := by
      rw [Parser.cur, hnil]
      rfl
    rw [parsePhrases, if_pos heof, Outcome.ok.injEq, List.singleton_append, List.cons.injEq] at hx
    exact ⟨hx.1.2.symm, hx.2.symm⟩
  | nil q' => exact hmore.elim
  | stuck => exact hmore.elim

def Parser.checked (q : Parser) (phrases : List (Phrase F R)) : Parser :=
  { q with errors := q.errors ++ checkLoop H (resonatorOf phrases) ++
      checkGoto H (resonatorOf phrases) ++ checkCall H (resonatorOf phrases) }

theorem parseEvent_eq {phrases : List (Phrase F R)}
    (h : parsePhrases H p.turns [] { p with seenSelect := false } = .ok phrases q) :
    parseEvent H p = .ok phrases (q.checked H phrases) := by
  rw [parseEvent, h]
  rfl

theorem parseEvent_sound (p : Parser) :
    ∃ phrases q, parseEvent H p = .ok phrases (q.checked H phrases) ∧
      Finished H { p with seenSelect := false } phrases q := by
  have hsound := parsePhrases_sound H (p := { p with seenSelect := false }) (Nat.lt_succ_self _) []
  have hturns : ({ p with seenSelect := false } : Parser).toks.length.succ = p.turns := rfl
  rw [hturns] at hsound
  generalize hx : parsePhrases H p.turns [] { p with seenSelect := false } = x at hsound
  cases x with
  | ok phrases q =>
    obtain ⟨new, rfl, hfinished⟩ := hsound
    exact ⟨_, q, parseEvent_eq H hx, hfinished⟩
  | nil q => exact hsound.elim
  | stuck => exact hsound.elim

end Event

end ThanksComputer.Txcl
