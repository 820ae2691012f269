import ThanksComputer.Txcl.Phrases

/-! `ParseEvent` returns, however many ends of input are behind the tokens.  No reader of a clause
passes an end of input: it goes on only from a token that is none. -/

namespace ThanksComputer.Txcl

open Lib (Outcome)

def Eofs : Type :=
  { es : List Token // ∀ t ∈ es, t.type = .eof }

variable {es : Eofs} {p q : Parser}

section Steps

def Short (es : Eofs) (p : Parser) : Prop :=
  es.1 <:+ p.toks

structure On (es : Eofs) (p : Parser) : Prop where
  short : Short es p
  cur : p.cur.type ≠ .eof

theorem On.nextToken (h : On es p) : Short es p.nextToken := by
  obtain ⟨ts, hts⟩ := h.short
  cases ts with
  | nil =>
    refine absurd ?_ h.cur
    rw [List.nil_append] at hts
    rw [Parser.cur, ← hts]
    cases hes : es.1 with
    | nil => rfl
    | cons t _ => exact es.2 t (hes ▸ List.mem_cons_self)
  | cons t ts =>
    refine ⟨ts, ?_⟩
    rw [Parser.toks_nextToken, ← hts]
    rfl

theorem On.of_cur {t : TokenType} (h : Short es p) (hcur : p.cur.type = t) (ht : t ≠ .eof) :
    On es p :=
  ⟨h, by rwa [hcur]⟩

theorem Short.onNext (h : Short es p) (hpeek : p.peek.type ≠ .eof) : On es p.nextToken := by
  refine ⟨?_, hpeek⟩
  by_cases hcur : p.cur.type = .eof
  · obtain ⟨ts, hts⟩ := h
    cases ts with
    | nil =>
      refine absurd ?_ hpeek
      rw [List.nil_append] at hts
      rw [Parser.peek, ← hts]
      cases hes : es.1.tail with
      | nil => rfl
      | cons t _ => exact es.2 t (List.mem_of_mem_tail (hes ▸ List.mem_cons_self))
    | cons t ts =>
      refine ⟨ts, ?_⟩
      rw [Parser.toks_nextToken, ← hts]
      rfl
  · exact On.nextToken ⟨h, hcur⟩

theorem Short.onPeek {t : TokenType} (h : Short es p) (hpeek : p.peek.type = t) (ht : t ≠ .eof) :
    On es p.nextToken :=
  h.onNext (by rwa [hpeek])

/-- A reader that ends on a token it has taken, or gives up, in front of the ends of input. -/
def StopsShort {α : Type} (es : Eofs) (x : Outcome Parser α) : Prop :=
  x.Leaves (On es) (Short es)

end Steps

variable {F R : Type} (H : Host F R)

section Values

theorem parseArrayItems_stops {item : Parser → Outcome Parser (Lit F)}
    (hitem : ∀ p, Short es p → StopsShort es (item p)) (n : Nat) (items : List (Lit F))
    (hp : On es p) :
    StopsShort es (parseArrayItems item n items p) := by
  induction n generalizing items p with
  | zero => trivial
  | succ n ih =>
    rw [parseArrayItems]
    split
    · next hclose => exact .of_cur hp.nextToken hclose (by decide)
    · refine Outcome.Leaves.bind (hitem _ hp.nextToken) fun v q hq => ?_
      split
      · next hcomma => exact ih _ (hq.short.onPeek hcomma (by decide))
      · split
        · next hclose => exact hq.short.onPeek hclose (by decide)
        · exact hq.nextToken

theorem parseArrayLiteral_stops {item : Parser → Outcome Parser (Lit F)}
    (hitem : ∀ p, Short es p → StopsShort es (item p)) (hp : On es p) :
      StopsShort es (parseArrayLiteral item p) := by
  rw [parseArrayLiteral]
  split
  · next hclose => exact hp.short.onPeek hclose (by decide)
  · exact parseArrayItems_stops hitem _ _ hp

theorem parseLiteralValue_stops (depth : Nat) (hp : Short es p) :
    StopsShort es (parseLiteralValue H depth p) := by
  induction depth generalizing p with
  | zero => trivial
  | succ depth ih =>
    rw [parseLiteralValue]
    split
    · next ht => exact .of_cur hp ht (by decide)
    · next ht => exact .of_cur hp ht (by decide)
    · next ht => exact .of_cur hp ht (by decide)
    · next ht => exact .of_cur hp ht (by decide)
    · next ht => exact .of_cur hp ht (by decide)
    · next ht => exact parseArrayLiteral_stops (fun _ => ih) (.of_cur hp ht (by decide))
    · exact hp

theorem parseArgs_stops {arg : Parser → Outcome Parser (Value F)}
    (harg : ∀ p, Short es p → StopsShort es (arg p)) (name : Bytes) (n : Nat)
    (args : List (Value F)) (hp : On es p) : StopsShort es (parseArgs arg name n args p) := by
  induction n generalizing args p with
  | zero => trivial
  | succ n ih =>
    rw [parseArgs]
    refine Outcome.Leaves.bind (harg _ hp.nextToken) fun v q hq => ?_
    split
    · next hcomma => exact ih _ (hq.short.onPeek hcomma (by decide))
    · split
      · next hclose => exact hq.short.onPeek hclose (by decide)
      · exact hq.nextToken

theorem parseFunctionCall_stops {arg : Parser → Outcome Parser (Value F)}
    (harg : ∀ p, Short es p → StopsShort es (arg p)) (hp : On es p) :
      StopsShort es (parseFunctionCall arg p) := by
  rw [parseFunctionCall]
  split
  · exact hp.nextToken
  · next hopen =>
    have hnext := hp.short.onPeek (Decidable.not_not.mp hopen) (by decide)
    split
    · next hclose => exact hnext.short.onPeek hclose (by decide)
    · exact parseArgs_stops harg _ _ _ hnext

theorem parseValueExpr_stops (depth : Nat) (hp : Short es p) :
    StopsShort es (parseValueExpr H depth p) := by
  induction depth generalizing p with
  | zero => trivial
  | succ depth ih =>
    rw [parseValueExpr]
    split
    · next ht => exact (parseFunctionCall_stops (fun _ => ih) (.of_cur hp ht (by decide))).map
    · split
      · next ht => exact .of_cur hp ht (by decide)
      · exact (parseLiteralValue_stops H _ hp).map

theorem valueHere_stops (hp : Short es p) : StopsShort es (valueHere H p) :=
  parseValueExpr_stops H _ hp

end Values

section Predicates

theorem parseLeafCall_stops (branch : Bytes) (m : MatchType) (hp : On es p) :
    StopsShort es (parseLeafCall H branch m p) := by
  rw [parseLeafCall]
  split
  · exact hp.short
  · refine Outcome.Leaves.bind (parseFunctionCall_stops (fun _ => parseValueExpr_stops H _) hp)
      fun fc q hq => ?_
    split
    · exact hq.short
    · dsimp only [StopsShort, Outcome.Leaves]
      split
      · exact ⟨hq.short, hq.cur⟩
      · exact hq

theorem parseLeafScalar_stops (branch : Bytes) (m : MatchType) (hp : Short es p) :
    StopsShort es (parseLeafScalar H branch m p) := by
  rw [parseLeafScalar]
  split
  · exact hp
  · next hscalar =>
    split
    · exact hp
    · refine ⟨hp, fun heof => hscalar ?_⟩
      rw [heof]
      decide

theorem ne_eof_of_isComparison {t : TokenType} (h : isComparison t = true) : t ≠ .eof := by
  rintro rfl
  cases h

theorem parseWhenLeaf_stops (hp : Short es p) : StopsShort es (parseWhenLeaf H p) := by
  rw [parseWhenLeaf]
  split
  · exact hp
  · next hbranch =>
    have hnext := (On.of_cur hp (Decidable.not_not.mp hbranch) (by decide)).nextToken
    split
    · exact hnext
    · next hcompare =>
      rw [Bool.not_eq_true', Bool.not_eq_false] at hcompare
      have hvalue := On.nextToken ⟨hnext, ne_eof_of_isComparison hcompare⟩
      dsimp only
      split
      · next hcall => exact parseLeafCall_stops H _ _ (.of_cur hvalue hcall (by decide))
      · exact parseLeafScalar_stops H _ _ hvalue

variable {group : Parser → Outcome Parser (WhenExpr F R)}

theorem parseWhenPrimary_stops (hgroup : ∀ p, Short es p → StopsShort es (group p))
    (hp : Short es p) :
    StopsShort es (parseWhenPrimary H group p) := by
  rw [parseWhenPrimary]
  split
  · next hopen =>
    split
    · exact hp
    · have hnext := (On.of_cur hp hopen (by decide)).nextToken
      refine Outcome.Leaves.bind (hgroup _ hnext) fun inner q hq => ?_
      split
      · exact hq.short
      · next hclose => exact hq.short.onPeek (Decidable.not_not.mp hclose) (by decide)
  · exact parseWhenLeaf_stops H hp

theorem parseWhenNot_stops (hgroup : ∀ p, Short es p → StopsShort es (group p)) (n : Nat)
    (hp : Short es p) :
    StopsShort es (parseWhenNot H group n p) := by
  induction n generalizing p with
  | zero => trivial
  | succ n ih =>
    rw [parseWhenNot]
    split
    · next hbang =>
      split
      · exact hp
      · exact (ih (On.of_cur hp hbang (by decide)).nextToken).map
    · exact parseWhenPrimary_stops H hgroup hp

theorem parseOperands_stops {joins : List TokenType} (hjoins : .eof ∉ joins)
    (shown : Token → String) {operand : Parser → Outcome Parser (WhenExpr F R)}
    (hoperand : ∀ p, Short es p → StopsShort es (operand p)) (n : Nat) (parts : List (WhenExpr F R))
    (hp : On es p) :
    StopsShort es (parseOperands joins shown operand n parts p) := by
  induction n generalizing parts p with
  | zero => trivial
  | succ n ih =>
    rw [parseOperands]
    split
    · next hjoin =>
      have hnext : On es p.nextToken := hp.short.onNext fun heof => hjoins (heof ▸ hjoin)
      split
      · exact hnext.short
      · exact Outcome.Leaves.bind (hoperand _ hnext.nextToken) fun right q hq => ih _ hq
    · exact hp

theorem parseWhenAnd_stops (hgroup : ∀ p, Short es p → StopsShort es (group p)) (hp : Short es p) :
    StopsShort es (parseWhenAnd H group p) := by
  refine Outcome.Leaves.bind (parseWhenNot_stops H hgroup _ hp) fun first q hq => ?_
  exact (parseOperands_stops (by decide) _ (fun _ h => parseWhenNot_stops H hgroup _ h) _ _ hq).map

theorem parseWhenOr_stops (depth : Nat) (hp : Short es p) :
    StopsShort es (parseWhenOr H depth p) := by
  induction depth generalizing p with
  | zero => trivial
  | succ depth ih =>
    refine Outcome.Leaves.bind (parseWhenAnd_stops H (fun _ => ih) hp) fun first q hq => ?_
    exact (parseOperands_stops (by decide) _ (fun _ => parseWhenAnd_stops H fun _ => ih) _ _ hq).map

end Predicates

section Clauses

/-- A reader of a clause that leaves the ends of input, whether it reads the clause or not. -/
def Spares {α : Type} (es : Eofs) (x : Outcome Parser α) : Prop :=
  x.Leaves (Short es) (Short es)

theorem StopsShort.spares {α : Type} {x : Outcome Parser α} (h : StopsShort es x) : Spares es x :=
  h.imp (fun _ hs => hs.short) fun _ hs => hs

theorem parseWhenPhrase_spares (hp : On es p) : Spares es (parseWhenPhrase H p) := by
  rw [parseWhenPhrase]
  split
  · exact hp.nextToken
  · split
    · exact hp.short
    · exact (parseWhenOr_stops H _ hp.nextToken).spares.map

theorem parseAssignment_stops (expecting : String) (hp : Short es p) :
    StopsShort es (parseAssignment H expecting p) := by
  rw [parseAssignment]
  split
  · exact hp
  · next hbranch =>
    have hnext := (On.of_cur hp (Decidable.not_not.mp hbranch) (by decide)).nextToken
    split
    · exact hnext
    · next hassign =>
      exact (valueHere_stops H
        (On.of_cur hnext (Decidable.not_not.mp hassign) (by decide)).nextToken).map

theorem parseWithEntry_stops (hp : Short es p) : StopsShort es (parseWithEntry H p) := by
  rw [parseWithEntry]
  split
  · exact hp
  · next hname =>
    have hnext := (On.of_cur hp (Decidable.not_not.mp hname) (by decide)).nextToken
    split
    · next hpath =>
      have hpast := (On.of_cur hnext hpath (by decide)).nextToken
      split
      · exact hpast
      · next hassign =>
        exact (valueHere_stops H
          (On.of_cur hpast (Decidable.not_not.mp hassign) (by decide)).nextToken).map
    · split
      · exact hnext
      · next hassign =>
        exact (valueHere_stops H
          (On.of_cur hnext (Decidable.not_not.mp hassign) (by decide)).nextToken).map

theorem stepOver_short (stops : List TokenType) (hp : On es p) : Short es (stepOver stops p) := by
  have hcomma : On es (if p.peek.type = .comma then p.nextToken else p) := by
    split
    · next hpeek => exact hp.short.onPeek hpeek (by decide)
    · exact hp
  have hnext : ∀ {q : Parser}, On es q →
    Short es (if q.peek.type ∉ stops then q.nextToken else q) := by
    intro q hq
    split
    · exact hq.nextToken
    · exact hq.short
  exact hnext hcomma

theorem parseEntries_spares {α : Type} (skips stops : List TokenType)
    {entry : Parser → Outcome Parser α} (hentry : ∀ p, Short es p → StopsShort es (entry p))
    (n : Nat) (entries : List α) (hp : Short es p) :
    Spares es (parseEntries skips stops entry n entries p) := by
  induction n generalizing entries p with
  | zero => trivial
  | succ n ih =>
    rw [parseEntries]
    split
    · next hmore =>
      have hfirst : Short es (if p.cur.type ∈ skips then p.nextToken else p) := by
        split
        · exact On.nextToken ⟨hp, hmore.1⟩
        · exact hp
      exact Outcome.Leaves.bind (hentry _ hfirst) fun e q hq => ih _ (stepOver_short stops hq)
    · exact hp

theorem parsePriorityPhrase_spares (hp : On es p) :
    Spares es (parsePriorityPhrase H p : Outcome Parser (Phrase F R)) := by
  rw [parsePriorityPhrase]
  split
  · exact hp.nextToken
  · exact hp.nextToken

theorem parseExecPhrase_spares (hp : On es p) :
    Spares es (parseExecPhrase p : Outcome Parser (Phrase F R)) := by
  rw [parseExecPhrase]
  split
  · exact hp.short
  · exact hp.nextToken

theorem parseSelectDest_stops (hp : On es p) : StopsShort es (parseSelectDest p) := by
  rw [parseSelectDest]
  split
  · next has =>
    have hnext := hp.short.onPeek has (by decide)
    split
    · exact hnext.short
    · next hdest => exact hnext.short.onPeek (Decidable.not_not.mp hdest) (by decide)
  · exact hp

theorem parseSelectDefault_stops (hp : On es p) : StopsShort es (parseSelectDefault H p) := by
  rw [parseSelectDefault]
  split
  · next hdefault => exact (valueHere_stops H (hp.short.onPeek hdefault (by decide)).nextToken).map
  · exact hp

theorem parseSelectItems_stops (n : Nat) (items : List (SelectAssignment F)) (hp : On es p) :
    StopsShort es (parseSelectItems H n items p) := by
  induction n generalizing items p with
  | zero => trivial
  | succ n ih =>
    rw [parseSelectItems]
    split
    · exact hp.nextToken
    · next hbranch =>
      have hsource := On.of_cur hp.nextToken (Decidable.not_not.mp hbranch) (by decide)
      refine Outcome.Leaves.bind (parseSelectDest_stops hsource) fun dest q hq => ?_
      refine Outcome.Leaves.bind (parseSelectDefault_stops H hq) fun dflt q' hq' => ?_
      split
      · next hcomma => exact ih _ (hq'.short.onPeek hcomma (by decide))
      · exact hq'

theorem parseSelectPhrase_spares (hp : On es p) :
    Spares es (parseSelectPhrase H p : Outcome Parser (Phrase F R)) := by
  rw [parseSelectPhrase]
  split
  · split
    · exact hp.nextToken
    · exact hp.nextToken
  · exact Outcome.Leaves.bind (parseSelectItems_stops H _ _ hp).spares fun items q hq => hq

end Clauses

section Loops

theorem parseLoopSet_stops (n : Nat) (set : List (BranchValue F)) (hp : On es p) :
    StopsShort es (parseLoopSet H n set p) := by
  induction n generalizing set p with
  | zero => trivial
  | succ n ih =>
    rw [parseLoopSet]
    refine Outcome.Leaves.bind (parseAssignment_stops H _ hp.nextToken) fun bv q hq => ?_
    split
    · exact hq
    · next hcomma => exact ih _ (hq.short.onPeek (Decidable.not_not.mp hcomma) (by decide))

theorem parseLoopEvery_stops (hp : Short es p) : StopsShort es (parseLoopEvery H p) := by
  rw [parseLoopEvery]
  split
  · next ht =>
    split
    · exact hp
    · split
      · exact hp
      · exact .of_cur hp ht (by decide)
  · next ht =>
    split
    · exact hp
    · exact .of_cur hp ht (by decide)
  · exact hp

theorem parseLoopMax_stops (hp : Short es p) : StopsShort es (parseLoopMax p) := by
  rw [parseLoopMax]
  split
  · exact hp
  · next ht =>
    split
    · exact hp
    · exact .of_cur hp (Decidable.not_not.mp ht) (by decide)

theorem parseLoopUntil_stops (hp : On es p) :
    StopsShort es (parseLoopUntil H p : Outcome Parser (WhenExpr F R)) := by
  rw [parseLoopUntil]
  split
  · exact hp.short
  · have hwhen :=
      parseWhenOr_stops H p.turns (p := { p.nextToken with predicateKeyword := "LOOP UNTIL" })
      (show Short es { p.nextToken with predicateKeyword := "LOOP UNTIL" } from hp.nextToken)
    generalize parseWhenOr H p.turns { p.nextToken with predicateKeyword := "LOOP UNTIL" } =
      x at hwhen
    cases x with
    | ok e q => exact ⟨hwhen.short, hwhen.cur⟩
    | nil q => exact hwhen
    | stuck => trivial

theorem note_on {seen : List Modifier} {m : Modifier} (hp : On es p) : On es (note seen m p) := by
  rw [note]
  split
  · exact ⟨hp.short, hp.cur⟩
  · exact hp

theorem peekIsWord_ne_eof {word : Bytes} (h : peekIsWord p word = true) : p.peek.type ≠ .eof := by
  rw [peekIsWord, Bool.and_eq_true, beq_iff_eq] at h
  rw [h.1]
  decide

theorem parseLoopModifiers_spares (n : Nat) (seen : List Modifier) (loop : Loop F R)
    (hp : On es p) :
    Spares es (parseLoopModifiers H n seen loop p) := by
  induction n generalizing seen loop p with
  | zero => trivial
  | succ n ih =>
    rw [parseLoopModifiers]
    split
    · next huntil =>
      have hnext := hp.short.onPeek huntil (by decide)
      exact Outcome.Leaves.bind (parseLoopUntil_stops H hnext) fun e q hq => ih _ _ (note_on hq)
    · split
      · next hset =>
        have hnext := hp.short.onPeek hset (by decide)
        exact Outcome.Leaves.bind (parseLoopSet_stops H _ _ hnext) fun set q hq =>
          ih _ _ (note_on hq)
      · split
        · next hword =>
          have hnext := hp.short.onNext (peekIsWord_ne_eof hword)
          exact Outcome.Leaves.bind (parseLoopEvery_stops H hnext.nextToken) fun d q hq =>
            ih _ _ (note_on hq)
        · split
          · next hword =>
            have hnext := hp.short.onNext (peekIsWord_ne_eof hword)
            exact Outcome.Leaves.bind (parseLoopMax_stops hnext.nextToken) fun m q hq =>
              ih _ _ (note_on hq)
          · split
            · exact hp.short
            · exact hp.short

end Loops

section Event

theorem parseGarbage_short (hp : Short es p) : Short es (parseGarbage H p) := by
  rw [parseGarbage]
  split
  · exact hp
  · exact hp

theorem parseEventPhrase_spares (hp : On es p) :
    Spares es (parseEventPhrase H p : Outcome Parser (Phrase F R)) := by
  have hq : On es { p with inGarbage := false } := ⟨hp.short, hp.cur⟩
  have hset : ∀ expecting, ∀ q, Short es q → StopsShort es (parseAssignment H expecting q) :=
    fun expecting _ => parseAssignment_stops H expecting
  rw [parseEventPhrase]
  split
  · exact parseWhenPhrase_spares H hq
  · split
    · exact (parseEntries_spares _ _ (hset _) _ _ hq.short).map
    · exact (parseEntries_spares _ _ (hset _) _ _ hq.short).map
  · exact (parseEntries_spares _ _ (fun _ => parseWithEntry_stops H) _ _ hq.short).map
  · exact parseSelectPhrase_spares H hq
  · exact parsePriorityPhrase_spares H hq
  · exact parseExecPhrase_spares hq
  · exact (parseEntries_spares _ _ (hset _) _ _ hq.short).map
  · exact (parseLoopModifiers_spares H _ _ _ hq).map
  · exact parseGarbage_short H hp.short

/-- At most one end of input has been passed, and none of them if the current token is something
else. -/
structure Near (es : Eofs) (p : Parser) : Prop where
  left : es.1.tail <:+ p.toks
  on : p.cur.type ≠ .eof → On es p

theorem Short.near_nextToken (h : Short es p) : Near es p.nextToken := by
  refine ⟨?_, h.onNext⟩
  obtain ⟨ts, hts⟩ := h
  rw [Parser.toks_nextToken, ← hts]
  cases ts with
  | nil => exact List.suffix_refl _
  | cons t ts => exact (List.tail_suffix _).trans (List.suffix_append _ _)

theorem parsePhrases_near (n : Nat) (phrases : List (Phrase F R)) (hp : Near es p) :
    (parsePhrases H n phrases p).Leaves (Near es) (Near es) := by
  induction n generalizing phrases p with
  | zero => trivial
  | succ n ih =>
    rw [parsePhrases]
    split
    · exact hp
    · next hne =>
      have hphrase := parseEventPhrase_spares H (R := R) (hp.on hne)
      generalize parseEventPhrase H p = x at hphrase
      cases x with
      | ok phrase q => exact ih _ (Short.near_nextToken hphrase)
      | nil q => exact ih _ (Short.near_nextToken hphrase)
      | stuck => trivial

/-- `ParseEvent` returns from every parser, in either mode, with `k` ends of input behind the
tokens; it has then read those tokens and one more at the most. -/
theorem parseEvent_returns (p : Parser) (k : Nat) :
    ∃ phrases q, parseEvent H { p with toks := p.toks ++ List.replicate k eofToken } =
        .ok (phrases : List (Phrase F R)) q ∧
      p.toks.length + k ≤ q.toks.length + (p.toks.length + 1) := by
  let start : Parser := { p with toks := p.toks ++ List.replicate k eofToken }
  let es : Eofs := ⟨List.replicate k eofToken, by
    intro t ht
    rw [List.eq_of_mem_replicate ht]
    rfl⟩
  have hshort : Short es { start with seenSelect := false } := List.suffix_append _ _
  have hnear : Near es { start with seenSelect := false } :=
    ⟨(List.tail_suffix _).trans hshort, fun hne => ⟨hshort, hne⟩⟩
  have hleaves := parsePhrases_near H (R := R) start.turns [] hnear
  -- the fuel is enough: the loop ends with the phrases
  have hsound :=
    parsePhrases_sound H (R := R) (p := { start with seenSelect := false }) (n := start.turns)
    (Nat.lt_succ_self _) []
  generalize hx : parsePhrases H start.turns [] { start with seenSelect := false } =
    x at hsound hleaves
  cases x with
  | ok phrases q =>
    refine ⟨phrases, _, parseEvent_eq H hx, ?_⟩
    have hlen := hleaves.left.length_le
    rw [List.length_tail, List.length_replicate] at hlen
    have htoks : (q.checked H phrases).toks = q.toks := rfl
    rw [htoks]
    omega
  | nil q => exact hsound.elim
  | stuck => exact hsound.elim

end Event

end ThanksComputer.Txcl
