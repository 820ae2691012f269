import ThanksComputer.Dns.Challenge
import ThanksComputer.Lib.Runs

/-! Heads that write the challenges of one name at the same time.  A write reads the list, and swaps
in what it makes of it if the list is still the same; else it starts from the one that is there.
Every head has a clock of its own, which only goes forward. -/

namespace ThanksComputer.Dns.Acme

open Net Lib.Runs

/-- A reading of a clock in seconds; the clock counts nanoseconds in 64 bits. -/
structure Instant where
  secs : Nat
  fits : secs * 10 ^ 9 < 2 ^ 63

section Code

/-- How far a call of `mutate` is: before its read, or before a round with what it has seen last. -/
inductive Phase
  | reading
  | trying (round : Nat) (raw : Option (List Entry))
  | over
  deriving DecidableEq

structure Running where
  op : Op
  phase : Phase
  deriving DecidableEq

/-- What was done to the list: a swap by a write, with the swapping head's clock and the entries
that the cap dropped, or the removal of an expired key. -/
inductive Event
  | presented (added : Entry) (now : Nat) (dropped : List Entry)
  | cleaned (value : Str) (now : Nat)
  | cleared
  | expired (now : Nat)
  deriving DecidableEq

/-- The list under the name, the calls under way at all heads, and what was done, last first; the
history is no part of the store. -/
structure World where
  cell : Option Cell
  calls : List Running
  history : List Event
  deriving DecidableEq

def World.start : World := ⟨none, [], []⟩

/-- An operation of one call on the store, at the clock of its head; a call that gives up (a
deadline, an error); or a key that the backend drops by its TTL. -/
inductive Step
  | begin (op : Op)
  | read (i : Nat) (now : Instant)
  | attempt (i : Nat) (now swap : Instant)
  | giveUp (i : Nat)
  | reap (now : Instant)

def eventOf (op : Op) (now swap : Nat) (live : List Entry) : Event :=
  match op with
  | .present value =>
    let added : Entry := ⟨value, now + challengeStoreTTL⟩
    .presented added
      swap (if live.any fun e => e.value == value then [] else evicted (live ++ [added]))
  | .cleanUp value => .cleaned value swap
  | .clearAll => .cleared

/-- One round: the entries are worked out at `now`, the swap comes not before. -/
def World.round (w : World) (i : Nat) (op : Op) (round : Nat) (raw : Option (List Entry))
    (now swap : Nat) : World :=
  let live := liveChallengeEntries now (raw.getD [])
  match op.mutation now live with
  | none => { w with calls := w.calls.set i ⟨op, .over⟩ }
  | some next =>
    match casCell swap w.cell raw next (keyTTL now next) with
    | .inl cell => ⟨some cell, w.calls.set i ⟨op, .over⟩, eventOf op now swap live :: w.history⟩
    | .inr current =>
      let phase := if round + 1 < challengeCASRounds then Phase.trying (round + 1) current
        else .over
      { w with calls := w.calls.set i ⟨op, phase⟩ }

def World.next (w : World) : Step → Option World
  | .begin op => if op.accepted then some { w with calls := w.calls ++ [⟨op, .reading⟩] } else none
  | .read i now =>
    match w.calls[i]? with
    | some ⟨op, .reading⟩ =>
      let got := getCell now.secs w.cell
      some ⟨got.2, w.calls.set i ⟨op, .trying 0 got.1⟩,
        if w.cell.isSome ∧ got.2 = none then .expired now.secs :: w.history else w.history⟩
    | _ => none
  | .attempt i now swap =>
    match w.calls[i]? with
    | some ⟨op, .trying round raw⟩ =>
      if now.secs ≤ swap.secs then some (w.round i op round raw now.secs swap.secs) else none
    | _ => none
  | .giveUp i =>
    match w.calls[i]? with
    | some call => some { w with calls := w.calls.set i ⟨call.op, .over⟩ }
    | none => none
  | .reap now =>
    match w.cell with
    | some c =>
      if c.exp ≤ now.secs then
        some { w with cell := none, history := .expired now.secs :: w.history } else none
    | none => none

end Code

section Spec

def Event.Adds (e : Entry) : Event → Prop
  | .presented added _ dropped => e = added ∧ e ∉ dropped
  | .cleaned _ _ | .cleared | .expired _ => False

/-- An event is no reason for an entry to go: it is not its removal, does not put up the value anew,
and comes before the entry expires. -/
def Event.Spares (e : Entry) : Event → Prop
  | .presented added now dropped => e ∉ dropped ∧ e.value ≠ added.value ∧ now < e.expires
  | .cleaned value now => e.value ≠ value ∧ now < e.expires
  | .cleared => False
  | .expired now => now < e.expires

/-- An entry that was swapped in, and then neither cleaned up, cleared, evicted, expired nor put up
anew. -/
def Standing (e : Entry) : List Event → Prop
  | [] => False
  | ev :: history => ev.Adds e ∨ ev.Spares e ∧ Standing e history

/-- A reason for a value to go: cleaned up, cleared, evicted by the cap, or expired. -/
def Event.Removes (e : Entry) : Event → Prop
  | .presented _ now dropped => e ∈ dropped ∨ e.expires ≤ now
  | .cleaned value now => e.value = value ∨ e.expires ≤ now
  | .cleared => True
  | .expired now => e.expires ≤ now

/-- Every standing entry is stored. -/
def World.NoneLost (w : World) : Prop :=
  ∀ e, Standing e w.history → e ∈ storedEntries w.cell

/-- Between two worlds, a value goes only for a reason. -/
def World.Keeps (w w' : World) : Prop :=
  ∀ e ∈ storedEntries w.cell, (∃ e' ∈ storedEntries w'.cell, e'.value = e.value) ∨
    ∃ ev, w'.history = ev :: w.history ∧ ev.Removes e

end Spec

section Mutations

variable {op : Op} {now swap : Nat} {live next entries : List Entry} {e : Entry}

theorem mem_capped_or_evicted (h : e ∈ entries) : e ∈ capped entries ∨ e ∈ evicted entries := by
  rw [capped, evicted]
  split
  · have hsorted : e ∈ byExpiry entries := (List.mem_insertionSort _).mpr h
    rw [← List.take_append_drop (entries.length - challengeMaxEntries)
      (byExpiry entries)] at hsorted
    exact (List.mem_append.mp hsorted).symm
  · exact .inl h

theorem mem_of_mem_capped (h : e ∈ capped entries) : e ∈ entries := by
  rw [capped] at h
  split at h
  · exact (List.mem_insertionSort _).mp (List.mem_of_mem_drop h)
  · exact h

theorem mem_refresh_self (value : Str) (expires : Nat) (live : List Entry) :
    ⟨value, expires⟩ ∈ refresh value expires live := by
  induction live with
  | nil => exact List.mem_singleton_self _
  | cons e live ih =>
    rw [refresh]
    split
    · exact List.mem_cons_self
    · exact List.mem_cons_of_mem e ih

theorem mem_refresh_of_ne {value : Str} {expires : Nat} (h : e ∈ live) (hne : e.value ≠ value) :
    e ∈ refresh value expires live := by
  induction live with
  | nil => cases h
  | cons a live ih =>
    rw [refresh]
    split
    · next heq =>
      rcases List.mem_cons.mp h with rfl | h
      · exact absurd heq hne
      · exact List.mem_cons_of_mem _ h
    · rcases List.mem_cons.mp h with rfl | h
      · exact List.mem_cons_self
      · exact List.mem_cons_of_mem a (ih h)

theorem mem_mutation (h : op.mutation now live = some next) (he : e ∈ next) :
    e ∈ live ∨ ∃ value, op = .present value ∧ e = ⟨value, now + challengeStoreTTL⟩ := by
  cases op with
  | present value =>
    rw [Op.mutation] at h
    split at h
    · cases h
      exact (mem_refresh he).symm.imp_right fun heq => ⟨value, rfl, heq⟩
    · cases h
      rcases List.mem_append.mp (mem_of_mem_capped he) with he | he
      · exact .inl he
      · exact .inr ⟨value, rfl, List.mem_singleton.mp he⟩
  | cleanUp value =>
    rw [Op.mutation] at h
    split at h
    · cases h
      exact .inl (List.mem_filter.mp he).1
    · cases h
  | clearAll =>
    rw [Op.mutation] at h
    split at h
    · cases h
      cases he
    · cases h

theorem mem_of_adds (h : op.mutation now live = some next)
    (hadds : (eventOf op now swap live).Adds e) : e ∈ next := by
  cases op with
  | present value =>
    rw [Op.mutation] at h
    obtain ⟨rfl, hkept⟩ := hadds
    split at h
    · cases h
      exact mem_refresh_self value _ live
    · next hany =>
      cases h
      rw [if_neg hany] at hkept
      have hmem : (⟨value, now + challengeStoreTTL⟩ : Entry) ∈ live ++
        [⟨value, now + challengeStoreTTL⟩] := by simp
      exact (mem_capped_or_evicted hmem).resolve_right hkept
  | cleanUp value => exact hadds.elim
  | clearAll => exact hadds.elim

theorem mem_of_spares (h : op.mutation now live = some next) (he : e ∈ live)
    (hspares : (eventOf op now swap live).Spares e) : e ∈ next := by
  cases op with
  | present value =>
    rw [Op.mutation] at h
    obtain ⟨hkept, hne, -⟩ := hspares
    split at h
    · cases h
      exact mem_refresh_of_ne he hne
    · next hany =>
      cases h
      rw [if_neg hany] at hkept
      exact (mem_capped_or_evicted (List.mem_append_left _ he)).resolve_right hkept
  | cleanUp value =>
    rw [Op.mutation] at h
    split at h
    · cases h
      exact List.mem_filter.mpr ⟨he, decide_eq_true hspares.1⟩
    · cases h
  | clearAll => exact hspares.elim

theorem removes_of_not_spares (h : op.mutation now live = some next)
    (he : swap < e.expires → e ∈ live) (hspares : ¬(eventOf op now swap live).Spares e) :
    (∃ e' ∈ next, e'.value = e.value) ∨ (eventOf op now swap live).Removes e := by
  by_cases hexpired : e.expires ≤ swap
  · right
    cases op with
    | present value => exact .inr hexpired
    | cleanUp value => exact .inr hexpired
    | clearAll => trivial
  · have hlive := Nat.not_le.mp hexpired
    cases op with
    | present value =>
      by_cases hvalue : e.value = value
      · left
        have hany : (live.any fun e => e.value == value) = true :=
          List.any_eq_true.mpr ⟨e, he hlive, beq_iff_eq.mpr hvalue⟩
        rw [Op.mutation, if_pos hany] at h
        cases h
        exact ⟨_, mem_refresh_self value _ live, hvalue.symm⟩
      · right
        refine .inl ?_
        by_contra hkept
        exact hspares ⟨hkept, hvalue, hlive⟩
    | cleanUp value =>
      right
      refine .inl ?_
      by_contra hvalue
      exact hspares ⟨hvalue, hlive⟩
    | clearAll => exact .inr trivial

end Mutations

section Equal

theorem float64_of_lt {n : Nat} (h : n < 2 ^ 53) : float64 n = n :=
  if_pos h

theorem eq_of_jsonEqual {a b : List Entry} (ha : ∀ e ∈ a, e.expires < 2 ^ 53)
    (hb : ∀ e ∈ b, e.expires < 2 ^ 53) (h : jsonEqual a b = true) : a = b := by
  rw [jsonEqual, beq_iff_eq] at h
  have key : ∀ l : List Entry, (∀ e ∈ l, e.expires < 2 ^ 53) →
      l.map (fun e => (e.value, float64 e.expires)) = l.map fun e => (e.value, e.expires) := by
    intro l hl
    exact List.map_congr_left fun e he => by rw [float64_of_lt (hl e he)]
  rw [key a ha, key b hb] at h
  refine List.map_injective_iff.mpr ?_ h
  rintro ⟨v, x⟩ ⟨v', x'⟩ heq
  cases heq
  rfl

end Equal

section Moves

variable {w w' : World}

/-- A call that is new or one step further: accepted, and with nothing in hand but the stored
list. -/
def Follows (w : World) (call : Running) : Prop :=
  call ∈ w.calls ∨ (call.op.accepted = true ∨ ∃ call₀ ∈ w.calls, call.op = call₀.op) ∧
    ∀ round entries, call.phase = .trying round (some entries) → entries = storedEntries w.cell

/-- What a step does: nothing to the list, the removal of an expired one, or a swap from the list
that the writer has in hand. -/
inductive Moves (w : World) : World → Prop
  | keeps (calls : List Running) (hcalls : ∀ call ∈ calls, Follows w call) :
    Moves w { w with calls := calls }
  | drops {c : Cell} (now : Nat) (calls : List Running) (hcalls : ∀ call ∈ calls, Follows w call)
      (hcell : w.cell = some c) (hexp : c.exp ≤ now) : Moves w
        ⟨none, calls, .expired now :: w.history⟩
  | swaps {op : Op} {round : Nat} {raw : Option (List Entry)} {next : List Entry}
    (now swap : Instant)
      (calls : List Running) (hcalls : ∀ call ∈ calls, Follows w call)
        (hcall : ⟨op, .trying round raw⟩ ∈ w.calls)
      (hle : now.secs ≤ swap.secs) (hpasses : casPasses swap.secs w.cell raw = true)
      (hnext : op.mutation now.secs (liveChallengeEntries now.secs (raw.getD [])) = some next) :
      Moves w ⟨some ⟨next, swap.secs + keyTTL now.secs next⟩, calls,
        eventOf op now.secs swap.secs (liveChallengeEntries now.secs (raw.getD [])) :: w.history⟩

theorem follows_set {i : Nat} {call : Running} (h : Follows w call) :
    ∀ c ∈ w.calls.set i call, Follows w c := by
  intro c hc
  rcases List.mem_or_eq_of_mem_set hc with hc | rfl
  · exact .inl hc
  · exact h

theorem follows_over {op : Op} {call₀ : Running} (h₀ : call₀ ∈ w.calls) (hop : op = call₀.op) :
    Follows w ⟨op, .over⟩ :=
  .inr ⟨.inr ⟨call₀, h₀, hop⟩, by rintro round entries ⟨⟩⟩

theorem storedEntries_of_readCell {now : Nat} {entries : List Entry}
    (h : readCell now w.cell = some entries) :
    entries = storedEntries w.cell := by
  cases hcell : w.cell with
  | none =>
    rw [hcell] at h
    cases h
  | some c =>
    rw [hcell, readCell] at h
    split at h
    · cases h
    · cases h
      rfl

theorem getCell_snd (now : Nat) (cell : Option Cell) :
    (getCell now cell).2 = cell ∨ ∃ c, cell = some c ∧
      c.exp ≤ now ∧ (getCell now cell).2 = none := by
  cases cell with
  | none => exact .inl rfl
  | some c =>
    by_cases hexp : c.exp ≤ now
    · exact .inr ⟨c, rfl, hexp, by rw [getCell, readCell, if_pos hexp]⟩
    · exact .inl (by rw [getCell, readCell, if_neg hexp])

theorem moves_round {i : Nat} {op : Op} {round : Nat} {raw : Option (List Entry)}
    {now swap : Instant} (hcall : ⟨op, .trying round raw⟩ ∈ w.calls) (hle : now.secs ≤ swap.secs) :
    Moves w (w.round i op round raw now.secs swap.secs) := by
  rw [World.round]
  split
  · exact .keeps _ (follows_set (follows_over hcall rfl))
  · next next hnext =>
    rw [casCell]
    by_cases hpasses : casPasses swap.secs w.cell raw = true
    · rw [if_pos hpasses]
      exact .swaps now swap _ (follows_set (follows_over hcall rfl)) hcall hle hpasses hnext
    · rw [if_neg hpasses]
      refine .keeps _ (follows_set (.inr ⟨.inr ⟨_, hcall, rfl⟩, fun round' entries hphase => ?_⟩))
      split at hphase
      · rw [Phase.trying.injEq] at hphase
        exact storedEntries_of_readCell hphase.2
      · cases hphase

theorem moves_next {step : Step} (h : w.next step = some w') : Moves w w' := by
  cases step with
  | begin op =>
    rw [World.next] at h
    split at h
    · next haccepted =>
      cases h
      refine .keeps _ fun call hcall => ?_
      rcases List.mem_append.mp hcall with hcall | hcall
      · exact .inl hcall
      · rw [List.mem_singleton.mp hcall]
        exact .inr ⟨.inl haccepted, by rintro round entries ⟨⟩⟩
    · cases h
  | read i now =>
    rw [World.next] at h
    split at h
    · next op hcall =>
      cases h
      have hmem := List.mem_of_getElem? hcall
      have hfollows : Follows w ⟨op, .trying 0 (getCell now.secs w.cell).1⟩ := by
        refine .inr ⟨.inr ⟨_, hmem, rfl⟩, fun round entries hphase => ?_⟩
        rw [Phase.trying.injEq, getCell_fst] at hphase
        exact storedEntries_of_readCell hphase.2
      rcases getCell_snd now.secs w.cell with hsame | ⟨c, hcell, hexp, hnone⟩
      · have hhistory : ¬(w.cell.isSome = true ∧ (getCell now.secs w.cell).2 = none) := by
          rintro ⟨hsome, hnone⟩
          rw [← hsame, hnone] at hsome
          cases hsome
        rw [if_neg hhistory, hsame]
        exact .keeps _ (follows_set hfollows)
      · have hhistory : w.cell.isSome = true ∧ (getCell now.secs w.cell).2 = none :=
          ⟨by rw [hcell]; rfl, hnone⟩
        rw [if_pos hhistory, hnone]
        exact .drops now.secs _ (follows_set hfollows) hcell hexp
    · cases h
  | attempt i now swap =>
    rw [World.next] at h
    split at h
    · next op round raw hcall =>
      split at h
      · next hle =>
        cases h
        exact moves_round (List.mem_of_getElem? hcall) hle
      · cases h
    · cases h
  | giveUp i =>
    rw [World.next] at h
    split at h
    · next call hcall =>
      cases h
      exact .keeps _ (follows_set (follows_over (List.mem_of_getElem? hcall) rfl))
    · cases h
  | reap now =>
    rw [World.next] at h
    split at h
    · next c hcell =>
      split at h
      · next hexp =>
        cases h
        exact .drops now.secs w.calls (fun call hcall => .inl hcall) hcell hexp
      · cases h
    · cases h

end Moves

section Invariant

variable {w w' : World}

/-- Stored entries have a value, expire within 2 ^ 53 seconds and before their key; a call in hand
is accepted and holds such entries; and every standing entry is stored. -/
structure Inv (w : World) : Prop where
  outlives : Outlives w.cell
  values : ∀ e ∈ storedEntries w.cell, e.value ≠ []
  small : ∀ e ∈ storedEntries w.cell, e.expires < 2 ^ 53
  accepted : ∀ call ∈ w.calls, call.op.accepted = true
  inHand : ∀ call ∈ w.calls, ∀ round entries, call.phase = .trying round (some entries) →
    ∀ e ∈ entries, e.expires < 2 ^ 53
  noneLost : w.NoneLost

theorem Inv.calls (h : Inv w) {calls : List Running} (hcalls : ∀ call ∈ calls, Follows w call) :
    (∀ call ∈ calls, call.op.accepted = true) ∧ ∀ call ∈ calls, ∀ round entries,
      call.phase = .trying round (some entries) → ∀ e ∈ entries, e.expires < 2 ^ 53 := by
  refine ⟨fun call hcall => ?_, fun call hcall round entries hphase => ?_⟩
  · rcases hcalls call hcall with hmem | ⟨haccepted | ⟨call₀, hmem, hop⟩, -⟩
    · exact h.accepted call hmem
    · exact haccepted
    · rw [hop]
      exact h.accepted call₀ hmem
  · rcases hcalls call hcall with hmem | ⟨-, hstored⟩
    · exact h.inHand call hmem round entries hphase
    · rw [hstored round entries hphase]
      exact h.small

theorem mem_live_of_stored (h : Inv w) {op : Op} {round now swap : Nat} {raw : Option (List Entry)}
    (hcall : ⟨op, .trying round raw⟩ ∈ w.calls) (hle : now ≤ swap)
    (hpasses : casPasses swap w.cell raw = true) {e : Entry} (he : e ∈ storedEntries w.cell)
    (hlive : swap < e.expires) :
    e ∈ liveChallengeEntries now (raw.getD []) := by
  cases hcell : w.cell with
  | none =>
    rw [hcell] at he
    cases he
  | some c =>
    have hexp : ¬c.exp ≤ swap := by
      have := h.outlives c hcell e (by rwa [hcell] at he)
      omega
    have hread : readCell swap w.cell = some (storedEntries w.cell) := by
      rw [hcell, readCell, if_neg hexp]
      rfl
    cases raw with
    | none =>
      rw [casPasses, hread] at hpasses
      cases hpasses
    | some entries =>
      rw [casPasses, hread] at hpasses
      have heq := eq_of_jsonEqual h.small (h.inHand _ hcall round entries rfl) hpasses
      rw [Option.getD_some, ← heq]
      exact mem_live.mpr ⟨he, h.values e he, Nat.lt_of_le_of_lt hle hlive⟩

theorem Event.Spares.lt {e : Entry} {op : Op} {now swap : Nat} {live : List Entry}
    (h : (eventOf op now swap live).Spares e) : swap < e.expires := by
  cases op with
  | present value => exact h.2.2
  | cleanUp value => exact h.2
  | clearAll => exact h.elim

theorem Instant.small (now : Instant) : now.secs + challengeStoreTTL < 2 ^ 53 := by
  have := now.fits
  rw [challengeStoreTTL]
  omega

theorem Inv.next (h : Inv w) {step : Step} (hnext : w.next step = some w') :
    Inv w' ∧ w.Keeps w' := by
  cases moves_next hnext with
  | keeps calls hcalls =>
    refine ⟨⟨h.outlives, h.values, h.small, (h.calls hcalls).1, (h.calls hcalls).2, h.noneLost⟩,
      fun e he => ?_⟩
    exact .inl ⟨e, he, rfl⟩
  | drops now calls hcalls hcell hexp =>
    have hgone : ∀ e ∈ storedEntries w.cell, e.expires ≤ now := fun e he =>
      Nat.le_trans (h.outlives _ hcell e (by rwa [hcell] at he)) hexp
    refine ⟨⟨by rintro c ⟨⟩, by rintro e ⟨⟩, by rintro e ⟨⟩, (h.calls hcalls).1, (h.calls hcalls).2,
      ?_⟩, fun e he => ?_⟩
    · rintro e (hadds | ⟨hspares, hstanding⟩)
      · exact hadds.elim
      · exact absurd (hgone e (h.noneLost e hstanding)) (Nat.not_le.mpr hspares)
    · exact .inr ⟨_, rfl, hgone e he⟩
  | @swaps op round raw next now swap calls hcalls hcall hle hpasses hmutation =>
    have hlive : ∀ e ∈ liveChallengeEntries now.secs (raw.getD []), e.value ≠ [] ∧
      e.expires < 2 ^ 53 := by
      intro e he
      obtain ⟨he, hvalue, -⟩ := mem_live.mp he
      cases raw with
      | none => cases he
      | some entries => exact ⟨hvalue, h.inHand _ hcall round entries rfl e he⟩
    have hnew : ∀ e ∈ next, e.value ≠ [] ∧ e.expires < 2 ^ 53 := by
      intro e he
      rcases mem_mutation hmutation he with he | ⟨value, rfl, rfl⟩
      · exact hlive e he
      · have haccepted := h.accepted _ hcall
        simp only [Op.accepted, Bool.and_eq_true, decide_eq_true_eq] at haccepted
        exact ⟨haccepted.1, now.small⟩
    refine ⟨⟨?_, fun e he => (hnew e he).1, fun e he => (hnew e he).2, (h.calls hcalls).1,
      (h.calls hcalls).2, ?_⟩, ?_⟩
    · rintro c ⟨⟩ e he
      exact expires_le_keyTTL hle he
    · rintro e (hadds | ⟨hspares, hstanding⟩)
      · exact mem_of_adds hmutation hadds
      · have hmem := mem_live_of_stored h hcall hle hpasses (h.noneLost e hstanding) hspares.lt
        exact mem_of_spares hmutation hmem hspares
    · intro e he
      have hkeeps : swap.secs < e.expires → e ∈ liveChallengeEntries now.secs (raw.getD []) :=
        mem_live_of_stored h hcall hle hpasses he
      by_cases hspares :
        (eventOf op now.secs swap.secs (liveChallengeEntries now.secs (raw.getD []))).Spares e
      · exact .inl ⟨e, mem_of_spares hmutation (hkeeps hspares.lt) hspares, rfl⟩
      · exact (removes_of_not_spares hmutation hkeeps hspares).imp_right fun hremoves =>
          ⟨_, rfl, hremoves⟩

theorem inv_start : Inv .start where
  outlives := by rintro c ⟨⟩
  values := by rintro e ⟨⟩
  small := by rintro e ⟨⟩
  accepted := by rintro call ⟨⟩
  inHand := by rintro call ⟨⟩
  noneLost := by rintro e ⟨⟩

end Invariant

/-- However the calls of the heads come between each other, every entry that stands is stored, and
no write takes a value out but for a reason. -/
theorem noneLost_along (steps : List Step) :
    Along World.next (fun w step => w.NoneLost ∧ ∀ w', w.next step = some w' →
      w'.NoneLost ∧ w.Keeps w')
      .start steps := by
  refine Along.of_invariant (I := Inv) (fun w step w' h _ hnext => (h.next hnext).1) ?_ inv_start
    (Along.true _ _)
  intro w step h _
  exact ⟨h.noneLost, fun w' hnext => ⟨(h.next hnext).1.noneLost, (h.next hnext).2⟩⟩

/-- Two heads read the same list; the one that comes second to swap puts its value beside the
other's. -/
example :
    ([.begin (.present "one".toList), .begin (.present "two".toList), .read 0 ⟨100, by decide⟩,
        .read 1 ⟨98, by decide⟩, .attempt 0 ⟨100, by decide⟩ ⟨100, by decide⟩,
        .attempt 1 ⟨98, by decide⟩ ⟨99, by decide⟩,
          .attempt 1 ⟨99, by decide⟩ ⟨99, by decide⟩].foldlM
      World.next World.start).map (fun w => storedEntries w.cell) =
      some [⟨"one".toList, 700⟩, ⟨"two".toList, 699⟩] := by
  decide +kernel

end ThanksComputer.Dns.Acme
