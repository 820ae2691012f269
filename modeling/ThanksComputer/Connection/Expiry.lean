import ThanksComputer.Connection.Renewal

/-! The expiry of the token that answers a use, against the reading the use began with. -/

namespace ThanksComputer.Connection

open Lib (wrapInt wrapInt_of_mem second)
open Net Lib.Runs

section Answers

/-- The reading of the use that a process answers; a background renewal answers none. -/
def Phase.reading : Phase → Option Int
  | .stale start _ | .reload start _ | .current start _ | .claim start _ | .lost start _
  | .wait start _
  | .poll start _ _ => some start
  | .take start _ background => if background then none else some start
  | .renew n | .noClient n | .send n _ | .sent n _ | .write n _ _ | .written n _ _ | .fenced n
  | .verdict n _ _ | .unsent n _ => if n.background then none else some n.start
  | _ => none

/-- A token that answers a use expires after the use began. -/
def World.Unexpired (P : Provider) (w : World) (event : Int × Event) : Prop :=
  ∀ id input, event.2 = .step id input → ∀ p, w.procs.find? (·.id == id) = some p →
    ∀ start, p.phase.reading = some start → ∀ access t,
      (advance P w.row w.minted event.1 input p.phase).answer = some (.token access (some t)) →
      start < t

/-- The longest lifetime in seconds that a `time.Duration` holds. -/
def maxLifetime : Int := 9223372036

/-- The row that a fenced renewal falls back on, or that a wait finds renewed, has not expired at
the use's reading; and a lifetime that is written down fits. -/
def Fresh (row : Option Row) (input : Input) : Phase → Prop
  | .fenced n => n.background = false → (reloaded row input n.row).expired n.start = false
  | .poll start r _ =>
    r.generation < (reloaded row input r).generation → (reloaded row input r).expired start = false
  | .write _ _ a => a.expiresIn ≤ maxLifetime
  | _ => True

instance (row : Option Row) (input : Input) : DecidablePred (Fresh row input)
  | .fenced _ => inferInstanceAs (Decidable (_ → _))
  | .poll _ _ _ => inferInstanceAs (Decidable (_ → _))
  | .write _ _ a => inferInstanceAs (Decidable (a.expiresIn ≤ maxLifetime))
  | .load | .begin _ | .stale _ _ | .reload _ _ | .current _ _ | .claim _ _ | .lost _ _
  | .wait _ _ | .take _ _ _
  | .renew _ | .noClient _ | .send _ _ | .sent _ _ | .written _ _ _ | .verdict _ _ _
  | .unsent _ _ | .putGet _ _
  | .put _ _ _ | .revoke | .delete _ => .isTrue trivial

def World.Fresh (w : World) (event : Int × Event) : Prop :=
  match event.2 with
  | .step id input => ∀ p ∈ w.procs.find? (·.id == id), Connection.Fresh w.row input p.phase
  | _ => True

instance (w : World) (event : Int × Event) : Decidable (w.Fresh event) := by
  unfold World.Fresh
  split <;> infer_instance

def Phase.Timed (clock : Int) : Phase → Prop
  | .stale start _ | .reload start _ | .current start _ | .claim start _ => start ≤ clock
  | .renew n => n.start ≤ clock
  | .send n t | .sent n t | .write n t _ | .verdict n t _ | .unsent n t => n.start ≤ t
  | .written n _ expiresAt => ∀ t, expiresAt = some t → n.start < t
  | .take start r background => background = false → r.expired start = false
  | _ => True

variable {P : Provider} {row : Option Row} {fresh : Nat} {clock now : Int} {input : Input}

theorem Row.token_lt {r : Row} {start : Int} {access : Str} {t : Int} (h : r.expired start = false)
    (htoken : r.token = .token access (some t)) : start < t := by
  obtain ⟨-, hexpires⟩ := Answer.token.inj htoken
  rw [Row.expired, hexpires] at h
  exact Int.not_le.mp (of_decide_eq_false h)

theorem expiry_lt {expiresIn : Int} (h : expiresIn ≤ maxLifetime) {t : Int}
    (ht : (expiry now expiresIn).1.map stamp = some t) : now < t := by
  unfold expiry at ht
  split at ht
  · cases ht
  · next hpos =>
    obtain rfl := Option.some.inj ht
    have hwrap : wrapInt (expiresIn * second) = expiresIn * second :=
      wrapInt_of_mem (by simp only [second, maxLifetime] at *; omega)
    have hlt := lt_stamp_add (now + wrapInt (expiresIn * second))
    rw [hwrap] at hlt ⊢
    simp only [second] at hlt ⊢
    omega

theorem current_answer {start : Int} {r : Row} {access : Str} {t : Int}
    (h : (current P row input start r).answer = some (.token access (some t))) : start < t := by
  unfold current at h
  split at h
  · cases h
  split at h
  · cases h
  all_goals
    split at h
    · split at h
      · cases h
      split at h
      · next hvalid => exact Row.token_lt (by simpa using hvalid) (Option.some.inj h)
      · cases h
    · split at h
      · split at h
        · cases h
        · cases h
      · next hvalid => exact Row.token_lt (by simpa using hvalid) (Option.some.inj h)

theorem claimed_answer {start : Int} {r : Row} {won : Bool} {access : Str} {t : Int}
    (h : (claimed row fresh start r won).answer = some (.token access (some t))) : start < t := by
  unfold claimed at h
  split at h
  · split at h
    · cases h
    · next hvalid => exact Row.token_lt (by simpa using hvalid) (Option.some.inj h)
  · cases h

theorem fallback_lt (r : Row) {now : Int} (other : Answer)
    (hother : ∀ access t, other ≠ .token access t) {access : Str} {t : Int}
    (h : (if !r.expired now then r.token else other) = .token access (some t)) :
    now < t := by
  split at h
  · next hvalid => exact Row.token_lt (by simpa using hvalid) h
  · exact absurd h (hother _ _)

theorem reading_renewal {n : Renewal} {start : Int}
    (h : (if n.background then none else some n.start) = some start) :
    n.start = start := by
  split at h
  · cases h
  · exact Option.some.inj h

theorem advance_answer {phase : Phase} (hphase : phase.Timed clock) {start : Int}
    (hstart : phase.reading = some start) {access : Str} {t : Int}
    (h : (advance P row fresh now input phase).answer = some (.token access (some t))) :
      start < t := by
  cases phase with
  | current start' r =>
    cases hstart
    exact current_answer h
  | claim start' r =>
    cases hstart
    simp only [advance, statement] at h
    split at h
    · exact claimed_answer h
    · exact claimed_answer h
    · cases h
  | lost start' r =>
    cases hstart
    simp only [advance] at h
    split at h
    · next hvalid => exact Row.token_lt (by simpa using hvalid) (Option.some.inj h)
    · cases h
  | take start' r background =>
    simp only [advance] at h
    cases background with
    | true => cases hstart
    | false =>
      cases hstart
      split at h
      · cases h
      all_goals exact Row.token_lt (hphase rfl) (Option.some.inj h)
  | written n access' expiresAt =>
    simp only [advance] at h
    split at h
    · cases h
    · cases h
    · cases h
      exact reading_renewal hstart ▸ hphase t rfl
  | verdict n t' refused =>
    have hle : start ≤ t' := reading_renewal hstart ▸ hphase
    have hother : ∀ access t, (if P.onUncertain = .retry then .error .busy else .error .reconnect) ≠
        Answer.token access t := by
      intro _ _
      split <;> nofun
    have hfall : (if !n.row.expired t' then n.row.token
        else if P.onUncertain = .retry then .error .busy else .error .reconnect) =
          .token access (some t) := by
      cases refused with
      | true =>
        simp only [advance, statement] at h
        split at h <;> cases h
      | false =>
        simp only [advance, statement] at h
        split at h <;> exact Option.some.inj h
    exact Int.lt_of_le_of_lt hle (fallback_lt n.row _ hother hfall)
  | unsent n t' =>
    have hle : start ≤ t' := reading_renewal hstart ▸ hphase
    have hfall : (if !n.row.expired t' then n.row.token else .error .unavailable) =
      .token access (some t) := by
      simp only [advance, statement] at h
      split at h <;> exact Option.some.inj h
    exact Int.lt_of_le_of_lt hle
      (fallback_lt n.row (.error .unavailable) (fun _ _ h => nomatch h) hfall)
  | _ =>
    simp only [advance, statement, polled] at h
    repeat' split at h
    all_goals cases h

theorem timed_absurd {next : Phase}
    (h : (none : Option Phase) = some next ∨ (none : Option Phase) = some next) :
    next.Timed now := by
  rcases h with h | h <;> cases h

theorem timed_goto {b next : Phase} (h : some b = some next ∨ none = some next) (hb : b.Timed now) :
    next.Timed now := by
  rcases h with h | h
  · exact Option.some.inj h ▸ hb
  · cases h

theorem advance_timed {phase next : Phase} (hclock : clock ≤ now) (hphase : phase.Timed clock)
    (hfresh : Fresh row input phase) (h : (advance P row fresh now input phase).goes = some next ∨
      (advance P row fresh now input phase).spawns = some next) : next.Timed now := by
  cases phase with
  | begin r =>
    simp only [advance] at h
    split at h
    all_goals exact timed_goto h (Int.le_refl now)
  | stale start r =>
    simp only [advance, statement] at h
    split at h
    all_goals exact timed_goto h (Int.le_trans hphase hclock)
  | reload start r => exact timed_goto h (Int.le_trans hphase hclock)
  | current start r =>
    simp only [advance, current] at h
    repeat' split at h
    all_goals first
      | exact timed_absurd h
      | exact timed_goto h (Int.le_trans hphase hclock)
      | exact timed_goto h trivial
  | claim start r =>
    simp only [advance, statement, claimed] at h
    repeat' split at h
    all_goals rcases h with h | h <;> cases h
    all_goals first | exact Int.le_trans hphase hclock | trivial
  | poll start r deadline =>
    simp only [advance, polled] at h
    split at h
    · next hlater => exact timed_goto h fun _ => hfresh hlater
    · repeat' split at h
      all_goals first | exact timed_absurd h | exact timed_goto h trivial
  | renew n =>
    simp only [advance] at h
    split at h
    · exact timed_goto h trivial
    all_goals exact timed_goto h (Int.le_trans hphase hclock)
  | send n t => exact timed_goto h hphase
  | sent n t =>
    simp only [advance] at h
    split at h
    all_goals exact timed_goto h hphase
  | write n t a =>
    simp only [advance, statement] at h
    repeat' split at h
    all_goals first
      | exact timed_absurd h
      | exact timed_goto h trivial
      | exact timed_goto h fun _ ht => Int.lt_of_le_of_lt hphase (expiry_lt hfresh ht)
  | fenced n => exact timed_goto h hfresh
  | _ =>
    simp only [advance, statement] at h
    repeat' split at h
    all_goals first | exact timed_absurd h | exact timed_goto h trivial

end Answers

section Runs

variable {P : Provider} {w w' : World}

def World.Timed (w : World) : Prop :=
  ∀ p ∈ w.procs, p.phase.Timed w.clock

theorem Phase.Timed.mono {phase : Phase} {clock now : Int} (h : phase.Timed clock)
    (hle : clock ≤ now) :
    phase.Timed now := by
  cases phase with
  | stale | reload | current | claim | renew => exact Int.le_trans h hle
  | _ => exact h

theorem World.Timed.spawn (h : w.Timed) {now : Int} (hle : w.clock ≤ now) {phase : Phase}
    (hphase : phase.Timed now) :
    (w.spawn now phase).Timed := by
  intro p hp
  rcases List.mem_append.mp hp with hp | hp
  · exact (h p hp).mono hle
  · rw [List.mem_singleton.mp hp]
    exact hphase

theorem World.Timed.next (h : w.Timed) {event : Int × Event} (hfresh : w.Fresh event)
    (hnext : w.next P event = some w') : w'.Timed := by
  unfold World.next at hnext
  split at hnext
  case isFalse => cases hnext
  case isTrue hle =>
    split at hnext
    · cases hnext
      exact h.spawn hle trivial
    · cases hnext
      exact h.spawn hle trivial
    · cases hnext
      exact h.spawn hle trivial
    · cases hnext
      exact fun p hp => (h p hp).mono hle
    · next id input hevent =>
      rw [World.Fresh, hevent] at hfresh
      obtain ⟨p, hp, rfl⟩ := Option.map_eq_some_iff.mp hnext
      have hmem := List.mem_of_find?_eq_some hp
      intro q hq
      rcases mem_step.mp hq with hq | ⟨hgoes, -⟩ | ⟨hspawns, -⟩
      · exact (h q (List.mem_filter.mp hq).1).mono hle
      · exact advance_timed hle (h p hmem) (hfresh p hp) (.inl hgoes)
      · exact advance_timed hle (h p hmem) (hfresh p hp) (.inr hspawns)
    · cases hnext
      exact fun p hp => (h p (List.mem_filter.mp hp).1).mono hle

/-- Where no fenced renewal or wait ends on an expired row, and lifetimes fit, no use is answered
with a token that had expired when it began. -/
theorem unexpired_along {clock : Int} {events : List (Int × Event)}
    (h : Along (World.next P) (fun w event => w.Fresh event) (World.start clock) events) :
    Along (World.next P) (World.Unexpired P) (World.start clock) events := by
  refine Along.of_invariant (I := World.Timed) (fun _ _ _ hw hfresh hnext => hw.next hfresh hnext)
    (fun w event hw _ => ?_)
    (fun _ hp => absurd hp List.not_mem_nil) h
  intro id input _ p hp start hstart access t hanswer
  exact advance_answer (hw p (List.mem_of_find?_eq_some hp)) hstart hanswer

/-- A connection whose token expires at second ten, and a use at second twenty that sends its
refresh token. -/
def renewing : List Event :=
  [.reconnect ⟨some (10 * second), 10, none, ⟨"a".toList, "r".toList, []⟩⟩, .step 0 .runs,
    .step 0 .runs,
    .use, .step 3 .runs, .step 3 .runs, .step 3 .runs, .step 3 .runs, .step 3 .runs, .step 3 .runs]

/-- The connection is made anew while its token is being renewed: the use is answered with the new
one. -/
theorem unexpired_reconnected :
    let P : Provider := ⟨.reconnect, .singleUse, fun _ => second⟩
    let run :=
      renewing ++ [.reconnect ⟨some (3600 * second), 3600, none, ⟨"c".toList, "s".toList, []⟩⟩,
      .step 10 .runs, .step 10 .runs, .step 3 (.answers .ok ⟨"b".toList, [], [], 60, 0⟩),
        .step 3 .runs, .step 3 .runs,
      .step 3 .runs]
    let events := run.map ((20 * second, ·))
    Along (World.next P) (fun w event => w.Fresh event) (World.start 0) events ∧
      Along (World.next P) (World.Unexpired P) (World.start 0) events := by
  refine ⟨by decide +kernel, unexpired_along (by decide +kernel)⟩

/-- The connection is revoked while its token is being renewed: the fenced renewal finds no row, and
the use is answered with the token that had expired ten seconds before it began. -/
theorem not_unexpired_revoked :
    let P : Provider := ⟨.reconnect, .singleUse, fun _ => second⟩
    let run := renewing ++ [.revoke, .step 10 .runs, .step 10 .runs,
      .step 3 (.answers .ok ⟨"b".toList, [], [], 60, 0⟩), .step 3 .runs, .step 3 .runs,
        .step 3 .runs]
    ¬Along (World.next P) (World.Unexpired P) (World.start 0) (run.map ((20 * second, ·))) := by
  intro P run h
  have hbad : (((run.map ((20 * second, ·))).take 16).foldlM (World.next P) (World.start 0)).any
      (fun w => (w.procs.find? (·.id == 3)).any fun p =>
        decide (p.phase.reading = some (20 * second) ∧
        (advance P w.row w.minted (20 * second) .runs p.phase).answer =
          some (.token "a".toList (some (10 * second))))) = true := by
    decide +kernel
  obtain ⟨w, hw, hbad⟩ := (Option.any_eq_true _ _).mp hbad
  obtain ⟨p, hp, hbad⟩ := (Option.any_eq_true _ _).mp hbad
  obtain ⟨hstart, hanswer⟩ := of_decide_eq_true hbad
  have hlt :=
    along_iff.mp h 16 (20 * second, .step 3 .runs) w rfl hw 3 .runs rfl p hp _ hstart _ _ hanswer
  exact absurd hlt (by decide +kernel)

end Runs

end ThanksComputer.Connection
