import ThanksComputer.Connection.Renewal
import Mathlib.Data.List.Pairwise

/-! A refresh token is sent again only after sendings that never left, and a renewal is written
under its own claim. -/

namespace ThanksComputer.Connection

open Lib (second)
open Net Lib.Runs

section Steps

def Phase.renewal : Phase → Option Renewal
  | .renew n | .noClient n | .send n _ | .sent n _ | .write n _ _ | .written n _ _ | .fenced n
  | .verdict n _ _ | .unsent n _ => some n
  | _ => none

def Phase.unspent : Phase → Option Renewal
  | .renew n | .send n _ => some n
  | _ => none

theorem Phase.renewal_of_unspent {phase : Phase} {n : Renewal} (h : phase.unspent = some n) :
    phase.renewal = some n := by
  cases phase <;> simp_all [Phase.unspent, Phase.renewal]

/-- A row that a use with row `r` can claim. -/
structure Row.Free (q r : Row) : Prop where
  id : q.id = r.id
  generation : q.generation = r.generation
  status : q.status = r.status
  claimID : q.claimID = none

/-- What a step of a process can do to the row. -/
inductive Writes (fresh : Nat) : Phase → Option Row → Option Row → Prop
  | nothing (phase : Phase) (row : Option Row) : Writes fresh phase row row
  | gone (phase : Phase) (row : Option Row) : Writes fresh phase row none
  | claimed {start : Int} {r q q' : Row} (free : q.Free r) (id : q'.id = q.id)
    (generation : q'.generation = q.generation) : Writes fresh (.claim start r) (some q) (some q')
  | later (phase : Phase) {q q' : Row} (id : q'.id = q.id)
    (generation : q'.generation = q.generation + 1) :
    Writes fresh phase (some q) (some q')
  | created (phase : Phase) {q' : Row} (id : q'.id = fresh) : Writes fresh phase none (some q')
  | settled (phase : Phase) {q q' : Row} (id : q'.id = q.id)
    (generation : q'.generation = q.generation)
    (status : q'.status ≠ .active) : Writes fresh phase (some q) (some q')
  | released {phase : Phase} {n : Renewal} {q q' : Row} (unsent : phase = .noClient n ∨
    ∃ t, phase = .unsent n t)
    (fence : fencedBy n.row n.claim q) (id : q'.id = q.id)
      (generation : q'.generation = q.generation)
    (status : q'.status = q.status) : Writes fresh phase (some q) (some q')

/-- How a process goes on, or what it starts, as far as renewals are concerned. -/
inductive Goes (P : Provider) (row row' : Option Row) (fresh : Nat) (input : Input) :
    Phase → Phase → Prop
  | idle {a b : Phase} (renewal : b.renewal = none)
    (due : ∀ start r, b = .claim start r → r.mayRenew P) :
    Goes P row row' fresh input a b
  | won {start : Int} {r q : Row} (background : Bool) (hrow : row = some q) (free : q.Free r)
    (claimed : ∀ q', row' = some q' → q'.claimID = some fresh) :
    Goes P row row' fresh input (.claim start r) (.renew ⟨start, r, fresh, background⟩)
  | creds (n : Renewal) (now : Int) : Goes P row row' fresh input (.renew n) (.send n now)
  | noClient (n : Renewal) : Goes P row row' fresh input (.renew n) (.noClient n)
  | sent (n : Renewal) (t : Int) : Goes P row row' fresh input (.send n t) (.sent n t)
  | ok (n : Renewal) (t : Int) {a : TokenAnswer} (answer : input = .answers .ok a) :
    Goes P row row' fresh input (.sent n t) (.write n t a)
  | notSent (n : Renewal) (t : Int) {a : TokenAnswer} (answer : input = .answers .notSent a) :
    Goes P row row' fresh input (.sent n t) (.unsent n t)
  | verdict (n : Renewal) (t : Int) (refused : Bool) : Goes P row row' fresh input (.sent n t)
    (.verdict n t refused)
  | written (n : Renewal) (t : Int) (a : TokenAnswer) (access : Str) (expiresAt : Option Int) :
    Goes P row row' fresh input (.write n t a) (.written n access expiresAt)
  | fenced (n : Renewal) (t : Int) (a : TokenAnswer) : Goes P row row' fresh input (.write n t a)
    (.fenced n)

variable {P : Provider} {row row' : Option Row} {fresh : Nat} {now : Int} {input : Input}

theorem statement_row {res : Option Row × Bool} {next : Option Row → Bool → Step}
    {failed : Option Row → Step} {M : Option Row → Prop} (hrow : M row) (hres : M res.1)
    (hnext : ∀ done, (next res.1 done).row = res.1) (hfailed : ∀ row', (failed row').row = row') :
      M (statement row input res next failed).row := by
  unfold statement
  split
  · rwa [hnext]
  · rwa [hnext]
  · rw [hfailed]
    split
    · exact hres
    · exact hrow

theorem update_row {cond : Row → Bool} {set : Row → Row} {M : Option Row → Prop} (hrow : M row)
    (hset : ∀ q, row = some q → cond q = true → M (some (set q))) : M (update row cond set).1 := by
  unfold update
  split
  · split
    · next hcond => exact hset _ rfl hcond
    · exact hrow
  · exact hrow

theorem fencedBy_iff {r q : Row} {claimID : Nat} :
    fencedBy r claimID q = true ↔ q.id = r.id ∧ q.generation = r.generation ∧
    q.claimID = some claimID := by
  simp [fencedBy, and_assoc]

theorem setStatus_writes (phase : Phase) (r : Row) (claimID : Nat) {status : Status}
    (h : status ≠ .active) :
    Writes fresh phase row (setStatus row r claimID status).1 :=
  update_row (.nothing _ _) fun _ hq _ => hq ▸ .settled phase rfl rfl h

theorem releaseStale_writes (phase : Phase) (r : Row) :
    Writes fresh phase row (releaseStale row r now).1 := by
  unfold releaseStale
  split
  · split
    · exact setStatus_writes phase r _ (by decide)
    · exact .nothing _ _
  · exact .nothing _ _

theorem release_writes {phase : Phase} {n : Renewal}
    (h : phase = .noClient n ∨ ∃ t, phase = .unsent n t) :
    Writes fresh phase row (release row n.row n.claim).1 :=
  update_row (.nothing _ _) fun _ hq hfence => hq ▸ .released h hfence rfl rfl rfl

theorem claim_writes (start : Int) (r : Row) (till : Int) :
    Writes fresh (.claim start r) row (claim row r.id r.generation fresh till r.status).1 := by
  refine update_row (.nothing _ _) fun q hq hfree => hq ▸ .claimed ?_ rfl rfl
  simp only [Bool.and_eq_true, beq_iff_eq, decide_eq_true_eq, Option.isNone_iff_eq_none] at hfree
  exact ⟨hfree.1.1.1, hfree.1.1.2, hfree.1.2, hfree.2⟩

theorem renew_writes (phase : Phase) (r : Row) (claimID : Nat) (m : Material) (e e' : Option Int)
    (lifetimeS : Int) :
    Writes fresh phase row (renew row r claimID m e e' lifetimeS).1 := by
  refine update_row (.nothing _ _) fun q hq hfence => hq ▸ .later phase rfl ?_
  rw [(fencedBy_iff.mp hfence).2.1]

theorem putUpdate_writes (phase : Phase) (existing : Row) (new : NewRow) :
    Writes fresh phase row (putUpdate row existing new).1 := by
  refine update_row (.nothing _ _) fun q hq hcond => hq ▸ .later phase rfl ?_
  rw [Bool.and_eq_true, beq_iff_eq, beq_iff_eq] at hcond
  rw [hcond.2]

theorem putInsert_writes (phase : Phase) (new : NewRow) :
    Writes fresh phase row (putInsert row fresh new).1 := by
  unfold putInsert
  split
  · exact .nothing _ _
  · exact .created phase rfl

theorem delete_writes (phase : Phase) (id : Nat) : Writes fresh phase row (delete row id) := by
  unfold delete
  cases row with
  | none => exact .gone _ _
  | some q =>
    rw [Option.filter_some]
    split
    · exact .nothing _ _
    · exact .gone _ _

theorem current_row (start : Int) (r : Row) : (current P row input start r).row = row := by
  unfold current
  repeat' split
  all_goals rfl

theorem claimed_row (start : Int) (r : Row) (won : Bool) :
    (claimed row fresh start r won).row = row := by
  unfold claimed
  repeat' split
  all_goals rfl

theorem polled_row (start : Int) (r : Row) (deadline : Int) (latest : Row) :
    (polled row now start r deadline latest).row = row := by
  unfold polled
  repeat' split
  all_goals rfl

theorem advance_row (phase : Phase) :
    Writes fresh phase row (advance P row fresh now input phase).row := by
  -- The phases whose step is no statement leave the row as it is.
  have hsame : ∀ row', row' = row → Writes fresh phase row row' := fun _ h => h ▸ .nothing _ _
  cases phase with
  | stale start r =>
    exact statement_row (.nothing _ _) (releaseStale_writes _ r) (fun _ => rfl) fun _ => rfl
  | claim start r =>
    exact statement_row (.nothing _ _) (claim_writes start r _) (fun won => claimed_row start r won)
      fun _ => rfl
  | noClient n =>
    exact statement_row (.nothing _ _) (release_writes (.inl rfl)) (fun _ => rfl) fun _ => rfl
  | write n t a =>
    refine statement_row (.nothing _ _) (renew_writes _ n.row n.claim _ _ _ _)
      (fun done => ?_) fun _ => rfl
    repeat' split
    all_goals rfl
  | verdict n t refused =>
    exact statement_row (.nothing _ _)
      (setStatus_writes _ n.row n.claim (by cases refused <;> decide))
      (fun _ => rfl) fun _ => rfl
  | unsent n t =>
    exact statement_row (.nothing _ _) (release_writes (.inr ⟨t, rfl⟩)) (fun _ => rfl) fun _ => rfl
  | put new again existing =>
    refine statement_row (.nothing _ _) ?_ (fun done => ?_) fun _ => rfl
    · cases existing with
      | some r => exact putUpdate_writes _ r new
      | none => exact putInsert_writes _ new
    · repeat' split
      all_goals rfl
  | delete id => exact statement_row (.nothing _ _) (delete_writes _ id) (fun _ => rfl) fun _ => rfl
  | current start r => exact hsame _ (current_row start r)
  | poll start r deadline => exact hsame _ (polled_row start r deadline _)
  | load | begin r | take start r background | renew n | sent n t | written n access expiresAt
  | lost start r
  | putGet new again | revoke =>
    refine hsame _ ?_
    simp only [advance]
    repeat' split
    all_goals rfl
  | reload start r | wait start r | send n t | fenced n => exact hsame _ rfl

theorem advance_single (phase : Phase) : (advance P row fresh now input phase).goes = none ∨
    (advance P row fresh now input phase).spawns = none := by
  cases phase with
  | claim start r =>
    simp only [advance, statement, claimed]
    repeat' split
    all_goals first | exact .inl rfl | exact .inr rfl
  | _ =>
    right
    simp only [advance, statement, current, polled]
    repeat' split
    all_goals rfl

theorem claim_won {r : Row} {till : Int}
    (h : (claim row r.id r.generation fresh till r.status).2 = true) :
    ∃ q, row = some q ∧ q.Free r ∧
      ∀ q', (claim row r.id r.generation fresh till r.status).1 = some q' →
        q'.claimID = some fresh := by
  unfold claim update at h ⊢
  split at h
  · next q =>
    split at h
    · next hfree =>
      rw [if_pos hfree]
      simp only [Bool.and_eq_true, beq_iff_eq, decide_eq_true_eq,
        Option.isNone_iff_eq_none] at hfree
      exact ⟨q, rfl, ⟨hfree.1.1.1, hfree.1.1.2, hfree.1.2, hfree.2⟩, by rintro _ ⟨⟩; rfl⟩
    · cases h
  · cases h

theorem Goes.absurd {phase next : Phase}
    (h : (none : Option Phase) = some next ∨ (none : Option Phase) = some next) :
    Goes P row row' fresh input phase next := by
  rcases h with h | h <;> cases h

theorem Goes.of_idle {phase b next : Phase} (h : some b = some next ∨ none = some next)
    (hb : b.renewal = none) (hdue : ∀ start r, b = .claim start r → r.mayRenew P) :
    Goes P row row' fresh input phase next := by
  rcases h with h | h
  · cases h
    exact .idle hb hdue
  · cases h

theorem current_goes {phase next : Phase} {start : Int} {r : Row}
    (h : (current P row input start r).goes = some next ∨
    (current P row input start r).spawns = some next) :
    Goes P row row' fresh input phase next := by
  unfold current at h
  split at h
  · exact .absurd h
  split at h
  · exact .absurd h
  all_goals
    split at h
    · next hdue =>
      split at h
      · refine .of_idle h rfl fun _ _ heq => ?_
        cases heq
        exact (Bool.and_eq_true_iff.mp hdue).2
      · split at h
        · exact .absurd h
        · exact .of_idle h rfl fun _ _ => nofun
    · repeat' split at h
      all_goals first | exact .absurd h | exact .of_idle h rfl fun _ _ => nofun

theorem claimed_goes {start : Int} {r : Row} {till : Int} {next : Phase}
    (h : (claimed (claim row r.id r.generation fresh till r.status).1 fresh start r
        (claim row r.id r.generation fresh till r.status).2).goes = some next ∨
      (claimed (claim row r.id r.generation fresh till r.status).1 fresh start r
        (claim row r.id r.generation fresh till r.status).2).spawns = some next) :
    Goes P row (claimed (claim row r.id r.generation fresh till r.status).1 fresh start r
      (claim row r.id r.generation fresh till r.status).2).row fresh input
        (.claim start r) next := by
  unfold claimed at h ⊢
  split at h
  · next hclaimed =>
    obtain ⟨q, hq, hfree, hmine⟩ := claim_won hclaimed
    rw [if_pos hclaimed]
    split at h
    · next hexpired =>
      rw [if_pos hexpired]
      rcases h with h | h <;> cases h
      exact .won false hq hfree hmine
    · next hexpired =>
      rw [if_neg hexpired]
      rcases h with h | h <;> cases h
      exact .won true hq hfree hmine
  · exact .of_idle h rfl fun _ _ => nofun

theorem advance_goes {phase next : Phase}
    (h : (advance P row fresh now input phase).goes = some next ∨
    (advance P row fresh now input phase).spawns = some next) :
    Goes P row (advance P row fresh now input phase).row fresh input phase next := by
  cases phase with
  | current start r => exact current_goes h
  | claim start r =>
    simp only [advance, statement] at h ⊢
    split at h
    · exact claimed_goes h
    · exact claimed_goes h
    · exact .absurd h
  | renew n =>
    simp only [advance] at h
    split at h
    all_goals rcases h with h | h <;> cases h
    · exact .noClient n
    · exact .creds n now
    · exact .creds n now
  | send n t =>
    rcases h with h | h <;> cases h
    exact .sent n t
  | sent n t =>
    simp only [advance] at h
    split at h
    all_goals rcases h with h | h <;> cases h
    · exact .ok n t rfl
    · exact .verdict n t true
    · exact .notSent n t rfl
    all_goals exact .verdict n t false
  | write n t a =>
    simp only [advance, statement] at h
    repeat' split at h
    all_goals first | exact .absurd h | rcases h with h | h <;> cases h
    all_goals first | exact .written n t a _ _ | exact .fenced n t a
  | _ =>
    simp only [advance, statement, polled] at h
    repeat' split at h
    all_goals first | exact .absurd h | exact .of_idle h rfl fun _ _ => nofun

end Steps

section Invariant

def Known (minted : Nat) (row : Option Row) (id generation : Nat) : Prop :=
  id < minted ∧ ∀ q, row = some q → q.id = id → generation ≤ q.generation

/-- While the row is active at this generation, this is its claim. -/
def Guards (row : Option Row) (id generation claim : Nat) : Prop :=
  ∀ q, row = some q → q.id = id → q.generation = generation → q.status = .active →
    q.claimID = some claim

def Renewal.sending (n : Renewal) (outcome : Option Outcome) : Sending :=
  ⟨n.row.id, n.row.generation, n.claim, outcome⟩

/-- A process that is about to give up its claim without a sending to account for. -/
def Phase.GivesUp (phase : Phase) (n : Renewal) : Prop :=
  phase = .noClient n ∨ ∃ t, phase = .unsent n t

structure World.MaySend (w : World) (n : Renewal) : Prop where
  known : Known w.minted w.row n.row.id n.row.generation
  guards : Guards w.row n.row.id n.row.generation n.claim
  unclaimed : ∀ s ∈ w.sendings, s.claim ≠ n.claim
  unspent : ∀ s ∈ w.sendings, s.row = n.row.id → s.generation = n.row.generation →
    s.outcome = some .notSent

structure World.Waits (w : World) (n : Renewal) : Prop where
  sent : n.sending none ∈ w.sendings
  unanswered : ∀ s ∈ w.sendings, s.claim = n.claim → s.outcome = none

def World.NotSent (w : World) (n : Renewal) : Prop :=
  ∀ s ∈ w.sendings, s.claim = n.claim → s.outcome = some .notSent

/-- What holds of a process where it stands. -/
def World.Holds (P : Provider) (w : World) : Phase → Prop
  | .claim _ r => r.mayRenew P
  | .renew n | .send n _ => n.claim < w.minted ∧ w.MaySend n
  | .sent n _ => n.claim < w.minted ∧ w.Waits n
  | .write n _ _ => n.claim < w.minted ∧ n.sending (some .ok) ∈ w.sendings
  | .noClient n | .unsent n _ => n.claim < w.minted ∧ w.NotSent n
  | .written n _ _ | .fenced n | .verdict n _ _ => n.claim < w.minted
  | _ => True

/-- Two processes never share a claim, nor the right to send one generation's token. -/
structure Apart (p q : Proc) : Prop where
  id : p.id ≠ q.id
  claim : ∀ n, p.phase.renewal = some n → ∀ m, q.phase.renewal = some m → n.claim ≠ m.claim
  unspent : ∀ n, p.phase.unspent = some n → ∀ m, q.phase.unspent = some m →
    ¬(n.row.id = m.row.id ∧ n.row.generation = m.row.generation)

structure World.Sent (w : World) (s : Sending) : Prop where
  claim : s.claim < w.minted
  known : Known w.minted w.row s.row s.generation
  guards : s.outcome ≠ some .notSent → Guards w.row s.row s.generation s.claim

structure World.Inv (P : Provider) (w : World) : Prop where
  row : ∀ q, w.row = some q → q.id < w.minted
  ids : ∀ p ∈ w.procs, p.id < w.minted
  procs : ∀ p ∈ w.procs, w.Holds P p.phase
  apart : w.procs.Pairwise Apart
  sendings : ∀ s ∈ w.sendings, w.Sent s

theorem Apart.symm {p q : Proc} (h : Apart p q) : Apart q p :=
  ⟨h.id.symm, fun n hn m hm => (h.claim m hm n hn).symm,
    fun n hn m hm hsame => h.unspent m hm n hn ⟨hsame.1.symm, hsame.2.symm⟩⟩

theorem Apart.of_idle {p q : Proc} (hid : p.id ≠ q.id) (hq : q.phase.renewal = none) :
    Apart p q := by
  refine ⟨hid, fun n _ m hm => ?_, fun n _ m hm => ?_⟩
  · rw [hq] at hm
    cases hm
  · rw [Phase.renewal_of_unspent hm] at hq
    cases hq

section Holds

variable {P : Provider} {w : World} {phase : Phase} {n : Renewal}

theorem World.Holds.of_idle (h : phase.renewal = none)
    (hdue : ∀ start r, phase = .claim start r → r.mayRenew P) : w.Holds P phase := by
  cases phase with
  | claim start r => exact hdue start r rfl
  | renew | noClient | send | sent | write | written | fenced | verdict | unsent => cases h
  | _ => trivial

theorem World.Holds.claim_lt (h : w.Holds P phase) (hn : phase.renewal = some n) :
    n.claim < w.minted := by
  cases phase with
  | renew | noClient | send | sent | write | unsent =>
    cases hn
    exact h.1
  | written | fenced | verdict =>
    cases hn
    exact h
  | _ => cases hn

theorem World.Holds.maySend (h : w.Holds P phase) (hn : phase.unspent = some n) : w.MaySend n := by
  cases phase with
  | renew | send =>
    cases hn
    exact h.2
  | _ => cases hn

theorem World.Holds.notSent (h : w.Holds P phase) (hn : phase.GivesUp n) : w.NotSent n := by
  rcases hn with rfl | ⟨t, rfl⟩
  · exact h.2
  · exact h.2

theorem Phase.GivesUp.renewal (h : phase.GivesUp n) : phase.renewal = some n := by
  rcases h with rfl | ⟨t, rfl⟩
  · rfl
  · rfl

end Holds

variable {P : Provider} {minted minted' : Nat} {row row' : Option Row} {phase : Phase}
    {id generation claim : Nat}

theorem Writes.known (h : Writes minted phase row row') (hle : minted ≤ minted')
    (hk : Known minted row id generation) : Known minted' row' id generation := by
  refine ⟨Nat.lt_of_lt_of_le hk.1 hle, fun q' hq' hid => ?_⟩
  cases h with
  | nothing => exact hk.2 q' hq' hid
  | gone => cases hq'
  | claimed free hid' hgen =>
    cases hq'
    exact hgen ▸ hk.2 _ rfl (hid' ▸ hid)
  | later _ hid' hgen =>
    cases hq'
    have := hk.2 _ rfl (hid' ▸ hid)
    omega
  | created _ hfresh =>
    cases hq'
    have := hk.1
    omega
  | settled _ hid' hgen =>
    cases hq'
    exact hgen ▸ hk.2 _ rfl (hid' ▸ hid)
  | released _ _ hid' hgen =>
    cases hq'
    exact hgen ▸ hk.2 _ rfl (hid' ▸ hid)

theorem Writes.guards (h : Writes minted phase row row') (hk : Known minted row id generation)
    (hactive : ∀ start r, phase = .claim start r → r.status = .active)
    (hkeeps : ∀ n, phase.GivesUp n → n.claim ≠ claim) (hg : Guards row id generation claim) :
    Guards row' id generation claim := by
  intro q' hq' hid hgen hstatus
  cases h with
  | nothing => exact hg q' hq' hid hgen hstatus
  | gone => cases hq'
  | claimed free hid' hgen' =>
    cases hq'
    have := hg _ rfl (hid' ▸ hid) (hgen' ▸ hgen) (free.status ▸ hactive _ _ rfl)
    rw [free.claimID] at this
    cases this
  | later _ hid' hgen' =>
    cases hq'
    have := hk.2 _ rfl (hid' ▸ hid)
    omega
  | created _ hfresh =>
    cases hq'
    have := hk.1
    omega
  | settled _ hid' hgen' hstatus' =>
    cases hq'
    exact absurd hstatus hstatus'
  | released hunsent hfence hid' hgen' hstatus' =>
    cases hq'
    have := hg _ rfl (hid' ▸ hid) (hgen' ▸ hgen) (hstatus' ▸ hstatus)
    rw [(fencedBy_iff.mp hfence).2.2] at this
    cases this
    exact absurd rfl (hkeeps _ hunsent)

variable {w w' : World} {input : Input}

/-- What one step, or an event that is no step, does to what is shared. -/
structure World.Steps (w : World) (phase : Phase) (input : Input) (w' : World) : Prop where
  row : Writes w.minted phase w.row w'.row
  sendings : w'.sendings = w.log phase input
  minted : w.minted ≤ w'.minted

theorem World.mem_log {s' : Sending} (h : s' ∈ w.log phase input) :
    (s' ∈ w.sendings ∧ ∀ n t, phase = .sent n t → s'.claim ≠ n.claim) ∨
      (∃ n t, phase = .send n t ∧ s' = n.sending none) ∨
      ∃ n t, phase = .sent n t ∧ ∃ s ∈ w.sendings, s.claim = n.claim ∧
        s' = { s with outcome := some input.outcome } := by
  cases phase with
  | send n t =>
    rcases List.mem_append.mp h with h | h
    · exact .inl ⟨h, fun _ _ => nofun⟩
    · exact .inr (.inl ⟨n, t, rfl, List.mem_singleton.mp h⟩)
  | sent n t =>
    obtain ⟨s, hs, rfl⟩ := List.mem_map.mp h
    split
    · next hclaim => exact .inr (.inr ⟨n, t, rfl, s, hs, hclaim, rfl⟩)
    · next hclaim =>
      refine .inl ⟨hs, fun _ _ heq => ?_⟩
      cases heq
      exact hclaim
  | _ => exact .inl ⟨h, fun _ _ => nofun⟩

theorem World.mem_log_of_ne {s : Sending} (hs : s ∈ w.sendings)
    (hne : ∀ n, phase.renewal = some n → s.claim ≠ n.claim) : s ∈ w.log phase input := by
  cases phase with
  | send n t => exact List.mem_append_left _ hs
  | sent n t => exact List.mem_map.mpr ⟨s, hs, if_neg (hne n rfl)⟩
  | _ => exact hs

theorem status_of_mayRenew (hP : P.onUncertain ≠ .retry) {r : Row} (h : r.mayRenew P) :
    r.status = .active := by
  simpa [Row.mayRenew, hP] using (Bool.and_eq_true_iff.mp h).2

theorem World.Steps.guards (hs : w.Steps phase input w') (hP : P.onUncertain ≠ .retry)
    (hp : w.Holds P phase) (hk : Known w.minted w.row id generation)
    (hkeeps : ∀ n, phase.GivesUp n → n.claim ≠ claim) (hg : Guards w.row id generation claim) :
      Guards w'.row id generation claim := by
  refine hs.row.guards hk (fun start r hr => ?_) hkeeps hg
  subst hr
  exact status_of_mayRenew hP hp

section Others

variable (hs : w.Steps phase input w') {m : Renewal}
    (hm : ∀ n, phase.renewal = some n → n.claim ≠ m.claim)

include hs hm

theorem World.Steps.mem_of_mem {s : Sending} (hmem : s ∈ w'.sendings) (hclaim : s.claim = m.claim) :
    s ∈ w.sendings := by
  rw [hs.sendings] at hmem
  rcases mem_log hmem with ⟨hmem, -⟩ | ⟨n, t, rfl, rfl⟩ | ⟨n, t, rfl, s, -, hns, rfl⟩
  · exact hmem
  · exact absurd hclaim (hm n rfl)
  · exact absurd (hns.symm.trans hclaim) (hm n rfl)

theorem World.Steps.mem {outcome : Option Outcome} (hmem : m.sending outcome ∈ w.sendings) :
    m.sending outcome ∈ w'.sendings := by
  rw [hs.sendings]
  exact mem_log_of_ne hmem fun n hn => (hm n hn).symm

theorem World.Waits.keep (h : w.Waits m) : w'.Waits m :=
  ⟨hs.mem hm h.sent, fun s hmem hclaim => h.unanswered s (hs.mem_of_mem hm hmem hclaim) hclaim⟩

theorem World.NotSent.keep (h : w.NotSent m) : w'.NotSent m :=
  fun s hmem hclaim => h s (hs.mem_of_mem hm hmem hclaim) hclaim

theorem World.MaySend.keep (hP : P.onUncertain ≠ .retry) (hp : w.Holds P phase)
    (hsame : ∀ n, phase.unspent = some n →
      ¬(n.row.id = m.row.id ∧ n.row.generation = m.row.generation))
    (h : w.MaySend m) : w'.MaySend m := by
  refine ⟨hs.row.known hs.minted h.known,
    hs.guards hP hp h.known (fun n hn => hm n hn.renewal) h.guards,
    fun s hmem hclaim => h.unclaimed s (hs.mem_of_mem hm hmem hclaim) hclaim,
      fun s hmem hid hgen => ?_⟩
  rw [hs.sendings] at hmem
  rcases mem_log hmem with ⟨hmem, -⟩ | ⟨n, t, rfl, rfl⟩ | ⟨n, t, rfl, s, hs', hclaim, rfl⟩
  · exact h.unspent s hmem hid hgen
  · exact absurd ⟨hid, hgen⟩ (hsame n rfl)
  · have hnot := h.unspent s hs' hid hgen
    rw [hp.2.unanswered s hs' hclaim] at hnot
    cases hnot

end Others

theorem World.Holds.keep {p q : Proc} (h : w.Holds P q.phase) (hP : P.onUncertain ≠ .retry)
    (hs : w.Steps p.phase input w') (hp : w.Holds P p.phase) (hpq : Apart p q) :
      w'.Holds P q.phase := by
  have hne : ∀ m, q.phase.renewal = some m → ∀ n, p.phase.renewal = some n → n.claim ≠ m.claim :=
    fun m hm n hn => hpq.claim n hn m hm
  have hlt : ∀ m, q.phase.renewal = some m → m.claim < w'.minted := fun m hm =>
    Nat.lt_of_lt_of_le (h.claim_lt hm) hs.minted
  have hsame := fun m hm n hn => hpq.unspent n hn m hm
  generalize q.phase = phase at *
  cases phase with
  | claim start r => exact h
  | renew m => exact ⟨hlt m rfl, h.2.keep hs (hne m rfl) hP hp (hsame m rfl)⟩
  | send m t => exact ⟨hlt m rfl, h.2.keep hs (hne m rfl) hP hp (hsame m rfl)⟩
  | sent m t => exact ⟨hlt m rfl, h.2.keep hs (hne m rfl)⟩
  | write m t a => exact ⟨hlt m rfl, hs.mem (hne m rfl) h.2⟩
  | noClient m => exact ⟨hlt m rfl, h.2.keep hs (hne m rfl)⟩
  | unsent m t => exact ⟨hlt m rfl, h.2.keep hs (hne m rfl)⟩
  | written m | fenced m | verdict m => exact hlt m rfl
  | _ => trivial

theorem World.Sent.keep (hP : P.onUncertain ≠ .retry) (hs : w.Steps phase input w')
    (hp : w.Holds P phase) (h : ∀ s ∈ w.sendings, w.Sent s) : ∀ s ∈ w'.sendings, w'.Sent s := by
  intro s hmem
  rw [hs.sendings] at hmem
  rcases mem_log hmem with ⟨hmem, -⟩ | ⟨n, t, rfl, rfl⟩ | ⟨n, t, rfl, s, hs', hclaim, rfl⟩
  · have hsent := h s hmem
    refine ⟨Nat.lt_of_lt_of_le hsent.claim hs.minted, hs.row.known hs.minted hsent.known,
      fun hout => ?_⟩
    refine hs.guards hP hp hsent.known (fun n hgives hclaim => ?_) (hsent.guards hout)
    exact hout (hp.notSent hgives s hmem hclaim.symm)
  · refine ⟨Nat.lt_of_lt_of_le hp.1 hs.minted, hs.row.known hs.minted hp.2.known, fun _ => ?_⟩
    exact hs.guards hP hp hp.2.known (by rintro m (hm | ⟨t, hm⟩) <;> cases hm) hp.2.guards
  · have hsent := h s hs'
    refine ⟨Nat.lt_of_lt_of_le hsent.claim hs.minted, hs.row.known hs.minted hsent.known,
      fun _ => ?_⟩
    refine hs.guards hP hp hsent.known (by rintro m (hm | ⟨t, hm⟩) <;> cases hm) (hsent.guards ?_)
    rw [hp.2.unanswered s hs' hclaim]
    nofun

theorem World.Inv.won (h : w.Inv P) {n : Renewal} {q : Row} (hq : w.row = some q)
    (hfree : q.Free n.row) (hactive : n.row.status = .active) :
    (∀ s ∈ w.sendings, s.row = n.row.id → s.generation = n.row.generation →
      s.outcome = some .notSent) ∧
      ∀ p ∈ w.procs, ∀ m, p.phase.unspent = some m →
        ¬(m.row.id = n.row.id ∧ m.row.generation = n.row.generation) := by
  refine ⟨fun s hs hid hgen => ?_, fun p hp m hm hsame => ?_⟩
  · by_contra hout
    have := (h.sendings s hs).guards hout q hq (hfree.id.trans hid.symm)
      (hfree.generation.trans hgen.symm)
      (hfree.status.trans hactive)
    rw [hfree.claimID] at this
    cases this
  · have := ((h.procs p hp).maySend hm).guards q hq (hfree.id.trans hsame.1.symm)
      (hfree.generation.trans hsame.2.symm)
      (hfree.status.trans hactive)
    rw [hfree.claimID] at this
    cases this

theorem World.Inv.goes (hP : P.onUncertain ≠ .retry) (h : w.Inv P) (hs : w.Steps phase input w')
    (hminted : w.minted < w'.minted) (hp : w.Holds P phase) {next : Phase}
    (hgoes : Goes P w.row w'.row w.minted input phase next) : w'.Holds P next := by
  have hlt : ∀ {n}, phase.renewal = some n → n.claim < w'.minted := fun hn =>
    Nat.lt_of_lt_of_le (hp.claim_lt hn) hs.minted
  have hsendings := hs.sendings
  cases hgoes with
  | idle hidle hdue => exact .of_idle hidle hdue
  | @won start r q background hq hfree hclaimed =>
    have hknown : Known w.minted w.row r.id r.generation := by
      refine ⟨hfree.id ▸ h.row q hq, fun q' hq' _ => ?_⟩
      cases hq.symm.trans hq'
      exact Nat.le_of_eq hfree.generation.symm
    have hfirst := h.won (n := ⟨start, r, w.minted, background⟩) hq hfree (status_of_mayRenew hP hp)
    refine ⟨hminted, hs.row.known hs.minted hknown, fun q' hq' _ _ _ => hclaimed q' hq', ?_, ?_⟩
    · rw [hsendings]
      exact fun s hmem => Nat.ne_of_lt (h.sendings s hmem).claim
    · rw [hsendings]
      exact hfirst.1
  | creds n now =>
    refine ⟨hlt rfl, hs.row.known hs.minted hp.2.known, ?_, ?_, ?_⟩
    · exact hs.guards hP hp hp.2.known (by rintro m (hm | ⟨t, hm⟩) <;> cases hm) hp.2.guards
    · rw [hsendings]
      exact hp.2.unclaimed
    · rw [hsendings]
      exact hp.2.unspent
  | noClient n =>
    refine ⟨hlt rfl, fun s hmem hsame => ?_⟩
    rw [hsendings] at hmem
    exact absurd hsame (hp.2.unclaimed s hmem)
  | sent n t =>
    refine ⟨hlt rfl, ?_, fun s hmem hsame => ?_⟩
    · rw [hsendings]
      exact List.mem_append_right _ (List.mem_singleton.mpr rfl)
    · rw [hsendings] at hmem
      rcases List.mem_append.mp hmem with hmem | hmem
      · exact absurd hsame (hp.2.unclaimed s hmem)
      · rw [List.mem_singleton.mp hmem]
  | ok n t hanswer =>
    refine ⟨hlt rfl, ?_⟩
    rw [hsendings, hanswer]
    exact List.mem_map.mpr ⟨_, hp.2.sent, if_pos rfl⟩
  | notSent n t hanswer =>
    refine ⟨hlt rfl, fun s hmem hsame => ?_⟩
    rw [hsendings, hanswer] at hmem
    obtain ⟨s, -, rfl⟩ := List.mem_map.mp hmem
    split at hsame
    · next heq => rw [if_pos heq]; rfl
    · next hne => exact absurd hsame hne
  | verdict n t refused => exact hlt (n := n) rfl
  | written n t a access expiresAt => exact hlt (n := n) rfl
  | fenced n t a => exact hlt (n := n) rfl

theorem World.Inv.apart_goes (hP : P.onUncertain ≠ .retry) (h : w.Inv P) {p q : Proc}
    (hp : w.Holds P p.phase) (hq : q ∈ w.procs) (hpq : Apart q p) {next : Phase} {id' : Nat}
    (hid : q.id ≠ id') (hgoes : Goes P w.row row' w.minted input p.phase next) :
      Apart q ⟨id', next⟩ := by
  have hsame : next.renewal = p.phase.renewal →
    (next.unspent = none ∨ next.unspent = p.phase.unspent) →
      Apart q ⟨id', next⟩ := by
    rintro hrenewal hunspent
    refine ⟨hid, fun n hn m hm => hpq.claim n hn m (hrenewal ▸ hm), fun n hn m hm => ?_⟩
    rcases hunspent with hnone | hunspent
    · rw [hnone] at hm
      cases hm
    · exact hpq.unspent n hn m (hunspent ▸ hm)
  generalize p.phase = phase at *
  cases hgoes with
  | idle hidle => exact .of_idle hid hidle
  | @won start r q' background hq' hfree =>
    refine ⟨hid, fun n hn m hm => ?_, fun n hn m hm => ?_⟩
    · cases hm
      exact Nat.ne_of_lt ((h.procs q hq).claim_lt hn)
    · cases hm
      exact (h.won (n := ⟨start, r, w.minted, background⟩) hq' hfree (status_of_mayRenew hP hp)).2 q
        hq n hn
  | creds => exact hsame rfl (.inr rfl)
  | noClient | sent | ok | notSent | verdict | written | fenced => exact hsame rfl (.inl rfl)

theorem Writes.id_lt (h : Writes minted phase row row') (hrow : ∀ q, row = some q → q.id < minted) :
    ∀ q, row' = some q → q.id < minted + 1 := by
  intro q' hq'
  cases h with
  | nothing => exact Nat.lt_succ_of_lt (hrow q' hq')
  | gone => cases hq'
  | created _ hid =>
    cases hq'
    exact hid ▸ Nat.lt_succ_self _
  | claimed _ hid | later _ hid | settled _ hid | released _ _ hid =>
    cases hq'
    exact hid ▸ Nat.lt_succ_of_lt (hrow _ rfl)

theorem World.step_steps (w : World) (p : Proc) (now : Int) (input : Input) :
    w.Steps p.phase input (w.step P p now input) :=
  ⟨advance_row p.phase, rfl, Nat.le_succ _⟩

theorem World.Inv.step (hP : P.onUncertain ≠ .retry) (h : w.Inv P) {p : Proc} (hp : p ∈ w.procs)
    (now : Int) (input : Input) : (w.step P p now input).Inv P := by
  have hs := w.step_steps (P := P) p now input
  have hholds := h.procs p hp
  have hapart : ∀ q ∈ w.procs.filter (·.id != p.id), q ∈ w.procs ∧ q.id ≠ p.id ∧ Apart p q := by
    intro q hq
    obtain ⟨hq, hne⟩ := List.mem_filter.mp hq
    have hne := bne_iff_ne.mp hne
    have : Std.Symm Apart := ⟨fun _ _ => Apart.symm⟩
    exact ⟨hq, hne, h.apart.forall hp hq fun heq => hne (congrArg Proc.id heq).symm⟩
  have hnew : ∀ q ∈ w.procs.filter (·.id != p.id), ∀ next id', (id' = p.id ∨ id' = w.minted) →
      Goes P w.row (w.step P p now input).row w.minted input p.phase next →
      Apart q ⟨id', next⟩ := by
    intro q hq next id' hid hgoes
    obtain ⟨hq, hne, hpq⟩ := hapart q hq
    refine h.apart_goes hP hholds hq hpq.symm ?_ hgoes
    rcases hid with rfl | rfl
    · exact hne
    · exact Nat.ne_of_lt (h.ids q hq)
  refine ⟨hs.row.id_lt h.row, fun q hq => ?_, fun q hq => ?_, ?_, Sent.keep hP hs hholds h.sendings⟩
  · rcases mem_step.mp hq with hq | ⟨-, hid⟩ | ⟨-, hid⟩
    · exact Nat.lt_succ_of_lt (h.ids q (hapart q hq).1)
    · exact hid ▸ Nat.lt_succ_of_lt (h.ids p hp)
    · exact hid ▸ Nat.lt_succ_self _
  · rcases mem_step.mp hq with hq | ⟨hgoes, -⟩ | ⟨hspawns, -⟩
    · obtain ⟨hq, -, hpq⟩ := hapart q hq
      exact (h.procs q hq).keep hP hs hholds hpq
    · exact h.goes hP hs (Nat.lt_succ_self _) hholds (advance_goes (.inl hgoes))
    · exact h.goes hP hs (Nat.lt_succ_self _) hholds (advance_goes (.inr hspawns))
  · simp only [World.step]
    rw [List.append_assoc]
    refine List.pairwise_append.mpr ⟨h.apart.filter _, ?_, fun q hq q' hq' => ?_⟩
    · have hsingle : (advance P w.row w.minted now input p.phase).goes = none ∨
          (advance P w.row w.minted now input p.phase).spawns = none :=
        advance_single p.phase
      rcases hsingle with hnone | hnone
      · rw [hnone]
        cases (advance P w.row w.minted now input p.phase).spawns <;> simp
      · rw [hnone]
        cases (advance P w.row w.minted now input p.phase).goes <;> simp
    · simp only [List.mem_append, List.mem_map, Option.mem_toList] at hq'
      rcases hq' with ⟨next, hnext, rfl⟩ | ⟨next, hnext, rfl⟩
      · exact hnew q hq next _ (.inl rfl) (advance_goes (.inl hnext))
      · exact hnew q hq next _ (.inr rfl) (advance_goes (.inr hnext))

theorem World.Inv.quiet (hP : P.onUncertain ≠ .retry) (h : w.Inv P) (hs : w.Steps .load .runs w')
    (hrow : ∀ q, w'.row = some q → q.id < w'.minted) (hids : ∀ p ∈ w'.procs, p.id < w'.minted)
    (hprocs : ∀ p ∈ w'.procs, p ∈ w.procs ∨ p.phase.renewal = none ∧
      ∀ start r, p.phase ≠ .claim start r)
    (hapart : w'.procs.Pairwise Apart) : w'.Inv P := by
  refine ⟨hrow, hids, fun p hp => ?_, hapart, Sent.keep hP hs trivial h.sendings⟩
  rcases hprocs p hp with hp | ⟨hidle, hclaim⟩
  · refine (h.procs p hp).keep hP (p := ⟨w.minted, .load⟩) hs trivial (.symm ?_)
    exact .of_idle (Nat.ne_of_lt (h.ids p hp)) rfl
  · exact .of_idle hidle fun start r hr => absurd hr (hclaim start r)

theorem World.Inv.spawn (hP : P.onUncertain ≠ .retry) (h : w.Inv P) (now : Int) {phase : Phase}
    (hidle : phase.renewal = none) (hclaim : ∀ start r, phase ≠ .claim start r) :
      (w.spawn now phase).Inv P := by
  refine h.quiet hP ⟨.nothing _ _, rfl, Nat.le_succ _⟩ (fun q hq => Nat.lt_succ_of_lt (h.row q hq))
    (fun p hp => ?_)
    (fun p hp => ?_) ?_
  · rcases List.mem_append.mp hp with hp | hp
    · exact Nat.lt_succ_of_lt (h.ids p hp)
    · rw [List.mem_singleton.mp hp]
      exact Nat.lt_succ_self _
  · rcases List.mem_append.mp hp with hp | hp
    · exact .inl hp
    · rw [List.mem_singleton.mp hp]
      exact .inr ⟨hidle, hclaim⟩
  · refine List.pairwise_append.mpr ⟨h.apart, List.pairwise_singleton _ _, fun p hp q hq => ?_⟩
    rw [List.mem_singleton.mp hq]
    exact .of_idle (Nat.ne_of_lt (h.ids p hp)) hidle

theorem World.Inv.next (hP : P.onUncertain ≠ .retry) (h : w.Inv P) {event : Int × Event}
    (hnext : w.next P event = some w') : w'.Inv P := by
  unfold World.next at hnext
  split at hnext
  case isFalse => cases hnext
  case isTrue =>
    split at hnext
    · cases hnext
      refine h.spawn hP _ rfl fun start r hclaim => ?_
      cases hclaim
    · cases hnext
      refine h.spawn hP _ rfl fun start r hclaim => ?_
      cases hclaim
    · cases hnext
      refine h.spawn hP _ rfl fun start r hclaim => ?_
      cases hclaim
    · cases hnext
      refine h.quiet hP ⟨.gone _ _, rfl, Nat.le_refl _⟩ (fun q hq => ?_) h.ids
        (fun p hp => .inl hp) h.apart
      cases hq
    · obtain ⟨p, hp, rfl⟩ := Option.map_eq_some_iff.mp hnext
      exact h.step hP (List.mem_of_find?_eq_some hp) _ _
    · cases hnext
      refine h.quiet hP ⟨.nothing _ _, rfl, Nat.le_refl _⟩ h.row (fun p hp => h.ids p ?_)
        (fun p hp => .inl ?_)
        (h.apart.filter _)
      · exact (List.mem_filter.mp hp).1
      · exact (List.mem_filter.mp hp).1

end Invariant

section Runs

variable (P : Provider) (w : World)

/-- At a step that sends a token, every earlier sending of it never left; at a step that writes a
renewal, the process holds the row's claim at the generation whose token the provider accepted from
it. -/
def World.SingleUse (event : Int × Event) : Prop :=
  ∀ id input, event.2 = .step id input → ∀ p, w.procs.find? (·.id == id) = some p →
    (∀ n t, p.phase = .send n t → ∀ s ∈ w.sendings, s.row = n.row.id →
      s.generation = n.row.generation →
      s.outcome = some .notSent) ∧
    ∀ n t a, p.phase = .write n t a → (w.step P p event.1 input).row ≠ w.row →
      n.sending (some .ok) ∈ w.sendings ∧
      (∃ q, w.row = some q ∧ q.id = n.row.id ∧ q.generation = n.row.generation ∧
        q.claimID = some n.claim) ∧
      ∀ p' ∈ w.procs, ∀ m, p'.phase.renewal = some m → m.claim = n.claim → p' = p

variable {P w}

theorem renew_fenced {row : Option Row} {r : Row} {claimID : Nat} {m : Material} {e e' : Option Int}
    {lifetimeS : Int} (h : (renew row r claimID m e e' lifetimeS).1 ≠ row) :
    ∃ q, row = some q ∧ q.id = r.id ∧ q.generation = r.generation ∧ q.claimID = some claimID := by
  unfold renew update at h
  split at h
  · next q =>
    split at h
    · next hfence => exact ⟨q, rfl, fencedBy_iff.mp hfence⟩
    · exact absurd rfl h
  · exact absurd rfl h

theorem World.Inv.singleUse (h : w.Inv P) (event : Int × Event) : w.SingleUse P event := by
  intro id input _ p hfind
  have hp := List.mem_of_find?_eq_some hfind
  have hholds := h.procs p hp
  refine ⟨fun n t hn => ?_, fun n t a hn hwrites => ?_⟩
  · exact (hholds.maySend (n := n) (by rw [hn]; rfl)).unspent
  · have hanswered : w.Holds P (.write n t a) := hn ▸ hholds
    refine ⟨hanswered.2, ?_, fun p' hp' m hm hclaim => ?_⟩
    · simp only [World.step, hn] at hwrites
      by_contra hfence
      refine hwrites (statement_row (M := (· = w.row)) rfl ?_ (fun done => ?_) fun _ => rfl)
      · by_contra hne
        exact hfence (renew_fenced hne)
      · split
        · rfl
        · rfl
    · by_contra hne
      have : Std.Symm Apart := ⟨fun _ _ => Apart.symm⟩
      exact (h.apart.forall hp' hp hne).claim m hm n (by rw [hn]; rfl) hclaim

theorem World.start_inv (clock : Int) : (World.start clock).Inv P :=
  ⟨fun _ h => absurd h (Option.some_ne_none _).symm, fun _ h => absurd h List.not_mem_nil,
    fun _ h => absurd h List.not_mem_nil, List.Pairwise.nil, fun _ h => absurd h List.not_mem_nil⟩

/-- A provider that does not retry an uncertain renewal never sees one generation's refresh token
twice, unless it was never sent; and a renewal is written by the claim that renewed that
generation. -/
theorem singleUse_along (hP : P.onUncertain ≠ .retry) (clock : Int) (events : List (Int × Event)) :
    Along (World.next P) (World.SingleUse P) (World.start clock) events :=
  Along.of_invariant (I := World.Inv P) (Q := fun _ _ => True)
    (fun _ _ _ hw _ hnext => hw.next hP hnext)
    (fun _ event hw _ => hw.singleUse event) (World.start_inv clock) (Along.true _ _)

/-- A first renewal finds no way to the provider; the next use sends the token again, and renews. -/
theorem singleUse_unreachable :
    let token : TokenAnswer := ⟨"b".toList, "s".toList, [], 3600, 0⟩
    let run :
      List Event := [.reconnect ⟨some (10 * second), 10, none, ⟨"a".toList, "r".toList, []⟩⟩,
      .step 0 .runs, .step 0 .runs, .use, .step 3 .runs, .step 3 .runs, .step 3 .runs,
        .step 3 .runs, .step 3 .runs,
      .step 3 .runs, .step 3 (.answers .notSent token), .step 3 .runs, .use, .step 12 .runs,
        .step 12 .runs,
      .step 12 .runs, .step 12 .runs, .step 12 .runs, .step 12 .runs, .step 12 (.answers .ok token),
      .step 12 .runs]
    let P : Provider := ⟨.reconnect, .singleUse, fun _ => second⟩
    let events := run.map ((20 * second, ·))
    (events.foldlM (World.next P) (World.start 0)).map
      (fun w => (w.row.map (·.generation), w.sendings)) =
        some (some 2, [⟨2, 1, 7, some .notSent⟩, ⟨2, 1, 16, some .ok⟩]) ∧
      Along (World.next P) (World.SingleUse P) (World.start 0) events :=
  ⟨by decide +kernel, singleUse_along (by decide) 0 _⟩

end Runs

end ThanksComputer.Connection
