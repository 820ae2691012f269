import ThanksComputer.Lib.Runs
import ThanksComputer.Lib.Table

/-! Claims of rows, each with a ticket: as long as no ticket is used after its claim has gone stale,
a ticket is good for the claim that holds its row. -/

universe u v w

namespace ThanksComputer.Lib.Claims

open Lib.Runs Lib.Table

/-- A claim: the how-manieth of its row, and when.  It has lapsed once rows claimed then are
reclaimed. -/
structure Ticket (ι : Type u) where
  row : ι
  serial : Nat
  stamp : Int
  lapsed : Bool
  deriving DecidableEq

instance [DecidableEq ι] : LawfulBEq (Ticket ι) :=
  inferInstance

/-- How often each row has been claimed, and the claims whose outcome is still to come. -/
structure Desk (ι : Type u) where
  serial : ι → Nat
  tickets : List (Ticket ι)

variable {ι : Type u} {held held' : ι → Int → Prop} {d : Desk ι}

/-- Every ticket that has not lapsed is for the claim that holds its row. -/
def Fair (held : ι → Int → Prop) (d : Desk ι) : Prop :=
  ∀ t ∈ d.tickets, t.lapsed = false → t.serial = d.serial t.row ∧ held t.row t.stamp

theorem Fair.mono (h : Fair held d) (hheld : ∀ id s, held id s → held' id s) : Fair held' d := by
  intro t ht hlapsed
  obtain ⟨hserial, hrow⟩ := h t ht hlapsed
  exact ⟨hserial, hheld _ _ hrow⟩

def Desk.empty : Desk ι :=
  ⟨fun _ => 0, []⟩

theorem fair_empty (held : ι → Int → Prop) : Fair held Desk.empty :=
  fun _ h => absurd h List.not_mem_nil

def Ticket.lapse (cutoff : Int) (t : Ticket ι) : Ticket ι :=
  if t.stamp < cutoff then { t with lapsed := true } else t

def Desk.reclaim (d : Desk ι) (cutoff : Int) : Desk ι :=
  { d with tickets := d.tickets.map (Ticket.lapse cutoff) }

theorem Fair.reclaim (h : Fair held d) {cutoff : Int}
    (hheld : ∀ id s, held id s → cutoff ≤ s → held' id s) : Fair held' (d.reclaim cutoff) := by
  intro t' ht' hlapsed
  obtain ⟨t, ht, rfl⟩ := List.mem_map.mp ht'
  by_cases hold : t.stamp < cutoff
  · rw [Ticket.lapse, if_pos hold] at hlapsed
    cases hlapsed
  · rw [Ticket.lapse, if_neg hold] at hlapsed ⊢
    obtain ⟨hserial, hrow⟩ := h t ht hlapsed
    exact ⟨hserial, hheld _ _ hrow (Int.not_lt.mp hold)⟩

section Runs

variable {σ : Type v} {ε : Type w} {next : σ → ε → Option σ} {Inv : σ → Prop}
  {Timely : σ → ε → Prop} {desk : σ → Desk ι} {ticket : ε → Option (Ticket ι)}
  {claimed : σ → ι → Int → Prop}

/-- The step uses up a ticket, if any, that is for the last claim of its row. -/
def OwnClaim (next : σ → ε → Option σ) (desk : σ → Desk ι) (ticket : ε → Option (Ticket ι)) (s : σ)
    (e : ε) : Prop :=
  ∀ t s', ticket e = some t → next s e = some s' → ¬t.serial < (desk s).serial t.row

theorem ownClaim_along (hstep : ∀ s e s', Inv s → Timely s e → next s e = some s' → Inv s')
    (hfair : ∀ s, Inv s → Fair (claimed s) (desk s))
    (hused : ∀ s e s' t, next s e = some s' → ticket e = some t → t ∈ (desk s).tickets)
    (htimely : ∀ s e t, Timely s e → ticket e = some t → t.lapsed = false) {s : σ} (hs : Inv s)
    {es : List ε} (h : Along next Timely s es) : Along next (OwnClaim next desk ticket) s es := by
  refine Along.of_invariant hstep ?_ hs h
  intro s e hinv he t s' hticket hnext
  have hown := (hfair s hinv t (hused s e s' t hnext hticket) (htimely s e t he hticket)).1
  exact Nat.not_lt.mpr (Nat.le_of_eq hown.symm)

end Runs

section Rows

variable {α : Type v} {key : α → ι} {view : α → Option Int} {rows rows' : List α} {cond : α → Bool}
  {set : α → α}

/-- A row of a table is claimed; `view` is when, of the rows that are. -/
def HeldIn (key : α → ι) (view : α → Option Int) (rows : List α) (id : ι) (s : Int) : Prop :=
  ∃ r ∈ rows, key r = id ∧ view r = some s

theorem HeldIn.update {id : ι} {s : Int} (h : HeldIn key view rows id s)
    (hkeep : ∀ r, key r = id → view r = some s → ¬cond r = true) :
    HeldIn key view (update cond set rows) id s := by
  obtain ⟨r, hr, hkey, hview⟩ := h
  exact ⟨r, mem_update.mpr ⟨r, hr, if_neg (hkeep r hkey hview)⟩, hkey, hview⟩

theorem Fair.ofRows (h : Fair (HeldIn key view rows) d)
    (hrows : ∀ r ∈ rows, (view r).isSome = true → r ∈ rows') : Fair (HeldIn key view rows') d := by
  apply h.mono
  rintro id s ⟨r, hr, hkey, hview⟩
  exact ⟨r, hrows r hr (Option.isSome_iff_exists.mpr ⟨s, hview⟩), hkey, hview⟩

theorem Fair.reclaimRows (h : Fair (HeldIn key view rows) d) {cutoff : Int}
    (hstale : ∀ r s, cond r = true → view r = some s → s < cutoff) :
    Fair (HeldIn key view (update cond set rows)) (d.reclaim cutoff) := by
  apply h.reclaim
  intro id s hheld hle
  apply hheld.update
  intro r _ hview hcond
  exact Int.not_le.mpr (hstale r s hcond hview) hle

variable {claimed : α → Bool} {stamp : α → Option Int} {r : α}

def since (claimed : α → Bool) (stamp : α → Option Int) (r : α) : Option Int :=
  if claimed r then stamp r else none

theorem since_of_not (h : claimed r = false) : since claimed stamp r = none :=
  if_neg (Bool.not_eq_true _ ▸ h)

theorem claimed_of_since (c : α → Bool) (h : (since c stamp r).isSome = true) : c r = true := by
  by_contra hnot
  rw [since, if_neg hnot] at h
  cases h

theorem Fair.reclaimStale (h : Fair (HeldIn key (since claimed stamp) rows) d) (cutoff : Int) :
    Fair (HeldIn key (since claimed stamp)
      (update (fun r => claimed r && (stamp r).any fun s => decide (s < cutoff)) set rows))
      (d.reclaim cutoff) := by
  apply h.reclaimRows
  intro r s hcond hview
  rw [Bool.and_eq_true] at hcond
  rw [since, if_pos hcond.1] at hview
  rw [hview, Option.any_some, decide_eq_true_eq] at hcond
  exact hcond.2

variable [DecidableEq ι]

def Desk.claim (d : Desk ι) (won : List ι) (stamp : Int) : Desk ι where
  serial id := if id ∈ won then d.serial id + 1 else d.serial id
  tickets := d.tickets ++ won.map fun id => ⟨id, d.serial id + 1, stamp, false⟩

theorem Fair.claim (h : Fair held d) {won : List ι} {stamp : Int}
    (hfree : ∀ id ∈ won, ∀ s, ¬held id s) (hwon : ∀ id ∈ won, held' id stamp)
    (hrest : ∀ id s, held id s → held' id s) : Fair held' (d.claim won stamp) := by
  intro t ht hlapsed
  rcases List.mem_append.mp ht with ht | ht
  · obtain ⟨hserial, hrow⟩ := h t ht hlapsed
    have hno : t.row ∉ won := fun hmem => hfree t.row hmem _ hrow
    exact ⟨hserial.trans (if_neg hno).symm, hrest _ _ hrow⟩
  · obtain ⟨id, hid, rfl⟩ := List.mem_map.mp ht
    exact ⟨(if_pos hid).symm, hwon id hid⟩

def Desk.settle (d : Desk ι) (t : Ticket ι) : Desk ι :=
  { d with tickets := d.tickets.filter fun t' => !(t'.row == t.row && t'.serial == t.serial) }

theorem Fair.settle (h : Fair held d) {t : Ticket ι} (ht : t ∈ d.tickets)
    (hlapsed : t.lapsed = false) (hheld : ∀ id s, id ≠ t.row → held id s → held' id s) :
      Fair held' (d.settle t) := by
  intro t' ht' hlapsed'
  obtain ⟨ht', hother⟩ := List.mem_filter.mp ht'
  obtain ⟨hserial', hrow'⟩ := h t' ht' hlapsed'
  refine ⟨hserial', hheld _ _ ?_ hrow'⟩
  intro hsame
  have hserial := (h t ht hlapsed).1
  rw [← hsame, ← hserial'] at hserial
  rw [hsame, hserial, beq_self_eq_true, beq_self_eq_true] at hother
  cases hother

theorem Fair.abandon (h : Fair held d) (t : Ticket ι) : Fair held (d.settle t) :=
  fun t' ht' => h t' (List.mem_filter.mp ht').1

theorem Fair.claimRows (h : Fair (HeldIn key view rows) d) (hkeys : (rows.map key).Nodup)
    {stamp : Int} (hfree : ∀ r, cond r = true → view r = none) (hkey : ∀ r, key (set r) = key r)
    (hset : ∀ r, view (set r) = some stamp) :
    Fair (HeldIn key view (update cond set rows)) (d.claim ((rows.filter cond).map key) stamp) := by
  have hwon : ∀ id ∈ (rows.filter cond).map key, ∃ r ∈ rows, cond r = true ∧ key r = id := by
    intro id hid
    obtain ⟨r, hr, rfl⟩ := List.mem_map.mp hid
    obtain ⟨hr, hcond⟩ := List.mem_filter.mp hr
    exact ⟨r, hr, hcond, rfl⟩
  apply h.claim
  · rintro id hid s ⟨r', hr', hkey', hview⟩
    obtain ⟨r, hr, hcond, rfl⟩ := hwon id hid
    rw [eq_of_key hkeys hr' hr hkey', hfree r hcond] at hview
    cases hview
  · intro id hid
    obtain ⟨r, hr, hcond, rfl⟩ := hwon id hid
    exact ⟨set r, mem_update.mpr ⟨r, hr, if_pos hcond⟩, hkey r, hset r⟩
  · intro id s hheld
    apply hheld.update
    intro r _ hview hcond
    rw [hfree r hcond] at hview
    cases hview

theorem Fair.settleRows (h : Fair (HeldIn key view rows) d) {t : Ticket ι} (ht : t ∈ d.tickets)
    (hlapsed : t.lapsed = false) (hown : ∀ r, cond r = true → key r = t.row) :
    Fair (HeldIn key view (update cond set rows)) (d.settle t) := by
  apply h.settle ht hlapsed
  intro id s hne hheld
  apply hheld.update
  intro r hkey _ hcond
  exact hne (hkey.symm.trans (hown r hcond))

end Rows

end ThanksComputer.Lib.Claims
