import ThanksComputer.State.History

/-! The order in which the events of a record are claimed: one that is claimed has every earlier one
behind it, whoever claims and whatever becomes of the claims. -/

namespace ThanksComputer.State

open Lib.Runs Lib.Table

section Tables

variable {events : List Event} {cond : Event → Bool} {set : Event → Event}

/-- No event is claimed while an earlier one of its record is pending or claimed. -/
def Ordered (events : List Event) : Prop :=
  ∀ e ∈ events, ∀ p ∈ events, e.status = .claimed → p.key = e.key → p.version < e.version →
    p.status ≠ .pending ∧ p.status ≠ .claimed

theorem terminal_iff {s : Status} : s.terminal = true ↔ s ≠ .pending ∧ s ≠ .claimed := by
  cases s <;> decide

theorem ordered_update (hmark : ∀ e, (set e).mark = e.mark)
    (h : ∀ e ∈ events, ∀ p ∈ events, (if cond e then set e else e).status = .claimed →
      p.key = e.key → p.version < e.version → (if cond p then set p else p).status ≠ .pending ∧
        (if cond p then set p else p).status ≠ .claimed) : Ordered (update cond set events) := by
  have hsame : ∀ e, (if cond e = true then set e else e).mark = e.mark := by
    intro e
    split
    · exact hmark e
    · rfl
  have hkeys : ∀ e, (if cond e = true then set e else e).key = e.key :=
    fun e => congrArg Mark.key (hsame e)
  have hversions : ∀ e, (if cond e = true then set e else e).version = e.version :=
    fun e => congrArg Mark.version (hsame e)
  intro e' he' p' hp' hclaimed hkey hversion
  obtain ⟨e, he, rfl⟩ := mem_update.mp he'
  obtain ⟨p, hp, rfl⟩ := mem_update.mp hp'
  rw [hkeys, hkeys] at hkey
  rw [hversions, hversions] at hversion
  exact h e he p hp hclaimed hkey hversion

theorem Ordered.release (h : Ordered events) (hcond : ∀ e, cond e = true → e.status = .claimed)
    (hmark : ∀ e, (set e).mark = e.mark) (hset : ∀ e, (set e).status ≠ .claimed) :
    Ordered (update cond set events) := by
  apply ordered_update hmark
  intro e he p hp hclaimed hkey hversion
  have hkept : ¬cond e = true := by
    intro hc
    rw [if_pos hc] at hclaimed
    exact hset e hclaimed
  rw [if_neg hkept] at hclaimed
  have hearlier := h e he p hp hclaimed hkey hversion
  rw [if_neg fun hc => hearlier.2 (hcond p hc)]
  exact hearlier

theorem Ordered.claim (h : Ordered events) (hcond : ∀ e ∈ events, cond e = true →
      e.status = .pending ∧ ∀ p ∈ events, p.key = e.key → p.version < e.version →
        p.status ≠ .pending ∧ p.status ≠ .claimed)
    (hmark : ∀ e, (set e).mark = e.mark) : Ordered (update cond set events) := by
  apply ordered_update hmark
  intro e he p hp hclaimed hkey hversion
  have hearlier : p.status ≠ .pending ∧ p.status ≠ .claimed := by
    by_cases hc : cond e = true
    · exact (hcond e he hc).2 p hp hkey hversion
    · rw [if_neg hc] at hclaimed
      exact h e he p hp hclaimed hkey hversion
  rw [if_neg fun hc => hearlier.1 (hcond p hp hc).1]
  exact hearlier

theorem Ordered.append (h : Ordered events) {new : Event} (hpending : new.status = .pending)
    (hlast : ∀ e ∈ events, e.key = new.key → e.version < new.version) :
    Ordered (events ++ [new]) := by
  intro e he p hp hclaimed hkey hversion
  rcases List.mem_append.mp he with he | he
  · rcases List.mem_append.mp hp with hp | hp
    · exact h e he p hp hclaimed hkey hversion
    · rw [List.mem_singleton.mp hp] at hkey hversion
      exact absurd (hlast e he hkey.symm) (Nat.lt_asymm hversion)
  · rw [List.mem_singleton.mp he, hpending] at hclaimed
    cases hclaimed

end Tables

section Claims

variable {db : Store}

theorem picks_due {limit : Int} {locked : Event → Bool} {now : Int}
    (hids : (db.events.map Event.id).Nodup) {e : Event} (he : e ∈ db.events)
    (hpick : (db.picks limit locked now).any (fun p => p.id == e.id) = true) :
    db.due now e = true := by
  obtain ⟨p, hp, hid⟩ := List.any_eq_true.mp hpick
  have hp := List.mem_of_mem_take hp
  rw [List.mem_mergeSort, List.mem_filter, Bool.and_eq_true] at hp
  rw [← eq_of_key hids hp.1 he (beq_iff_eq.mp hid)]
  exact hp.2.1

theorem due_earlier {now : Int} {e : Event} (h : db.due now e = true) {p : Event}
    (hp : p ∈ db.events) (hkey : p.key = e.key) (hversion : p.version < e.version) :
    p.status ≠ .pending ∧ p.status ≠ .claimed := by
  rw [Store.due, Bool.and_eq_true, Bool.not_eq_true', List.any_eq_false] at h
  have hno := h.2 p hp
  rw [hkey, beq_self_eq_true, decide_eq_true hversion, Bool.true_and, Bool.true_and,
    Bool.not_eq_true', Bool.not_eq_false] at hno
  exact terminal_iff.mp hno

theorem ordered_claimDue (h : Ordered db.events) (hids : (db.events.map Event.id).Nodup)
    (node : String) (limit : Int) (locked : Event → Bool) (now : Int) :
    Ordered (db.claimDue node limit locked now).events := by
  apply h.claim
  · intro e he hc
    rw [Bool.and_eq_true, beq_iff_eq] at hc
    exact ⟨hc.1, fun p hp => due_earlier (picks_due hids he hc.2) hp⟩
  · exact fun e => rfl

theorem ordered_settle (h : Ordered db.events) (eventID : String) {set : Event → Event}
    (hmark : ∀ e, (set e).mark = e.mark) (hset : ∀ e, (set e).status ≠ .claimed) :
    Ordered (db.settle eventID set).events := by
  apply h.release _ hmark hset
  intro e hc
  rw [Bool.and_eq_true, beq_iff_eq, beq_iff_eq] at hc
  exact hc.2

theorem unclaim_status (maxAttempts next : Int) (reason : String) (e : Event) :
    (e.unclaim maxAttempts next reason).status ≠ .claimed := by
  unfold Event.unclaim
  dsimp only
  split
  · exact fun h => by cases h
  · exact fun h => by cases h

theorem ordered_retry (h : Ordered db.events) (eventID : String) (backoff : Int) (reason : String)
    (consumeAttempt : Bool) (maxAttempts now : Int) :
    Ordered (db.retry eventID backoff reason consumeAttempt maxAttempts now).events := by
  cases consumeAttempt with
  | true => exact ordered_settle h eventID (fun _ => rfl) fun e => unclaim_status _ _ _ e
  | false => exact ordered_settle h eventID (fun _ => rfl) fun e he => by cases he

theorem ordered_reclaimStale (h : Ordered db.events) (staleAfter maxAttempts now : Int) :
    Ordered (db.reclaimStale staleAfter maxAttempts now).events := by
  apply h.release
  · intro e hc
    rw [Bool.and_eq_true, beq_iff_eq] at hc
    exact hc.1
  · exact fun e => rfl
  · exact fun e => unclaim_status _ _ _ e

theorem ordered_purge (h : Ordered db.events) (retention now : Int) :
    Ordered (db.purge retention now).events :=
  fun e he p hp => h e (List.mem_filter.mp he).1 p (List.mem_filter.mp hp).1

end Claims

section Runs

variable {cfg : Config} {sys sys' : System}

/-- The events have ids of their own and are claimed in order. -/
structure InOrder (db : Store) : Prop where
  ids : (db.events.map Event.id).Nodup
  ordered : Ordered db.events

theorem inOrder_settle {db : Store} (h : InOrder db) (eventID : String) {set : Event → Event}
    (hid : ∀ e, (set e).id = e.id) (hmark : ∀ e, (set e).mark = e.mark)
    (hset : ∀ e, (set e).status ≠ .claimed) : InOrder (db.settle eventID set) where
  ids := (map_update hid db.events).symm ▸ h.ids
  ordered := ordered_settle h.ordered eventID hmark hset

theorem inOrder_transition (hinv : Inv sys) (h : InOrder sys.store) (req : TransitionReq)
    (eventID : String) (now : Int) (fault : Option Stage) :
    InOrder (sys.store.transition cfg req eventID now fault).2 := by
  rcases transition_cases cfg sys.store req eventID now fault with ⟨e, heq⟩ | ⟨m, r, hr, hid, heq⟩
  · rw [heq]
    exact h
  rw [heq]
  obtain ⟨hmem, hkey, -, -⟩ := matching_some hr
  obtain ⟨r₀, -, -, hhistory⟩ := hinv.chained r hmem
  refine ⟨?_, h.ordered.append rfl ?_⟩
  · exact nodup_insert h.ids hid
  · -- The new event is one version past the record, and no event of the record is.
    intro e he hkey'
    have hmark : e.mark ∈ sys.marks := List.mem_map_of_mem (List.mem_append_left _ he)
    exact Nat.lt_succ_of_le (hhistory.bounds e.mark hmark (hkey'.trans hkey.symm)).2

theorem inOrder_next {step : Step} (hinv : Inv sys) (h : InOrder sys.store)
    (hnext : sys.next cfg step = some sys') : InOrder sys'.store := by
  cases step with
  | create i req now fault =>
    rcases next_create hnext with rfl | ⟨r, -, rfl⟩
    · exact h
    · refine ⟨?_, ?_⟩
      · rw [insert_events]
        exact h.ids
      · rw [insert_events]
        exact h.ordered
  | readBack i fault =>
    obtain ⟨c, -, rfl⟩ := Option.map_eq_some_iff.mp hnext
    exact h
  | transition req eventID now fault =>
    cases hnext
    exact inOrder_transition hinv h req eventID now fault
  | claimDue node limit locked now =>
    cases hnext
    refine ⟨?_, ordered_claimDue h.ordered h.ids node limit locked now⟩
    rw [Store.claimDue, map_update]
    · exact h.ids
    · exact fun e => rfl
  | markDone eventID rid now =>
    cases hnext
    exact inOrder_settle h eventID (fun _ => rfl) (fun _ => rfl) fun e he => by cases he
  | markSkipped eventID reason now =>
    cases hnext
    exact inOrder_settle h eventID (fun _ => rfl) (fun _ => rfl) fun e he => by cases he
  | retry eventID backoff reason consumeAttempt maxAttempts now =>
    cases hnext
    refine ⟨?_, ordered_retry h.ordered eventID backoff reason consumeAttempt maxAttempts now⟩
    rw [Store.retry, Store.settle, map_update]
    · exact h.ids
    · intro e
      cases consumeAttempt with
      | true => rfl
      | false => rfl
  | reclaimStale staleAfter maxAttempts now =>
    cases hnext
    refine ⟨?_, ordered_reclaimStale h.ordered staleAfter maxAttempts now⟩
    rw [Store.reclaimStale, map_update]
    · exact h.ids
    · exact fun e => rfl
  | purge retention now =>
    cases hnext
    exact ⟨h.ids.sublist (List.filter_sublist.map _), ordered_purge h.ordered retention now⟩

/-- In every state of every run, the claimed events have every earlier one behind them. -/
theorem claimed_in_order (cfg : Config) (steps : List Step) :
    Along (System.next cfg) (fun sys step => ∀ sys', sys.next cfg step = some sys' →
      Ordered sys'.store.events) .init steps := by
  refine Along.of_invariant (I := fun sys => Inv sys ∧ InOrder sys.store) (Q := fun _ _ => True)
    ?_ ?_ ⟨inv_init, List.nodup_nil, fun _ he => absurd he List.not_mem_nil⟩ (Along.true _ steps)
  · exact fun sys step sys' h _ hnext => ⟨inv_next h.1 hnext, inOrder_next h.1 h.2 hnext⟩
  · exact fun sys step h _ sys' hnext => (inOrder_next h.1 h.2 hnext).ordered

end Runs

end ThanksComputer.State
