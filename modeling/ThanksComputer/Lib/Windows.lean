import Mathlib.Data.List.Basic

/-! Counting in fixed windows of one length.  A window opens with its first event and takes a
limited number of them; the next one opens after it is over. -/

namespace ThanksComputer.Lib.Windows

structure Window where
  start : Int
  events : List Int

/-- Windows of length `len`, newest first, with at most `limit` events each. -/
inductive Spaced (limit : Nat) (len : Int) : List Window → Prop
  | nil : Spaced limit len []
  | cons {w : Window} {ws : List Window} (hlimit : w.events.length ≤ limit)
      (hevents : ∀ t ∈ w.events, w.start ≤ t ∧ t ≤ w.start + len)
        (hnext : ∀ v ∈ ws, v.start + len < w.start)
      (h : Spaced limit len ws) : Spaced limit len (w :: ws)

/-- All events, newest window first. -/
def events (ws : List Window) : List Int :=
  ws.flatMap Window.events

/-- The events of a closed interval of one window's length. -/
def within (len a : Int) (ts : List Int) : Nat :=
  ts.countP fun t => a ≤ t ∧ t ≤ a + len

variable {limit : Nat} {len a : Int} {ws : List Window}

theorem within_append (ts us : List Int) :
    within len a (ts ++ us) = within len a ts + within len a us :=
  List.countP_append

theorem within_eq_zero {ts : List Int} (h : ∀ t ∈ ts, t < a ∨ a + len < t) :
    within len a ts = 0 := by
  rw [within, List.countP_eq_zero]
  intro t ht
  rcases h t ht with hlt | hgt
  · simp only [decide_eq_true_eq]
    omega
  · simp only [decide_eq_true_eq]
    omega

theorem within_le_length (ts : List Int) : within len a ts ≤ ts.length :=
  List.countP_le_length

theorem Spaced.within_old (h : Spaced limit len ws) (hold : ∀ w ∈ ws, w.start + len < a) :
    within len a (events ws) = 0 := by
  induction h with
  | nil => rfl
  | @cons w ws _ hevents _ _ ih =>
    rw [List.forall_mem_cons] at hold
    rw [events, List.flatMap_cons, within_append, within_eq_zero, Nat.zero_add]
    · exact ih hold.2
    · intro t ht
      have := hevents t ht
      omega

theorem Spaced.within_before (h : Spaced limit len ws) (hold : ∀ w ∈ ws, w.start < a) :
    within len a (events ws) ≤ limit := by
  cases h with
  | nil => exact Nat.zero_le _
  | @cons w ws hlimit _ hnext h =>
    rw [List.forall_mem_cons] at hold
    have hrest : within len a (events ws) = 0 := by
      refine h.within_old fun v hv => ?_
      have := hnext v hv
      omega
    have hfirst : within len a w.events ≤ w.events.length := within_le_length w.events
    rw [events, List.flatMap_cons, within_append]
    show within len a w.events + within len a (events ws) ≤ limit
    omega

theorem Spaced.within_le (h : Spaced limit len ws) (a : Int) :
    within len a (events ws) ≤ 2 * limit := by
  induction h with
  | nil => exact Nat.zero_le _
  | @cons w ws hlimit hevents hnext h ih =>
    rw [events, List.flatMap_cons, within_append]
    show within len a w.events + within len a (events ws) ≤ 2 * limit
    by_cases hstart : w.start ≤ a + len
    · have hfirst : within len a w.events ≤ w.events.length := within_le_length w.events
      have hrest : within len a (events ws) ≤ limit := by
        refine h.within_before fun v hv => ?_
        have := hnext v hv
        omega
      omega
    · have hfirst : within len a w.events = 0 := by
        refine within_eq_zero fun t ht => ?_
        have := hevents t ht
        omega
      omega

end ThanksComputer.Lib.Windows
