import Mathlib.Data.List.Sort

/-! Reading an ascending log behind a cursor.  A reader is handed batches of the log, each with
nothing left out above the place it asked from, and moves its cursor to the entries one by one. -/

universe u

namespace ThanksComputer.Lib.Cursor

variable {α : Type u} {pos : α → Nat} {log batch : List α} {c : Nat} {e : α}

def upTo (pos : α → Nat) (c : Nat) (log : List α) : List α :=
  log.filter fun e => decide (pos e ≤ c)

theorem mem_upTo {x : α} : x ∈ upTo pos c log ↔ x ∈ log ∧ pos x ≤ c := by
  rw [upTo, List.mem_filter, decide_eq_true_iff]

def Ascending (pos : α → Nat) (log : List α) : Prop :=
  log.Pairwise fun a b => pos a < pos b

instance Ascending.decidable (pos : α → Nat) (log : List α) : Decidable (Ascending pos log) :=
  inferInstanceAs (Decidable (log.Pairwise _))

/-- What a batch of the log holds when the reader stands at `c`: entries in ascending order, old
ones perhaps, and every entry between the reader and a later one of the batch. -/
structure Offers (pos : α → Nat) (log : List α) (c : Nat) (batch : List α) : Prop where
  mem : ∀ e ∈ batch, e ∈ log
  ascending : Ascending pos batch
  complete : ∀ e ∈ batch, ∀ y ∈ log, c < pos y → pos y < pos e → y ∈ batch

instance Offers.decidable [DecidableEq α] : Decidable (Offers pos log c batch) :=
  decidable_of_iff ((∀ e ∈ batch, e ∈ log) ∧ Ascending pos batch ∧
    ∀ e ∈ batch, ∀ y ∈ log, c < pos y → pos y < pos e → y ∈ batch)
    ⟨fun h => ⟨h.1, h.2.1, h.2.2⟩, fun h => ⟨h.mem, h.ascending, h.complete⟩⟩

theorem Offers.mono (h : Offers pos log c batch) {d : Nat} (hc : c ≤ d) :
    Offers pos log d batch where
  mem := h.mem
  ascending := h.ascending
  complete x hx y hy hlow := h.complete x hx y hy (Nat.lt_of_le_of_lt hc hlow)

theorem Offers.tail (h : Offers pos log c (e :: batch)) (he : pos e ≤ c) :
    Offers pos log c batch where
  mem x hx := h.mem x (List.mem_cons_of_mem e hx)
  ascending := (List.pairwise_cons.mp h.ascending).2
  complete x hx y hy hlow hhigh := by
    rcases List.mem_cons.mp
      (h.complete x (List.mem_cons_of_mem e hx) y hy hlow hhigh) with rfl | hmem
    · exact absurd he (Nat.not_le.mpr hlow)
    · exact hmem

theorem Offers.next (h : Offers pos log c (e :: batch)) {y : α} (hy : y ∈ log) (hlow : c < pos y) :
    pos e ≤ pos y := by
  by_contra hlt
  have hlt := Nat.not_le.mp hlt
  rcases List.mem_cons.mp (h.complete e List.mem_cons_self y hy hlow hlt) with rfl | hmem
  · exact absurd hlt (Nat.lt_irrefl _)
  · exact absurd ((List.pairwise_cons.mp h.ascending).1 y hmem) (Nat.not_lt.mpr (Nat.le_of_lt hlt))

theorem upTo_before (h : ∀ x ∈ log, c < pos x) : upTo pos c log = [] :=
  List.filter_eq_nil_iff.mpr fun x hx => by simpa using h x hx

theorem upTo_next (hlog : Ascending pos log) (he : e ∈ log) (hlow : c < pos e)
    (hfirst : ∀ y ∈ log, c < pos y → pos e ≤ pos y) :
    upTo pos (pos e) log = upTo pos c log ++ [e] := by
  induction log with
  | nil => cases he
  | cons a log ih =>
    obtain ⟨ha, hrest⟩ := List.pairwise_cons.mp hlog
    rw [upTo, upTo, List.filter_cons, List.filter_cons]
    rcases List.mem_cons.mp he with rfl | he
    · have habove : ∀ d ≤ pos e, ∀ x ∈ log, d < pos x := fun d hd x hx =>
        Nat.lt_of_le_of_lt hd (ha x hx)
      have hpast := upTo_before (habove (pos e) (Nat.le_refl _))
      have hbefore := upTo_before (habove c (Nat.le_of_lt hlow))
      rw [upTo] at hpast hbefore
      rw [hpast, hbefore, if_pos (decide_eq_true (Nat.le_refl _)),
        if_neg (by simpa using hlow), List.nil_append]
    · have hlt : pos a < pos e := ha e he
      have hc : pos a ≤ c := by
        by_contra hnot
        exact absurd (hfirst a List.mem_cons_self (Nat.not_le.mp hnot)) (Nat.not_le.mpr hlt)
      have hih := ih hrest he fun y hy => hfirst y (List.mem_cons_of_mem a hy)
      rw [upTo, upTo] at hih
      rw [if_pos (decide_eq_true (Nat.le_of_lt hlt)), if_pos (decide_eq_true hc), hih,
        List.cons_append]

theorem ascending_insertionSort {rows : List α} (h : (rows.map pos).Nodup) :
    Ascending pos (rows.insertionSort fun a b => pos a ≤ pos b) := by
  have hsorted : (rows.insertionSort fun a b => pos a ≤ pos b).Pairwise fun a b => pos a ≤ pos b :=
    haveI : Std.Total fun a b : α => pos a ≤ pos b := ⟨fun a b => Nat.le_total (pos a) (pos b)⟩
    haveI : IsTrans α fun a b : α => pos a ≤ pos b := ⟨fun _ _ _ => Nat.le_trans⟩
    List.pairwise_insertionSort _ rows
  have hnodup : ((rows.insertionSort fun a b => pos a ≤ pos b).map pos).Nodup :=
    ((List.perm_insertionSort _ rows).map pos).nodup_iff.mpr h
  exact (hsorted.and (List.pairwise_map.mp hnodup)).imp fun hab => Nat.lt_of_le_of_ne hab.1 hab.2

theorem mem_take_of_le {n : Nat} {z : α} (h : Ascending pos log)
    (hz : (log.take n).getLast? = some z) (he : e ∈ log) (hle : pos e ≤ pos z) :
      e ∈ log.take n := by
  rw [← List.take_append_drop n log] at h he
  rcases List.mem_append.mp he with he | he
  · exact he
  · have hlt := (List.pairwise_append.mp h).2.2 z (List.mem_of_getLast? hz) e he
    exact absurd hle (Nat.not_le.mpr hlt)

end ThanksComputer.Lib.Cursor
