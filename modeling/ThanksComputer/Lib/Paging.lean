import Mathlib.Data.List.Sort
import Mathlib.Data.Finset.Card
import Mathlib.Order.Defs.LinearOrder

/-! Reading keys in pages.  Each page is made from the keys of its own moment, behind a cursor that
is the last key of the page before. -/

universe u

namespace ThanksComputer.Lib.Paging

variable {κ : Type u}

/-- The first `n` pages left a cursor. -/
def Goes (cursor : Nat → Option κ) (n : Nat) : Prop :=
  ∀ i < n, cursor (i + 1) ≠ none

/-- What the first `n` pages held. -/
def returned (page : Nat → List κ) (n : Nat) : List κ :=
  (List.range n).flatMap page

theorem returned_succ (page : Nat → List κ) (n : Nat) :
    returned page (n + 1) = returned page n ++ page n := by
  rw [returned, List.range_succ, List.flatMap_append, List.flatMap_singleton, returned]

theorem Goes.mono {cursor : Nat → Option κ} {m n : Nat} (h : Goes cursor n) (hm : m ≤ n) :
    Goes cursor m :=
  fun i hi => h i (Nat.lt_of_lt_of_le hi hm)

theorem subset_of_stable {ks : Nat → List κ} {m : Nat} (hstable : ∀ i ≥ m, ks (i + 1) ⊆ ks i)
    (j : Nat) :
    ks (m + j) ⊆ ks m := by
  induction j with
  | zero => exact fun _ hk => hk
  | succ j ih => exact fun _ hk => ih (hstable (m + j) (Nat.le_add_right m j) hk)

variable [LinearOrder κ]

def Behind (after : Option κ) (k : κ) : Prop :=
  ∀ c ∈ after, c < k

/-- One page of the keys `ks`, and the cursor it leaves: the first keys behind the last cursor, all
of them when none is left. -/
structure Page (ks : List κ) (after : Option κ) (page : List κ) (next : Option κ) : Prop where
  sorted : page.Pairwise (· < ·)
  mem : ∀ k ∈ page, k ∈ ks ∧ Behind after k
  last : next = none → ∀ k ∈ ks, Behind after k → k ∈ page
  more : ∀ c ∈ next, page.getLast? = some c ∧ ∀ k ∈ ks, Behind after k → k ≤ c → k ∈ page

structure Pages (ks page : Nat → List κ) (cursor : Nat → Option κ) : Prop where
  start : cursor 0 = none
  step : ∀ n, Page (ks n) (cursor n) (page n) (cursor (n + 1))

variable {ks page : Nat → List κ} {cursor : Nat → Option κ} {n : Nat} {k : κ}

theorem page_take {ks past : List κ} {after : Option κ} {limit : Nat} (hlimit : 0 < limit)
    (hsorted : past.Pairwise (· < ·))
    (hpast : ∀ k, k ∈ past ↔ k ∈ ks ∧ Behind after k) :
    Page ks after (past.take limit)
      (if limit < past.length then (past.take limit).getLast? else none) where
  sorted := hsorted.sublist (List.take_sublist limit past)
  mem k hk := (hpast k).mp (List.mem_of_mem_take hk)
  last hnext k hk hbehind := by
    split at hnext
    · next hlt =>
      have hnil : past.take limit = [] := List.getLast?_eq_none_iff.mp hnext
      rcases List.take_eq_nil_iff.mp hnil with hzero | hpastnil
      · exact absurd hlimit (hzero ▸ Nat.lt_irrefl 0)
      · rw [hpastnil] at hlt
        exact absurd hlt (Nat.not_lt_zero _)
    · next hlt =>
      rw [List.take_of_length_le (Nat.le_of_not_lt hlt)]
      exact (hpast k).mpr ⟨hk, hbehind⟩
  more c hc := by
    split at hc
    · refine ⟨hc, fun k hk hbehind hle => ?_⟩
      have hmem := (hpast k).mpr ⟨hk, hbehind⟩
      rw [← List.take_append_drop limit past] at hmem hsorted
      rcases List.mem_append.mp hmem with hmem | hmem
      · exact hmem
      · have hlt := (List.pairwise_append.mp hsorted).2.2 c (List.mem_of_getLast? hc) k hmem
        exact absurd hle (not_le.mpr hlt)
    · cases hc

theorem Page.le_next {ks page : List κ} {after next : Option κ} {c : κ}
    (h : Page ks after page next) (hc : c ∈ next) (hk : k ∈ page) : k ≤ c := by
  obtain ⟨front, rfl⟩ := List.getLast?_eq_some_iff.mp (h.more c hc).1
  rcases List.mem_append.mp hk with hk | hk
  · exact le_of_lt ((List.pairwise_append.mp h.sorted).2.2 k hk c (List.mem_singleton_self c))
  · exact le_of_eq (List.mem_singleton.mp hk)

theorem Page.next_mem {ks page : List κ} {after next : Option κ} {c : κ}
    (h : Page ks after page next) (hc : c ∈ next) : c ∈ page :=
  List.mem_of_getLast? (h.more c hc).1

theorem Pages.cursor_lt (h : Pages ks page cursor) {c d : κ} (hc : c ∈ cursor n)
    (hd : d ∈ cursor (n + 1)) :
    c < d :=
  ((h.step n).mem d ((h.step n).next_mem hd)).2 c hc

theorem Pages.le_cursor (h : Pages ks page cursor) (hgoes : Goes cursor n)
    (hk : k ∈ returned page n) :
    ∃ c ∈ cursor n, k ≤ c := by
  induction n with
  | zero => exact (List.not_mem_nil hk).elim
  | succ n ih =>
    obtain ⟨c, hc⟩ := Option.ne_none_iff_exists'.mp (hgoes n (Nat.lt_succ_self n))
    refine ⟨c, hc, ?_⟩
    rw [returned_succ] at hk
    rcases List.mem_append.mp hk with hk | hk
    · obtain ⟨c', hc', hle⟩ := ih (hgoes.mono (Nat.le_succ n)) hk
      exact le_trans hle (le_of_lt (h.cursor_lt hc' hc))
    · exact (h.step n).le_next hc hk

theorem Pages.sorted (h : Pages ks page cursor) (hgoes : Goes cursor n) :
    (returned page (n + 1)).Pairwise (· < ·) := by
  induction n with
  | zero =>
    rw [returned_succ]
    exact (h.step 0).sorted
  | succ n ih =>
    rw [returned_succ]
    refine List.pairwise_append.mpr ⟨ih (hgoes.mono (Nat.le_succ n)), (h.step _).sorted, ?_⟩
    intro a ha b hb
    obtain ⟨c, hc, hle⟩ := h.le_cursor hgoes ha
    exact lt_of_le_of_lt hle (((h.step _).mem b hb).2 c hc)

theorem Pages.mem_returned (h : Pages ks page cursor) (hgoes : Goes cursor n)
    (hk : ∀ i < n, k ∈ ks i) (hpast : ∃ c ∈ cursor n, k ≤ c) : k ∈ returned page n := by
  induction n with
  | zero =>
    obtain ⟨c, hc, -⟩ := hpast
    rw [h.start] at hc
    cases hc
  | succ n ih =>
    obtain ⟨c, hc, hle⟩ := hpast
    rw [returned_succ]
    by_cases hold : ∃ c ∈ cursor n, k ≤ c
    · refine List.mem_append_left _ (ih (hgoes.mono (Nat.le_succ n)) (fun i hi => ?_) hold)
      exact hk i (Nat.lt_succ_of_lt hi)
    · refine List.mem_append_right _ (((h.step n).more c hc).2 k (hk n (Nat.lt_succ_self n)) ?_ hle)
      exact fun d hd => not_le.mp fun hkd => hold ⟨d, hd, hkd⟩

theorem Pages.complete (h : Pages ks page cursor) (hgoes : Goes cursor n)
    (hend : cursor (n + 1) = none) (hk : ∀ i ≤ n, k ∈ ks i) : k ∈ returned page (n + 1) := by
  rw [returned_succ]
  by_cases hold : ∃ c ∈ cursor n, k ≤ c
  · exact List.mem_append_left _ (h.mem_returned hgoes (fun i hi => hk i (Nat.le_of_lt hi)) hold)
  · refine List.mem_append_right _ ((h.step n).last hend k (hk n (Nat.le_refl n)) ?_)
    exact fun d hd => not_le.mp fun hkd => hold ⟨d, hd, hkd⟩

theorem Pages.ends (h : Pages ks page cursor) (hstable : ∃ m, ∀ i ≥ m, ks (i + 1) ⊆ ks i) :
    ∃ n, cursor (n + 1) = none := by
  by_contra hnever
  rw [not_exists] at hnever
  obtain ⟨m, hstable⟩ := hstable
  have hsome : ∀ j, ∃ c, cursor (m + j + 1) = some c := fun j =>
    Option.ne_none_iff_exists'.mp (hnever (m + j))
  choose c hc using hsome
  -- The cursors ascend, and all are among the keys of page `m`.
  have hmono : StrictMono c := strictMono_nat_of_lt_succ fun j => h.cursor_lt (hc j) (hc (j + 1))
  have hmem : ∀ j, c j ∈ (ks m).toFinset := by
    intro j
    rw [List.mem_toFinset]
    exact subset_of_stable hstable j
      ((h.step (m + j)).mem (c j) ((h.step (m + j)).next_mem (hc j))).1
  have hcard := Finset.card_le_card_of_injOn c (s := Finset.range ((ks m).toFinset.card + 1))
    (t := (ks m).toFinset) (fun j _ => hmem j) hmono.injective.injOn
  rw [Finset.card_range] at hcard
  exact absurd hcard (Nat.not_succ_le_self _)

end ThanksComputer.Lib.Paging
