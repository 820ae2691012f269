import Mathlib.Data.String.Basic
import ThanksComputer.Kv.Listing
import ThanksComputer.Lib.Paging
import ThanksComputer.Lib.Search

/-! A namespace read in pages (`ListPairsPage`), each from a listing of its own. -/

namespace ThanksComputer.Kv

open Lib.Paging Lib.Search

variable {V : Type} {be : Backend V} {cfg : Config V}

section Window

def maxListLimit : Nat := 200

def defaultListLimit : Nat := 200

def windowLimit (limit : Int) : Nat :=
  if limit ≤ 0 ∨ (maxListLimit : Int) < limit then defaultListLimit else limit.toNat

/-- The part of `ListPairsPage` behind `listAll`: entries of one key may come in any order. -/
def window (all : List (String × V)) (after : String) (limit : Int) : List (String × V) × String :=
  let all := all.insertionSort fun a b => a.1 ≤ b.1
  let i := search (fun j => (all[j]?.map fun p => decide (after < p.1)).getD true) 0 all.length
  let stop := min (i + windowLimit limit) all.length
  ((all.take stop).drop i, if stop < all.length then (all[stop - 1]?.map Prod.fst).getD "" else "")

def listPairsPage (tenant ns : String) (now : Nat) (listed : List (String × Pair V))
    (after : String) (limit : Int) : Except Error (List (String × V) × String) :=
  (listAll tenant ns now listed).map fun all => window all after limit

/-- The cursor as a place between keys; the empty one is before them all. -/
def place (cursor : String) : Option String :=
  if cursor = "" then none else some cursor

theorem windowLimit_pos (limit : Int) : 0 < windowLimit limit := by
  rw [windowLimit]
  split
  · decide
  · omega

theorem drop_search {all : List (String × V)} (hsorted : all.Pairwise fun a b => a.1 ≤ b.1)
    (after : String) :
    all.drop
      (search (fun j => (all[j]?.map fun p => decide (after < p.1)).getD true) 0 all.length) =
      all.filter fun p => decide (after < p.1) := by
  obtain ⟨-, hle, hbelow, hat⟩ := search_spec
    (f := fun j => (all[j]?.map fun p => decide (after < p.1)).getD true) (Nat.zero_le all.length)
    (fun a b hab hb ha => by
      rcases Nat.eq_or_lt_of_le hab with rfl | hlt
      · exact ha
      · have hord := List.pairwise_iff_getElem.mp hsorted a b (by omega) hb hlt
        simp only [List.getElem?_eq_getElem hb, Option.map_some, Option.getD_some,
          decide_eq_true_eq]
        simp only [List.getElem?_eq_getElem (show a < all.length by omega), Option.map_some,
          Option.getD_some, decide_eq_true_eq] at ha
        exact lt_of_lt_of_le ha hord)
  generalize search (fun j => (all[j]?.map fun p => decide (after < p.1)).getD true) 0 all.length =
    i at *
  have hfront : (all.take i).filter (fun p => decide (after < p.1)) = [] := by
    refine List.filter_eq_nil_iff.mpr fun p hp => ?_
    obtain ⟨j, hj, rfl⟩ := List.mem_take_iff_getElem.mp hp
    have hjlt : j < all.length := by omega
    have hfalse := hbelow j (Nat.zero_le j) (by omega)
    simp only [List.getElem?_eq_getElem hjlt, Option.map_some, Option.getD_some] at hfalse
    exact ne_true_of_eq_false hfalse
  have hback : (all.drop i).filter (fun p => decide (after < p.1)) = all.drop i := by
    refine List.filter_eq_self.mpr fun p hp => ?_
    obtain ⟨j, hj, rfl⟩ := List.mem_drop_iff_getElem.mp hp
    have hilt : i < all.length := by omega
    have hfirst := hat hilt
    simp only [List.getElem?_eq_getElem hilt, Option.map_some, Option.getD_some,
      decide_eq_true_eq] at hfirst
    rw [decide_eq_true_eq]
    rcases Nat.eq_zero_or_pos j with rfl | hj0
    · exact hfirst
    · exact lt_of_lt_of_le hfirst
        (List.pairwise_iff_getElem.mp hsorted i (i + j) hilt (by omega) (by omega))
  calc all.drop i = (all.take i).filter (fun p => decide (after < p.1)) ++
        (all.drop i).filter (fun p => decide (after < p.1)) := by
          rw [hfront, hback, List.nil_append]
    _ = all.filter fun p => decide (after < p.1) := by
      rw [← List.filter_append, List.take_append_drop]

def behind (all : List (String × V)) (after : String) : List (String × V) :=
  (all.insertionSort fun a b => a.1 ≤ b.1).filter fun p => decide (after < p.1)

theorem sorted_insertionSort (all : List (String × V)) :
    (all.insertionSort fun a b => a.1 ≤ b.1).Pairwise fun a b => a.1 ≤ b.1 :=
  haveI : Std.Total fun a b : String × V => a.1 ≤ b.1 := ⟨fun a b => le_total a.1 b.1⟩
  haveI : IsTrans (String × V) fun a b => a.1 ≤ b.1 := ⟨fun _ _ _ => le_trans⟩
  List.pairwise_insertionSort _ all

theorem window_eq (all : List (String × V)) (after : String) (limit : Int) :
    window all after limit = ((behind all after).take (windowLimit limit),
      if windowLimit limit < (behind all after).length then
        (((behind all after).take (windowLimit limit)).getLast?.map Prod.fst).getD "" else "") := by
  have hdrop := drop_search (sorted_insertionSort all) after
  have hpos := windowLimit_pos limit
  rw [window, behind, ← hdrop]
  generalize all.insertionSort (fun a b => a.1 ≤ b.1) = sorted
  generalize search (fun j => (sorted[j]?.map fun p => decide (after < p.1)).getD true) 0
    sorted.length = i
  generalize windowLimit limit = l at hpos ⊢
  have hlen : (sorted.drop i).length = sorted.length - i := List.length_drop
  refine Prod.ext ?_ ?_
  · dsimp only
    rw [List.drop_take, List.take_eq_take_iff, hlen]
    omega
  · dsimp only
    rw [hlen]
    by_cases hmore : l < sorted.length - i
    · rw [if_pos (by omega), if_pos hmore, Nat.min_eq_left (by omega), List.getLast?_take,
        if_neg (by omega),
        List.getElem?_drop, show i + (l - 1) = i + l - 1 by omega]
      rw [List.getElem?_eq_getElem (by omega)]
      rfl
    · rw [if_neg (by omega), if_neg hmore]

theorem page_window {all : List (String × V)} (hnodup : (all.map Prod.fst).Nodup)
    (hempty : "" ∉ all.map Prod.fst) (after : String) (limit : Int) :
    Page (all.map Prod.fst) (place after) ((window all after limit).1.map Prod.fst)
      (place (window all after limit).2) := by
  have hmem : ∀ k, k ∈ (behind all after).map Prod.fst ↔ k ∈ all.map Prod.fst ∧
    Behind (place after) k := by
    intro k
    have hlt : ∀ k ∈ all.map Prod.fst, (after < k ↔ Behind (place after) k) := by
      intro k hk
      rw [Behind, place]
      split
      · next hafter =>
        refine iff_of_true ?_ fun c hc => by cases hc
        rw [hafter]
        exact String.lt_iff_toList_lt.mpr (by
          rw [String.toList_empty]
          cases hlist : k.toList with
          | nil => exact absurd (String.toList_eq_nil_iff.mp hlist ▸ hk) hempty
          | cons c cs => exact List.nil_lt_cons c cs)
      · exact ⟨fun h c hc => by cases hc; exact h, fun h => h after rfl⟩
    rw [behind]
    constructor
    · intro hk
      obtain ⟨p, hp, rfl⟩ := List.mem_map.mp hk
      obtain ⟨hp, hafter⟩ := List.mem_filter.mp hp
      have hin : p.1 ∈ all.map Prod.fst := List.mem_map_of_mem ((List.mem_insertionSort _).mp hp)
      exact ⟨hin, (hlt _ hin).mp (decide_eq_true_eq.mp hafter)⟩
    · rintro ⟨hk, hbehind⟩
      have hafter := (hlt k hk).mpr hbehind
      obtain ⟨p, hp, rfl⟩ := List.mem_map.mp hk
      exact List.mem_map_of_mem (List.mem_filter.mpr
        ⟨(List.mem_insertionSort _).mpr hp, decide_eq_true_eq.mpr hafter⟩)
  have hsorted : ((behind all after).map Prod.fst).Pairwise (· < ·) := by
    have hle : ((all.insertionSort fun a b => a.1 ≤ b.1).map Prod.fst).Pairwise (· ≤ ·) :=
      List.pairwise_map.mpr (sorted_insertionSort all)
    have hne : ((all.insertionSort fun a b => a.1 ≤ b.1).map Prod.fst).Nodup :=
      ((List.perm_insertionSort _ all).map Prod.fst).nodup_iff.mpr hnodup
    have hstrict := (hle.and hne).imp fun hab => lt_of_le_of_ne hab.1 hab.2
    exact hstrict.sublist ((List.filter_sublist).map Prod.fst)
  have hpage := page_take (windowLimit_pos limit) hsorted hmem
  rw [window_eq]
  dsimp only
  rw [List.map_take]
  convert hpage using 1
  rw [List.length_map]
  by_cases hmore : windowLimit limit < (behind all after).length
  · rw [if_pos hmore, if_pos hmore, ← List.map_take, List.getLast?_map]
    cases hlast : ((behind all after).take (windowLimit limit)).getLast? with
    | none => rfl
    | some p =>
      have hp : p ∈ behind all after := List.mem_of_mem_take (List.mem_of_getLast? hlast)
      have hin : p.1 ∈ all.map Prod.fst := ((hmem p.1).mp (List.mem_map_of_mem hp)).1
      exact if_neg fun (h : p.1 = "") => hempty (h ▸ hin)
  · rw [if_neg hmore, if_neg hmore]
    rfl

end Window

section Paging

variable {s : Nat → Store V} {listed : Nat → List (String × Pair V)} {limit : Nat → Int}
  {tenant ns : String}

/-- Calls one after the other, with time passing. -/
inductive Later (cfg : Config V) (be : Backend V) (s : Store V) : Store V → Prop
  | refl : Later cfg be s s
  | call {s' : Store V} (h : Later cfg be s s') (c : Call V) : Later cfg be s
    ((code cfg be c).run be s').1
  | tick {s' : Store V} (h : Later cfg be s s') (clock : Nat) (hclock : s'.clock ≤ clock) :
      Later cfg be s { s' with clock }

theorem Reached.later {s s' : Store V} (h : Reached cfg be s) (hlater : Later cfg be s s') :
    Reached cfg be s' := by
  induction hlater with
  | refl => exact h
  | call _ c ih => exact ih.call c
  | tick _ clock hclock ih => exact ih.tick clock hclock

/-- One page of the namespace at a moment; a name that is refused ends the paging. -/
def pageAt (tenant ns : String) (s : Store V) (listed : List (String × Pair V)) (after : String)
    (limit : Int) : List (String × V) × String :=
  match listPairsPage tenant ns s.clock listed after limit with
  | .ok page => page
  | .error _ => ([], "")

/-- The cursor before each page: first none, then the one the page before returned. -/
def cursorAt (tenant ns : String) (s : Nat → Store V) (listed : Nat → List (String × Pair V))
    (limit : Nat → Int) : Nat → String
  | 0 => ""
  | n + 1 => (pageAt tenant ns (s n) (listed n) (cursorAt tenant ns s listed limit n) (limit n)).2

def keysAt (tenant ns : String) (s : Nat → Store V) (listed : Nat → List (String × Pair V))
    (limit : Nat → Int) (n : Nat) : List String :=
  (pageAt tenant ns (s n) (listed n) (cursorAt tenant ns s listed limit n) (limit n)).1.map Prod.fst

/-- The paging goes on until the cursor is empty. -/
def Continues (cursor : Nat → String) (n : Nat) : Prop :=
  ∀ i < n, cursor (i + 1) ≠ ""

/-- When from some page on no key comes to the namespace, the paging ends; the keys come in strictly
ascending order; and the ones that were there at every page have been returned at its end. -/
structure PagingRight (be : Backend V) (tenant ns : String) (s : Nat → Store V)
    (listed : Nat → List (String × Pair V)) (limit : Nat → Int) : Prop where
  ends : (∃ m, ∀ i ≥ m, ∀ key, Found be (s (i + 1)) tenant ns key → Found be (s i) tenant ns key) →
    ∃ n, cursorAt tenant ns s listed limit (n + 1) = ""
  ascending : ∀ n, Continues (cursorAt tenant ns s listed limit) n →
    (returned (keysAt tenant ns s listed limit) (n + 1)).Pairwise (· < ·)
  complete : ∀ n, Continues (cursorAt tenant ns s listed limit) n →
    cursorAt tenant ns s listed limit (n + 1) = "" →
    ∀ key, (∀ i ≤ n, Found be (s i) tenant ns key) →
      key ∈ returned (keysAt tenant ns s listed limit) (n + 1)

/-- What the backend lists: pairs that are stored, and those of the namespace among them, each
once. -/
structure ListsOnce (s : Store V) (pre : String) (listed : List (String × Pair V)) : Prop where
  stored : ∀ k p, (k, p) ∈ listed → s.data k = some p
  complete : ∀ key p, s.data (pre ++ key) = some p → (pre ++ key, p) ∈ listed
  once : ∀ key, (listed.map Prod.fst).count (pre ++ key) ≤ 1

theorem entries_of_lists {s : Store V} (hs : Reached cfg be s) (ht : segOK tenant = true)
    (hn : segOK ns = true) {listed : List (String × Pair V)}
    (hlisted : ListsOnce s (nsPrefix tenant ns) listed) :
    (∀ key, key ∈ (listed.filterMap (entry (nsPrefix tenant ns) s.clock)).map Prod.fst ↔
      Found be s tenant ns key) ∧
    ((listed.filterMap (entry (nsPrefix tenant ns) s.clock)).map Prod.fst).Nodup := by
  have hkey : ∀ k p, (k, p) ∈ listed → IsKey k := fun k p hp =>
    hs.keysOk k (by rw [hlisted.stored k p hp]; rfl)
  refine ⟨fun key => ?_, ?_⟩
  · rw [found_iff ht hn]
    constructor
    · intro hmem
      obtain ⟨⟨key', v⟩, hentry, rfl⟩ := List.mem_map.mp hmem
      obtain ⟨⟨k, p⟩, hp, hentry⟩ := List.mem_filterMap.mp hentry
      obtain ⟨rfl, hseg, w, i, rfl, hlive, -⟩ := (entry_iff (hkey k p hp) ht hn).mp hentry
      exact ⟨hseg, w, i, hlisted.stored _ _ hp, hlive⟩
    · rintro ⟨hseg, w, i, hdata, hlive⟩
      have hp := hlisted.complete key _ hdata
      refine List.mem_map.mpr ⟨(key, w.v), List.mem_filterMap.mpr ⟨_, hp, ?_⟩, rfl⟩
      exact (entry_iff (hkey _ _ hp) ht hn).mpr ⟨rfl, hseg, w, i, rfl, hlive, rfl⟩
  · refine List.nodup_iff_count_le_one.mpr fun key => le_trans ?_ (hlisted.once key)
    have honce : ∀ l : List (String × Pair V), (∀ p ∈ l, p ∈ listed) →
        ((l.filterMap (entry (nsPrefix tenant ns) s.clock)).map Prod.fst).count key ≤
          (l.map Prod.fst).count (nsPrefix tenant ns ++ key) := by
      intro l hl
      induction l with
      | nil => exact Nat.le_refl 0
      | cons p l ih =>
        obtain ⟨k, p⟩ := p
        rw [List.forall_mem_cons] at hl
        rw [List.filterMap_cons, List.map_cons, List.count_cons]
        cases hentry : entry (nsPrefix tenant ns) s.clock (k, p) with
        | none => exact Nat.le_add_right_of_le (ih hl.2)
        | some e =>
          obtain ⟨key', v⟩ := e
          dsimp only
          rw [List.map_cons, List.count_cons]
          obtain ⟨rfl, -⟩ := (entry_iff (hkey k p hl.1) ht hn).mp hentry
          refine Nat.add_le_add (ih hl.2) ?_
          by_cases heq : key' = key
          · rw [heq, beq_self_eq_true, beq_self_eq_true]
          · rw [if_neg fun h => heq (beq_iff_eq.mp h)]
            exact Nat.zero_le _
    exact honce listed fun p hp => hp

/-- In every run of calls, as long as the backend lists the pairs of the namespace, each once, the
paging is right. -/
theorem pagingRight_of_listsOnce (hs : Reached cfg be (s 0))
    (hlater : ∀ i, Later cfg be (s i) (s (i + 1))) (ht : segOK tenant = true) (hn : segOK ns = true)
    (limit : Nat → Int) (hlisted : ∀ i, ListsOnce (s i) (nsPrefix tenant ns) (listed i)) :
    PagingRight be tenant ns s listed limit := by
  have hreached : ∀ i, Reached cfg be (s i) := by
    intro i
    induction i with
    | zero => exact hs
    | succ i ih => exact ih.later (hlater i)
  have hpage : ∀ i after, pageAt tenant ns (s i) (listed i) after (limit i) =
      window ((listed i).filterMap (entry (nsPrefix tenant ns) (s i).clock)) after (limit i) := by
    intro i after
    rw [pageAt, listPairsPage, listAll, ht, hn, if_neg (by decide), if_neg (by decide)]
    rfl
  have hentries := fun i => entries_of_lists (hreached i) ht hn (hlisted i)
  have hempty : ∀ i, "" ∉ ((listed i).filterMap (entry (nsPrefix tenant ns) (s i).clock)).map
    Prod.fst := by
    intro i hmem
    obtain ⟨hseg, -⟩ := (found_iff ht hn).mp (((hentries i).1 "").mp hmem)
    exact segOK_ne_empty hseg rfl
  have hplace : ∀ c, place c = none ↔ c = "" := by
    intro c
    rw [place]
    split
    · next h => exact iff_of_true rfl h
    · next h => exact iff_of_false (fun hc => by cases hc) h
  have hpages : Pages
    (fun i => ((listed i).filterMap (entry (nsPrefix tenant ns) (s i).clock)).map Prod.fst)
      (keysAt tenant ns s listed limit) (fun i => place (cursorAt tenant ns s listed limit i)) := by
    refine ⟨rfl, fun i => ?_⟩
    rw [keysAt, cursorAt, hpage]
    exact page_window (hentries i).2 (hempty i) _ _
  have hgoes : ∀ n, Continues (cursorAt tenant ns s listed limit) n →
      Goes (fun i => place (cursorAt tenant ns s listed limit i)) n :=
    fun n h i hi hnone => h i hi ((hplace _).mp hnone)
  refine ⟨?_, fun n hn => hpages.sorted (hgoes n hn), fun n hn hend key hkey => ?_⟩
  · rintro ⟨m, hstable⟩
    obtain ⟨n, hn⟩ := hpages.ends ⟨m, fun i hi key hkey =>
      ((hentries i).1 key).mpr (hstable i hi key (((hentries (i + 1)).1 key).mp hkey))⟩
    exact ⟨n, (hplace _).mp hn⟩
  · refine hpages.complete (hgoes n hn) ((hplace _).mpr hend) fun i hi => ?_
    exact ((hentries i).1 key).mpr (hkey i hi)

/-- What redis lists when the scan reports the one key of the namespace so many times. -/
def reported (n : Nat) : List (String × Pair String) :=
  redisList (oneValue "b") (nsPrefix "acme" "b") (List.replicate n "acme/b/k")

/-- The scan reports the one key twice, and the page holds it twice. -/
theorem not_pagingRight_twice :
    Reached unlimited redis (oneValue "b") ∧ segOK "acme" = true ∧ segOK "b" = true ∧
      Scans (oneValue "b") (nsPattern "acme" "b") ["acme/b/k", "acme/b/k"] ∧
      ¬ PagingRight redis "acme" "b" (fun _ => oneValue "b") (fun _ => reported 2)
        (fun _ => 10) := by
  refine ⟨.call (.start 0) _, by decide +kernel, by decide +kernel,
    scans_oneValue (by decide +kernel)
    (by decide +kernel) (by decide +kernel), fun h => ?_⟩
  have hascending := h.ascending 0 fun i hi => absurd hi (Nat.not_lt_zero i)
  have hkeys : returned
    (keysAt "acme" "b" (fun _ => oneValue "b") (fun _ => reported 2) (fun _ => 10)) (0 + 1) =
      ["k", "k"] := by
    decide +kernel
  rw [hkeys] at hascending
  exact absurd ((List.pairwise_cons.mp hascending).1 "k" List.mem_cons_self) (lt_irrefl _)

theorem pagingRight_once :
    PagingRight redis "acme" "b" (fun _ => oneValue "b") (fun _ => reported 1) (fun _ => 10) := by
  have hdata : ∀ k, (oneValue "b").data k =
      if k = nsPrefix "acme" "b" ++ "k" then some ⟨.wrapped ⟨"1", 0⟩, 1⟩ else none :=
    fun k => oneValue_data (by decide)
  have hreported : reported 1 = [(nsPrefix "acme" "b" ++ "k", ⟨.wrapped ⟨"1", 0⟩, 1⟩)] := by
    decide
  have hreached : Reached unlimited redis (oneValue "b") := .call (.start 0) _
  refine pagingRight_of_listsOnce hreached (fun _ => .refl) (by decide)
    (by decide) _ fun _ => ⟨fun k p hp => ?_, fun key p hp => ?_, fun key => ?_⟩
  · rw [hreported, List.mem_singleton, Prod.mk.injEq] at hp
    rw [hdata, if_pos hp.1, hp.2]
  · rw [hdata] at hp
    split at hp
    · next heq =>
      cases hp
      rw [hreported, heq]
      exact List.mem_singleton_self _
    · cases hp
  · rw [hreported]
    exact List.nodup_iff_count_le_one.mp (List.nodup_singleton _) _

end Paging

end ThanksComputer.Kv
