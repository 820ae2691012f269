import Mathlib.Algebra.BigOperators.Group.Finset.Basic
import Mathlib.Algebra.BigOperators.Group.Finset.Sigma
import Mathlib.Algebra.Order.BigOperators.Group.Finset
import Mathlib.Algebra.Ring.Int.Defs
import Mathlib.Logic.Relation

/-! Budgets handed down a forest: each node pays for the budgets of its children and for what it
spends itself. -/

universe u

namespace ThanksComputer.Lib.Forest

open Relation Classical

variable {ν : Type u} {nodes : Finset ν} {up : ν → ν → Prop}

noncomputable def below (nodes : Finset ν) (up : ν → ν → Prop) (n : ν) : Finset ν :=
  nodes.filter fun h => TransGen up h n

noncomputable def under (nodes : Finset ν) (up : ν → ν → Prop) (n : ν) : Finset ν :=
  nodes.filter fun h => h = n ∨ TransGen up h n

noncomputable def children (nodes : Finset ν) (up : ν → ν → Prop) (n : ν) : Finset ν :=
  nodes.filter fun c => up c n

theorem below_eq_biUnion (hup : ∀ c p, up c p → p ∈ nodes) (n : ν) :
    below nodes up n = (under nodes up n).biUnion (children nodes up) := by
  ext c
  simp only [below, under, children, Finset.mem_biUnion, Finset.mem_filter]
  constructor
  · rintro ⟨hc, h⟩
    obtain ⟨p, hp, hrest⟩ := TransGen.head'_iff.mp h
    refine ⟨p, ⟨hup c p hp, ?_⟩, hc, hp⟩
    rcases hrest.cases_head with heq | ⟨q, hq, hqn⟩
    · exact .inl heq
    · exact .inr (.head' hq hqn)
  · rintro ⟨p, ⟨-, heq | hpn⟩, hc, hp⟩
    · exact ⟨hc, .single (heq ▸ hp)⟩
    · exact ⟨hc, .head hp hpn⟩

theorem sum_under_le {own budget spent : ν → Int} (hup : ∀ c p, up c p → p ∈ nodes)
    (hunique : ∀ c p q, up c p → up c q → p = q) (hacyclic : ∀ n, ¬TransGen up n n)
    (hspent : ∀ n ∈ nodes, spent n = own n + ∑ c ∈ children nodes up n, budget c)
    (hle : ∀ n ∈ nodes, spent n ≤ budget n) {n : ν} (hn : n ∈ nodes) :
    ∑ h ∈ under nodes up n, own h ≤ budget n := by
  have hmem : ∀ h ∈ under nodes up n, h ∈ nodes := fun h hh => (Finset.mem_filter.mp hh).1
  have hhead : under nodes up n = insert n (below nodes up n) := by
    ext h
    simp only [under, below, Finset.mem_insert, Finset.mem_filter]
    constructor
    · rintro ⟨hh, heq | hbelow⟩
      · exact .inl heq
      · exact .inr ⟨hh, hbelow⟩
    · rintro (rfl | ⟨hh, hbelow⟩)
      · exact ⟨hn, .inl rfl⟩
      · exact ⟨hh, .inr hbelow⟩
  have hself : n ∉ below nodes up n := fun h => hacyclic n (Finset.mem_filter.mp h).2
  have hhanded : ∑ h ∈ under nodes up n, ∑ c ∈ children nodes up h, budget c =
      ∑ c ∈ below nodes up n, budget c := by
    rw [below_eq_biUnion hup, Finset.sum_biUnion]
    intro p _ q _ hpq
    refine Finset.disjoint_left.mpr fun c hcp hcq => hpq ?_
    exact hunique c p q (Finset.mem_filter.mp hcp).2 (Finset.mem_filter.mp hcq).2
  have hpaid : ∑ h ∈ under nodes up n, spent h =
      ∑ h ∈ under nodes up n, own h + ∑ c ∈ below nodes up n, budget c := by
    rw [← hhanded, ← Finset.sum_add_distrib]
    exact Finset.sum_congr rfl fun h hh => hspent h (hmem h hh)
  have htotal : ∑ h ∈ under nodes up n, spent h ≤ budget n + ∑ c ∈ below nodes up n, budget c := by
    rw [← Finset.sum_insert hself, ← hhead]
    exact Finset.sum_le_sum fun h hh => hle h (hmem h hh)
  omega

theorem sum_filter_toFinset [DecidableEq ν] {listed : List ν} (hnodup : listed.Nodup) {p : ν → Bool}
    {q : ν → Prop} {_ : DecidablePred q} (hpq : ∀ n ∈ listed, p n = true ↔ q n) (f : ν → Int) :
    ∑ n ∈ listed.toFinset.filter q, f n = ((listed.filter p).map f).sum := by
  rw [← List.sum_toFinset f (hnodup.filter p)]
  apply Finset.sum_congr _ fun _ _ => rfl
  ext n
  rw [Finset.mem_filter, List.mem_toFinset, List.mem_toFinset, List.mem_filter]
  exact and_congr_right fun hn => (hpq n hn).symm

end ThanksComputer.Lib.Forest
