import Mathlib.Algebra.BigOperators.Group.List.Lemmas
import Mathlib.Algebra.Ring.Int.Defs
import ThanksComputer.Authn.Narrowing
import ThanksComputer.Lib.Forest

/-! A budget covers everything below: a mint takes its budget from the parent, and a charge adds to
one row only. -/

namespace ThanksComputer.Authn

open Lib Lib.Table Lib.Runs Relation

/-- The calls charged to a grant and to every grant narrowed from it, through any chain. -/
noncomputable def chargedUnder (grants : List RunGrant) (g : RunGrant) : Int :=
  open Classical in
  ((grants.filter fun h => h = g ∨ Above grants h g).map RunGrant.charged).sum

/-- Every charge is held against the budget. -/
def GrantEvent.enforced : GrantEvent → Bool
  | .charge _ _ _ enforceBudget => enforceBudget
  | _ => true

section Accounts

def handed (grants : List RunGrant) (id : String) : Int :=
  ((grants.filter fun g => g.parentGrant == some id).map RunGrant.budgetCalls).sum

/-- What a row has spent went to its own charges and to the budgets below it. -/
structure Accounts (grants : List RunGrant) : Prop where
  spent : ∀ g ∈ grants, g.spentCalls = g.charged + handed grants g.id
  within : ∀ g ∈ grants, g.spentCalls ≤ g.budgetCalls

variable {grants : List RunGrant} {φ : RunGrant → RunGrant}

theorem handed_map (hφ : ∀ g, Same g (φ g)) (id : String) :
    handed (grants.map φ) id = handed grants id := by
  rw [handed, handed, List.filter_map, List.map_map]
  have hchild : ((fun g : RunGrant => g.parentGrant == some id) ∘ φ) =
      fun g => g.parentGrant == some id := by
    funext g
    rw [Function.comp, (hφ g).parentGrant]
  have hbudget : RunGrant.budgetCalls ∘ φ = RunGrant.budgetCalls := by
    funext g
    exact (hφ g).budgetCalls
  rw [hchild, hbudget]

theorem handed_append (g : RunGrant) (id : String) :
    handed (grants ++ [g]) id =
      handed grants id + if g.parentGrant = some id then g.budgetCalls else 0 := by
  rw [handed, handed, List.filter_append, List.map_append, List.sum_append]
  by_cases hchild : g.parentGrant = some id
  · simp [hchild]
  · simp [hchild]

theorem Accounts.charge (h : Accounts grants) (hφ : ∀ g, Same g (φ g))
    (hk : ∀ g ∈ grants, ∃ k, (φ g).charged = g.charged + k ∧ (φ g).spentCalls = g.spentCalls + k ∧
      (k = 0 ∨ g.spentCalls + k ≤ g.budgetCalls)) : Accounts (grants.map φ) := by
  refine ⟨?_, ?_⟩
  · intro g' hg'
    obtain ⟨g, hg, rfl⟩ := List.mem_map.mp hg'
    obtain ⟨k, hcharged, hspent, -⟩ := hk g hg
    rw [(hφ g).id, handed_map hφ, hcharged, hspent, h.spent g hg]
    omega
  · intro g' hg'
    obtain ⟨g, hg, rfl⟩ := List.mem_map.mp hg'
    obtain ⟨k, -, hspent, hleft⟩ := hk g hg
    have hwithin := h.within g hg
    rw [(hφ g).budgetCalls, hspent]
    omega

theorem Accounts.kept (h : Accounts grants) (hφ : ∀ g, Kept g (φ g)) : Accounts (grants.map φ) := by
  apply h.charge fun g => (hφ g).toSame
  intro g _
  refine ⟨0, ?_, ?_, .inl rfl⟩
  · rw [(hφ g).charged, Int.add_zero]
  · rw [(hφ g).spentCalls, Int.add_zero]

theorem Accounts.insert (h : Accounts grants) (hshape : Shape grants) {m : Minting}
    (hbudget : 1 ≤ m.budgetCalls) {id : String} {generation : Int} (hφ : ∀ g, Same g (φ g))
    (hfresh : ∀ r ∈ grants.map φ, r.id ≠ id)
    (hparent : ∀ p, m.parentGrant = some p → ∃ q ∈ grants.map φ, q.id = p)
    (hshare : ∀ g ∈ grants, (φ g).charged = g.charged ∧
      (φ g).spentCalls = g.spentCalls + m.share g ∧
      (m.parentGrant = some g.id → (φ g).spentCalls ≤ g.budgetCalls)) :
    Accounts (grants.map φ ++ [m.grant id generation]) := by
  have hnone : handed (grants.map φ) id = 0 := by
    rw [handed]
    rw [List.filter_eq_nil_iff.mpr]
    · rfl
    · intro r hr hchild
      exact parent_ne_fresh (g := m.grant id generation) (hshape.map hφ) hfresh hr
        (beq_iff_eq.mp hchild)
  refine ⟨?_, ?_⟩
  · intro g' hg'
    rw [handed_append]
    rcases List.mem_append.mp hg' with hg' | hg'
    · obtain ⟨g, hg, rfl⟩ := List.mem_map.mp hg'
      obtain ⟨hcharged, hspent, -⟩ := hshare g hg
      rw [hcharged, hspent, h.spent g hg, (hφ g).id, handed_map hφ, Minting.share, Int.add_assoc]
      rfl
    · obtain rfl := List.mem_singleton.mp hg'
      have hself : m.parentGrant ≠ some id := by
        intro hp
        obtain ⟨q, hq, hid⟩ := hparent id hp
        exact hfresh q hq hid
      change 0 = 0 +
        (handed (grants.map φ) id + if m.parentGrant = some id then m.budgetCalls else 0)
      rw [hnone, if_neg hself]
      rfl
  · intro g' hg'
    rcases List.mem_append.mp hg' with hg' | hg'
    · obtain ⟨g, hg, rfl⟩ := List.mem_map.mp hg'
      obtain ⟨-, hspent, hleft⟩ := hshare g hg
      rw [(hφ g).budgetCalls]
      by_cases hp : m.parentGrant = some g.id
      · exact hleft hp
      · rw [hspent, Minting.share, if_neg hp, Int.add_zero]
        exact h.within g hg
    · obtain rfl := List.mem_singleton.mp hg'
      change 0 ≤ m.budgetCalls
      omega

end Accounts

section Subtree

variable {grants : List RunGrant}

theorem depth_lt_of_above (hshape : Shape grants) {g a : RunGrant} (hg : g ∈ grants)
    (h : Above grants g a) : a.depth < g.depth := by
  induction h with
  | single h =>
    have hdown := (hshape.within hg h).2.depth
    omega
  | tail hb h ih =>
    have hdown := (hshape.within (mem_of_above hb) h).2.depth
    omega

theorem Accounts.chargedUnder_le (h : Accounts grants) (hshape : Shape grants) {g : RunGrant}
    (hg : g ∈ grants) : chargedUnder grants g ≤ g.budgetCalls := by
  classical
  have hnodup : grants.Nodup := hshape.ids.of_map
  -- A chain starts at a row: what is not a row is narrowed from nothing.
  let up (c p : RunGrant) : Prop := c ∈ grants ∧ NarrowedFrom grants c p
  have habove : ∀ c ∈ grants, ∀ p, TransGen up c p ↔ Above grants c p := by
    intro c hc p
    constructor
    · intro hp
      exact TransGen.mono (fun c p hp => hp.2) _ _ hp
    · intro hp
      induction hp with
      | single hp => exact .single ⟨hc, hp⟩
      | tail hb hp ih => exact ih.tail ⟨mem_of_above hb, hp⟩
  have hunder : ∑ r ∈ Forest.under grants.toFinset up g, r.charged = chargedUnder grants g := by
    rw [Forest.under, chargedUnder]
    apply Forest.sum_filter_toFinset hnodup
    intro r hr
    rw [decide_eq_true_eq, habove r hr]
  have hchildren : ∀ n ∈ grants.toFinset,
      n.spentCalls = n.charged + ∑ c ∈ Forest.children grants.toFinset up n, c.budgetCalls := by
    intro n hn
    rw [List.mem_toFinset] at hn
    rw [h.spent n hn, handed]
    congr 1
    symm
    rw [Forest.children]
    apply Forest.sum_filter_toFinset hnodup
    intro c hc
    rw [beq_iff_eq]
    exact ⟨fun hp => ⟨hc, hn, hp⟩, fun hp => hp.2.2⟩
  rw [← hunder]
  refine Forest.sum_under_le ?_ ?_ ?_ hchildren ?_ (List.mem_toFinset.mpr hg)
  · intro c p hp
    exact List.mem_toFinset.mpr hp.2.1
  · intro c p q hp hq
    exact eq_of_key hshape.ids hp.2.1 hq.2.1 (Option.some.inj (hp.2.2.symm.trans hq.2.2))
  · intro n hn
    obtain ⟨m, hm, -⟩ := TransGen.head'_iff.mp hn
    exact Nat.lt_irrefl _ (depth_lt_of_above hshape hm.1 ((habove n hm.1 n).mp hn))
  · intro n hn
    exact h.within n (List.mem_toFinset.mp hn)

end Subtree

theorem accounts_step {st : GrantStore} (hbase : Base st) (h : Accounts st.grants) {ev : GrantEvent}
    (henforced : ev.enforced = true) : Accounts (st.step ev).grants := by
  cases ev with
  | tick d => exact h
  | mint tenantID owner req =>
    rw [GrantStore.step]
    split <;> exact h
  | insert i id =>
    rw [GrantStore.step]
    split
    · exact h
    · next m hm =>
      have hmem := List.mem_of_getElem? hm
      dsimp only
      split
      · next grants' heads' hins =>
        obtain ⟨φ, generation, rfl, hsame, hfresh, hparent, hshare, -⟩ :=
          insertRunGrant_spec hbase hmem hins
        apply h.insert hbase.shape (hbase.minting m hmem).budget hsame hfresh _ hshare
        intro p hp
        obtain ⟨q, hq, hid, -⟩ := hparent p hp
        exact ⟨q, hq, hid⟩
      · exact h
  | endGrant tenantID base grantID closing =>
    rw [GrantStore.step]
    split <;> exact h
  | endCommit i =>
    rw [GrantStore.step]
    split
    · exact h
    · next e _ =>
      obtain ⟨φ, heq, hkept, -⟩ := commit_spec st.grants e (stampOf st.clock)
      rw [heq]
      exact h.kept hkept
  | charge tenantID grantID n enforceBudget =>
    rw [GrantStore.step]
    split
    · next grants' hcharge =>
      obtain ⟨φ, rfl, hφ, hk⟩ := chargeRunGrant_spec hcharge
      apply h.charge fun g => (hφ g).1
      intro g _
      obtain ⟨k, hcharged, hspent, hleft⟩ := hk g
      exact ⟨k, hcharged, hspent, hleft henforced⟩
    · exact h

/-- In every state of a run whose charges are held against the budgets, no grant has more charged to
it and to all below it than it was minted with. -/
theorem chargedUnder_le_budget (clock : Int) (evs : List GrantEvent)
    (h : ∀ ev ∈ evs, ev.enforced = true) :
    ∀ g ∈ (evs.foldl GrantStore.step (.empty clock)).grants,
      chargedUnder (evs.foldl GrantStore.step (.empty clock)).grants g ≤ g.budgetCalls := by
  have hinv : Base (evs.foldl GrantStore.step (.empty clock)) ∧
      Accounts (evs.foldl GrantStore.step (.empty clock)).grants := by
    refine foldl_invariant (I := fun st : GrantStore => Base st ∧ Accounts st.grants) ?_
      ⟨base_empty clock, ?_⟩ h
    · exact fun st ev hst hev => ⟨base_step hst.1 ev, accounts_step hst.1 hst.2 hev⟩
    · exact ⟨fun _ h => absurd h List.not_mem_nil, fun _ h => absurd h List.not_mem_nil⟩
  exact fun g hg => hinv.2.chargedUnder_le hinv.1.shape hg

/-- A charge at each level of a chain, and a last one that finds the budget of its grant spent. -/
def chargesDown : List GrantEvent :=
  dispatches "task/b" ++ [.charge "acme" "rgr_1" 5 true, .charge "acme" "rgr_2" 3 true,
    .charge "acme" "rgr_3" 2 true, .charge "acme" "rgr_3" 1 true]

theorem chargedUnder_chargesDown :
    let st := chargesDown.foldl GrantStore.step (.empty 0)
    st.grants.map (fun g => (g.budgetCalls, g.spentCalls, g.charged)) =
        [(10, 10, 5), (5, 5, 3), (2, 2, 2)] ∧
      ∀ g ∈ st.grants, chargedUnder st.grants g ≤ g.budgetCalls :=
  ⟨by decide +kernel, chargedUnder_le_budget 0 chargesDown (by decide +kernel)⟩

end ThanksComputer.Authn
