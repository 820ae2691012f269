import Mathlib.Logic.Relation
import ThanksComputer.Authn.RunGrants
import ThanksComputer.Lib.Checks
import ThanksComputer.Lib.Runs

/-! Authority only narrows on the way down: what holds between a run grant and those it was narrowed
from, in every state the calls reach. -/

namespace ThanksComputer.Authn

open Lib (second)
open Lib.Checks Lib.Table Lib.Runs Relation

def NarrowedFrom (grants : List RunGrant) (g q : RunGrant) : Prop :=
  q ∈ grants ∧ g.parentGrant = some q.id

/-- The rows a grant was narrowed from, directly or through any chain. -/
def Above (grants : List RunGrant) : RunGrant → RunGrant → Prop :=
  TransGen (NarrowedFrom grants)

structure Within (g q : RunGrant) : Prop where
  allow : ∀ res ∈ g.allow, res ∈ q.allow
  expires : g.expiresAt ≤ q.expiresAt
  depth : g.depth = q.depth + 1

/-- Every live grant that has a parent is within it, not too deep, and has all above it live. -/
def Narrowed (st : GrantStore) : Prop :=
  ∀ g ∈ st.grants, g.live st.clock = true → ∀ p, g.parentGrant = some p →
    (∃ q ∈ st.grants, q.id = p ∧ Within g q ∧ g.depth ≤ maxRunDepth) ∧
      ∀ a, Above st.grants g a → a.live st.clock = true

/-- The transaction of a mint does not name the run of a grant above the parent. -/
def NamesNoneAbove (st : GrantStore) : GrantEvent → Prop
  | .insert i _ => ∀ m, st.minting[i]? = some m → ∀ p ∈ st.grants, m.parentGrant = some p.id →
      ∀ a, Above st.grants p a → a.run ≠ m.run
  | _ => True

section Rows

/-- What no call changes of a row. -/
structure Same (g g' : RunGrant) : Prop where
  id : g'.id = g.id
  tenantID : g'.tenantID = g.tenantID
  mintedBy : g'.mintedBy = g.mintedBy
  run : g'.run = g.run
  allow : g'.allow = g.allow
  budgetCalls : g'.budgetCalls = g.budgetCalls
  parentGrant : g'.parentGrant = g.parentGrant
  depth : g'.depth = g.depth
  expiresAt : g'.expiresAt = g.expiresAt

structure Kept (g g' : RunGrant) : Prop extends Same g g' where
  spentCalls : g'.spentCalls = g.spentCalls
  charged : g'.charged = g.charged

theorem Same.refl (g : RunGrant) : Same g g :=
  ⟨rfl, rfl, rfl, rfl, rfl, rfl, rfl, rfl, rfl⟩

theorem Kept.refl (g : RunGrant) : Kept g g :=
  ⟨.refl g, rfl, rfl⟩

theorem kept_ite {cond : RunGrant → Bool} {set : RunGrant → RunGrant} (hset : ∀ g, Kept g (set g))
    (g : RunGrant) : Kept g (if cond g then set g else g) := by
  split
  · exact hset g
  · exact .refl g

theorem Same.trans {g g' g'' : RunGrant} (h : Same g g') (h' : Same g' g'') : Same g g'' :=
  ⟨h'.id.trans h.id, h'.tenantID.trans h.tenantID, h'.mintedBy.trans h.mintedBy, h'.run.trans h.run,
    h'.allow.trans h.allow, h'.budgetCalls.trans h.budgetCalls, h'.parentGrant.trans h.parentGrant,
    h'.depth.trans h.depth, h'.expiresAt.trans h.expiresAt⟩

theorem Kept.trans {g g' g'' : RunGrant} (h : Kept g g') (h' : Kept g' g'') : Kept g g'' :=
  ⟨h.toSame.trans h'.toSame, h'.spentCalls.trans h.spentCalls, h'.charged.trans h.charged⟩

theorem Same.within {g g' q q' : RunGrant} (hg : Same g g') (hq : Same q q') (h : Within g q) :
    Within g' q' := by
  refine ⟨?_, ?_, ?_⟩
  · rw [hg.allow, hq.allow]
    exact h.allow
  · rw [hg.expiresAt, hq.expiresAt]
    exact h.expires
  · rw [hg.depth, hq.depth]
    exact h.depth

theorem kept_closeAs (stamp : Int) (reason : String) (g : RunGrant) :
    Kept g (closeAs stamp reason g) :=
  ⟨⟨rfl, rfl, rfl, rfl, rfl, rfl, rfl, rfl, rfl⟩, rfl, rfl⟩

theorem isOpen_closeAs (stamp : Int) (reason : String) (g : RunGrant) :
    (closeAs stamp reason g).isOpen = false := by
  simp [closeAs, RunGrant.isOpen]

theorem kept_set (e : Ending) (stamp : Int) (g : RunGrant) : Kept g (e.set stamp g) := by
  rw [Ending.set]
  cases e.closing with
  | some reason => exact kept_closeAs stamp reason g
  | none => exact ⟨⟨rfl, rfl, rfl, rfl, rfl, rfl, rfl, rfl, rfl⟩, rfl, rfl⟩

theorem isOpen_set (e : Ending) (stamp : Int) (g : RunGrant) : (e.set stamp g).isOpen = false := by
  rw [Ending.set]
  cases e.closing with
  | some reason => exact isOpen_closeAs stamp reason g
  | none => simp [revokeAt, RunGrant.isOpen]

variable {grants : List RunGrant} {φ : RunGrant → RunGrant}

theorem narrowedFrom_of_map (hφ : ∀ g, Same g (φ g)) {g q : RunGrant}
    (h : NarrowedFrom (grants.map φ) (φ g) q) : ∃ q₀, φ q₀ = q ∧ NarrowedFrom grants g q₀ := by
  obtain ⟨q₀, hq₀, rfl⟩ := List.mem_map.mp h.1
  refine ⟨q₀, rfl, hq₀, ?_⟩
  rw [← (hφ g).parentGrant, ← (hφ q₀).id]
  exact h.2

theorem above_of_map (hφ : ∀ g, Same g (φ g)) {g a : RunGrant} (h : Above (grants.map φ) (φ g) a) :
    ∃ a₀, φ a₀ = a ∧ Above grants g a₀ := by
  induction h with
  | single h =>
    obtain ⟨q₀, rfl, hq₀⟩ := narrowedFrom_of_map hφ h
    exact ⟨q₀, rfl, .single hq₀⟩
  | tail _ h ih =>
    obtain ⟨b₀, rfl, hb₀⟩ := ih
    obtain ⟨q₀, rfl, hq₀⟩ := narrowedFrom_of_map hφ h
    exact ⟨q₀, rfl, hb₀.tail hq₀⟩

theorem mem_of_above {g a : RunGrant} (h : Above grants g a) : a ∈ grants := by
  cases h with
  | single h => exact h.1
  | tail _ h => exact h.1

end Rows

section Shape

structure Shape (grants : List RunGrant) : Prop where
  ids : (grants.map RunGrant.id).Nodup
  parent : ∀ g ∈ grants, ∀ p, g.parentGrant = some p →
    ∃ q ∈ grants, q.id = p ∧ g.tenantID = q.tenantID ∧ Within g q
  depth : ∀ g ∈ grants, g.depth ≤ maxRunDepth

variable {grants : List RunGrant} {φ : RunGrant → RunGrant}

theorem Shape.map (h : Shape grants) (hφ : ∀ g, Same g (φ g)) : Shape (grants.map φ) := by
  refine ⟨?_, ?_, ?_⟩
  · have hids : (grants.map φ).map RunGrant.id = grants.map RunGrant.id := by
      rw [List.map_map]
      exact List.map_congr_left fun g _ => (hφ g).id
    rw [hids]
    exact h.ids
  · intro g' hg' p hp
    obtain ⟨g, hg, rfl⟩ := List.mem_map.mp hg'
    rw [(hφ g).parentGrant] at hp
    obtain ⟨q, hq, hid, htenant, hwithin⟩ := h.parent g hg p hp
    refine ⟨φ q, List.mem_map_of_mem hq, ?_, ?_, (hφ g).within (hφ q) hwithin⟩
    · rw [(hφ q).id, hid]
    · rw [(hφ g).tenantID, (hφ q).tenantID, htenant]
  · intro g' hg'
    obtain ⟨g, hg, rfl⟩ := List.mem_map.mp hg'
    rw [(hφ g).depth]
    exact h.depth g hg

theorem Shape.within (h : Shape grants) {g q : RunGrant} (hg : g ∈ grants)
    (hq : NarrowedFrom grants g q) : g.tenantID = q.tenantID ∧ Within g q := by
  obtain ⟨q', hq', hid, htenant, hwithin⟩ := h.parent g hg q.id hq.2
  obtain rfl := eq_of_key h.ids hq' hq.1 hid
  exact ⟨htenant, hwithin⟩

end Shape

section Ends

/-- Whatever is narrowed from an ended grant has ended, except below the grants of a level. -/
def ClosedBut (grants : List RunGrant) (level : List String) : Prop :=
  ∀ g ∈ grants, g.isOpen = true → ∀ q, NarrowedFrom grants g q → q.isOpen = true ∨ q.id ∈ level

/-- The ids of a level are of one tenant, and the levels left reach down to the deepest grants. -/
structure Level (grants : List RunGrant) (tenantID : String) (n : Nat) (level : List String) :
    Prop where
  tenant : ∀ q ∈ grants, q.id ∈ level → q.tenantID = tenantID
  deep : ∀ q ∈ grants, q.id ∈ level → maxRunDepth ≤ q.depth + n

variable {tenantID : String} {set : RunGrant → RunGrant} {grants : List RunGrant}
  {level : List String} {n : Nat}

def childOf (tenantID : String) (level : List String) (g : RunGrant) : Bool :=
  g.tenantID == tenantID && g.parentGrant.any level.contains

theorem childOf_iff {g : RunGrant} :
    childOf tenantID level g = true ↔
      g.tenantID = tenantID ∧ ∃ p ∈ level, g.parentGrant = some p := by
  rw [childOf, Bool.and_eq_true, beq_iff_eq, Option.any_eq_true]
  simp only [List.contains_iff_mem]
  refine and_congr_right fun _ => ⟨?_, ?_⟩
  · rintro ⟨p, hp, hmem⟩
    exact ⟨p, hmem, hp⟩
  · rintro ⟨p, hmem, hp⟩
    exact ⟨p, hp, hmem⟩

theorem closedBut_next (hshape : Shape grants) (hset : ∀ g, Kept g (set g))
    (hends : ∀ g, (set g).isOpen = false) (hlevel : Level grants tenantID (n + 1) level)
    (hclosed : ClosedBut grants level) :
    ClosedBut (update (fun g => childOf tenantID level g && g.isOpen) set grants)
        ((grants.filter (childOf tenantID level)).map RunGrant.id) := by
  intro g' hg' hopen q' hq'
  obtain ⟨g, hg, rfl⟩ := mem_update.mp hg'
  obtain ⟨q, hq, hqq⟩ := mem_update.mp hq'.1
  split at hopen
  · rw [hends] at hopen
    cases hopen
  · next hchild =>
    rw [if_neg hchild] at hq'
    have hid : q'.id = q.id := by
      rw [← hqq]
      split
      · exact (hset q).id
      · rfl
    have hfrom : NarrowedFrom grants g q := ⟨hq, hid ▸ hq'.2⟩
    rcases hclosed g hg hopen q hfrom with hqopen | hqlevel
    · by_cases hqchild : childOf tenantID level q = true
      · refine .inr ?_
        rw [hid]
        exact List.mem_map_of_mem (List.mem_filter.mpr ⟨hq, hqchild⟩)
      · rw [if_neg (by simp [hqchild])] at hqq
        exact .inl (hqq ▸ hqopen)
    · refine absurd ?_ hchild
      rw [hopen, Bool.and_true]
      refine childOf_iff.mpr ⟨?_, q.id, hqlevel, hfrom.2⟩
      exact (hshape.within hg hfrom).1.trans (hlevel.tenant q hq hqlevel)

theorem level_next (hshape : Shape grants) (hset : ∀ g, Kept g (set g))
    (hlevel : Level grants tenantID (n + 1) level) :
    Level (update (fun g => childOf tenantID level g && g.isOpen) set grants) tenantID n
      ((grants.filter (childOf tenantID level)).map RunGrant.id) := by
  have hrow : ∀ q' ∈ update (fun g => childOf tenantID level g && g.isOpen) set grants,
      q'.id ∈ (grants.filter (childOf tenantID level)).map RunGrant.id →
        ∃ q ∈ grants, childOf tenantID level q = true ∧ q'.tenantID = q.tenantID ∧
          q'.depth = q.depth := by
    intro q' hq' hid
    obtain ⟨q, hq, hqq⟩ := mem_update.mp hq'
    obtain ⟨c, hc, hcid⟩ := List.mem_map.mp hid
    obtain ⟨hc, hchild⟩ := List.mem_filter.mp hc
    have hsame : Same q q' := by
      rw [← hqq]
      split
      · exact (hset q).toSame
      · exact .refl q
    obtain rfl := eq_of_key hshape.ids hc hq (hcid.trans hsame.id)
    exact ⟨c, hq, hchild, hsame.tenantID, hsame.depth⟩
  refine ⟨?_, ?_⟩
  · intro q' hq' hid
    obtain ⟨q, -, hchild, htenant, -⟩ := hrow q' hq' hid
    exact htenant.trans (childOf_iff.mp hchild).1
  · intro q' hq' hid
    obtain ⟨q, hq, hchild, -, hdepth⟩ := hrow q' hq' hid
    obtain ⟨-, p, hp, hparent⟩ := childOf_iff.mp hchild
    obtain ⟨r, hr, rfl, -, hwithin⟩ := hshape.parent q hq p hparent
    have hdeep := hlevel.deep r hr hp
    have hdown := hwithin.depth
    omega

theorem closedBut_still (level : List String) (hclosed : ClosedBut grants []) :
    ClosedBut (grants.map id) [] ∧ ∀ g ∈ grants, g.isOpen = true → (id g).isOpen = false →
      ∃ r, r.id ∈ level ∧ Above grants g r := by
  refine ⟨by rwa [List.map_id], fun g _ hopen hended => ?_⟩
  rw [id, hopen] at hended
  cases hended

theorem endDescendants_spec (hset : ∀ g, Kept g (set g)) (hends : ∀ g, (set g).isOpen = false)
    (n : Nat) (level : List String) (grants : List RunGrant) :
    ∃ φ : RunGrant → RunGrant, endDescendants tenantID set n level grants = grants.map φ ∧
      (∀ g, Kept g (φ g)) ∧
      (Shape grants → Level grants tenantID n level → ClosedBut grants level →
        ClosedBut (grants.map φ) [] ∧ ∀ g ∈ grants, g.isOpen = true → (φ g).isOpen = false →
          ∃ r, r.id ∈ level ∧ Above grants g r) := by
  induction n generalizing level grants with
  | zero =>
    refine ⟨id, by rw [endDescendants, List.map_id], Kept.refl, fun hshape hlevel hclosed => ?_⟩
    apply closedBut_still
    intro g hg hopen q hq
    rcases hclosed g hg hopen q hq with hqopen | hqlevel
    · exact .inl hqopen
    · -- A grant below the deepest level would be deeper than any.
      have hdeep := hlevel.deep q hq.1 hqlevel
      have hdepth := (hshape.within hg hq).2.depth
      have hmax := hshape.depth g hg
      omega
  | succ n ih =>
    rw [endDescendants]
    split
    · next hempty =>
      refine ⟨id, by rw [List.map_id], Kept.refl, fun _ _ hclosed => closedBut_still level ?_⟩
      rwa [List.isEmpty_iff.mp hempty] at hclosed
    · let one (g : RunGrant) : RunGrant := if childOf tenantID level g && g.isOpen then set g else g
      have hone : ∀ g, Kept g (one g) := kept_ite hset
      have hsame : ∀ g, Same g (one g) := fun g => (hone g).toSame
      have hmap : update (fun g => childOf tenantID level g && g.isOpen) set grants =
          grants.map one := rfl
      obtain ⟨φ, heq, hkept, hspec⟩ := ih ((grants.filter (childOf tenantID level)).map RunGrant.id)
        (grants.map one)
      refine ⟨φ ∘ one, ?_, fun g => (hone g).trans (hkept (one g)), fun hshape hlevel hclosed => ?_⟩
      · rw [← List.map_map]
        exact heq
      obtain ⟨hclosed', honly⟩ := hspec (hshape.map hsame) (level_next hshape hset hlevel)
        (closedBut_next hshape hset hends hlevel hclosed)
      refine ⟨by rwa [← List.map_map], fun g hg hopen hended => ?_⟩
      by_cases hchild : childOf tenantID level g = true
      · obtain ⟨-, p, hp, hparent⟩ := childOf_iff.mp hchild
        obtain ⟨q, hq, rfl, -, -⟩ := hshape.parent g hg p hparent
        exact ⟨q, hp, .single ⟨hq, hparent⟩⟩
      · have hkeep : one g = g := if_neg (by simp [hchild])
        obtain ⟨r, hr, habove⟩ := honly g (hkeep ▸ List.mem_map_of_mem hg) hopen
          (by rwa [Function.comp, hkeep] at hended)
        -- The row that ended `g` is a child of the level, so the level is above `g` too.
        obtain ⟨c, hc, hcid⟩ := List.mem_map.mp hr
        obtain ⟨hc, hcchild⟩ := List.mem_filter.mp hc
        rw [← hkeep] at habove
        obtain ⟨r₀, rfl, hchain⟩ := above_of_map hsame habove
        rw [(hone r₀).id] at hcid
        obtain rfl := eq_of_key hshape.ids hc (mem_of_above hchain) hcid
        obtain ⟨-, p, hp, hparent⟩ := childOf_iff.mp hcchild
        obtain ⟨q, hq, rfl, -, -⟩ := hshape.parent c hc p hparent
        exact ⟨q, hp, hchain.tail ⟨hq, hparent⟩⟩

variable {cond : RunGrant → Bool}

theorem ends_spec (hset : ∀ g, Kept g (set g)) (hends : ∀ g, (set g).isOpen = false)
    (hcond : ∀ g ∈ grants, cond g = true → g.id ∈ level) :
    ∃ φ : RunGrant → RunGrant,
      endDescendants tenantID set maxRunDepth level (update cond set grants) = grants.map φ ∧
      (∀ g, Kept g (φ g)) ∧
      (Shape grants → (∀ q ∈ grants, q.id ∈ level → q.tenantID = tenantID) → ClosedBut grants [] →
        ClosedBut (grants.map φ) [] ∧ ∀ g ∈ grants, g.isOpen = true → (φ g).isOpen = false →
          g.id ∈ level ∨ ∃ r, r.id ∈ level ∧ Above grants g r) := by
  let one (g : RunGrant) : RunGrant := if cond g then set g else g
  have hone : ∀ g, Kept g (one g) := kept_ite hset
  have hsame : ∀ g, Same g (one g) := fun g => (hone g).toSame
  obtain ⟨φ, heq, hkept, hspec⟩ := endDescendants_spec hset hends maxRunDepth level (grants.map one)
  refine ⟨φ ∘ one, ?_, fun g => (hone g).trans (hkept (one g)), fun hshape htenant hclosed => ?_⟩
  · rw [← List.map_map]
    exact heq
  have hlevel : Level (grants.map one) tenantID maxRunDepth level := by
    refine ⟨?_, fun q _ _ => Nat.le_add_left _ _⟩
    intro q' hq' hid
    obtain ⟨q, hq, rfl⟩ := List.mem_map.mp hq'
    rw [(hsame q).tenantID]
    exact htenant q hq ((hsame q).id ▸ hid)
  have hbut : ClosedBut (grants.map one) level := by
    intro g' hg' hopen q' hq'
    obtain ⟨g, hg, rfl⟩ := List.mem_map.mp hg'
    obtain ⟨q, rfl, hq⟩ := narrowedFrom_of_map hsame hq'
    by_cases hq' : cond q = true
    · refine .inr ?_
      rw [(hsame q).id]
      exact hcond q hq.1 hq'
    · have hkeep : one q = q := if_neg hq'
      rw [hkeep]
      refine .inl ?_
      dsimp only [one] at hopen
      split at hopen
      · rw [hends] at hopen
        cases hopen
      · exact (hclosed g hg hopen q hq).resolve_right List.not_mem_nil
  obtain ⟨hclosed', honly⟩ := hspec (hshape.map hsame) hlevel hbut
  refine ⟨by rwa [← List.map_map], fun g hg hopen hended => ?_⟩
  by_cases hg' : cond g = true
  · exact .inl (hcond g hg hg')
  · have hkeep : one g = g := if_neg hg'
    rw [Function.comp, hkeep] at hended
    obtain ⟨r, hr, habove⟩ := honly g (hkeep ▸ List.mem_map_of_mem hg) hopen hended
    rw [← hkeep] at habove
    obtain ⟨r₀, rfl, hchain⟩ := above_of_map hsame habove
    exact .inr ⟨r₀, (hsame r₀).id ▸ hr, hchain⟩

theorem supersede_spec (grants : List RunGrant) (m : Minting) :
    ∃ φ : RunGrant → RunGrant, supersede grants m = grants.map φ ∧ (∀ g, Kept g (φ g)) ∧
      (Shape grants → ClosedBut grants [] →
        ClosedBut (grants.map φ) [] ∧ ∀ g ∈ grants, g.isOpen = true → (φ g).isOpen = false →
          g.run = m.run ∨ ∃ r, Above grants g r ∧ r.run = m.run) := by
  obtain ⟨φ, heq, hkept, hspec⟩ := ends_spec (kept_closeAs (stampOf m.now) "superseded")
    (isOpen_closeAs (stampOf m.now) "superseded")
    (fun (g : RunGrant) hg h => List.mem_map_of_mem (List.mem_filter.mpr ⟨hg, h⟩))
  refine ⟨φ, heq, hkept, fun hshape hclosed => ?_⟩
  have holder : ∀ q ∈ grants, q.id ∈ (grants.filter fun g => g.tenantID == m.tenantID &&
      g.mintedBy == m.mintedBy && g.run == m.run && g.isOpen).map RunGrant.id →
        q.tenantID = m.tenantID ∧ q.run = m.run := by
    intro q hq hid
    obtain ⟨g, hg, hgid⟩ := List.mem_map.mp hid
    obtain ⟨hg, hmatch⟩ := List.mem_filter.mp hg
    obtain rfl := eq_of_key hshape.ids hg hq hgid
    simp only [Bool.and_eq_true, beq_iff_eq] at hmatch
    exact ⟨hmatch.1.1.1, hmatch.1.2⟩
  obtain ⟨hclosed', honly⟩ := hspec hshape (fun q hq hid => (holder q hq hid).1) hclosed
  refine ⟨hclosed', fun g hg hopen hended => ?_⟩
  rcases honly g hg hopen hended with hid | ⟨r, hr, habove⟩
  · exact .inl (holder g hg hid).2
  · exact .inr ⟨r, habove, (holder r (mem_of_above habove) hr).2⟩

theorem commit_spec (grants : List RunGrant) (e : Ending) (stamp : Int) :
    ∃ φ : RunGrant → RunGrant, e.commit stamp grants = grants.map φ ∧ (∀ g, Kept g (φ g)) ∧
      (Shape grants → (∃ q ∈ grants, q.id = e.grantID ∧ q.tenantID = e.tenantID) →
        ClosedBut grants [] → ClosedBut (grants.map φ) []) := by
  have hends : ∀ g ∈ grants, (g.id == e.grantID && g.tenantID == e.tenantID &&
      g.revokedAt.isNone && (e.closing.isNone || g.closedAt.isNone)) = true →
      g.id ∈ [e.grantID] := by
    intro g _ h
    simp only [Bool.and_eq_true, beq_iff_eq] at h
    exact List.mem_singleton.mpr h.1.1.1
  obtain ⟨φ, heq, hkept, hspec⟩ := ends_spec (kept_set e stamp) (isOpen_set e stamp) hends
  refine ⟨φ, heq, hkept, fun hshape hrow hclosed => ?_⟩
  obtain ⟨q, hq, hid, htenant⟩ := hrow
  refine (hspec hshape (fun q' hq' hid' => ?_) hclosed).1
  obtain rfl := eq_of_key hshape.ids hq' hq ((List.mem_singleton.mp hid').trans hid.symm)
  exact htenant

end Ends

section Calls

structure Promised (grants : List RunGrant) (m : Minting) : Prop where
  budget : 1 ≤ m.budgetCalls
  depth : m.depth ≤ maxRunDepth
  parent : ∀ p, m.parentGrant = some p → ∃ q ∈ grants, q.id = p ∧ m.tenantID = q.tenantID ∧
    q.run ≠ m.run ∧ (∀ res ∈ m.allow, res ∈ q.allow) ∧ stampOf m.expires ≤ q.expiresAt ∧
    m.depth = q.depth + 1

structure Base (st : GrantStore) : Prop where
  shape : Shape st.grants
  minting : ∀ m ∈ st.minting, Promised st.grants m
  ending : ∀ e ∈ st.ending, ∃ q ∈ st.grants, q.id = e.grantID ∧ q.tenantID = e.tenantID

structure Inv (st : GrantStore) : Prop extends Base st where
  closed : ClosedBut st.grants []

variable {grants : List RunGrant} {φ : RunGrant → RunGrant} {st : GrantStore}

theorem Promised.map {m : Minting} (h : Promised grants m) (hφ : ∀ g, Same g (φ g)) :
    Promised (grants.map φ) m := by
  refine ⟨h.budget, h.depth, fun p hp => ?_⟩
  obtain ⟨q, hq, hid, htenant, hrun, hallow, hexpires, hdepth⟩ := h.parent p hp
  refine ⟨φ q, List.mem_map_of_mem hq, ?_⟩
  rw [(hφ q).id, (hφ q).tenantID, (hφ q).run, (hφ q).allow, (hφ q).expiresAt, (hφ q).depth]
  exact ⟨hid, htenant, hrun, hallow, hexpires, hdepth⟩

theorem Promised.append {m : Minting} (h : Promised grants m) (g : RunGrant) :
    Promised (grants ++ [g]) m := by
  refine ⟨h.budget, h.depth, fun p hp => ?_⟩
  obtain ⟨q, hq, hrest⟩ := h.parent p hp
  exact ⟨q, List.mem_append_left _ hq, hrest⟩

theorem stampOf_parseStamp (stamp : Int) : stampOf (parseStamp stamp) = stamp :=
  Int.mul_ediv_cancel stamp (by decide)

theorem stampOf_mono {t t' : Int} (h : t ≤ t') : stampOf t ≤ stampOf t' :=
  Int.ediv_le_ediv (by decide) h

theorem readRunGrant_some {tenantID grantID : String} {g : RunGrant}
    (h : readRunGrant grants tenantID grantID = some g) :
    g ∈ grants ∧ g.id = grantID ∧ g.tenantID = tenantID := by
  have hmatch := List.find?_some h
  simp only [Bool.and_eq_true, beq_iff_eq] at hmatch
  exact ⟨List.mem_of_find?_eq_some h, hmatch.1, hmatch.2⟩

theorem normalize_budget {req : NewRunGrant} {out : NewRunGrant × List Resource}
    (h : req.normalize = .ok out) : 1 ≤ out.1.budgetCalls := by
  unfold NewRunGrant.normalize at h
  obtain ⟨-, h⟩ := check_eq_ok.mp h
  obtain ⟨-, h⟩ := check_eq_ok.mp h
  obtain ⟨hbudget, h⟩ := check_eq_ok.mp h
  obtain ⟨-, h⟩ := check_eq_ok.mp h
  obtain ⟨allow, -, h⟩ := bind_eq_ok.mp h
  cases h
  exact Int.not_lt.mp fun hlow => hbudget (.inl hlow)

theorem promised_of_mint {now : Int} {tenantID : String} {owner : Except GrantError String}
    {req : NewRunGrant} {m : Minting} (h : mintRunGrant grants now tenantID owner req = .ok m) :
    Promised grants m := by
  unfold mintRunGrant at h
  obtain ⟨_, -, h⟩ := bind_eq_ok.mp h
  obtain ⟨out, hout, h⟩ := bind_eq_ok.mp h
  have hbudget := normalize_budget hout
  obtain ⟨base, -, h⟩ := bind_eq_ok.mp h
  split at h
  · cases h
    exact ⟨hbudget, Nat.zero_le _, fun p hp => by cases hp⟩
  split at h
  · cases h
  · next parent hread =>
    obtain ⟨hmem, -, htenant⟩ := readRunGrant_some hread
    obtain ⟨-, h⟩ := check_eq_ok.mp h
    obtain ⟨-, h⟩ := check_eq_ok.mp h
    obtain ⟨hdepth, h⟩ := check_eq_ok.mp h
    obtain ⟨hrun, h⟩ := check_eq_ok.mp h
    obtain ⟨hallow, h⟩ := check_eq_ok.mp h
    cases h
    refine ⟨hbudget, Nat.not_lt.mp hdepth, fun p hp => ?_⟩
    cases hp
    refine ⟨parent, hmem, rfl, htenant.symm, hrun, ?_, ?_, rfl⟩
    · intro res hres
      simp only [Bool.not_eq_true, Bool.not_eq_false', List.all_eq_true] at hallow
      exact List.contains_iff_mem.mp (hallow res hres)
    · rw [← stampOf_parseStamp parent.expiresAt]
      apply stampOf_mono
      rw [stampOf_parseStamp]
      split
      · exact Int.le_refl _
      · next hlater => exact Int.not_lt.mp hlater

def Minting.share (m : Minting) (g : RunGrant) : Int :=
  if m.parentGrant = some g.id then m.budgetCalls else 0

theorem takeBudget_spec (hids : (grants.map RunGrant.id).Nodup) {m : Minting} {paid : List RunGrant}
    (h : takeBudget grants m = .ok paid) :
    ∃ φ : RunGrant → RunGrant, paid = grants.map φ ∧
      (∀ g, Same g (φ g) ∧ (φ g).isOpen = g.isOpen) ∧
      (∀ g ∈ grants, (φ g).charged = g.charged ∧ (φ g).spentCalls = g.spentCalls + m.share g ∧
        (m.parentGrant = some g.id → (φ g).spentCalls ≤ g.budgetCalls)) ∧
      ∀ p, m.parentGrant = some p → ∃ q ∈ grants, q.id = p ∧ q.isOpen = true := by
  unfold takeBudget at h
  split at h
  · next hparent =>
    cases h
    refine ⟨id, (List.map_id grants).symm, fun g => ⟨.refl g, rfl⟩, fun g _ => ⟨rfl, ?_, ?_⟩,
      fun p hp => ?_⟩
    · rw [Minting.share, hparent, if_neg (by simp), Int.add_zero, id]
    · intro hp
      rw [hparent] at hp
      cases hp
    · rw [hparent] at hp
      cases hp
  · next pid hparent =>
    dsimp only at h
    split at h
    · next hpays =>
      cases h
      obtain ⟨q, hq, hmatch⟩ := List.any_eq_true.mp hpays
      have hfields := hmatch
      simp only [liveRun, Bool.and_eq_true, beq_iff_eq, decide_eq_true_eq] at hfields
      refine ⟨_, rfl, fun g => ?_, fun g hg => ?_, fun p hp => ?_⟩
      · split
        · exact ⟨⟨rfl, rfl, rfl, rfl, rfl, rfl, rfl, rfl, rfl⟩, rfl⟩
        · exact ⟨.refl g, rfl⟩
      · -- Of the rows, the parent alone is the one that pays.
        by_cases hid : g.id = pid
        · obtain rfl := eq_of_key hids hg hq (hid.trans hfields.1.1.1.symm)
          rw [if_pos hmatch, Minting.share, hparent, if_pos (by rw [hid])]
          exact ⟨rfl, rfl, fun _ => hfields.2⟩
        · have hne : some pid ≠ some g.id := fun heq => hid (Option.some.inj heq).symm
          rw [if_neg (by simp [hid]), Minting.share, hparent, if_neg hne, Int.add_zero]
          exact ⟨rfl, rfl, fun heq => absurd heq hne⟩
      · rw [hparent] at hp
        cases hp
        exact ⟨q, hq, hfields.1.1.1, hfields.1.2.1⟩
    · split at h <;> cases h

theorem insertRunGrant_ok {heads heads' : List RunHead} {m : Minting} {id : String}
    {grants' : List RunGrant} (h : insertRunGrant grants heads m id = .ok (grants', heads')) :
    ∃ paid generation, takeBudget grants m = .ok paid ∧
      (∀ g ∈ supersede paid m, g.id ≠ id) ∧
      grants' = supersede paid m ++ [m.grant id generation] := by
  unfold insertRunGrant at h
  split at h
  · cases h
  · next generation heads _ =>
    obtain ⟨paid, hpaid, h⟩ := bind_eq_ok.mp h
    obtain ⟨htaken, h⟩ := check_eq_ok.mp h
    cases h
    refine ⟨paid, generation, hpaid, fun g hg hid => htaken ?_, rfl⟩
    refine List.any_eq_true.mpr ⟨g, hg, ?_⟩
    simp [hid]

theorem Base.map (hbase : Base st) (hφ : ∀ g, Same g (φ g)) {clock : Int} {heads : List RunHead}
    {minting : List Minting} {ending : List Ending} (hminting : ∀ m ∈ minting, m ∈ st.minting)
    (hending : ∀ e ∈ ending, e ∈ st.ending) :
    Base ⟨clock, st.grants.map φ, heads, minting, ending⟩ where
  shape := hbase.shape.map hφ
  minting m hm := (hbase.minting m (hminting m hm)).map hφ
  ending e he := by
    obtain ⟨q, hq, hid, htenant⟩ := hbase.ending e (hending e he)
    refine ⟨φ q, List.mem_map_of_mem hq, ?_⟩
    rw [(hφ q).id, (hφ q).tenantID]
    exact ⟨hid, htenant⟩

theorem Base.append (hbase : Base st) {g : RunGrant} (hfresh : ∀ r ∈ st.grants, r.id ≠ g.id)
    (hdepth : g.depth ≤ maxRunDepth)
    (hparent : ∀ p, g.parentGrant = some p → ∃ q ∈ st.grants, q.id = p ∧
      g.tenantID = q.tenantID ∧ Within g q) :
    Base { st with grants := st.grants ++ [g] } := by
  refine ⟨⟨?_, ?_, ?_⟩, fun m hm => (hbase.minting m hm).append g, fun e he => ?_⟩
  · exact nodup_insert hbase.shape.ids hfresh
  · intro r hr p hp
    rcases List.mem_append.mp hr with hr | hr
    · obtain ⟨q, hq, hrest⟩ := hbase.shape.parent r hr p hp
      exact ⟨q, List.mem_append_left _ hq, hrest⟩
    · obtain rfl := List.mem_singleton.mp hr
      obtain ⟨q, hq, hrest⟩ := hparent p hp
      exact ⟨q, List.mem_append_left _ hq, hrest⟩
  · intro r hr
    rcases List.mem_append.mp hr with hr | hr
    · exact hbase.shape.depth r hr
    · exact List.mem_singleton.mp hr ▸ hdepth
  · obtain ⟨q, hq, hrest⟩ := hbase.ending e he
    exact ⟨q, List.mem_append_left _ hq, hrest⟩

theorem parent_ne_fresh {g : RunGrant} (hshape : Shape grants) (hfresh : ∀ r ∈ grants, r.id ≠ g.id)
    {r : RunGrant} (hr : r ∈ grants) : r.parentGrant ≠ some g.id := by
  intro hp
  obtain ⟨q, hq, hid, -⟩ := hshape.parent r hr g.id hp
  exact hfresh q hq hid

theorem closedBut_append {g : RunGrant} (hshape : Shape grants) (hclosed : ClosedBut grants [])
    (hfresh : ∀ r ∈ grants, r.id ≠ g.id)
    (hparent : ∀ p, g.parentGrant = some p → ∃ q ∈ grants, q.id = p ∧ q.isOpen = true) :
    ClosedBut (grants ++ [g]) [] := by
  intro r hr hopen q hq
  have hmem : q ∈ grants := by
    refine (List.mem_append.mp hq.1).resolve_right fun hnew => ?_
    have hp : r.parentGrant = some g.id := List.mem_singleton.mp hnew ▸ hq.2
    rcases List.mem_append.mp hr with hr | hr
    · exact parent_ne_fresh hshape hfresh hr hp
    · obtain ⟨q', hq', hid, -⟩ := hparent g.id (List.mem_singleton.mp hr ▸ hp)
      exact hfresh q' hq' hid
  rcases List.mem_append.mp hr with hr | hr
  · exact hclosed r hr hopen q ⟨hmem, hq.2⟩
  · obtain rfl := List.mem_singleton.mp hr
    obtain ⟨q', hq', hid, hopen'⟩ := hparent q.id hq.2
    obtain rfl := eq_of_key hshape.ids hq' hmem hid
    exact .inl hopen'

theorem closedBut_map (hφ : ∀ g, Same g (φ g) ∧ (φ g).isOpen = g.isOpen)
    (h : ClosedBut grants []) : ClosedBut (grants.map φ) [] := by
  intro g' hg' hopen q' hq'
  obtain ⟨g, hg, rfl⟩ := List.mem_map.mp hg'
  obtain ⟨q, rfl, hq⟩ := narrowedFrom_of_map (fun g => (hφ g).1) hq'
  rw [(hφ g).2] at hopen
  rw [(hφ q).2]
  exact .inl ((h g hg hopen q hq).resolve_right List.not_mem_nil)

/-- What the transaction of a mint does to the rows: those that are there are changed in place, and
the new one is within its parent. -/
theorem insertRunGrant_spec (hbase : Base st) {m : Minting} (hm : m ∈ st.minting)
    {heads' : List RunHead} {id : String} {grants' : List RunGrant}
    (h : insertRunGrant st.grants st.heads m id = .ok (grants', heads')) :
    ∃ (φ : RunGrant → RunGrant) (generation : Int),
      grants' = st.grants.map φ ++ [m.grant id generation] ∧ (∀ g, Same g (φ g)) ∧
      (∀ r ∈ st.grants.map φ, r.id ≠ id) ∧
      (∀ p, m.parentGrant = some p → ∃ q ∈ st.grants.map φ, q.id = p ∧
        m.tenantID = q.tenantID ∧ Within (m.grant id generation) q) ∧
      (∀ g ∈ st.grants, (φ g).charged = g.charged ∧ (φ g).spentCalls = g.spentCalls + m.share g ∧
        (m.parentGrant = some g.id → (φ g).spentCalls ≤ g.budgetCalls)) ∧
      (ClosedBut st.grants [] →
        (∀ p ∈ st.grants, m.parentGrant = some p.id → ∀ a, Above st.grants p a → a.run ≠ m.run) →
          ClosedBut grants' []) := by
  obtain ⟨paid, generation, hpaid, hfresh, rfl⟩ := insertRunGrant_ok h
  obtain ⟨pay, rfl, hpay, hpaid', hpaying⟩ := takeBudget_spec hbase.shape.ids hpaid
  have hpaySame : ∀ g, Same g (pay g) := fun g => (hpay g).1
  obtain ⟨φ, heq, hkept, hspec⟩ := supersede_spec (st.grants.map pay) m
  have hsame : ∀ g, Same g (φ (pay g)) := fun g => (hpaySame g).trans (hkept (pay g)).toSame
  rw [heq, List.map_map] at hfresh
  have hshape : Shape (st.grants.map (φ ∘ pay)) := hbase.shape.map hsame
  refine ⟨φ ∘ pay, generation, by rw [heq, List.map_map], hsame, hfresh, ?_, ?_, ?_⟩
  · intro p hp
    obtain ⟨q, hq, hid, htenant, hrun, hallow, hexpires, hdepth⟩ := (hbase.minting m hm).parent p hp
    refine ⟨φ (pay q), List.mem_map_of_mem hq, (hsame q).id.trans hid, ?_, ?_, ?_, ?_⟩
    · rw [(hsame q).tenantID]
      exact htenant
    · rw [(hsame q).allow]
      exact hallow
    · rw [(hsame q).expiresAt]
      exact hexpires
    · rw [(hsame q).depth]
      exact hdepth
  · intro g hg
    rw [Function.comp, (hkept (pay g)).charged, (hkept (pay g)).spentCalls]
    exact hpaid' g hg
  · intro hclosed habove
    obtain ⟨hclosed', honly⟩ := hspec (hbase.shape.map hpaySame) (closedBut_map hpay hclosed)
    rw [List.map_map] at hclosed'
    rw [heq, List.map_map]
    refine closedBut_append hshape hclosed' hfresh fun p hp => ?_
    -- The parent was open when it paid, and the run of the mint is neither its own nor one above
    -- it.
    obtain ⟨q, hq, hid, hopen⟩ := hpaying p hp
    obtain ⟨q', hq', hid', -, hrun, -⟩ := (hbase.minting m hm).parent p hp
    obtain rfl := eq_of_key hbase.shape.ids hq' hq (hid'.trans hid.symm)
    refine ⟨φ (pay q'), List.mem_map_of_mem hq, (hsame q').id.trans hid, ?_⟩
    by_contra hended
    rcases honly (pay q') (List.mem_map_of_mem hq) ((hpay q').2.trans hopen)
      ((Bool.not_eq_true _).mp hended) with hown | ⟨r, hr, hrrun⟩
    · exact hrun ((hpaySame q').run ▸ hown)
    · obtain ⟨r₀, rfl, hchain⟩ := above_of_map hpaySame hr
      refine habove q' hq (hid ▸ hp) r₀ hchain ?_
      rw [← hrrun, (hpaySame r₀).run]

theorem chargeRunGrant_spec {now : Int} {tenantID grantID : String} {n : Int} {enforceBudget : Bool}
    {grants' : List RunGrant}
    (h : chargeRunGrant grants now tenantID grantID n enforceBudget = .ok grants') :
    ∃ φ : RunGrant → RunGrant, grants' = grants.map φ ∧
      (∀ g, Same g (φ g) ∧ (φ g).isOpen = g.isOpen) ∧
      ∀ g, ∃ k, (φ g).charged = g.charged + k ∧ (φ g).spentCalls = g.spentCalls + k ∧
        (enforceBudget = true → k = 0 ∨ g.spentCalls + k ≤ g.budgetCalls) := by
  unfold chargeRunGrant at h
  obtain ⟨_, -, h⟩ := bind_eq_ok.mp h
  obtain ⟨-, h⟩ := check_eq_ok.mp h
  dsimp only at h
  split at h
  · cases h
    refine ⟨_, rfl, fun g => ?_, fun g => ?_⟩
    · split
      · exact ⟨⟨rfl, rfl, rfl, rfl, rfl, rfl, rfl, rfl, rfl⟩, rfl⟩
      · exact ⟨.refl g, rfl⟩
    · split
      · next hpays =>
        refine ⟨n, rfl, rfl, fun henforce => .inr ?_⟩
        simp only [henforce, Bool.and_eq_true, Bool.not_true, Bool.false_or,
          decide_eq_true_eq] at hpays
        exact hpays.2
      · exact ⟨0, (Int.add_zero _).symm, (Int.add_zero _).symm, fun _ => .inl rfl⟩
  · split at h <;> cases h

theorem ending_of_endRunGrant {tenantID base grantID : String} {closing : Option String}
    {e : Ending} (h : endRunGrant grants tenantID base grantID closing = .ok (some e)) :
    ∃ q ∈ grants, q.id = e.grantID ∧ q.tenantID = e.tenantID := by
  unfold endRunGrant at h
  obtain ⟨_, -, h⟩ := bind_eq_ok.mp h
  split at h
  · cases h
  · next g hread =>
    obtain ⟨-, h⟩ := check_eq_ok.mp h
    split at h
    · cases h
    · cases h
      exact ⟨g, readRunGrant_some hread⟩

theorem base_step (hbase : Base st) (ev : GrantEvent) : Base (st.step ev) := by
  cases ev with
  | tick d => exact ⟨hbase.shape, hbase.minting, hbase.ending⟩
  | mint tenantID owner req =>
    rw [GrantStore.step]
    split
    · next m hm =>
      refine ⟨hbase.shape, fun m' hm' => ?_, hbase.ending⟩
      rcases List.mem_append.mp hm' with hm' | hm'
      · exact hbase.minting m' hm'
      · obtain rfl := List.mem_singleton.mp hm'
        exact promised_of_mint hm
    · exact hbase
  | insert i id =>
    rw [GrantStore.step]
    split
    · exact hbase
    · next m hm =>
      have hmem := List.mem_of_getElem? hm
      dsimp only
      split
      · next grants' heads' hins =>
        obtain ⟨φ, generation, rfl, hsame, hfresh, hparent, -, -⟩ :=
          insertRunGrant_spec hbase hmem hins
        exact (hbase.map hsame (fun m' hm' => List.mem_of_mem_eraseIdx hm') fun e he => he).append
          hfresh (hbase.minting m hmem).depth hparent
      · exact ⟨hbase.shape, fun m' hm' => hbase.minting m' (List.mem_of_mem_eraseIdx hm'),
          hbase.ending⟩
  | endGrant tenantID base grantID closing =>
    rw [GrantStore.step]
    split
    · next e he =>
      refine ⟨hbase.shape, hbase.minting, fun e' he' => ?_⟩
      rcases List.mem_append.mp he' with he' | he'
      · exact hbase.ending e' he'
      · obtain rfl := List.mem_singleton.mp he'
        exact ending_of_endRunGrant he
    · exact hbase
  | endCommit i =>
    rw [GrantStore.step]
    split
    · exact hbase
    · next e he =>
      obtain ⟨φ, heq, hkept, -⟩ := commit_spec st.grants e (stampOf st.clock)
      rw [heq]
      exact hbase.map (fun g => (hkept g).toSame) (fun m hm => hm)
        fun e' he' => List.mem_of_mem_eraseIdx he'
  | charge tenantID grantID n enforceBudget =>
    rw [GrantStore.step]
    split
    · next grants' hcharge =>
      obtain ⟨φ, rfl, hφ, -⟩ := chargeRunGrant_spec hcharge
      exact hbase.map (fun g => (hφ g).1) (fun m hm => hm) fun e he => he
    · exact hbase

theorem closed_step (hinv : Inv st) {ev : GrantEvent} (hmeets : NamesNoneAbove st ev) :
    ClosedBut (st.step ev).grants [] := by
  cases ev with
  | tick d => exact hinv.closed
  | mint tenantID owner req =>
    rw [GrantStore.step]
    split <;> exact hinv.closed
  | insert i id =>
    rw [GrantStore.step]
    split
    · exact hinv.closed
    · next m hm =>
      dsimp only
      split
      · next grants' heads' hins =>
        obtain ⟨φ, generation, -, -, -, -, -, hclosed⟩ :=
          insertRunGrant_spec hinv.toBase (List.mem_of_getElem? hm) hins
        exact hclosed hinv.closed (hmeets m hm)
      · exact hinv.closed
  | endGrant tenantID base grantID closing =>
    rw [GrantStore.step]
    split <;> exact hinv.closed
  | endCommit i =>
    rw [GrantStore.step]
    split
    · exact hinv.closed
    · next e he =>
      obtain ⟨φ, heq, -, hclosed⟩ := commit_spec st.grants e (stampOf st.clock)
      rw [heq]
      exact hclosed hinv.shape (hinv.ending e (List.mem_of_getElem? he)) hinv.closed
  | charge tenantID grantID n enforceBudget =>
    rw [GrantStore.step]
    split
    · next grants' hcharge =>
      obtain ⟨φ, rfl, hφ, -⟩ := chargeRunGrant_spec hcharge
      exact closedBut_map hφ hinv.closed
    · exact hinv.closed

theorem inv_step (hinv : Inv st) {ev : GrantEvent} (hmeets : NamesNoneAbove st ev) :
    Inv (st.step ev) :=
  ⟨base_step hinv.toBase ev, closed_step hinv hmeets⟩

end Calls

theorem base_empty (clock : Int) : Base (.empty clock) where
  shape :=
    ⟨List.nodup_nil, fun _ h => absurd h List.not_mem_nil, fun _ h => absurd h List.not_mem_nil⟩
  minting _ h := absurd h List.not_mem_nil
  ending _ h := absurd h List.not_mem_nil

theorem inv_empty (clock : Int) : Inv (.empty clock) :=
  ⟨base_empty clock, fun _ h => absurd h List.not_mem_nil⟩

theorem Inv.narrowed {st : GrantStore} (hinv : Inv st) : Narrowed st := by
  have hup : ∀ g ∈ st.grants, g.live st.clock = true → ∀ q, NarrowedFrom st.grants g q →
      q.live st.clock = true := by
    intro g hg hlive q hq
    rw [RunGrant.live, Bool.and_eq_true, decide_eq_true_eq] at hlive ⊢
    refine ⟨(hinv.closed g hg hlive.1 q hq).resolve_right List.not_mem_nil, ?_⟩
    have hexpires := (hinv.shape.within hg hq).2.expires
    have hstamp : parseStamp g.expiresAt ≤ parseStamp q.expiresAt :=
      Int.mul_le_mul_of_nonneg_right hexpires (by decide)
    exact Int.lt_of_lt_of_le hlive.2 hstamp
  intro g hg hlive p hp
  refine ⟨?_, fun a ha => ?_⟩
  · obtain ⟨q, hq, hid, -, hwithin⟩ := hinv.shape.parent g hg p hp
    exact ⟨q, hq, hid, hwithin, hinv.shape.depth g hg⟩
  · induction ha with
    | single h => exact hup g hg hlive _ h
    | tail hb h ih => exact hup _ (mem_of_above hb) ih _ h

/-- In every state of a run whose mints name no run above their parent, authority only narrows. -/
theorem narrowed_along (clock : Int) (evs : List GrantEvent)
    (h : Along GrantStore.next NamesNoneAbove (.empty clock) evs) :
    Along GrantStore.next (fun st ev => Narrowed (st.step ev)) (.empty clock) evs := by
  refine Along.of_invariant (I := Inv) ?_ ?_ (inv_empty clock) h
  · intro st ev st' hinv hmeets hstep
    cases hstep
    exact inv_step hinv hmeets
  · exact fun st ev hinv hmeets => (inv_step hinv hmeets).narrowed

section Runs

def lookupGrant (run : String) (budget : Int) (parent : Option String) : NewRunGrant :=
  ⟨run, 0, [⟨"capability", "crm.lookup"⟩], budget, 60 * second, parent⟩

/-- A task, work it dispatches, and work dispatched by that one under the given run name. -/
def dispatches (run : String) : List GrantEvent :=
  [.mint "acme" (.ok "app") (lookupGrant "task" 10 none), .insert 0 "rgr_1",
    .mint "acme" (.ok "app") (lookupGrant "task/a" 5 (some "rgr_1")), .insert 0 "rgr_2",
    .mint "acme" (.ok "app") (lookupGrant run 2 (some "rgr_2")), .insert 0 "rgr_3"]

theorem namesNoneAbove_of_new {st : GrantStore} {i : Nat} (id : String)
    (h : ((st.minting[i]?).all fun m => st.grants.all fun a => a.run != m.run) = true) :
    NamesNoneAbove st (.insert i id) := by
  intro m hm p _ _ a ha
  rw [hm, Option.all_some, List.all_eq_true] at h
  exact bne_iff_ne.mp (h a (mem_of_above ha))

theorem narrowed_dispatches :
    Along GrantStore.next (fun st ev => Narrowed (st.step ev)) (.empty 0) (dispatches "task/b") :=
  narrowed_along 0 (dispatches "task/b") (by
    refine ⟨trivial, fun _ h₁ => ?_⟩
    cases h₁
    refine ⟨namesNoneAbove_of_new "rgr_1" (by decide), fun _ h₂ => ?_⟩
    cases h₂
    refine ⟨trivial, fun _ h₃ => ?_⟩
    cases h₃
    refine ⟨namesNoneAbove_of_new "rgr_2" (by decide +kernel), fun _ h₄ => ?_⟩
    cases h₄
    refine ⟨trivial, fun _ h₅ => ?_⟩
    cases h₅
    exact ⟨namesNoneAbove_of_new "rgr_3" (by decide +kernel), fun _ _ => trivial⟩)

theorem narrowed_last {s : GrantStore} {evs : List GrantEvent} {ev : GrantEvent}
    (h : Along GrantStore.next (fun st ev => Narrowed (st.step ev)) s (evs ++ [ev])) :
    Narrowed ((evs ++ [ev]).foldl GrantStore.step s) := by
  induction evs generalizing s with
  | nil => exact h.1
  | cons e evs ih => exact ih (h.2 (s.step e) rfl)

/-- Work that dispatches work under the name of the task above it: the mint closes the task and,
with it, its own parent, and the new grant stays live. -/
theorem not_narrowed_renamed :
    ¬ Along GrantStore.next (fun st ev => Narrowed (st.step ev)) (.empty 0)
      (dispatches "task") := by
  intro h
  have hevents : (dispatches "task").dropLast ++ [.insert 0 "rgr_3"] = dispatches "task" := rfl
  rw [← hevents] at h
  have hlast := narrowed_last h
  rw [hevents] at hlast
  have hchild : ∃ g ∈ ((dispatches "task").foldl GrantStore.step (.empty 0)).grants,
      (g.live ((dispatches "task").foldl GrantStore.step (.empty 0)).clock &&
        g.parentGrant == some "rgr_2") = true := by
    decide +kernel
  have hparent : ∃ q ∈ ((dispatches "task").foldl GrantStore.step (.empty 0)).grants,
      (q.id == "rgr_2" && !q.live ((dispatches "task").foldl GrantStore.step (.empty 0)).clock) =
        true := by
    decide +kernel
  generalize (dispatches "task").foldl GrantStore.step (.empty 0) = st at hlast hchild hparent
  obtain ⟨g, hg, hlive⟩ := hchild
  obtain ⟨q, hq, hended⟩ := hparent
  simp only [Bool.and_eq_true, beq_iff_eq, Bool.not_eq_true'] at hlive hended
  have hup := (hlast g hg hlive.1 "rgr_2" hlive.2).2 q (.single ⟨hq, hended.1 ▸ hlive.2⟩)
  rw [hended.2] at hup
  cases hup

end Runs

end ThanksComputer.Authn
