import ThanksComputer.Dns.Zone
import ThanksComputer.Lib.Checks

/-! The records an alias leads to.  `chaseCNAME` remembers the targets it has followed, and not the
name it was asked for: an alias that leads back to that name is answered with its own records
twice. -/

namespace ThanksComputer.Dns

open Lib.Assoc
open scoped Lib.Checks

section Sets

variable {E : Externals} {ix : Index} {owner name : Name} {t u : RRType}

/-- The records of an owner and a type. -/
def Index.setAt (ix : Index) (owner : Name) (t : RRType) : List RR :=
  rrsOf ((ix.rr.lookup owner).getD []) t

theorem setAt_of_lookup {byType : List (RRType × List RR)} (h : ix.rr.lookup owner = some byType) :
    ix.setAt owner t = rrsOf byType t := by
  rw [Index.setAt, h, Option.getD_some]

theorem rrsOf_nil (t : RRType) : rrsOf [] t = [] :=
  rfl

theorem setAt_of_lookup_none (h : ix.rr.lookup owner = none) : ix.setAt owner t = [] := by
  rw [Index.setAt, h, Option.getD_none, rrsOf_nil]

theorem setAt_of_rr {ix' : Index} (h : ix'.rr.lookup owner = ix.rr.lookup owner) :
    ix'.setAt owner t = ix.setAt owner t := by
  rw [Index.setAt, Index.setAt, h]

theorem rrsOf_upsert_self (rr : RR) (byType : List (RRType × List RR)) :
    rrsOf (upsert t (fun rrs => rrs.getD [] ++ [rr]) byType) t = rrsOf byType t ++ [rr] := by
  rw [rrsOf, lookup_upsert_self, Option.getD_some, rrsOf]

theorem rrsOf_upsert_of_ne (h : u ≠ t) (f : Option (List RR) → List RR)
    (byType : List (RRType × List RR)) : rrsOf (upsert t f byType) u = rrsOf byType u := by
  rw [rrsOf, lookup_upsert_of_ne h, rrsOf]

theorem setAt_add_self (ix : Index) (rr : RR) :
    (ix.add E rr).setAt (E.lower rr.name) rr.rtype = ix.setAt (E.lower rr.name) rr.rtype ++
      [rr] := by
  rw [Index.setAt, Index.add]
  dsimp only
  rw [lookup_upsert_self, Option.getD_some, rrsOf_upsert_self, Index.setAt]

theorem setAt_add_of_ne_type (ix : Index) {rr : RR} (h : t ≠ rr.rtype) (owner : Name) :
    (ix.add E rr).setAt owner t = ix.setAt owner t := by
  rw [Index.setAt, Index.add]
  dsimp only
  by_cases hown : owner = E.lower rr.name
  · rw [hown, lookup_upsert_self, Option.getD_some, rrsOf_upsert_of_ne h, Index.setAt]
  · rw [lookup_upsert_of_ne hown, Index.setAt]

theorem setAt_add_of_ne (ix : Index) {rr : RR} (h : owner ≠ E.lower rr.name) (t : RRType) :
    (ix.add E rr).setAt owner t = ix.setAt owner t :=
  setAt_of_rr (lookup_upsert_of_ne h _ _)

theorem setAt_clearOwner_self (ix : Index) (owner : Name) (t : RRType) :
    (ix.clearOwner E owner).setAt (E.lower owner) t = [] := by
  refine setAt_of_lookup_none (lookup_eq_none_iff_keys.mpr fun hmem => ?_)
  obtain ⟨e, he, hkey⟩ := List.mem_map.mp hmem
  have hne := (List.mem_filter.mp he).2
  rw [hkey, bne_self_eq_false] at hne
  cases hne

theorem setAt_clearOwner_of_ne (ix : Index) (h : name ≠ E.lower owner) (t : RRType) :
    (ix.clearOwner E owner).setAt name t = ix.setAt name t :=
  setAt_of_rr (lookup_filter_of_ne h ix.rr)

theorem rrsOf_filter_self (byType : List (RRType × List RR)) (t : RRType) :
    rrsOf (byType.filter fun b => b.1 != t) t = [] := by
  have hnone : (byType.filter fun b => b.1 != t).lookup t = none := by
    refine lookup_eq_none_iff_keys.mpr fun hmem => ?_
    obtain ⟨b, hb, hkey⟩ := List.mem_map.mp hmem
    have hne := (List.mem_filter.mp hb).2
    rw [hkey, bne_self_eq_false] at hne
    cases hne
  rw [rrsOf, hnone, Option.getD_none]

theorem rrsOf_filter_of_ne (h : u ≠ t) (byType : List (RRType × List RR)) :
    rrsOf (byType.filter fun b => b.1 != t) u = rrsOf byType u := by
  rw [rrsOf, lookup_filter_of_ne h, rrsOf]

theorem lookup_map_self (owner : Name) (f : List (RRType × List RR) → List (RRType × List RR))
    (rr : List (Name × List (RRType × List RR))) :
    (rr.map fun e => if e.1 = owner then (e.1, f e.2) else e).lookup owner =
      (rr.lookup owner).map f := by
  induction rr with
  | nil => rfl
  | cons e rr ih =>
    rw [List.map_cons]
    by_cases he : e.1 = owner
    · subst he
      rw [if_pos rfl, lookup_cons_fst, lookup_cons_fst (e.1, f e.2), Option.map_some]
    · rw [if_neg he, lookup_cons_of_ne (Ne.symm he), lookup_cons_of_ne (Ne.symm he), ih]

theorem setAt_clearOwnerType_self (ix : Index) (owner : Name) (t : RRType) :
    (ix.clearOwnerType E owner t).setAt (E.lower owner) t = [] := by
  rw [Index.setAt, Index.clearOwnerType]
  dsimp only
  rw [lookup_map_self]
  cases ix.rr.lookup (E.lower owner) with
  | none => rfl
  | some byType => exact rrsOf_filter_self byType t

theorem setAt_clearOwnerType_of_ne_type (ix : Index) (owner name : Name) (h : u ≠ t) :
    (ix.clearOwnerType E owner t).setAt name u = ix.setAt name u := by
  by_cases hown : name = E.lower owner
  · rw [hown, Index.setAt, Index.clearOwnerType]
    dsimp only
    rw [lookup_map_self, Index.setAt]
    cases ix.rr.lookup (E.lower owner) with
    | none => rfl
    | some byType => exact rrsOf_filter_of_ne h byType
  · refine setAt_of_rr (lookup_map_of_ne hown (fun e => ?_) (fun e he => if_neg he) ix.rr)
    split
    · rfl
    · rfl

theorem setAt_clearOwnerType_of_ne (ix : Index) (h : name ≠ E.lower owner) (t u : RRType) :
    (ix.clearOwnerType E owner t).setAt name u = ix.setAt name u := by
  refine setAt_of_rr (lookup_map_of_ne h (fun e => ?_) (fun e he => if_neg he) ix.rr)
  split
  · rfl
  · rfl

end Sets

section Filed

variable {E : Externals} {ix : Index} {rr : RR}

def Filed (E : Externals) (ix : Index) : Prop :=
  ∀ owner t, ∀ rr ∈ ix.setAt owner t, E.lower rr.name = owner ∧ rr.rtype = t

theorem Filed.add (h : Filed E ix) (rr : RR) : Filed E (ix.add E rr) := by
  intro owner t x hx
  by_cases hown : owner = E.lower rr.name
  · by_cases ht : t = rr.rtype
    · subst hown ht
      rw [setAt_add_self] at hx
      rcases List.mem_append.mp hx with hx | hx
      · exact h _ _ x hx
      · rw [List.mem_singleton.mp hx]
        exact ⟨rfl, rfl⟩
    · rw [setAt_add_of_ne_type ix ht] at hx
      exact h owner t x hx
  · rw [setAt_add_of_ne ix hown] at hx
    exact h owner t x hx

theorem Filed.addAll (h : Filed E ix) (rrs : List RR) : Filed E (ix.addAll E rrs) := by
  induction rrs generalizing ix with
  | nil => exact h
  | cons rr rrs ih => exact ih (h.add rr)

theorem setAt_clear_subset (ix : Index) (rr : RR) (owner : Name) (t : RRType) :
    (if rr.rtype = typeCNAME then ix.clearOwner E (E.lower rr.name)
      else ix.clearOwnerType E (E.lower rr.name) rr.rtype).setAt owner t ⊆ ix.setAt owner t := by
  split
  · by_cases hown : owner = E.lower (E.lower rr.name)
    · rw [hown, setAt_clearOwner_self]
      exact List.nil_subset _
    · rw [setAt_clearOwner_of_ne ix hown]
      exact fun _ hx => hx
  · by_cases ht : t = rr.rtype
    · by_cases hown : owner = E.lower (E.lower rr.name)
      · rw [hown, ht, setAt_clearOwnerType_self]
        exact List.nil_subset _
      · rw [setAt_clearOwnerType_of_ne ix hown]
        exact fun _ hx => hx
    · rw [setAt_clearOwnerType_of_ne_type ix _ _ ht]
      exact fun _ hx => hx

theorem Filed.overlayAll (h : Filed E ix) (pattern : Bool) (rrs : List RR) :
    Filed E (ix.overlayAll E pattern rrs) := by
  rw [Index.overlayAll]
  generalize ([] : List (Name × RRType)) = cleared
  induction rrs generalizing ix cleared with
  | nil => exact h
  | cons rr rrs ih =>
    rw [List.foldl_cons, Index.overlay]
    dsimp only
    split
    · refine ih (Filed.add (fun owner t x hx => ?_) rr) _
      exact h owner t x (setAt_clear_subset ix rr owner t hx)
    · exact ih (h.add rr) _

theorem filed_empty (E : Externals) (names : List Name) : Filed E ⟨[], names⟩ := by
  intro owner t x hx
  cases hx

theorem buildZone_filed (E : Externals) (cfg : SynthConfig) (db : Db) (zr : ZoneRow) :
    Filed E (buildZone E cfg db zr).index :=
  (((filed_empty E _).addAll _).overlayAll _ _).add _

end Filed

section Walk

variable (E : Externals) (z : Zone) (qtype : RRType)

def Zone.target (owner : Name) : Option Name :=
  match (z.index.setAt owner typeCNAME).head? with
  | some ⟨_, _, _, .cname target⟩ =>
    if z.covers (E.lower target) then some (E.lower target) else none
  | _ => none

/-- What is answered for a name: its records of the type, or its aliases. -/
def Zone.setFor (owner : Name) : List RR :=
  if z.index.setAt owner qtype = [] then z.index.setAt owner typeCNAME
    else z.index.setAt owner qtype

/-- The names that following the first alias of each leads to, up to one that has the type. -/
def Zone.walk : Nat → Name → List Name
  | 0, _ => []
  | depth + 1, owner =>
    match z.target E owner with
    | none => []
    | some next => next :: if z.index.setAt next qtype = [] then walk depth next else []

/-- `walk` up to the first name that was seen before. -/
def Zone.trail : Nat → List Name → Name → List Name
  | 0, _, _ => []
  | depth + 1, seen, owner =>
    match z.target E owner with
    | none => []
    | some next =>
      if next ∈ seen then []
      else next :: if z.index.setAt next qtype = [] then trail depth (next :: seen) next else []

variable {E z qtype} {seen : List Name} {owner : Name} {depth : Nat}

theorem walk_succ : z.walk E qtype (depth + 1) owner =
    match z.target E owner with
    | none => []
    | some next =>
      next :: if z.index.setAt next qtype = [] then z.walk E qtype depth next else [] := rfl

theorem trail_succ : z.trail E qtype (depth + 1) seen owner =
    match z.target E owner with
    | none => []
    | some next =>
      if next ∈ seen then []
      else next :: if z.index.setAt next qtype = [] then
        z.trail E qtype depth (next :: seen) next else [] := rfl

theorem target_eq_none (h : z.index.setAt owner typeCNAME = []) : z.target E owner = none := by
  rw [Zone.target, h, List.head?_nil]

theorem target_covers {next : Name} (h : z.target E owner = some next) : z.covers next = true := by
  rw [Zone.target] at h
  split at h
  · split at h
    · next hcovers =>
      cases h
      exact hcovers
    · cases h
  · cases h

theorem trail_of_no_alias (h : z.index.setAt owner typeCNAME = []) :
    z.trail E qtype depth seen owner = [] := by
  cases depth with
  | zero => rfl
  | succ depth => rw [trail_succ, target_eq_none h]

theorem not_mem_trail {name : Name} (h : name ∈ seen) :
    name ∉ z.trail E qtype depth seen owner := by
  induction depth generalizing seen owner with
  | zero => exact List.not_mem_nil
  | succ depth ih =>
    rw [trail_succ]
    split
    · exact List.not_mem_nil
    split
    · exact List.not_mem_nil
    next next _ hnext =>
    rw [List.mem_cons, not_or]
    refine ⟨fun heq => hnext (heq ▸ h), ?_⟩
    split
    · exact ih (List.mem_cons_of_mem _ h)
    · exact List.not_mem_nil

theorem trail_nodup : (z.trail E qtype depth seen owner).Nodup := by
  induction depth generalizing seen owner with
  | zero => exact List.nodup_nil
  | succ depth ih =>
    rw [trail_succ]
    split
    · exact List.nodup_nil
    split
    · exact List.nodup_nil
    split
    · exact List.nodup_cons.mpr ⟨not_mem_trail List.mem_cons_self, ih⟩
    · exact List.nodup_singleton _

theorem trail_subset_walk : z.trail E qtype depth seen owner ⊆ z.walk E qtype depth owner := by
  induction depth generalizing seen owner with
  | zero => exact fun _ h => h
  | succ depth ih =>
    rw [trail_succ, walk_succ]
    split
    · exact fun _ h => h
    split
    · exact List.nil_subset _
    refine List.cons_subset_cons _ ?_
    split
    · exact ih
    · exact fun _ h => h

theorem walk_closed (hclosed : ∀ s ∈ seen, ∀ next, z.target E s = some next → next ∈ seen)
    (hown : owner ∈ seen) : z.walk E qtype depth owner ⊆ seen := by
  induction depth generalizing owner with
  | zero => exact List.nil_subset _
  | succ depth ih =>
    rw [walk_succ]
    split
    · exact List.nil_subset _
    next next hnext =>
    have hmem := hclosed owner hown next hnext
    refine List.cons_subset.mpr ⟨hmem, ?_⟩
    split
    · exact ih hmem
    · exact List.nil_subset _

theorem walk_subset_trail
    (hclosed : ∀ s ∈ seen, s ≠ owner → ∀ next, z.target E s = some next → next ∈ seen) :
    ∀ name ∈ z.walk E qtype depth owner, name ∈ z.trail E qtype depth seen owner ∨ name ∈ seen := by
  induction depth generalizing seen owner with
  | zero => exact fun name h => (List.not_mem_nil h).elim
  | succ depth ih =>
    intro name hname
    rw [walk_succ] at hname
    rw [trail_succ]
    cases hnext : z.target E owner with
    | none =>
      rw [hnext] at hname
      exact (List.not_mem_nil hname).elim
    | some next =>
      rw [hnext] at hname
      dsimp only at hname ⊢
      by_cases hseen : next ∈ seen
      · right
        have hall : ∀ s ∈ seen, ∀ n, z.target E s = some n → n ∈ seen := by
          intro s hs n hn
          by_cases hso : s = owner
          · rw [hso, hnext] at hn
            cases hn
            exact hseen
          · exact hclosed s hs hso n hn
        rcases List.mem_cons.mp hname with rfl | hname
        · exact hseen
        · split at hname
          · exact walk_closed hall hseen hname
          · exact (List.not_mem_nil hname).elim
      · rw [if_neg hseen]
        rcases List.mem_cons.mp hname with rfl | hname
        · exact .inl List.mem_cons_self
        split at hname
        · next hset =>
          rw [if_pos hset]
          have hstep : ∀ s ∈ next :: seen, s ≠ next → ∀ n, z.target E s = some n →
            n ∈ next :: seen := by
            intro s hs hne n hn
            have hs := List.mem_of_ne_of_mem hne hs
            by_cases hso : s = owner
            · rw [hso, hnext] at hn
              cases hn
              exact List.mem_cons_self
            · exact List.mem_cons_of_mem _ (hclosed s hs hso n hn)
          rcases ih hstep name hname with h | h
          · exact .inl (List.mem_cons_of_mem _ h)
          · rcases List.mem_cons.mp h with rfl | h
            · exact .inl List.mem_cons_self
            · exact .inr h
        · exact (List.not_mem_nil hname).elim

theorem mem_trail_iff {name : Name} :
    name ∈ z.trail E qtype depth [] owner ↔ name ∈ z.walk E qtype depth owner := by
  refine ⟨fun h => trail_subset_walk h, fun h => ?_⟩
  rcases walk_subset_trail (fun s hs => (List.not_mem_nil hs).elim) name h with h | h
  · exact h
  · exact (List.not_mem_nil h).elim

theorem chase_eq {cur : RR} {more out : List RR}
    (hcur : z.index.setAt owner typeCNAME = cur :: more) :
    z.chase E qtype depth seen cur out =
      out ++ (z.trail E qtype depth seen owner).flatMap (z.setFor qtype) := by
  induction depth generalizing seen owner cur more out with
  | zero => exact (List.append_nil out).symm
  | succ depth ih =>
    obtain ⟨name, rtype, ttl, data⟩ := cur
    rw [Zone.chase, Zone.trail, Zone.target, hcur, List.head?_cons]
    cases data with
    | cname target =>
      dsimp only
      generalize E.lower target = next
      by_cases hcovers : z.covers next = true
      · rw [if_pos hcovers]
        dsimp only
        by_cases hseen : next ∈ seen
        · rw [if_pos (.inl hseen), if_pos hseen]
          exact (List.append_nil out).symm
        have hgo : ¬ (next ∈ seen ∨ (!z.covers next) = true) := by
          rw [hcovers]
          rintro (h | h)
          · exact hseen h
          · cases h
        rw [if_neg hgo, if_neg hseen, List.flatMap_cons]
        cases hlookup : z.index.rr.lookup next with
        | none =>
          have hnone : ∀ t, z.index.setAt next t = [] := fun t => setAt_of_lookup_none hlookup
          rw [Zone.setFor, hnone, hnone, if_pos rfl, if_pos rfl, trail_of_no_alias (hnone _)]
          exact (List.append_nil out).symm
        | some byType =>
          have hset : ∀ t, z.index.setAt next t = rrsOf byType t := fun t => setAt_of_lookup hlookup
          dsimp only
          rw [Zone.setFor, hset, hset]
          cases hq : rrsOf byType qtype with
          | cons rr rrs =>
            rw [if_neg (List.cons_ne_nil _ _), if_neg (List.cons_ne_nil _ _)]
            exact congrArg (out ++ ·) (List.append_nil _).symm
          | nil =>
            rw [if_pos rfl, if_pos rfl]
            cases hcn : rrsOf byType typeCNAME with
            | nil =>
              rw [trail_of_no_alias ((hset _).trans hcn)]
              exact (List.append_nil out).symm
            | cons cn cns =>
              dsimp only
              rw [ih ((hset _).trans hcn), List.append_assoc]
      · rw [if_neg hcovers]
        have hout : next ∈ seen ∨ (!z.covers next) = true := by
          rw [Bool.eq_false_of_not_eq_true hcovers]
          exact .inr rfl
        rw [if_pos hout]
        exact (List.append_nil out).symm
    | _ => exact (List.append_nil out).symm

end Walk

section Answer

variable (E : Externals)

/-- Every record of the answer is one of those the name itself has, which come first, or belongs to
the target of an alias before it. -/
def Chained (qname : Name) (answer : List RR) : Prop :=
  ∀ pre rr post, answer = pre ++ rr :: post →
    (∀ x ∈ pre ++ [rr], E.lower x.name = qname) ∨
      ∃ cn ∈ pre, ∃ target, cn.data = .cname target ∧ E.lower target = E.lower rr.name

/-- The answer is such a chain inside the zone, and no record is in it twice. -/
structure ChainRight (z : Zone) (qname : Name) (answer : List RR) : Prop where
  chained : Chained E qname answer
  covered : ∀ rr ∈ answer, z.covers (E.lower rr.name) = true
  once : answer.Nodup

/-- The names whose records follow those of the name that was asked for. -/
def Zone.met (z : Zone) (qtype : RRType) (qname : Name) : List Name :=
  if z.index.setAt qname qtype = [] then z.walk E qtype 8 qname else []

variable {E} {z : Zone} {qtype : RRType} {qname owner : Name} {answer rrs : List RR}

theorem Chained.append (h : Chained E qname answer)
    (hrrs : ∀ pre rr post, rrs = pre ++ rr :: post →
      (∀ x ∈ answer ++ pre ++ [rr], E.lower x.name = qname) ∨
        ∃ cn ∈ answer ++ pre, ∃ target, cn.data = .cname target ∧
          E.lower target = E.lower rr.name) :
    Chained E qname (answer ++ rrs) := by
  intro pre rr post heq
  rcases List.append_eq_append_iff.mp heq with ⟨mid, rfl, hmid⟩ | ⟨mid, rfl, hmid⟩
  · exact hrrs mid rr post hmid
  · cases mid with
    | nil =>
      have hnil := hrrs [] rr post hmid.symm
      rwa [List.append_nil, List.append_nil] at hnil
    | cons x mid =>
      obtain ⟨rfl, -⟩ := List.cons_eq_cons.mp hmid
      exact h pre rr mid rfl

theorem chained_own (h : ∀ rr ∈ answer, E.lower rr.name = qname) : Chained E qname answer := by
  rintro pre rr post rfl
  refine .inl fun x hx => h x ?_
  rcases List.mem_append.mp hx with hx | hx
  · exact List.mem_append_left _ hx
  · rw [List.mem_singleton.mp hx]
    exact List.mem_append_right _ List.mem_cons_self

theorem name_of_mem_setFor (hfiled : Filed E z.index) {rr : RR} (h : rr ∈ z.setFor qtype owner) :
    E.lower rr.name = owner := by
  rw [Zone.setFor] at h
  split at h
  · exact (hfiled _ _ rr h).1
  · exact (hfiled _ _ rr h).1

theorem setFor_of_type_empty (h : z.index.setAt owner qtype = []) :
    z.setFor qtype owner = z.index.setAt owner typeCNAME :=
  if_pos h

theorem Chained.trail (hfiled : Filed E z.index) {depth : Nat} {seen : List Name}
    (h : Chained E qname answer)
    (hhead : ∀ rr, (z.index.setAt owner typeCNAME).head? = some rr → rr ∈ answer) :
    Chained E qname (answer ++ (z.trail E qtype depth seen owner).flatMap (z.setFor qtype)) := by
  induction depth generalizing seen owner answer with
  | zero => rwa [Zone.trail, List.flatMap_nil, List.append_nil]
  | succ depth ih =>
    rw [trail_succ]
    cases hnext : z.target E owner with
    | none => rwa [List.flatMap_nil, List.append_nil]
    | some next =>
      dsimp only
      split
      · rwa [List.flatMap_nil, List.append_nil]
      rw [List.flatMap_cons, ← List.append_assoc]
      have hstep : Chained E qname (answer ++ z.setFor qtype next) := by
        refine h.append fun pre rr post heq => .inr ?_
        have hrr : E.lower rr.name = next :=
          name_of_mem_setFor hfiled (heq ▸ List.mem_append_right _ List.mem_cons_self)
        rw [Zone.target] at hnext
        split at hnext
        · next name rtype ttl target hcur =>
          split at hnext
          · cases hnext
            exact ⟨_, List.mem_append_left _ (hhead _ hcur), target, rfl, hrr.symm⟩
          · cases hnext
        · cases hnext
      split
      · next hset =>
        refine ih hstep fun rr hrr => List.mem_append_right _ ?_
        rw [setFor_of_type_empty hset]
        exact List.mem_of_head? hrr
      · rwa [List.flatMap_nil, List.append_nil]

theorem trail_covers {depth : Nat} {seen : List Name} {name : Name}
    (h : name ∈ z.trail E qtype depth seen owner) : z.covers name = true := by
  induction depth generalizing seen owner with
  | zero => exact (List.not_mem_nil h).elim
  | succ depth ih =>
    rw [trail_succ] at h
    split at h
    · exact (List.not_mem_nil h).elim
    next next hnext =>
    split at h
    · exact (List.not_mem_nil h).elim
    rcases List.mem_cons.mp h with rfl | h
    · exact target_covers hnext
    split at h
    · exact ih h
    · exact (List.not_mem_nil h).elim

theorem answer_eq (hany : qtype ≠ typeANY) (hcname : z.index.setAt qname typeCNAME ≠ []) :
    (z.lookup E qname qtype).answer =
      (qname :: if z.index.setAt qname qtype = [] then z.trail E qtype 8 [] qname else []).flatMap
        (z.setFor qtype) := by
  rw [Zone.lookup, if_neg hany, List.flatMap_cons, Zone.setFor]
  cases hlookup : z.index.rr.lookup qname with
  | none => exact absurd (setAt_of_lookup_none hlookup) hcname
  | some byType =>
    have hset : ∀ t, z.index.setAt qname t = rrsOf byType t := fun t => setAt_of_lookup hlookup
    rw [hset] at hcname
    dsimp only
    rw [Zone.lookupExact, hset, hset]
    cases hq : rrsOf byType qtype with
    | cons rr rrs =>
      rw [if_neg (List.cons_ne_nil _ _), if_neg (List.cons_ne_nil _ _), List.flatMap_nil,
        List.append_nil]
    | nil =>
      rw [if_pos rfl, if_pos rfl]
      cases hcn : rrsOf byType typeCNAME with
      | nil => exact absurd hcn hcname
      | cons cn more =>
        have hne : qtype ≠ typeCNAME := by
          rintro rfl
          rw [hq] at hcn
          cases hcn
        dsimp only
        rw [if_pos hne, Zone.chaseCNAME, chase_eq ((hset _).trans hcn)]

/-- No record is there twice just when the way does not come back to its start and no name on it has
a record twice. -/
theorem nodup_answer_iff (hfiled : Filed E z.index) {names : List Name} (hnames : names.Nodup)
    (hstart : z.setFor qtype qname ≠ []) :
    ((qname :: names).flatMap (z.setFor qtype)).Nodup ↔
      qname ∉ names ∧ ∀ name ∈ qname :: names, (z.setFor qtype name).Nodup := by
  have hdisjoint : ∀ a b : Name, a ≠ b → (z.setFor qtype a).Disjoint (z.setFor qtype b) := by
    intro a b hne rr ha hb
    exact hne ((name_of_mem_setFor hfiled ha).symm.trans (name_of_mem_setFor hfiled hb))
  rw [List.nodup_flatMap]
  constructor
  · rintro ⟨hsets, hpair⟩
    refine ⟨fun hmem => ?_, hsets⟩
    obtain ⟨rr, hrr⟩ := List.exists_mem_of_ne_nil _ hstart
    exact (List.pairwise_cons.mp hpair).1 qname hmem hrr hrr
  · rintro ⟨hnot, hsets⟩
    refine ⟨hsets, ?_⟩
    exact (List.nodup_cons.mpr ⟨hnot, hnames⟩).imp fun hne => hdisjoint _ _ hne

/-- The answer at a name with an alias is a chain inside the zone without repetition just when
following the aliases does not lead back to the name, and no name on the way has a record twice. -/
theorem chainRight_iff (E : Externals) (flagDefaults : SynthConfig) (db : Db) (q : Question)
    (z : Zone) (hz : (buildSnapshot E flagDefaults db).zoneFor (q.qname E) = some z)
    (hcname : z.index.setAt (q.qname E) typeCNAME ≠ []) :
    ChainRight E z (q.qname E) ((buildSnapshot E flagDefaults db).lookup E q).answer ↔
      q.qtype = typeANY ∨ q.qname E ∉ z.met E q.qtype (q.qname E) ∧
        ∀ name ∈ q.qname E :: z.met E q.qtype (q.qname E), (z.setFor q.qtype name).Nodup := by
  have hmem := List.mem_of_find?_eq_some hz
  rw [buildSnapshot, List.mem_insertionSort] at hmem
  obtain ⟨zr, -, hzr⟩ := List.mem_map.mp hmem
  have hfiled : Filed E z.index := hzr ▸ buildZone_filed E _ db zr
  have hcovers : z.covers (q.qname E) = true := 
    List.find?_some (p := fun w : Zone => w.covers (q.qname E)) hz
  have hlookup : (buildSnapshot E flagDefaults db).lookup E q = z.lookup E (q.qname E) q.qtype := by
    rw [ZoneSnapshot.lookup, hz]
  rw [hlookup]
  generalize q.qname E = qname at *
  generalize q.qtype = qtype
  by_cases hany : qtype = typeANY
  · refine iff_of_true ?_ (.inl hany)
    have hempty : (z.lookup E qname qtype).answer = [] := by
      rw [Zone.lookup, if_pos hany]
    rw [hempty]
    exact ⟨chained_own fun _ h => (List.not_mem_nil h).elim, fun _ h => (List.not_mem_nil h).elim,
      List.nodup_nil⟩
  rw [answer_eq hany hcname, Zone.met]
  have hstart : z.setFor qtype qname ≠ [] := by
    rw [Zone.setFor]
    split
    · exact hcname
    · assumption
  have hmet : ∀ name,
    (name ∈ if z.index.setAt qname qtype = [] then z.trail E qtype 8 [] qname else []) ↔
      (name ∈ if z.index.setAt qname qtype = [] then z.walk E qtype 8 qname else []) := by
    intro name
    split
    · exact mem_trail_iff
    · exact Iff.rfl
  rw [or_iff_right hany, ← hmet]
  simp only [List.forall_mem_cons, ← hmet]
  rw [← List.forall_mem_cons (p := fun name => (z.setFor qtype name).Nodup)]
  have hnodup :
    (if z.index.setAt qname qtype = [] then z.trail E qtype 8 [] qname else []).Nodup := by
    split
    · exact trail_nodup
    · exact List.nodup_nil
  refine ⟨fun h => (nodup_answer_iff hfiled hnodup hstart).mp h.once, fun h => ⟨?_, ?_, ?_⟩⟩
  · rw [List.flatMap_cons]
    have hown : Chained E qname (z.setFor qtype qname) :=
      chained_own fun rr hrr => name_of_mem_setFor hfiled hrr
    split
    · next hset =>
      refine hown.trail hfiled fun rr hrr => ?_
      rw [setFor_of_type_empty hset]
      exact List.mem_of_head? hrr
    · rwa [List.flatMap_nil, List.append_nil]
  · intro rr hrr
    obtain ⟨name, hname, hrr⟩ := List.mem_flatMap.mp hrr
    rw [name_of_mem_setFor hfiled hrr]
    rcases List.mem_cons.mp hname with rfl | hname
    · exact hcovers
    split at hname
    · exact trail_covers hname
    · exact (List.not_mem_nil hname).elim
  · exact (nodup_answer_iff hfiled hnodup hstart).mpr h

/-- `dns.NewRR` on lines of address records and aliases. -/
def zoneFileRR (line : Name) : Option RR :=
  match line.splitOn ' ' with
  | [name, ttl, _, rtype, rdata] =>
    if rtype = "CNAME".toList then (Net.decimal ttl).map fun ttl =>
      ⟨name, typeCNAME, ttl, .cname rdata⟩
    else plainNewRR line
  | _ => none

def zoneFile : Externals :=
  { plain with newRR := zoneFileRR }

def bareConfig : SynthConfig where
  nameservers := []
  edgeIPs := []
  mxHost := []
  mxPriority := 0
  ttl := 60
  spfOverride := []
  dmarc := []
  imapsPort := 0
  caldavsPort := 0
  carddavsPort := 0
  ipp := false
  structuredSuffix := []

def manualRow : ZoneRow where
  id := "dnz_1"
  tenantID := "acme"
  origin := "acme.example".toList
  mname := "ns1.thanks.computer".toList
  rname := "hostmaster.thanks.computer".toList
  refresh := 7200
  retry := 3600
  expire := 1209600
  minimum := 90
  defaultTTL := 60
  mode := .manual
  updatedAt := none
  dkimSelector := []
  dkimPublicB64 := []
  answerMode := .snapshot
  stackFallback := .proposal
  verifiedAt := some 0
  revokedAt := none

def manualDb (records : List RecordRow) : Db where
  zones := [manualRow]
  records := records
  activeStacks := []
  tenants := []
  hostnames := []
  settings := none

def record (id : String) (name : Name) (rtype : RecordType) (rdata : Name) : RecordRow :=
  ⟨id, "dnz_1", name, rtype, none, rdata, none, none⟩

/-- `a` is an alias of `b`, and `b` of `a`. -/
def loopDb : Db :=
  manualDb [record "1" "a".toList .cname "b.acme.example.".toList,
    record "2" "b".toList .cname "a.acme.example.".toList]

/-- `a` is an alias of `b`, which has an address. -/
def aliasDb : Db :=
  manualDb [record "1" "a".toList .cname "b.acme.example.".toList,
    record "2" "b".toList .a "192.0.2.1".toList]

def aliasZone (db : Db) : Zone :=
  buildZone zoneFile bareConfig db manualRow

/-- The address of `a` is asked for in a loop of two: the alias of `a` comes first and again
third. -/
theorem not_chainRight_loop :
    (buildSnapshot zoneFile bareConfig loopDb).zoneFor
      (Question.qname zoneFile ⟨"a.acme.example".toList, typeA⟩) =
      some (aliasZone loopDb) ∧
    (aliasZone loopDb).index.setAt "a.acme.example.".toList typeCNAME ≠ [] ∧
    ¬ ChainRight zoneFile (aliasZone loopDb) "a.acme.example.".toList
      ((buildSnapshot zoneFile bareConfig loopDb).lookup zoneFile
        ⟨"a.acme.example".toList, typeA⟩).answer := by
  refine ⟨by decide, by decide, fun h => ?_⟩
  exact absurd h.once (by decide)

theorem chainRight_alias :
    ChainRight zoneFile (aliasZone aliasDb) "a.acme.example.".toList
      ((buildSnapshot zoneFile bareConfig aliasDb).lookup zoneFile
        ⟨"a.acme.example".toList, typeA⟩).answer :=
  (chainRight_iff zoneFile bareConfig aliasDb ⟨"a.acme.example".toList, typeA⟩ (aliasZone aliasDb)
    (by decide) (by decide)).mpr (by decide)

end Answer

end ThanksComputer.Dns
