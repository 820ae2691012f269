import ThanksComputer.Json.Decode
import ThanksComputer.Kv.Counter

/-! `CAS` beside other writers.  The value that an attempt replaces is the one it has judged; it is
judged by the decoded values, in which different numbers can share a `float64` and different strings
can be decoded alike. -/

namespace ThanksComputer.Kv

open Lib (second)

variable {cfg : Config String} {be : Backend String} {key fk : String} {expected : Option String}
  {newVal : String} {ttl : Int} {s s' s'' : Store String} {p : Run String}

/-- A configuration with the JSON of `encoding/json`. -/
def texts (cfg : Config String) : Config String :=
  { cfg with valid := fun v => (Json.parse v).isSome, equal := Json.jsonEqual }

/-- What others may do meanwhile: a pair that appears at the key has an index of its own. -/
structure Others (fk : String) (s s' : Store String) : Prop where
  clock : s.clock ≤ s'.clock
  index : s.index ≤ s'.index
  data : ∀ p, s'.data fk = some p → s.data fk = some p ∨ s.index < p.lastIndex ∧
    p.lastIndex ≤ s'.index

/-- A call under way and the store it shares with others. -/
inductive Swap.Step (be : Backend String) (fk : String) :
    Store String × Run String → Store String × Run String → Prop
  | act (s : Store String) (p : Run String) : Step be fk (s, p) (p.step be s)
  | others (s s' : Store String) (p : Run String) (h : Others fk s s') : Step be fk (s, p) (s', p)

abbrev Swap.Reach (be : Backend String) (fk : String) :
    Store String × Run String → Store String × Run String → Prop :=
  Relation.ReflTransGen (Swap.Step be fk)

/-- What the caller expects is what is stored. -/
def Expected (fk : String) (expected : Option String) (s : Store String) : Prop :=
  match expected with
  | none => readable s fk = none
  | some e => ∃ w i, s.data fk = some ⟨.wrapped w, i⟩ ∧ Json.SameValue w.v e

/-- The call's next operation writes at the key. -/
def Writes (be : Backend String) (fk : String) (s : Store String) (p : Run String) : Prop :=
  writes fk (p.step be s).1.log ≠ writes fk s.log

def SwapsExpected (be : Backend String) (fk : String) (expected : Option String) (s : Store String)
    (p : Run String) : Prop :=
  Writes be fk s p → Expected fk expected s

/-- Decoding keeps apart what stands in one place of the stored and the expected value. -/
def KeptApart (fk : String) (expected : Option String) (s : Store String) : Prop :=
  ∀ e w i, expected = some e → s.data fk = some ⟨.wrapped w, i⟩ → Json.Distinguished w.v e

section Others

theorem Others.refl (fk : String) (s : Store String) : Others fk s s :=
  ⟨Nat.le_refl _, Nat.le_refl _, fun _ hp => .inl hp⟩

theorem Others.trans (h : Others fk s s') (h' : Others fk s' s'') : Others fk s s'' := by
  refine ⟨Nat.le_trans h.clock h'.clock, Nat.le_trans h.index h'.index, fun p hp => ?_⟩
  rcases h'.data p hp with hp | ⟨hlow, hhigh⟩
  · refine (h.data p hp).imp_right fun hi => ⟨hi.1, ?_⟩
    exact Nat.le_trans hi.2 h'.index
  · exact .inr ⟨Nat.lt_of_le_of_lt h.index hlow, hhigh⟩

theorem others_put (fk : String) (s : Store String) (k : String) (w : Wrapper String) :
    Others fk s (s.put k w) := by
  refine ⟨Nat.le_refl _, Nat.le_succ _, fun p hp => ?_⟩
  by_cases hk : fk = k
  · subst hk
    simp only [Store.put, Function.update_self, Option.some.injEq] at hp
    subst hp
    exact .inr ⟨Nat.lt_succ_self _, Nat.le_refl _⟩
  · simp only [Store.put, Function.update_of_ne hk] at hp
    exact .inl hp

theorem others_remove (fk : String) (s : Store String) (k : String) (log : List (Event String)) :
    Others fk s { s with data := Function.update s.data k none, log := log } := by
  refine ⟨Nat.le_refl _, Nat.le_refl _, fun p hp => ?_⟩
  by_cases hk : fk = k
  · subst hk
    simp at hp
  · simp only [Function.update_of_ne hk] at hp
    exact .inl hp

theorem others_foldl {γ : Type} (f : Store String → γ → Store String)
    (hf : ∀ s x, Others fk s (f s x)) (xs : List γ) (s : Store String) :
      Others fk s (xs.foldl f s) := by
  induction xs generalizing s with
  | nil => exact .refl fk s
  | cons x xs ih => exact (hf s x).trans (ih (f s x))

theorem others_step {α : Type} (fk : String) (s : Store String) (p : Prog String α) :
    Others fk s (p.step be s).1 := by
  cases p with
  | pure | now | get | getMulti => exact .refl fk s
  | put k w next => exact others_put fk s k w
  | putMulti kws next => exact others_foldl _ (fun s kw => others_put fk s kw.1 kw.2) kws s
  | atomicPut k w prev next =>
    rw [Prog.step]
    split
    · exact .refl fk s
    · exact others_put fk s k w
  | delete k next => exact others_remove fk s k _
  | deleteMulti ks next => exact others_foldl _ (fun s k => others_remove fk s k _) ks s
  | collect k seen next => exact others_remove fk s k _

theorem Others.seen {q : Pair String} (h : Others fk s s') (hq : Seen fk s q) : Seen fk s' q :=
  hq.mono h.index fun p hp => (h.data p hp).imp_right And.left

theorem Others.indexed (h : Others fk s s') (hs : Indexed fk s) : Indexed fk s' := by
  intro p hp
  rcases h.data p hp with hp | hp
  · exact Nat.le_trans (hs p hp) h.index
  · exact hp.2

end Others

section Phases

def Judged (fk : String) (expected : Option String) (s : Store String) : Option (Pair String) → Prop
  | none => expected = none
  | some q => Seen fk s q ∧
    (expected = none ∧ (∀ w, q.value = .wrapped w → w.expired s.clock = true) ∨
      ∃ e w, expected = some e ∧ q.value = .wrapped w ∧ Json.jsonEqual w.v e = true)

/-- What an attempt of `CAS` does with the outcome of its `AtomicPut`. -/
def afterSwap (newVal : String) (again : Run String) : Option PutError → Run String
  | none => .pure (.swapped true (some newVal))
  | some e => if e.retries then again else .pure (.error (.backend e))

/-- An attempt of `CAS` that knows the live value. -/
def weigh (cfg : Config String) (fk : String) (expected : Option String) (newVal : String)
    (ttl : Int) (again : Run String) (prev : Option (Pair String)) (cur : Option String) :
      Run String :=
  if passes cfg expected cur then
    (encode cfg newVal ttl).bind fun w => .atomicPut fk w prev (afterSwap newVal again)
  else .pure (.swapped false cur)

/-- Where a `CAS` can be. -/
inductive Swapping (cfg : Config String) (key fk : String) (expected : Option String)
    (newVal : String) (ttl : Int) (s : Store String) : Run String → Prop
  | answered (a : Answer String) : Swapping cfg key fk expected newVal ttl s (.pure a)
  | reading (n : Nat) :
      Swapping cfg key fk expected newVal ttl s (casLoop (texts cfg) key fk expected newVal ttl n)
  | weighing (n : Nat) (q : Pair String) (w : Wrapper String) (hw : q.value = .wrapped w)
      (hq : Seen fk s q) :
      Swapping cfg key fk expected newVal ttl s (.now fun t =>
        weigh (texts cfg) fk expected newVal ttl (casLoop (texts cfg) key fk expected newVal ttl n)
          (some q) (if w.expired t then none else some w.v))
  | stamping (n : Nat) (prev : Option (Pair String)) (w : Nat → Wrapper String)
      (hprev : Judged fk expected s prev) :
      Swapping cfg key fk expected newVal ttl s (.now fun t => .atomicPut fk (w t) prev
        (afterSwap newVal (casLoop (texts cfg) key fk expected newVal ttl n)))
  | writing (n : Nat) (prev : Option (Pair String)) (w : Wrapper String)
      (hprev : Judged fk expected s prev) :
      Swapping cfg key fk expected newVal ttl s (.atomicPut fk w prev
        (afterSwap newVal (casLoop (texts cfg) key fk expected newVal ttl n)))

theorem Judged.mono {prev : Option (Pair String)} (h : Judged fk expected s prev)
    (ho : Others fk s s') : Judged fk expected s' prev := by
  cases prev with
  | none => exact h
  | some q =>
    obtain ⟨hq, hjudged⟩ := h
    refine ⟨ho.seen hq, hjudged.imp_left fun habs => ⟨habs.1, fun w hw => ?_⟩⟩
    exact w.expired_mono (habs.2 w hw) ho.clock

theorem Swapping.mono (h : Swapping cfg key fk expected newVal ttl s p) (ho : Others fk s s') :
    Swapping cfg key fk expected newVal ttl s' p := by
  cases h with
  | answered a => exact .answered a
  | reading n => exact .reading n
  | weighing n q w hw hq => exact .weighing n q w hw (ho.seen hq)
  | stamping n prev w hprev => exact .stamping n prev w (hprev.mono ho)
  | writing n prev w hprev => exact .writing n prev w (hprev.mono ho)

theorem swapping_weigh {n : Nat} {prev : Option (Pair String)} {cur : Option String}
    (h : passes (texts cfg) expected cur = true → Judged fk expected s prev) :
    Swapping cfg key fk expected newVal ttl s (weigh (texts cfg) fk expected newVal ttl
      (casLoop (texts cfg) key fk expected newVal ttl n) prev cur) := by
  rw [weigh]
  split
  · next hpass =>
    rw [encode]
    split
    · exact .stamping n prev
        (fun t => ⟨newVal, (t + (clampTTL (texts cfg) ttl).toNat) / second.toNat⟩) (h hpass)
    · exact .writing n prev ⟨newVal, 0⟩ (h hpass)
  · exact .answered _

theorem expected_of_passes_none (h : passes (texts cfg) expected none = true) :
    expected = none := by
  cases expected with
  | none => rfl
  | some e => cases h

theorem expected_of_passes_some {v : String} (h : passes (texts cfg) expected (some v) = true) :
    ∃ e, expected = some e ∧ Json.jsonEqual v e = true := by
  cases expected with
  | none => cases h
  | some e => exact ⟨e, rfl, h⟩

theorem casLoop_succ (n : Nat) : casLoop (texts cfg) key fk expected newVal ttl (n + 1) =
    .get fk fun q => (live q).bind
      (weigh (texts cfg) fk expected newVal ttl (casLoop (texts cfg) key fk expected newVal ttl n)
        q) := by
  rw [casLoop]
  refine congrArg (Prog.get fk)
    (funext fun q => congrArg (Prog.bind (live q)) (funext fun cur => ?_))
  rw [weigh]
  refine ite_congr rfl (fun _ => ?_) fun _ => rfl
  refine congrArg (Prog.bind _)
    (funext fun w => congrArg (Prog.atomicPut fk w q) (funext fun e => ?_))
  cases e with
  | none => rfl
  | some e => rfl

theorem swapping_live {n : Nat} (hindexed : Indexed fk s) :
    Swapping cfg key fk expected newVal ttl s ((live (s.data fk)).bind
      (weigh (texts cfg) fk expected newVal ttl (casLoop (texts cfg) key fk expected newVal ttl n)
        (s.data fk))) := by
  cases hq : s.data fk with
  | none => exact swapping_weigh expected_of_passes_none
  | some q =>
    have hseen := hindexed.seen hq
    obtain ⟨value, i⟩ := q
    cases value with
    | corrupt text =>
      refine swapping_weigh fun hpass =>
        ⟨hseen, .inl ⟨expected_of_passes_none hpass, fun w hw => ?_⟩⟩
      cases hw
    | wrapped w => exact .weighing n _ w rfl hseen

theorem Swapping.step (be : Backend String) (hindexed : Indexed fk s)
    (h : Swapping cfg key fk expected newVal ttl s p) :
    Swapping cfg key fk expected newVal ttl s (p.step be s).2 ∧
      ((p.step be s).1 = s ∨
        ∃ prev, Judged fk expected s prev ∧ s.refusal be.same fk prev = none) := by
  cases h with
  | answered a => exact ⟨.answered a, .inl rfl⟩
  | reading n =>
    cases n with
    | zero => exact ⟨.answered _, .inl rfl⟩
    | succ n =>
      rw [casLoop_succ]
      exact ⟨swapping_live hindexed, .inl rfl⟩
  | weighing n q w hw hq =>
    refine ⟨swapping_weigh fun hpass => ⟨hq, ?_⟩, .inl rfl⟩
    split at hpass
    · next hexp =>
      refine .inl ⟨expected_of_passes_none hpass, fun w' hw' => ?_⟩
      rw [hw] at hw'
      cases hw'
      exact hexp
    · obtain ⟨e, he, heq⟩ := expected_of_passes_some hpass
      exact .inr ⟨e, w, he, hw, heq⟩
  | stamping n prev w hprev => exact ⟨.writing n prev (w s.clock) hprev, .inl rfl⟩
  | writing n prev w hprev =>
    rw [Prog.step]
    cases hput : s.refusal be.same fk prev with
    | none => exact ⟨.answered _, .inr ⟨prev, hprev, hput⟩⟩
    | some e =>
      refine ⟨?_, .inl rfl⟩
      dsimp only [afterSwap]
      split
      · exact .reading n
      · exact .answered _

end Phases

section Runs

theorem stored_of_judged
    (hsame : ∀ a b, be.same a b = true → a.value = b.value ∨ a.lastIndex = b.lastIndex)
    {prev : Option (Pair String)} (h : Judged fk expected s prev)
    (hput : s.refusal be.same fk prev = none) :
    expected = none ∧ readable s fk = none ∨
      ∃ e w i, expected = some e ∧ s.data fk = some ⟨.wrapped w, i⟩ ∧
        Json.jsonEqual w.v e = true := by
  cases prev with
  | none =>
    refine .inl ⟨h, ?_⟩
    rw [Store.refusal] at hput
    split at hput
    · cases hput
    · next hnone =>
      rw [Bool.not_eq_true, Option.isSome_eq_false_iff, Option.isNone_iff_eq_none] at hnone
      rw [readable, hnone]
  | some q =>
    obtain ⟨hq, hjudged⟩ := h
    rw [Store.refusal] at hput
    split at hput
    · cases hput
    · next cur hcur =>
      split at hput
      · next heq =>
        have hvalue : cur.value = q.value := by
          rcases hsame cur q heq with hval | hidx
          · exact hval
          · rw [hq.same cur hcur hidx]
        obtain ⟨value, i⟩ := cur
        rcases hjudged with ⟨hnone, hexp⟩ | ⟨e, w, he, hw, hequal⟩
        · refine .inl ⟨hnone, ?_⟩
          rw [readable, hcur]
          cases value with
          | corrupt text => rfl
          | wrapped w =>
            dsimp only
            rw [if_pos (hexp w hvalue.symm)]
        · have hvw : value = .wrapped w := hvalue.trans hw
          exact .inr ⟨e, w, i, he, hvw ▸ hcur, hequal⟩
      · cases hput

/-- A reached state of a `CAS`: it has ended, or it expects a valid value. -/
structure Swap.Inv (cfg : Config String) (key fk : String) (expected : Option String)
    (newVal : String) (ttl : Int) (c : Store String × Run String) : Prop where
  indexed : Indexed fk c.1
  swapping : Swapping cfg key fk expected newVal ttl c.1 c.2
  valid : (∃ a, c.2 = .pure a) ∨ ∀ e, expected = some e → (Json.parse e).isSome = true

theorem Swap.Inv.step {c c' : Store String × Run String}
    (h : Swap.Inv cfg key fk expected newVal ttl c) (hstep : Swap.Step be fk c c') :
      Swap.Inv cfg key fk expected newVal ttl c' := by
  cases hstep with
  | act s p =>
    have ho : Others fk s (p.step be s).1 := others_step fk s p
    refine ⟨ho.indexed h.indexed, (h.swapping.step be h.indexed).1.mono ho, h.valid.imp_left ?_⟩
    rintro ⟨a, ha⟩
    dsimp only at ha
    subst ha
    exact ⟨a, rfl⟩
  | others s s' p ho => exact ⟨ho.indexed h.indexed, h.swapping.mono ho, h.valid⟩

theorem Swap.Inv.reach {c c' : Store String × Run String}
    (h : Swap.Inv cfg key fk expected newVal ttl c) (hreach : Swap.Reach be fk c c') :
      Swap.Inv cfg key fk expected newVal ttl c' := by
  induction hreach with
  | refl => exact h
  | tail _ hstep ih => exact ih.step hstep

theorem Swap.Inv.start {tenant ns : String} (hkey : fullKey tenant ns key = .ok fk)
    (hindexed : Indexed fk s) :
    Swap.Inv cfg key fk expected newVal ttl
      (s, cas (texts cfg) tenant ns key expected newVal ttl) := by
  rw [cas, withKey, hkey]
  dsimp only
  cases checkValue (texts cfg) newVal with
  | some e => exact ⟨hindexed, .answered _, .inl ⟨_, rfl⟩⟩
  | none =>
    dsimp only
    split
    · exact ⟨hindexed, .answered _, .inl ⟨_, rfl⟩⟩
    · next hany =>
      refine ⟨hindexed, .reading casAttempts, .inr fun e he => ?_⟩
      subst he
      rw [Option.isSome_iff_ne_none]
      simpa [texts] using hany

theorem Swap.Inv.stored
    (hsame : ∀ a b, be.same a b = true → a.value = b.value ∨ a.lastIndex = b.lastIndex)
    (h : Swap.Inv cfg key fk expected newVal ttl (s, p)) (hwrites : Writes be fk s p) :
    expected = none ∧ readable s fk = none ∨
      ∃ e w i, expected = some e ∧ (Json.parse e).isSome = true ∧
        s.data fk = some ⟨.wrapped w, i⟩ ∧ Json.jsonEqual w.v e = true := by
  rcases h.valid with ⟨a, ha⟩ | hvalid
  · dsimp only at ha
    subst ha
    exact absurd rfl hwrites
  · rcases (h.swapping.step be h.indexed).2 with hs | ⟨prev, hjudged, hput⟩
    · exact absurd (by rw [hs]) hwrites
    · refine (stored_of_judged hsame hjudged hput).imp_right ?_
      rintro ⟨e, w, i, he, hw, heq⟩
      exact ⟨e, w, i, he, hvalid e he, hw, heq⟩

end Runs

section Scenes

def stored (text : String) : Store String :=
  ⟨fun key => if key = "acme/jobs/cursor" then some ⟨.wrapped ⟨text, 0⟩, 1⟩ else none, 1, 0, []⟩

def swap (expected newVal : String) : Run String :=
  cas (texts unlimited) "acme" "jobs" "cursor" (some expected) newVal 0

/-- The call on its own, after some of its operations. -/
def alone (s : Store String) (p : Run String) : Nat → Store String × Run String
  | 0 => (s, p)
  | n + 1 => (alone s p n).2.step redis (alone s p n).1

theorem reach_alone (s : Store String) (p : Run String) (fk : String) (n : Nat) :
    Swap.Reach redis fk (s, p) ((alone s p n).1, (alone s p n).2) := by
  induction n with
  | zero => exact .refl
  | succ n ih => exact ih.tail (.act _ _)

theorem redis_same (a b : Pair String) (h : redis.same a b = true) :
    a.value = b.value ∨ a.lastIndex = b.lastIndex :=
  .inl (beq_iff_eq.mp h)

theorem indexed_stored (text : String) : Indexed "acme/jobs/cursor" (stored text) := by
  intro p hp
  cases hp
  exact Nat.le_refl _

def leaf : Json.Tree → Option (Json.Numeral ⊕ List Nat)
  | .num n => some (.inl n)
  | .str us => some (.inr us)
  | _ => none

theorem parse_num {text : String} {n : Json.Numeral}
    (h : (Json.parse text).bind leaf = some (.inl n)) : Json.parse text = some (.num n) := by
  obtain ⟨t, ht, hn⟩ := Option.bind_eq_some_iff.mp h
  cases t with
  | num m =>
    cases hn
    exact ht
  | null | bool | str | arr | obj => cases hn

theorem parse_str {text : String} {us : List Nat}
    (h : (Json.parse text).bind leaf = some (.inr us)) : Json.parse text = some (.str us) := by
  obtain ⟨t, ht, hn⟩ := Option.bind_eq_some_iff.mp h
  cases t with
  | str vs =>
    cases hn
    exact ht
  | null | bool | num | arr | obj => cases hn

def integral (digits : String) : Json.Numeral :=
  ⟨false, digits.toList, [], false, []⟩

theorem not_swapsExpected_of {text expected : String} {v w : Json.Tree}
    (hwrites : Writes redis "acme/jobs/cursor" (alone (stored text) (swap expected "1") 2).1
      (alone (stored text) (swap expected "1") 2).2)
    (hdata : ((alone (stored text) (swap expected "1") 2).1.data "acme/jobs/cursor").map (·.value) =
      some (.wrapped ⟨text, 0⟩))
    (hv : Json.parse text = some v) (hw : Json.parse expected = some w) (hne : ¬v.Same w) :
    ∃ s p, Swap.Reach redis "acme/jobs/cursor" (stored text, swap expected "1") (s, p) ∧
      ¬SwapsExpected redis "acme/jobs/cursor" (some expected) s p := by
  refine ⟨_, _, reach_alone (stored text) (swap expected "1") _ 2, fun h => ?_⟩
  obtain ⟨w', i, hw', v', x', hv', hx', hsame⟩ := h hwrites
  rw [hw'] at hdata
  cases hdata
  rw [hv] at hv'
  rw [hw] at hx'
  cases hv'
  cases hx'
  exact hne hsame

end Scenes

end ThanksComputer.Kv
