import Mathlib.Algebra.Ring.Int.Defs
import Mathlib.Data.List.Perm.Basic
import ThanksComputer.Kv.LazyExpiry

/-! Callers that add to one counter beside each other.  The attempts of `Incr` serialize at their
`AtomicPut`; what an attempt writes is the exact sum as long as that is a 64-bit integer. -/

namespace ThanksComputer.Kv

open Lib (wrapInt wrapInt_of_mem second)

section Text

/-- `strconv.FormatInt` in base ten. -/
def formatInt (n : Int) : String :=
  String.ofList (if n < 0 then '-' :: Nat.toDigits 10 n.natAbs else Nat.toDigits 10 n.natAbs)

def InInt64 (n : Int) : Prop :=
  -2 ^ 63 ≤ n ∧ n < 2 ^ 63

instance (n : Int) : Decidable (InInt64 n) :=
  inferInstanceAs (Decidable (-2 ^ 63 ≤ n ∧ n < 2 ^ 63))

def parseDigits (cs : List Char) : Option Nat :=
  if cs ≠ [] ∧ cs.all Char.isDigit = true then some (Nat.ofDigitChars 10 cs 0) else none

def parseLiteral (cs : List Char) : Option Int :=
  match cs with
  | '-' :: cs => (parseDigits cs).map fun n : Nat => -(n : Int)
  | cs => (parseDigits cs).map fun n : Nat => (n : Int)

/-- `json.Unmarshal` of a value's text into an `int64` that is zero: a `null` leaves it so, and a
fraction or an exponent is refused. -/
def unmarshalInt64 (text : String) : Option Int :=
  if text = "null" then some 0 else (parseLiteral text.toList).filter fun n => decide (InInt64 n)

theorem parseDigits_toDigits (n : Nat) : parseDigits (Nat.toDigits 10 n) = some n := by
  have hall : (Nat.toDigits 10 n).all Char.isDigit = true :=
    List.all_eq_true.mpr fun c hc => Nat.isDigit_of_mem_toDigits (by decide) (by decide) hc
  rw [parseDigits, if_pos ⟨Nat.toDigits_ne_nil, hall⟩, Nat.ofDigitChars_ten_toDigits]

theorem parseLiteral_of_digits {cs : List Char} (h : '-' ∉ cs) :
    parseLiteral cs = (parseDigits cs).map fun n : Nat => (n : Int) := by
  rw [parseLiteral.eq_def]
  split
  · next cs => exact absurd List.mem_cons_self h
  · rfl

theorem not_digit_mem_toDigits {c : Char} (hc : c.isDigit = false) (n : Nat) :
    c ∉ Nat.toDigits 10 n := by
  intro hmem
  have hdigit := Nat.isDigit_of_mem_toDigits (b := 10) (by decide) (by decide) hmem
  rw [hc] at hdigit
  cases hdigit

theorem unmarshalInt64_formatInt {n : Int} (h : InInt64 n) :
    unmarshalInt64 (formatInt n) = some n := by
  have hnull : formatInt n ≠ "null" := by
    intro heq
    have hlist := congrArg String.toList heq
    rw [formatInt, String.toList_ofList] at hlist
    have hmem : 'n' ∈ Nat.toDigits 10 n.natAbs := by
      split at hlist
      · cases hlist
      · rw [hlist]
        decide
    exact not_digit_mem_toDigits (by decide) _ hmem
  have hlit : parseLiteral (formatInt n).toList = some n := by
    rw [formatInt, String.toList_ofList]
    split
    · next hneg =>
      rw [parseLiteral, parseDigits_toDigits, Option.map_some]
      congr 1
      omega
    · next hneg =>
      rw [parseLiteral_of_digits (not_digit_mem_toDigits (by decide) _), parseDigits_toDigits,
        Option.map_some]
      congr 1
      omega
  rw [unmarshalInt64, if_neg hnull, hlit]
  simp [h]

end Text

section Race

/-- A configuration with the numbers of `Incr` as they are written and read. -/
def counting (cfg : Config String) : Config String :=
  { cfg with asInt := unmarshalInt64, ofInt := formatInt }

/-- Calls of `Incr` beside each other, each with its delta and what is left of it. -/
structure Race where
  store : Store String
  calls : List (Int × Run String)

structure Adder where
  delta : Int
  ttl : Int

def Race.start (cfg : Config String) (tenant ns key : String) (before : Store String)
    (adders : List Adder) : Race :=
  ⟨before, adders.map fun a => (a.delta, incr (counting cfg) tenant ns key a.delta a.ttl)⟩

/-- The number at a key: nothing stored counts as zero. -/
def counter (fk : String) (s : Store String) : Option Int :=
  match s.data fk with
  | none => some 0
  | some ⟨.corrupt _, _⟩ => none
  | some ⟨.wrapped w, _⟩ => unmarshalInt64 w.v

/-- What the call would do next is an `AtomicPut` that succeeds. -/
def lands (be : Backend String) (s : Store String) : Run String → Bool
  | .atomicPut key _ prev _ => (s.refusal be.same key prev).isNone
  | _ => false

/-- What a successful `AtomicPut` is to make of the counter is a 64-bit integer. -/
def Fits (be : Backend String) (fk : String) (s : Store String) (delta : Int) (p : Run String) :
    Prop :=
  lands be s p = true → ∀ n, counter fk s = some n → InInt64 (n + delta)

/-- Nothing at the key has expired. -/
def Unexpired (fk : String) (s : Store String) : Prop :=
  ∀ p, s.data fk = some p → p.value.expired s.clock = false

def writes (fk : String) (log : List (Event String)) : List String :=
  log.filterMap fun
    | .wrote key w => if key = fk then some w.v else none
    | _ => none

def Run.unfinished : Run String → Prop
  | .pure _ => False
  | _ => True

/-- One operation of one call, a call that ends with an error of the backend, or anything that
leaves the key alone: time that passes and calls on other keys. -/
inductive Race.Step (ok : Store String → Int → Run String → Prop) (be : Backend String)
    (fk : String) :
    Race → Race → Prop
  | act (s : Store String) (d : Int) (p : Run String) (pre post : List (Int × Run String))
      (h : ok s d p) :
      Step ok be fk ⟨s, pre ++ (d, p) :: post⟩
        ⟨(p.step be s).1, pre ++ (d, (p.step be s).2) :: post⟩
  | fail (s : Store String) (d : Int) (p : Run String) (pre post : List (Int × Run String))
      (h : p.unfinished) : Step ok be fk ⟨s, pre ++ (d, p) :: post⟩ ⟨s, pre ++ post⟩
  | elsewhere (s s' : Store String) (calls : List (Int × Run String))
      (hdata : s'.data fk = s.data fk) (hlog : writes fk s'.log = writes fk s.log)
      (hindex : s.index ≤ s'.index) (hclock : s.clock ≤ s'.clock) :
      Step ok be fk ⟨s, calls⟩ ⟨s', calls⟩

/-- Runs in which the counter does not expire. -/
def Race.Reach (ok : Store String → Int → Run String → Prop) (be : Backend String) (fk : String) :
    Race → Race → Prop :=
  Relation.ReflTransGen fun c c' => Race.Step ok be fk c c' ∧ Unexpired fk c'.store

/-- The deltas and answers of the calls that have succeeded. -/
def successes (calls : List (Int × Run String)) : List (Int × Int) :=
  calls.filterMap fun
    | (d, .pure (.counter n)) => some (d, n)
    | _ => none

/-- Each answer is the number before it plus its delta, from the first number to the last. -/
def Counts : Option Int → List (Int × Int) → Option Int → Prop
  | first, [], last => last = first
  | first, (d, answer) :: rest, last =>
    (∃ n, first = some n ∧ answer = n + d) ∧ Counts (some answer) rest last

/-- The successful calls are the writes of the counter, in some order; each answered the exact sum,
and what is stored is the exact sum of all of them. -/
def Exact (fk : String) (before : Store String) (c : Race) : Prop :=
  (∃ order, order.Perm (successes c.calls) ∧
    writes fk c.store.log = writes fk before.log ++ order.map (fun a => formatInt a.2) ∧
    Counts (counter fk before) order (counter fk c.store)) ∧
  counter fk c.store =
    (counter fk before).map fun n => (successes c.calls).foldl (fun n a => n + a.1) n

end Race

section Counts

theorem Counts.snoc {first : Option Int} {order : List (Int × Int)} {n d : Int}
    (h : Counts first order (some n)) : Counts first (order ++ [(d, n + d)]) (some (n + d)) := by
  induction order generalizing first with
  | nil => exact ⟨⟨n, h.symm, rfl⟩, rfl⟩
  | cons a order ih => exact ⟨h.1, ih h.2⟩

theorem Counts.total {first last : Option Int} {order : List (Int × Int)}
    (h : Counts first order last) :
    last = first.map fun n => order.foldl (fun n a => n + a.1) n := by
  induction order generalizing first with
  | nil =>
    rw [show last = first from h]
    exact Option.map_id'.symm
  | cons a order ih =>
    obtain ⟨⟨n, rfl, hanswer⟩, hrest⟩ := h
    rw [ih hrest, hanswer]
    rfl

instance rightCommutative_add : RightCommutative fun (n : Int) (a : Int × Int) => n + a.1 :=
  ⟨fun n a b => Int.add_right_comm n a.1 b.1⟩

theorem exact_of_counts {fk : String} {before : Store String} {c : Race} {order : List (Int × Int)}
    (hperm : order.Perm (successes c.calls))
    (hlog : writes fk c.store.log = writes fk before.log ++ order.map (fun a => formatInt a.2))
    (h : Counts (counter fk before) order (counter fk c.store)) : Exact fk before c := by
  refine ⟨⟨order, hperm, hlog, h⟩, h.total.trans ?_⟩
  congr 1
  funext n
  exact hperm.foldl_eq n

end Counts

section Phases

variable {cfg : Config String} {key fk : String} {d ttl : Int} {be : Backend String}
  {s s' : Store String} {p : Run String}

/-- A pair that was once at the key: it is there still if its index is. -/
structure Seen (fk : String) (s : Store String) (q : Pair String) : Prop where
  old : q.lastIndex ≤ s.index
  same : ∀ p, s.data fk = some p → p.lastIndex = q.lastIndex → p = q

/-- `cur` is the number of the pair that the call compares with, unless that has expired. -/
def Held (fk : String) (s : Store String) (cur : Int) : Option (Pair String) → Prop
  | none => cur = 0
  | some q => Seen fk s q ∧
    ∃ w, q.value = .wrapped w ∧ (w.expired s.clock = true ∨ unmarshalInt64 w.v = some cur)

/-- What an attempt does with the outcome of its `AtomicPut`. -/
def afterPut (answer : Int) (again : Run String) : Option PutError → Run String
  | none => .pure (.counter answer)
  | some e => if e.retries then again else .pure (.error (.backend e))

def judge (cfg : Config String) (key fk : String) (delta ttl : Int) (q : Pair String)
    (w : Wrapper String) (again : Run String) : Run String :=
  .now fun t =>
    if w.expired t then incrPut cfg fk 0 delta ttl (some q) again
    else
      match cfg.asInt w.v with
      | none => .pure (.error (.incrNonInteger key))
      | some cur => incrPut cfg fk cur delta ttl (some q) again

inductive Adding (cfg : Config String) (key fk : String) (d ttl : Int) (s : Store String) :
    Run String → Prop
  | failed (e : Error) : Adding cfg key fk d ttl s (.pure (.error e))
  | reading (n : Nat) : Adding cfg key fk d ttl s (incrLoop (counting cfg) key fk d ttl n)
  | judging (n : Nat) (q : Pair String) (w : Wrapper String) (hw : q.value = .wrapped w)
      (hq : Seen fk s q) :
      Adding cfg key fk d ttl s
        (judge (counting cfg) key fk d ttl q w (incrLoop (counting cfg) key fk d ttl n))
  | stamping (n : Nat) (cur : Int) (prev : Option (Pair String)) (w : Nat → Wrapper String)
      (hw : ∀ t, (w t).v = formatInt (wrapInt (cur + d))) (hprev : Held fk s cur prev) :
      Adding cfg key fk d ttl s (.now fun t => .atomicPut fk (w t) prev
        (afterPut (wrapInt (cur + d)) (incrLoop (counting cfg) key fk d ttl n)))
  | writing (n : Nat) (cur : Int) (prev : Option (Pair String)) (w : Wrapper String)
      (hw : w.v = formatInt (wrapInt (cur + d))) (hprev : Held fk s cur prev) :
      Adding cfg key fk d ttl s (.atomicPut fk w prev
        (afterPut (wrapInt (cur + d)) (incrLoop (counting cfg) key fk d ttl n)))

theorem adding_incrPut {n : Nat} {cur : Int} {prev : Option (Pair String)}
    (h : Held fk s cur prev) :
    Adding cfg key fk d ttl s (incrPut (counting cfg) fk cur d ttl prev
      (incrLoop (counting cfg) key fk d ttl n)) := by
  have hafter : (fun e : Option PutError => match e with
      | none => .pure (.counter (wrapInt (cur + d)))
      | some e => if e.retries then incrLoop (counting cfg) key fk d ttl n
        else .pure (.error (.backend e))) =
      afterPut (wrapInt (cur + d)) (incrLoop (counting cfg) key fk d ttl n) := by
    funext e
    cases e with
    | none => rfl
    | some e => rfl
  rw [incrPut, encode]
  split
  · exact hafter ▸ .stamping n cur prev
      (fun t =>
        ⟨formatInt (wrapInt (cur + d)), (t + (clampTTL (counting cfg) ttl).toNat) / second.toNat⟩)
      (fun _ => rfl) h
  · exact hafter ▸ .writing n cur prev ⟨formatInt (wrapInt (cur + d)), 0⟩ rfl h

theorem Seen.mono {q : Pair String} (h : Seen fk s q) (hindex : s.index ≤ s'.index)
    (hdata : ∀ p, s'.data fk = some p → s.data fk = some p ∨ s.index < p.lastIndex) :
    Seen fk s' q := by
  refine ⟨Nat.le_trans h.old hindex, fun p hp hi => ?_⟩
  rcases hdata p hp with hp | hp
  · exact h.same p hp hi
  · have := h.old
    omega

theorem Held.mono {cur : Int} {prev : Option (Pair String)} (h : Held fk s cur prev)
    (hseen : ∀ q, Seen fk s q → Seen fk s' q) (hclock : s.clock ≤ s'.clock) :
    Held fk s' cur prev := by
  cases prev with
  | none => exact h
  | some q =>
    obtain ⟨hq, w, hw, hcur⟩ := h
    exact ⟨hseen q hq, w, hw, hcur.imp (fun hexp => w.expired_mono hexp hclock) id⟩

theorem Adding.mono (h : Adding cfg key fk d ttl s p) (hseen : ∀ q, Seen fk s q → Seen fk s' q)
    (hclock : s.clock ≤ s'.clock) : Adding cfg key fk d ttl s' p := by
  cases h with
  | failed e => exact .failed e
  | reading n => exact .reading n
  | judging n q w hw hq => exact .judging n q w hw (hseen q hq)
  | stamping n cur prev w hw hprev => exact .stamping n cur prev w hw (hprev.mono hseen hclock)
  | writing n cur prev w hw hprev => exact .writing n cur prev w hw (hprev.mono hseen hclock)

theorem counter_of_held
    (hsame : ∀ a b, be.same a b = true → a.value = b.value ∨ a.lastIndex = b.lastIndex)
    (hlive : Unexpired fk s) {cur : Int} {prev : Option (Pair String)} (h : Held fk s cur prev)
    (hput : s.refusal be.same fk prev = none) : counter fk s = some cur := by
  cases prev with
  | none =>
    rw [show cur = 0 from h]
    rw [Store.refusal] at hput
    split at hput
    · cases hput
    · next hnone =>
      rw [Bool.not_eq_true, Option.isSome_eq_false_iff, Option.isNone_iff_eq_none] at hnone
      rw [counter, hnone]
  | some q =>
    obtain ⟨hq, w, hw, hcur⟩ := h
    rw [Store.refusal] at hput
    split at hput
    · cases hput
    · next p hp =>
      split at hput
      · next heq =>
        have hvalue : p.value = .wrapped w := by
          rcases hsame p q heq with hpq | hpq
          · exact hpq.trans hw
          · rw [hq.same p hp hpq, hw]
        obtain ⟨value, i⟩ := p
        dsimp only at hvalue
        subst hvalue
        -- the pair that was expired when it was read is expired still
        rcases hcur with hexp | hcur
        · have hnot := hlive _ hp
          rw [Blob.expired, hexp] at hnot
          cases hnot
        · rw [counter, hp]
          exact hcur
      · cases hput

/-- The pairs at the key carry indexes that have been given out. -/
def Indexed (fk : String) (s : Store String) : Prop :=
  ∀ p, s.data fk = some p → p.lastIndex ≤ s.index

theorem Indexed.seen (h : Indexed fk s) {q : Pair String} (hq : s.data fk = some q) :
    Seen fk s q := by
  refine ⟨h q hq, fun p hp _ => ?_⟩
  rw [hq] at hp
  exact (Option.some.inj hp).symm

theorem adding_incrLoop_step (hindexed : Indexed fk s) (n : Nat) :
    ((incrLoop (counting cfg) key fk d ttl n).step be s).1 = s ∧
      Adding cfg key fk d ttl s ((incrLoop (counting cfg) key fk d ttl n).step be s).2 := by
  cases n with
  | zero => exact ⟨rfl, .failed _⟩
  | succ n =>
    refine ⟨rfl, ?_⟩
    rw [incrLoop, Prog.step]
    dsimp only
    split
    · exact adding_incrPut rfl
    · next q hq =>
      split
      · exact .failed _
      · next w hw => exact .judging n q w hw (hindexed.seen hq)

theorem adding_judge_step {n : Nat} {q : Pair String} {w : Wrapper String}
    (hw : q.value = .wrapped w) (hq : Seen fk s q) :
    Adding cfg key fk d ttl s ((judge (counting cfg) key fk d ttl q w
      (incrLoop (counting cfg) key fk d ttl n)).step be s).2 := by
  rw [judge, Prog.step]
  dsimp only
  split
  · next hexp => exact adding_incrPut ⟨hq, w, hw, .inl hexp⟩
  · split
    · exact .failed _
    · next cur hcur => exact adding_incrPut ⟨hq, w, hw, .inr hcur⟩

theorem Adding.step
    (hsame : ∀ a b, be.same a b = true → a.value = b.value ∨ a.lastIndex = b.lastIndex)
    (hlive : Unexpired fk s) (hindexed : Indexed fk s) (h : Adding cfg key fk d ttl s p) :
    ((p.step be s).1 = s ∧ Adding cfg key fk d ttl s (p.step be s).2) ∨
      lands be s p = true ∧ ∃ n w, counter fk s = some n ∧ w.v = formatInt (wrapInt (n + d)) ∧
        p.step be s = (s.put fk w, .pure (.counter (wrapInt (n + d)))) := by
  cases h with
  | failed e => exact .inl ⟨rfl, .failed e⟩
  | reading n => exact .inl (adding_incrLoop_step hindexed n)
  | judging n q w hw hq => exact .inl ⟨rfl, adding_judge_step hw hq⟩
  | stamping n cur prev w hw hprev => exact .inl ⟨rfl, .writing n cur prev (w s.clock) (hw _) hprev⟩
  | writing n cur prev w hw hprev =>
    rw [Prog.step]
    cases hput : s.refusal be.same fk prev with
    | none =>
      refine .inr ⟨by rw [lands, hput]; rfl, cur, w, counter_of_held hsame hlive hprev hput, hw,
        rfl⟩
    | some e =>
      refine .inl ⟨rfl, ?_⟩
      dsimp only [afterPut]
      split
      · exact .reading n
      · exact .failed _

end Phases

section Steps

variable {cfg : Config String} {key fk : String} {be : Backend String} {before : Store String}
  {c c' : Race}

/-- A call that has succeeded, or one that is under way and has not written. -/
def Proper (cfg : Config String) (key fk : String) (s : Store String) (call : Int × Run String) :
    Prop :=
  (∃ n, call.2 = .pure (.counter n)) ∨ ∃ ttl, Adding cfg key fk call.1 ttl s call.2

structure Race.Inv (cfg : Config String) (key fk : String) (before : Store String) (c : Race) :
    Prop where
  indexed : Indexed fk c.store
  proper : ∀ call ∈ c.calls, Proper cfg key fk c.store call
  counts : ∃ order, order.Perm (successes c.calls) ∧
    writes fk c.store.log = writes fk before.log ++ order.map (fun a => formatInt a.2) ∧
    Counts (counter fk before) order (counter fk c.store)

theorem Race.Inv.exact (h : Race.Inv cfg key fk before c) : Exact fk before c := by
  obtain ⟨order, hperm, hlog, hcounts⟩ := h.counts
  exact exact_of_counts hperm hlog hcounts

theorem Proper.mono {s s' : Store String} {call : Int × Run String} (h : Proper cfg key fk s call)
    (hseen : ∀ q, Seen fk s q → Seen fk s' q) (hclock : s.clock ≤ s'.clock) :
    Proper cfg key fk s' call := by
  rcases h with hdone | ⟨ttl, h⟩
  · exact .inl hdone
  · exact .inr ⟨ttl, h.mono hseen hclock⟩

theorem seen_put {s : Store String} (w : Wrapper String) {q : Pair String} (h : Seen fk s q) :
    Seen fk (s.put fk w) q := by
  refine h.mono (Nat.le_succ _) fun p hp => .inr ?_
  simp only [Store.put, Function.update_self, Option.some.injEq] at hp
  rw [← hp]
  exact Nat.lt_succ_self _

theorem indexed_put (fk : String) (s : Store String) (w : Wrapper String) :
    Indexed fk (s.put fk w) := by
  intro p hp
  simp only [Store.put, Function.update_self, Option.some.injEq] at hp
  rw [← hp]
  exact Nat.le_refl _

theorem counter_put {s : Store String} {w : Wrapper String} {n : Int} (hn : InInt64 n)
    (hw : w.v = formatInt n) : counter fk (s.put fk w) = some n := by
  simp only [counter, Store.put, Function.update_self, hw]
  exact unmarshalInt64_formatInt hn

theorem writes_put {s : Store String} (w : Wrapper String) :
    writes fk (s.put fk w).log = writes fk s.log ++ [w.v] := by
  simp [writes, Store.put]

theorem successes_split (pre post : List (Int × Run String)) (call : Int × Run String) :
    successes (pre ++ call :: post) = successes pre ++ (successes [call] ++ successes post) := by
  rw [← List.singleton_append (l := post)]
  simp only [successes, List.filterMap_append]

theorem successes_of_adding {s : Store String} {d ttl : Int} {p : Run String}
    (h : Adding cfg key fk d ttl s p) : successes [(d, p)] = [] := by
  cases h with
  | reading n =>
    cases n with
    | zero => rfl
    | succ n => rfl
  | failed | judging | stamping | writing => rfl

theorem proper_of_mem {s s' : Store String} {call call' : Int × Run String}
    {pre post : List (Int × Run String)} (h : ∀ x ∈ pre ++ call :: post, Proper cfg key fk s x)
    (hcall : Proper cfg key fk s' call') (hseen : ∀ q, Seen fk s q → Seen fk s' q)
    (hclock : s.clock ≤ s'.clock) :
    ∀ x ∈ pre ++ call' :: post, Proper cfg key fk s' x := by
  intro x hx
  rcases List.mem_append.mp hx with hx | hx
  · exact (h x (by simp [hx])).mono hseen hclock
  · rcases List.mem_cons.mp hx with rfl | hx
    · exact hcall
    · exact (h x (by simp [hx])).mono hseen hclock

theorem Race.Inv.land {s : Store String} {pre post : List (Int × Run String)} {d n : Int}
    {p : Run String} {w : Wrapper String}
    (h : Race.Inv cfg key fk before ⟨s, pre ++ (d, p) :: post⟩) (hp : successes [(d, p)] = [])
    (hn : counter fk s = some n) (hfits : InInt64 (n + d)) (hw : w.v = formatInt (n + d)) :
    Race.Inv cfg key fk before ⟨s.put fk w, pre ++ (d, .pure (.counter (n + d))) :: post⟩ := by
  obtain ⟨order, hperm, hlog, hcounts⟩ := h.counts
  refine ⟨indexed_put fk s w, ?_, order ++ [(d, n + d)], ?_, ?_, ?_⟩
  · exact proper_of_mem h.proper (.inl ⟨n + d, rfl⟩) (fun _ => seen_put w) (Nat.le_refl _)
  · rw [successes_split, hp] at hperm
    rw [successes_split]
    refine List.perm_append_comm.trans ((hperm.cons _).trans ?_)
    exact List.perm_middle.symm
  · rw [writes_put, hlog, hw, List.map_append, List.append_assoc]
    rfl
  · rw [counter_put hfits hw]
    rw [hn] at hcounts
    exact hcounts.snoc

theorem Race.Inv.step
    (hsame : ∀ a b, be.same a b = true → a.value = b.value ∨ a.lastIndex = b.lastIndex)
    (hlive : Unexpired fk c.store) (h : Race.Inv cfg key fk before c)
    (hstep : Race.Step (Fits be fk) be fk c c') : Race.Inv cfg key fk before c' := by
  cases hstep with
  | act s d p pre post hfits =>
    rcases h.proper (d, p) (by simp) with ⟨n, rfl⟩ | ⟨ttl, hadding⟩
    · exact h
    · rcases hadding.step hsame hlive h.indexed with ⟨hs, hnext⟩ | ⟨hlands, n, w, hn, hw, heq⟩
      · rw [hs]
        refine ⟨h.indexed, ?_, ?_⟩
        · exact proper_of_mem h.proper (.inr ⟨ttl, hnext⟩) (fun _ => id) (Nat.le_refl _)
        · have hcounts := h.counts
          rw [successes_split, successes_of_adding hadding] at hcounts
          rw [successes_split, successes_of_adding hnext]
          exact hcounts
      · have hrange := hfits hlands n hn
        rw [wrapInt_of_mem hrange] at hw heq
        rw [heq]
        exact h.land (successes_of_adding hadding) hn hrange hw
  | fail s d p pre post hp =>
    have hnone : successes [(d, p)] = [] := by
      rcases h.proper (d, p) (by simp) with ⟨n, rfl⟩ | ⟨ttl, hadding⟩
      · cases hp
      · exact successes_of_adding hadding
    refine ⟨h.indexed, fun x hx => h.proper x ?_, ?_⟩
    · rcases List.mem_append.mp hx with hx | hx
      · simp [hx]
      · simp [hx]
    · have hcounts := h.counts
      rw [successes_split, hnone] at hcounts
      rw [successes, List.filterMap_append]
      exact hcounts
  | elsewhere s s' calls hdata hlog hindex hclock =>
    have hseen : ∀ q, Seen fk s q → Seen fk s' q := by
      intro q hq
      refine hq.mono hindex fun p hp => .inl ?_
      rwa [hdata] at hp
    refine ⟨fun p hp => ?_, fun x hx => (h.proper x hx).mono hseen hclock, ?_⟩
    · rw [hdata] at hp
      exact Nat.le_trans (h.indexed p hp) hindex
    · have hcounter : counter fk s' = counter fk s := by
        rw [counter, counter, hdata]
      obtain ⟨order, hperm, hwrites, hcounts⟩ := h.counts
      exact ⟨order, hperm, hlog.trans hwrites, hcounter ▸ hcounts⟩

theorem Race.Inv.reach
    (hsame : ∀ a b, be.same a b = true → a.value = b.value ∨ a.lastIndex = b.lastIndex)
    (hlive : Unexpired fk c.store) (h : Race.Inv cfg key fk before c)
    (hreach : Race.Reach (Fits be fk) be fk c c') :
    Race.Inv cfg key fk before c' ∧ Unexpired fk c'.store := by
  induction hreach with
  | refl => exact ⟨h, hlive⟩
  | tail _ hstep ih => exact ⟨ih.1.step hsame ih.2 hstep.1, hstep.2⟩

theorem Race.Inv.start {tenant ns : String} (hkey : fullKey tenant ns key = .ok fk)
    (hindexed : Indexed fk before) (adders : List Adder) :
    Race.Inv cfg key fk before (Race.start cfg tenant ns key before adders) := by
  have hincr : ∀ a : Adder, incr (counting cfg) tenant ns key a.delta a.ttl =
      incrLoop (counting cfg) key fk a.delta a.ttl casAttempts := by
    intro a
    rw [incr, withKey, hkey]
  refine ⟨hindexed, fun call hcall => ?_, [], ?_, (List.append_nil _).symm, rfl⟩
  · obtain ⟨a, -, rfl⟩ := List.mem_map.mp hcall
    rw [hincr]
    exact .inr ⟨a.ttl, .reading casAttempts⟩
  · have hnone : successes (Race.start cfg tenant ns key before adders).calls = [] := by
      rw [successes, List.filterMap_eq_nil_iff]
      intro call hcall
      obtain ⟨a, -, rfl⟩ := List.mem_map.mp hcall
      rw [hincr]
      rfl
    rw [hnone]

end Steps

/-- In every run in which no `AtomicPut` of a sum beyond 64 bits succeeds, the callers' answers and
the counter are exact. -/
theorem exact_of_fits {cfg : Config String} {be : Backend String} {tenant ns key fk : String}
    (hkey : fullKey tenant ns key = .ok fk)
    (hsame : ∀ a b, be.same a b = true → a.value = b.value ∨ a.lastIndex = b.lastIndex)
    {before : Store String} (hindexed : Indexed fk before) (hlive : Unexpired fk before)
    {adders : List Adder} {c : Race}
    (hreach : Race.Reach (Fits be fk) be fk (Race.start cfg tenant ns key before adders) c) :
    Exact fk before c :=
  ((Race.Inv.start hkey hindexed adders).reach hsame hlive hreach).1.exact

section Scenes

instance (fk : String) (s : Store String) : Decidable (Unexpired fk s) :=
  decidable_of_iff ((s.data fk).all fun p => !p.value.expired s.clock)
    (by simp [Unexpired, Option.all_eq_true])

instance (be : Backend String) (fk : String) (s : Store String) (d : Int) (p : Run String) :
    Decidable (Fits be fk s d p) :=
  decidable_of_iff (lands be s p = true → (counter fk s).all fun n => InInt64 (n + d))
    (by simp [Fits, Option.all_eq_true])

/-- The calls in these places make their next operations, one after the other. -/
def Race.play (ok : Store String → Int → Run String → Prop) [∀ s d p, Decidable (ok s d p)]
    (be : Backend String) (fk : String) : Race → List Nat → Option Race
  | c, [] => some c
  | c, i :: turns =>
    match c.calls.drop i with
    | [] => none
    | (d, p) :: post =>
      if ok c.store d p ∧ Unexpired fk (p.step be c.store).1 then
        Race.play ok be fk
          ⟨(p.step be c.store).1, c.calls.take i ++ (d, (p.step be c.store).2) :: post⟩ turns
      else none

theorem Race.reach_play {ok : Store String → Int → Run String → Prop}
    [∀ s d p, Decidable (ok s d p)] {be : Backend String} {fk : String} {c c' : Race}
      {turns : List Nat} (h : Race.play ok be fk c turns = some c') : Race.Reach ok be fk c c' := by
  induction turns generalizing c with
  | nil =>
    cases h
    exact .refl
  | cons i turns ih =>
    rw [Race.play] at h
    split at h
    · cases h
    · next d p post hdrop =>
      split at h
      · next hok =>
        have hstep := @Race.Step.act ok be fk c.store d p (c.calls.take i) post hok.1
        rw [← hdrop, List.take_append_drop] at hstep
        exact .head ⟨hstep, hok.2⟩ (ih h)
      · cases h

def noPairs : Store String :=
  ⟨fun _ => none, 0, 0, []⟩

/-- Two callers add to a counter that is not there yet. -/
def addBoth (a b : Int) : Race :=
  Race.start unlimited "acme" "hits" "page" noPairs [⟨a, 0⟩, ⟨b, 0⟩]

def overlap : List Nat :=
  [0, 1, 0, 1, 1, 1, 1]

end Scenes

theorem exact_of_fits_overlap :
    ∃ c, Race.Reach (Fits boltdb "acme/hits/page") boltdb "acme/hits/page" (addBoth 1 2) c ∧
      successes c.calls = [(1, 1), (2, 3)] ∧ Exact "acme/hits/page" noPairs c := by
  have hplay :
    (Race.play (Fits boltdb "acme/hits/page") boltdb "acme/hits/page" (addBoth 1 2) overlap).map
      (fun c => successes c.calls) = some [(1, 1), (2, 3)] := by decide
  obtain ⟨c, hc, hsucc⟩ := Option.map_eq_some_iff.mp hplay
  have hreach := Race.reach_play hc
  refine ⟨c, hreach, hsucc, exact_of_fits (by decide) ?_ ?_ ?_ hreach⟩
  · intro a b h
    exact .inr (beq_iff_eq.mp h)
  · intro p hp
    cases hp
  · intro p hp
    cases hp

/-- The greatest number and one: the second caller's answer is the least number. -/
theorem not_exact_overflow :
    ∃ c, Race.Reach (fun _ _ _ => True) boltdb "acme/hits/page" (addBoth 9223372036854775807 1) c ∧
      ¬Exact "acme/hits/page" noPairs c := by
  have hplay : (Race.play (fun _ _ _ => True) boltdb "acme/hits/page"
      (addBoth 9223372036854775807 1) overlap).map
        (fun c => (successes c.calls, counter "acme/hits/page" c.store)) =
      some ([(9223372036854775807, 9223372036854775807), (1, -9223372036854775808)],
        some (-9223372036854775808)) := by decide
  obtain ⟨c, hc, hout⟩ := Option.map_eq_some_iff.mp hplay
  refine ⟨c, Race.reach_play hc, fun h => ?_⟩
  have htotal := h.2
  rw [(Prod.mk.inj hout).1, (Prod.mk.inj hout).2] at htotal
  exact absurd htotal (by decide)

end ThanksComputer.Kv
