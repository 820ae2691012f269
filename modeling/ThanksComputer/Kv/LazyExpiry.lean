import ThanksComputer.Kv.Discipline

/-! A reader removes an expired pair by a delete of its own.  What is written stays readable as long
as that delete finds the pair its reader saw. -/

namespace ThanksComputer.Kv

open Lib (second)

variable {V α β : Type} {be : Backend V} {cfg : Config V} {s : Store V} {key : String}

section Spec

def Event.apply (key : String) (cur : Option (Wrapper V)) : Event V → Option (Wrapper V)
  | .wrote k w => if k = key then some w else cur
  | .deleted k => if k = key then none else cur
  | .collected _ _ _ => cur

/-- What the callers last made of a key; the removal of an expired pair is none of their doing. -/
def latest (key : String) (log : List (Event V)) : Option (Wrapper V) :=
  log.foldl (Event.apply key) none

@[simp] theorem latest_snoc (key : String) (log : List (Event V)) (e : Event V) :
    latest key (log ++ [e]) = Event.apply key (latest key log) e := by
  simp [latest]

/-- What `Get` would answer. -/
def readable (s : Store V) (key : String) : Option V :=
  match s.data key with
  | some ⟨.wrapped w, _⟩ => if w.expired s.clock then none else some w.v
  | _ => none

/-- A reader's delete found the pair its reader saw, or nothing. -/
def Event.undisturbed : Event V → Prop
  | .collected _ seen found => found = none ∨ found = some seen
  | _ => True

def Undisturbed (log : List (Event V)) : Prop :=
  ∀ e ∈ log, e.undisturbed

instance [DecidableEq V] : DecidablePred (Event.undisturbed (V := V))
  | .collected _ seen found => inferInstanceAs (Decidable (found = none ∨ found = some seen))
  | .wrote _ _ | .deleted _ => isTrue trivial

instance [DecidableEq V] (log : List (Event V)) : Decidable (Undisturbed log) :=
  inferInstanceAs (Decidable (∀ e ∈ log, e.undisturbed))

end Spec

section Time

/-- From `t` on the program deletes on its own only what has expired. -/
def Careful : Nat → Prog V α → Prop
  | _, .pure _ => True
  | t, .now next => ∀ t', t ≤ t' → Careful t' (next t')
  | t, .get _ next => ∀ p, Careful t (next p)
  | t, .getMulti _ next => ∀ ps, Careful t (next ps)
  | t, .put _ _ next | t, .putMulti _ next | t, .delete _ next | t, .deleteMulti _ next =>
    Careful t next
  | t, .atomicPut _ _ _ next => ∀ e, Careful t (next e)
  | t, .collect _ seen next => seen.value.expired t = true ∧ Careful t next

theorem Careful.mono {t t' : Nat} {p : Prog V α} (h : Careful t p) (ht : t ≤ t') :
    Careful t' p := by
  induction p generalizing t with
  | pure a => trivial
  | now next ih => exact fun u hu => h u (Nat.le_trans ht hu)
  | get key next ih => exact fun p => ih p (h p) ht
  | getMulti keys next ih => exact fun ps => ih ps (h ps) ht
  | put key w next ih => exact ih h ht
  | putMulti kws next ih => exact ih h ht
  | atomicPut key w prev next ih => exact fun e => ih e (h e) ht
  | delete key next ih => exact ih h ht
  | deleteMulti keys next ih => exact ih h ht
  | collect key seen next ih => exact ⟨seen.value.expired_mono h.1 ht, ih h.2 ht⟩

theorem Keeps.careful {t : Nat} {seen : Option (String × Option (Pair V))} {p : Run V}
    (h : Keeps t seen p) : Careful t p := by
  induction p generalizing t seen with
  | pure a => trivial
  | now next ih =>
    intro u hu
    have hnext := h u
    rw [Nat.max_eq_right hu] at hnext
    exact ih u hnext
  | get key next ih => exact fun p => ih p (h p)
  | getMulti keys next ih => exact fun ps => ih ps (h ps)
  | put key w next ih => exact ih (h.2 seen)
  | putMulti kws next ih => exact ih (h.2 seen)
  | atomicPut key w prev next ih =>
    obtain ⟨-, -, ⟨a, ha⟩, herror⟩ := h
    rintro (_ | e)
    · rw [ha]
      trivial
    · exact ih _ (herror e)
  | delete key next ih => exact ih (h seen)
  | deleteMulti keys next ih => exact ih (h seen)
  | collect key seen next ih => exact ⟨h.1, ih (h.2 none)⟩

end Time

section Steps

def Kept (s : Store V) : Prop :=
  ∀ key w, latest key s.log = some w → w.expired s.clock = false →
    ∃ i, s.data key = some ⟨.wrapped w, i⟩

theorem Kept.readable (h : Kept s) {w : Wrapper V} (hlast : latest key s.log = some w)
    (hlive : w.expired s.clock = false) : readable s key = some w.v := by
  obtain ⟨i, hi⟩ := h key w hlast hlive
  simp [Kv.readable, hi, hlive]

theorem Kept.put (h : Kept s) (k : String) (w : Wrapper V) : Kept (s.put k w) := by
  intro key w' hlast hlive
  simp only [Store.put, latest_snoc, Event.apply] at hlast hlive ⊢
  by_cases hk : k = key
  · subst hk
    simp only [if_true, Option.some.injEq] at hlast
    subst hlast
    exact ⟨s.index + 1, by simp⟩
  · simp only [hk, if_false] at hlast
    obtain ⟨i, hi⟩ := h key w' hlast hlive
    exact ⟨i, by simp [Ne.symm hk, hi]⟩

theorem Kept.putMulti (h : Kept s) (kws : List (String × Wrapper V)) : Kept (s.putMulti kws) := by
  induction kws generalizing s with
  | nil => exact h
  | cons kw kws ih => exact ih (h.put kw.1 kw.2)

theorem Kept.delete (h : Kept s) (k : String) : Kept (s.delete k) := by
  intro key w hlast hlive
  simp only [Store.delete, latest_snoc, Event.apply] at hlast hlive ⊢
  by_cases hk : k = key
  · simp [hk] at hlast
  · simp only [hk, if_false] at hlast
    obtain ⟨i, hi⟩ := h key w hlast hlive
    exact ⟨i, by simp [Ne.symm hk, hi]⟩

theorem Kept.deleteMulti (h : Kept s) (keys : List String) : Kept (s.deleteMulti keys) := by
  induction keys generalizing s with
  | nil => exact h
  | cons k keys ih => exact ih (h.delete k)

theorem Kept.remove (h : Kept s) {k : String} {log : List (Event V)}
    (hlog : ∀ key, latest key log = latest key s.log)
    (hk : ∀ p, s.data k = some p → p.value.expired s.clock = true) :
    Kept { s with data := Function.update s.data k none, log := log } := by
  intro key w hlast hlive
  rw [hlog] at hlast
  obtain ⟨i, hi⟩ := h key w hlast hlive
  by_cases heq : key = k
  · subst heq
    have hexp := hk _ hi
    simp only [Blob.expired] at hexp
    rw [hexp] at hlive
    cases hlive
  · exact ⟨i, by simp [heq, hi]⟩

theorem Kept.collect (h : Kept s) {k : String} {seen : Pair V}
    (hseen : seen.value.expired s.clock = true)
    (hfound : s.data k = none ∨ s.data k = some seen) : Kept (s.collect k seen) := by
  refine h.remove (by simp [Event.apply]) fun p hp => ?_
  rcases hfound with hnone | hsome
  · rw [hnone] at hp
    cases hp
  · rw [hsome] at hp
    cases hp
    exact hseen

theorem Kept.tick (h : Kept s) {clock : Nat} (hle : s.clock ≤ clock) :
    Kept { s with clock := clock } := by
  intro key w hlast hlive
  refine h key w hlast ?_
  cases hexp : w.expired s.clock with
  | false => rfl
  | true =>
    rw [w.expired_mono hexp hle] at hlive
    cases hlive

theorem log_put_prefix (s : Store V) (k : String) (w : Wrapper V) : s.log <+: (s.put k w).log :=
  List.prefix_append _ _

theorem log_foldl_prefix {γ : Type} (f : Store V → γ → Store V)
    (hf : ∀ s x, s.log <+: (f s x).log) (xs : List γ) (s : Store V) :
    s.log <+: (xs.foldl f s).log := by
  induction xs generalizing s with
  | nil => exact List.prefix_rfl
  | cons x xs ih => exact (hf s x).trans (ih (f s x))

theorem log_step (p : Prog V α) (s : Store V) : s.log <+: (p.step be s).1.log := by
  cases p with
  | put key w next => exact List.prefix_append _ _
  | putMulti kws next => exact log_foldl_prefix _ (fun s kw => log_put_prefix s kw.1 kw.2) kws s
  | atomicPut key w prev next =>
    rw [Prog.step]
    split
    · exact List.prefix_rfl
    · exact List.prefix_append _ _
  | delete key next => exact List.prefix_append _ _
  | deleteMulti keys next => exact log_foldl_prefix _ (fun s k => List.prefix_append _ _) keys s
  | collect key seen next => exact List.prefix_append _ _
  | pure | now | get | getMulti => exact List.prefix_rfl

theorem Undisturbed.before {log log' : List (Event V)} (h : Undisturbed log') (hle : log <+: log') :
    Undisturbed log :=
  fun e hmem => h e (hle.subset hmem)

theorem Kept.step (h : Kept s) {p : Prog V α} (hp : Careful s.clock p)
    (hlog : Undisturbed (p.step be s).1.log) : Kept (p.step be s).1 := by
  cases p with
  | pure | now | get | getMulti => exact h
  | put key w next => exact h.put key w
  | putMulti kws next => exact h.putMulti kws
  | atomicPut key w prev next =>
    rw [Prog.step]
    split
    · exact h
    · exact h.put key w
  | delete key next => exact h.delete key
  | deleteMulti keys next => exact h.deleteMulti keys
  | collect key seen next =>
    refine h.collect hp.1 (hlog (.collected key seen (s.data key)) ?_)
    exact List.mem_append_right _ List.mem_cons_self

theorem clock_foldl {γ : Type} (f : Store V → γ → Store V) (hf : ∀ s x, (f s x).clock = s.clock)
    (xs : List γ) (s : Store V) : (xs.foldl f s).clock = s.clock := by
  induction xs generalizing s with
  | nil => rfl
  | cons x xs ih => exact (ih (f s x)).trans (hf s x)

theorem clock_step (p : Prog V α) (s : Store V) : (p.step be s).1.clock = s.clock := by
  cases p with
  | putMulti kws next => exact clock_foldl (fun s kw => s.put kw.1 kw.2) (fun _ _ => rfl) kws s
  | deleteMulti keys next => exact clock_foldl Store.delete (fun _ _ => rfl) keys s
  | atomicPut key w prev next =>
    rw [Prog.step]
    split
    · rfl
    · rfl
  | pure | now | get | getMulti | put | delete | collect => rfl

theorem Careful.step {p : Prog V α} (h : Careful s.clock p) : Careful s.clock (p.step be s).2 := by
  cases p with
  | pure a => trivial
  | now next => exact h s.clock (Nat.le_refl _)
  | get key next => exact h _
  | getMulti keys next => exact h _
  | atomicPut key w prev next =>
    rw [Prog.step]
    split
    · exact h _
    · exact h _
  | put key w next => exact h
  | putMulti kws next => exact h
  | delete key next => exact h
  | deleteMulti keys next => exact h
  | collect key seen next => exact h.2

structure Inv (c : Pool V α) : Prop where
  kept : Undisturbed c.store.log → Kept c.store
  careful : ∀ p ∈ c.calls, Careful c.store.clock p

theorem Inv.step {c c' : Pool V α} (h : Inv c) (hstep : Step be c c') : Inv c' := by
  cases hstep with
  | act s p pre post =>
    have hp : Careful s.clock p := h.careful p (by simp)
    refine ⟨fun hlog => ?_, fun q hq => ?_⟩
    · exact (h.kept (hlog.before (log_step p s))).step hp hlog
    · rw [clock_step]
      rcases List.mem_append.mp hq with hq | hq
      · exact h.careful q (by simp [hq])
      · rcases List.mem_cons.mp hq with rfl | hq
        · exact hp.step
        · exact h.careful q (by simp [hq])
  | fail s p pre post =>
    refine ⟨h.kept, fun q hq => h.careful q ?_⟩
    rcases List.mem_append.mp hq with hq | hq
    · simp [hq]
    · simp [hq]
  | tick s calls clock hle =>
    exact ⟨fun hlog => (h.kept hlog).tick hle, fun q hq => (h.careful q hq).mono hle⟩
  | evict s calls key p hp hexp =>
    refine ⟨fun hlog => (h.kept hlog).remove (fun _ => rfl) fun q hq => ?_, h.careful⟩
    rw [hp] at hq
    cases hq
    exact hexp

theorem inv_reach {c c' : Pool V α} (h : Inv c) (hreach : Reach be c c') : Inv c' := by
  induction hreach with
  | refl => exact h
  | tail _ hstep ih => exact ih.step hstep

theorem inv_start (data : String → Option (Pair V)) (index clock : Nat) (calls : List (Call V)) :
    Inv (start cfg be data index clock calls) := by
  refine ⟨fun _ key w hlast => ?_, fun p hp => ?_⟩
  · cases hlast
  · obtain ⟨call, -, rfl⟩ := List.mem_map.mp hp
    exact (keeps_code clock call).careful

end Steps

/-- In every run in which each reader's delete finds the pair its reader saw, or nothing, what was
last written can be read until it expires. -/
theorem readable_of_undisturbed {data : String → Option (Pair V)} {index clock : Nat}
    {calls : List (Call V)} {c : Pool V (Answer V)}
    (hreach : Reach be (start cfg be data index clock calls) c) (hlog : Undisturbed c.store.log)
    {w : Wrapper V} (hlast : latest key c.store.log = some w)
    (hlive : w.expired c.store.clock = false) : readable c.store key = some w.v :=
  ((inv_reach (inv_start data index clock calls) hreach).kept hlog).readable hlast hlive

section Scenes

/-- The call in place `i` makes its next operation. -/
def act (be : Backend V) (c : Pool V α) (i : Nat) : Pool V α :=
  match c.calls.drop i with
  | [] => c
  | p :: post => ⟨(p.step be c.store).1, c.calls.take i ++ (p.step be c.store).2 :: post⟩

theorem reach_act (c : Pool V α) (i : Nat) : Reach be c (act be c i) := by
  rw [act]
  split
  · exact .refl
  · next p post hdrop =>
    have hcalls : c.calls = c.calls.take i ++ p :: post := by rw [← hdrop, List.take_append_drop]
    have hstep := @Step.act V α be c.store p (c.calls.take i) post
    rw [← hcalls] at hstep
    exact .single hstep

theorem reach_acts (c : Pool V α) (turns : List Nat) : Reach be c (turns.foldl (act be) c) := by
  induction turns generalizing c with
  | nil => exact .refl
  | cons i turns ih => exact (reach_act c i).trans (ih _)

def redis : Backend String :=
  ⟨fun cur prev => cur.value == prev.value, true, true⟩

def unlimited : Config String :=
  ⟨0, 0, fun _ => true, String.utf8ByteSize, fun a b => a == b, fun _ => none, fun _ => ""⟩

def stale (key : String) : Option (Pair String) :=
  if key = "acme/jobs/lock" then some ⟨.wrapped ⟨"1", 5⟩, 0⟩ else none

/-- One caller looks at the lock and another takes it. -/
def contest : Pool String (Answer String) :=
  start unlimited redis stale 0 (10 * second.toNat)
    [.get "acme" "jobs" "lock", .cas "acme" "jobs" "lock" none "2" 0]

end Scenes

theorem readable_after_collection :
    Reach redis contest ([0, 0, 0, 1, 1].foldl (act redis) contest) ∧
      readable ([0, 0, 0, 1, 1].foldl (act redis) contest).store "acme/jobs/lock" = some "2" :=
  ⟨reach_acts _ _, readable_of_undisturbed (w := ⟨"2", 0⟩) (reach_acts contest [0, 0, 0, 1, 1])
    (by decide) (by decide) (by decide)⟩

/-- The lock is taken between the read of its stale value and the reader's delete, and is lost. -/
theorem taken_lock_collected :
    ∃ c w, Reach redis contest c ∧ latest "acme/jobs/lock" c.store.log = some w ∧
      w.expired c.store.clock = false ∧ readable c.store "acme/jobs/lock" = none := by
  refine ⟨[0, 0, 1, 1, 1, 0].foldl (act redis) contest, ⟨"2", 0⟩, reach_acts _ _, ?_⟩
  decide

end ThanksComputer.Kv
