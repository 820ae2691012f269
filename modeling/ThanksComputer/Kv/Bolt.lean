import ThanksComputer.Kv.Counter
import ThanksComputer.Lib.Runs

/-! The bolt backend (`kv/boltstore/boltstore.go`) over restarts of the process.  The index that it
stamps a pair with counts the writes of the process, not those of the file. -/

namespace ThanksComputer.Kv.Bolt

open Lib.Runs

variable {V α : Type}

section Operations

/-- `AddUint64(&b.dbIndex, 1)`. -/
def draw (index : Nat) : Nat :=
  (index + 1) % UInt64.size

def put (s : Store V) (key : String) (w : Wrapper V) : Store V :=
  { s with
    data := Function.update s.data key (some ⟨.wrapped w, draw s.index⟩)
    index := draw s.index
    log := s.log ++ [.wrote key w] }

def putMulti (s : Store V) (kws : List (String × Wrapper V)) : Store V :=
  kws.foldl (fun s kw => put s kw.1 kw.2) s

/-- The next operation of a call. -/
def step (s : Store V) : Prog V α → Store V × Prog V α
  | .put key w next => (put s key w, next)
  | .putMulti kws next => (putMulti s kws, next)
  | .atomicPut key w prev next =>
    match s.refusal boltdb.same key prev with
    | some e => (s, next (some e))
    | none => (put s key w, next none)
  | p => p.step boltdb s

/-- A write of a key: the index its pair gets, or none where the pair goes. -/
abbrev Change := String × Option Nat

def putChanges (index : Nat) : List (String × Wrapper V) → List Change
  | [] => []
  | kw :: kws => (kw.1, some (draw index)) :: putChanges (draw index) kws

def changes (s : Store V) : Prog V α → List Change
  | .put key _ _ => [(key, some (draw s.index))]
  | .putMulti kws _ => putChanges s.index kws
  | .atomicPut key _ prev _ =>
    match s.refusal boltdb.same key prev with
    | some _ => []
    | none => [(key, some (draw s.index))]
  | .delete key _ | .collect key _ _ => [(key, none)]
  | .deleteMulti keys _ => keys.map fun key => (key, none)
  | .pure _ | .now _ | .get _ _ | .getMulti _ _ => []

end Operations

section Effects

/-- The key a log entry is about. -/
def Event.key : Event V → String
  | .wrote key _ | .deleted key | .collected key _ _ => key

def index? (p : Option (Pair V)) : Option Nat :=
  p.map Pair.lastIndex

/-- What writes do: the log has them, a key they name is as one of them left it, and no other has
moved. -/
structure Does (s s' : Store V) (cs : List Change) : Prop where
  log : ∃ es, s'.log = s.log ++ es ∧ es.map Event.key = cs.map Prod.fst
  data : ∀ key, (∃ c ∈ cs, c.1 = key ∧ index? (s'.data key) = c.2) ∨ key ∉ cs.map Prod.fst ∧
    s'.data key = s.data key

variable {s s' s'' : Store V} {cs cs' : List Change}

theorem Does.refl (s : Store V) : Does s s [] :=
  ⟨⟨[], (List.append_nil _).symm, rfl⟩, fun _ => .inr ⟨List.not_mem_nil, rfl⟩⟩

theorem Does.trans (h : Does s s' cs) (h' : Does s' s'' cs') : Does s s'' (cs ++ cs') := by
  obtain ⟨es, hes, hkeys⟩ := h.log
  obtain ⟨es', hes', hkeys'⟩ := h'.log
  refine ⟨⟨es ++ es', ?_, ?_⟩, fun key => ?_⟩
  · rw [hes', hes, List.append_assoc]
  · rw [List.map_append, hkeys, hkeys', List.map_append]
  · rcases h'.data key with ⟨c, hc, hkey, hidx⟩ | ⟨hnot, hsame⟩
    · exact .inl ⟨c, List.mem_append_right _ hc, hkey, hidx⟩
    rcases h.data key with ⟨c, hc, hkey, hidx⟩ | ⟨hnot', hsame'⟩
    · exact .inl ⟨c, List.mem_append_left _ hc, hkey, hsame ▸ hidx⟩
    · refine .inr ⟨?_, hsame.trans hsame'⟩
      rw [List.map_append, List.mem_append]
      exact fun hmem => hmem.elim hnot' hnot

theorem does_update (s : Store V) (p : Option (Pair V)) (index : Nat) (e : Event V) :
    Does s { s with
      data := Function.update s.data (Event.key e) p, index := index,
      log := s.log ++ [e] }
      [(Event.key e, index? p)] := by
  refine ⟨⟨[e], rfl, rfl⟩, fun key => ?_⟩
  by_cases hkey : key = Event.key e
  · subst hkey
    exact .inl ⟨_, List.mem_singleton_self _, rfl, by simp⟩
  · exact .inr ⟨by simpa using hkey, Function.update_of_ne hkey _ _⟩

theorem does_put (s : Store V) (key : String) (w : Wrapper V) :
    Does s (put s key w) [(key, some (draw s.index))] :=
  does_update s (some ⟨.wrapped w, draw s.index⟩) (draw s.index) (.wrote key w)

theorem does_delete (s : Store V) (key : String) : Does s (s.delete key) [(key, none)] :=
  does_update s none s.index (.deleted key)

theorem does_collect (s : Store V) (key : String) (seen : Pair V) :
    Does s (s.collect key seen) [(key, none)] :=
  does_update s none s.index (.collected key seen (s.data key))

theorem does_putMulti (s : Store V) (kws : List (String × Wrapper V)) :
    Does s (putMulti s kws) (putChanges s.index kws) := by
  induction kws generalizing s with
  | nil => exact .refl s
  | cons kw kws ih => exact (does_put s kw.1 kw.2).trans (ih (put s kw.1 kw.2))

theorem does_deleteMulti (s : Store V) (keys : List String) :
    Does s (s.deleteMulti keys) (keys.map fun key => (key, none)) := by
  induction keys generalizing s with
  | nil => exact .refl s
  | cons key keys ih => exact (does_delete s key).trans (ih (s.delete key))

theorem does_step (s : Store V) (p : Prog V α) : Does s (step s p).1 (changes s p) := by
  cases p with
  | pure | now | get | getMulti => exact .refl s
  | put key w next => exact does_put s key w
  | putMulti kws next => exact does_putMulti s kws
  | atomicPut key w prev next =>
    rw [step, changes]
    split
    · exact .refl s
    · exact does_put s key w
  | delete key next => exact does_delete s key
  | deleteMulti keys next => exact does_deleteMulti s keys
  | collect key seen next => exact does_collect s key seen

end Effects

section Processes

/-- What a call read of a key, and how long the log was. -/
structure Read (V : Type) where
  key : String
  pair : Option (Pair V)
  since : Nat

/-- A call under way, with its last read since it last wrote. -/
structure InFlight (V : Type) where
  prog : Run V
  read : Option (Read V)

def answer? : Prog V α → Option α
  | .pure a => some a
  | _ => none

def InFlight.reads (s : Store V) (c : InFlight V) : Option (Read V) :=
  match c.prog with
  | .get key _ => some ⟨key, s.data key, s.log.length⟩
  | p => if changes s p = [] then c.read else none

def InFlight.next (s : Store V) (c : InFlight V) : InFlight V :=
  ⟨(step s c.prog).2, c.reads s⟩

/-- The process that has the file open. -/
structure Process (V : Type) where
  store : Store V
  calls : List (InFlight V)

/-- A call that fails may have drawn indexes.  A restart ends the calls under way. -/
inductive Turn (V : Type)
  | call (c : Call V)
  | act (i : Nat)
  | fail (i drawn : Nat)
  | tick (ns : Nat)
  | restart

def Process.next (cfg : Config V) (w : Process V) : Turn V → Option (Process V)
  | .call c => some { w with calls := w.calls ++ [⟨code cfg boltdb c, none⟩] }
  | .act i => match w.calls[i]? with
    | some c => some ⟨(step w.store c.prog).1, w.calls.set i (c.next w.store)⟩
    | none => none
  | .fail i drawn => some
    ⟨{ w.store with index := (w.store.index + drawn) % UInt64.size }, w.calls.eraseIdx i⟩
  | .tick ns => some { w with store := { w.store with clock := w.store.clock + ns } }
  | .restart => some ⟨{ w.store with index := 0 }, []⟩

/-- A process on the file as it is. -/
def Process.opened (data : String → Option (Pair V)) (clock : Nat) : Process V :=
  ⟨⟨data, 0, clock, []⟩, []⟩

/-- The key still has the pair that was read, and nothing was written there since. -/
def Read.Current (r : Read V) (s : Store V) : Prop :=
  s.data r.key = r.pair ∧ ∀ e ∈ s.log.drop r.since, Event.key e ≠ r.key

/-- A call that reports success writes over exactly the pair that it read. -/
def ReplacesRead (w : Process V) : Turn V → Prop
  | .act i => ∀ c a, w.calls[i]? = some c → answer? c.prog = none →
      answer? (step w.store c.prog).2 = some a → succeeds a = true →
        ∃ r, c.read = some r ∧ r.Current w.store ∧
          ∃ x, (step w.store c.prog).1 = put w.store r.key x
  | _ => True

/-- No write gives a key the index, or the absence, that another call under way has read there. -/
def Untwinned (w : Process V) : Turn V → Prop
  | .act i => ∀ c, w.calls[i]? = some c → ∀ j d r, j ≠ i → w.calls[j]? = some d →
    answer? d.prog = none →
      d.read = some r → ∀ x ∈ changes w.store c.prog, x.1 = r.key → x.2 ≠ index? r.pair
  | _ => True

end Processes

section Code

/-- What was found at a key. -/
abbrev Found (V : Type) := String × Option (Pair V)

def Read.found (r : Read V) : Found V :=
  (r.key, r.pair)

/-- An `AtomicPut` is over what the call read last, and only one that goes through ends in
success. -/
def Heeds : Option (Found V) → Run V → Prop
  | _, .pure a => succeeds a = false
  | seen, .now next => ∀ t, Heeds seen (next t)
  | _, .get key next => ∀ p, Heeds (some (key, p)) (next p)
  | seen, .getMulti _ next => ∀ ps, Heeds seen (next ps)
  | seen, .atomicPut key _ prev next =>
    seen = some (key, prev) ∧ (∃ a, next none = .pure a) ∧ ∀ e, Heeds seen (next (some e))
  | _, .put _ _ next | _, .putMulti _ next | _, .delete _ next | _, .deleteMulti _ next
  | _, .collect _ _ next =>
    ∀ seen, Heeds seen next

variable {seen : Option (Found V)} (cfg : Config V)

theorem heeds_of_keeps {t : Nat} {p : Run V} (h : Keeps t seen p) : Heeds seen p := by
  induction p generalizing t seen with
  | pure a => exact h
  | now next ih => exact fun u => ih u (h u)
  | get key next ih => exact fun p => ih p (h p)
  | getMulti keys next ih => exact fun ps => ih ps (h ps)
  | put key w next ih => exact fun seen => ih (h.2 seen)
  | putMulti kws next ih => exact fun seen => ih (h.2 seen)
  | atomicPut key w prev next ih =>
    obtain ⟨-, hseen, ha, herror⟩ := h
    exact ⟨hseen, ha, fun e => ih _ (herror e)⟩
  | delete key next ih => exact fun seen => ih (h seen)
  | deleteMulti keys next ih => exact fun seen => ih (h seen)
  | collect key pair next ih => exact fun seen => ih (h.2 seen)

end Code

section Invariant

/-- A read that its key's index still vouches for is current. -/
def Read.Holds (r : Read V) (s : Store V) : Prop :=
  r.since ≤ s.log.length ∧ (index? (s.data r.key) = index? r.pair → r.Current s)

structure Sound (w : Process V) : Prop where
  heeds : ∀ c ∈ w.calls, answer? c.prog = none → Heeds (c.read.map Read.found) c.prog
  reads : ∀ c ∈ w.calls, answer? c.prog = none → ∀ r, c.read = some r → r.Holds w.store

variable {s s' : Store V} {r : Read V} {c : InFlight V} {w w' : Process V}

theorem Read.Holds.does (h : r.Holds s) {cs : List Change} (hdoes : Does s s' cs)
    (hcs : ∀ x ∈ cs, x.1 = r.key → x.2 ≠ index? r.pair) : r.Holds s' := by
  obtain ⟨es, hes, hkeys⟩ := hdoes.log
  refine ⟨by rw [hes, List.length_append]; exact Nat.le_add_right_of_le h.1, fun hidx => ?_⟩
  rcases hdoes.data r.key with ⟨x, hx, hkey, hleft⟩ | ⟨hnot, hsame⟩
  · exact absurd (hleft.symm.trans hidx) (hcs x hx hkey)
  · rw [hsame] at hidx
    obtain ⟨hdata, hlog⟩ := h.2 hidx
    refine ⟨hsame.trans hdata, fun e he hkey => ?_⟩
    rw [hes, List.drop_append_of_le_length h.1, List.mem_append] at he
    rcases he with he | he
    · exact hlog e he hkey
    · exact hnot (hkeys ▸ hkey ▸ List.mem_map_of_mem he)

theorem holds_read (s : Store V) (key : String) : Read.Holds ⟨key, s.data key, s.log.length⟩ s := by
  refine ⟨Nat.le_refl _, fun _ => ⟨rfl, fun e he => ?_⟩⟩
  rw [List.drop_length] at he
  cases he

theorem holds_next (h : ∀ r, c.read = some r → r.Holds s) (hr : c.reads s = some r) :
    r.Holds (step s c.prog).1 := by
  rw [InFlight.reads] at hr
  split at hr
  · next key next hprog =>
    cases hr
    rw [hprog]
    exact holds_read s key
  · split at hr
    · next hnone =>
      refine (h r hr).does (does_step s c.prog) fun x hx => ?_
      rw [hnone] at hx
      cases hx
    · cases hr

theorem succeeds_of_heeds {seen : Option (Found V)} {p : Run V} (h : Heeds seen p) {a : Answer V}
    (ha : answer? p = some a) : succeeds a = false := by
  cases p with
  | pure b =>
    cases ha
    exact h
  | now | get | getMulti | put | putMulti | atomicPut | delete | deleteMulti | collect => cases ha

theorem heeds_next (h : Heeds (c.read.map Read.found) c.prog)
    (hans : answer? (step s c.prog).2 = none) :
    Heeds ((c.reads s).map Read.found) (step s c.prog).2 := by
  obtain ⟨p, read⟩ := c
  cases p with
  | pure a => cases hans
  | now next => exact h s.clock
  | get key next => exact h (s.data key)
  | getMulti keys next => exact h (keys.map s.data)
  | put key x next => exact h _
  | putMulti kws next => exact h _
  | atomicPut key x prev next =>
    obtain ⟨hseen, ⟨a, ha⟩, herr⟩ := h
    cases href : s.refusal boltdb.same key prev with
    | some e =>
      have hstep : step s (.atomicPut key x prev next) = (s, next (some e)) := by rw [step, href]
      have hchanges : changes s (.atomicPut key x prev next) = [] := by rw [changes, href]
      rw [hstep, InFlight.reads]
      dsimp only
      rw [if_pos hchanges]
      exact herr e
    | none =>
      have hstep : step s (.atomicPut key x prev next) = (put s key x, next none) := by
        rw [step, href]
      rw [hstep, ha] at hans
      cases hans
  | delete key next => exact h _
  | deleteMulti keys next => exact h _
  | collect key seen next => exact h _

theorem index_of_refusal {key : String} {prev : Option (Pair V)}
    (h : s.refusal boltdb.same key prev = none) :
    index? (s.data key) = index? prev := by
  cases prev with
  | none =>
    rw [Store.refusal] at h
    split at h
    · cases h
    · next hnone => rw [Option.not_isSome_iff_eq_none.mp hnone]
  | some q =>
    rw [Store.refusal] at h
    split at h
    · cases h
    · next cur hcur =>
      split at h
      · next hsame =>
        rw [hcur]
        exact congrArg some (beq_iff_eq.mp hsame)
      · cases h

theorem replaces_of_heeds (h : Heeds (c.read.map Read.found) c.prog)
    (hreads : ∀ r, c.read = some r → r.Holds s) (hans : answer? c.prog = none) {a : Answer V}
    (ha : answer? (step s c.prog).2 = some a) (hsucc : succeeds a = true) :
    ∃ r, c.read = some r ∧ r.Current s ∧ ∃ x, (step s c.prog).1 = put s r.key x := by
  obtain ⟨p, read⟩ := c
  have habsurd : ∀ {seen : Option (Found V)} {q : Run V}, Heeds seen q → answer? q = some a →
    False := by
    intro seen q hq hqa
    rw [succeeds_of_heeds hq hqa] at hsucc
    cases hsucc
  cases p with
  | pure b => cases hans
  | now next => exact (habsurd (h s.clock) ha).elim
  | get key next => exact (habsurd (h (s.data key)) ha).elim
  | getMulti keys next => exact (habsurd (h (keys.map s.data)) ha).elim
  | put key x next => exact (habsurd (h none) ha).elim
  | putMulti kws next => exact (habsurd (h none) ha).elim
  | atomicPut key x prev next =>
    obtain ⟨hseen, -, herr⟩ := h
    obtain ⟨r, hr, hfound⟩ := Option.map_eq_some_iff.mp hseen
    obtain ⟨rfl, rfl⟩ := Prod.mk.inj hfound
    rw [step] at ha ⊢
    split at ha
    · next e he => exact (habsurd (herr e) ha).elim
    · next hnone => exact ⟨r, hr, (hreads r hr).2 (index_of_refusal hnone), x, rfl⟩
  | delete key next => exact (habsurd (h none) ha).elim
  | deleteMulti keys next => exact (habsurd (h none) ha).elim
  | collect key seen next => exact (habsurd (h none) ha).elim

theorem Sound.act (h : Sound w) {i : Nat} (hi : w.calls[i]? = some c)
    (hapart : Untwinned w (.act i)) :
    Sound ⟨(step w.store c.prog).1, w.calls.set i (c.next w.store)⟩ := by
  have hc := List.mem_of_getElem? hi
  have hans : answer? (step w.store c.prog).2 = none → answer? c.prog = none := by
    intro hnone
    cases hp : c.prog with
    | pure a =>
      rw [hp] at hnone
      cases hnone
    | now | get | getMulti | put | putMulti | atomicPut | delete | deleteMulti | collect => rfl
  constructor
  · intro d hd hnone
    rcases List.mem_or_eq_of_mem_set hd with hd | rfl
    · exact h.heeds d hd hnone
    · exact heeds_next (h.heeds c hc (hans hnone)) hnone
  · intro d hd hnone r hr
    obtain ⟨j, hj⟩ := List.getElem?_of_mem hd
    by_cases hij : i = j
    · subst hij
      rw [List.getElem?_set_self (List.getElem?_eq_some_iff.mp hi).1] at hj
      cases hj
      exact holds_next (h.reads c hc (hans hnone)) hr
    · rw [List.getElem?_set_ne hij] at hj
      refine (h.reads d (List.mem_of_getElem? hj) hnone r hr).does (does_step w.store c.prog) ?_
      exact hapart c hi j d r (Ne.symm hij) hj hnone hr

theorem Sound.next {cfg : Config V} (h : Sound w) {t : Turn V} (ht : Untwinned w t)
    (hnext : w.next cfg t = some w') : Sound w' := by
  cases t with
  | call k =>
    cases hnext
    constructor
    · intro c hc hans
      rcases List.mem_append.mp hc with hc | hc
      · exact h.heeds c hc hans
      · rw [List.mem_singleton.mp hc]
        exact heeds_of_keeps (keeps_code 0 k)
    · intro c hc hans r hr
      rcases List.mem_append.mp hc with hc | hc
      · exact h.reads c hc hans r hr
      · rw [List.mem_singleton.mp hc] at hr
        cases hr
  | act i =>
    rw [Process.next] at hnext
    split at hnext
    · next c hi =>
      cases hnext
      exact h.act hi ht
    · cases hnext
  | fail i drawn =>
    cases hnext
    exact ⟨fun c hc => h.heeds c (List.mem_of_mem_eraseIdx hc), fun c hc =>
      h.reads c (List.mem_of_mem_eraseIdx hc)⟩
  | tick ns =>
    cases hnext
    exact ⟨h.heeds, h.reads⟩
  | restart =>
    cases hnext
    exact ⟨List.forall_mem_nil _, List.forall_mem_nil _⟩

/-- Where no write repeats an index, or an absence, that a call still relies on, success means that
nothing came between the read and the write. -/
theorem replacesRead_along (cfg : Config V) (data : String → Option (Pair V)) (clock : Nat)
    (turns : List (Turn V)) (h : Along (Process.next cfg) Untwinned (.opened data clock) turns) :
    Along (Process.next cfg) ReplacesRead (.opened data clock) turns := by
  refine h.of_invariant (I := Sound) (fun w t w' hw ht hnext => hw.next ht hnext)
    (fun w t hw _ => ?_) ?_
  · cases t with
    | act i =>
      intro c a hi hans ha hsucc
      have hc := List.mem_of_getElem? hi
      exact replaces_of_heeds (hw.heeds c hc hans) (hw.reads c hc hans) hans ha hsucc
    | call | fail | tick | restart => trivial
  · exact ⟨List.forall_mem_nil _, List.forall_mem_nil _⟩

end Invariant

section Scenes

/-- No change of a call is one that another call under way could take for what it read. -/
def apart (w : Process V) : Turn V → Bool
  | .act i => w.calls[i]?.all fun c => w.calls.zipIdx.all fun dj =>
    dj.2 == i || (answer? dj.1.prog).isSome ||
      dj.1.read.all fun r => (changes w.store c.prog).all fun x =>
        x.1 != r.key || x.2 != index? r.pair
  | _ => true

theorem untwinned_of_apart {w : Process V} {t : Turn V} (h : apart w t = true) : Untwinned w t := by
  cases t with
  | act i =>
    intro c hi j d r hne hj hans hr x hx hkey hidx
    rw [apart, hi, Option.all_some] at h
    have hd := List.all_eq_true.mp h (d, j) (List.mem_zipIdx_iff_getElem?.mpr hj)
    rw [hans, hr, Option.all_some, beq_eq_false_iff_ne.mpr hne] at hd
    have hx := List.all_eq_true.mp hd x hx
    rw [hkey, hidx, bne_self_eq_false, bne_self_eq_false] at hx
    cases hx
  | call | fail | tick | restart => trivial

/-- A call reports success next, and its key was written since it read it. -/
def oblivious (w : Process V) (i : Nat) : Bool :=
  w.calls[i]?.any fun c =>
    (answer? c.prog).isNone && (answer? (step w.store c.prog).2).any succeeds &&
    c.read.all fun r => (w.store.log.drop r.since).any fun e => Event.key e == r.key

theorem not_replacesRead_of_oblivious {w : Process V} {i : Nat} (h : oblivious w i = true) :
    ¬ReplacesRead w (.act i) := by
  intro hreplaces
  obtain ⟨c, hi, hc⟩ := (Option.any_eq_true _ _).mp h
  rw [Bool.and_eq_true, Bool.and_eq_true, Option.isNone_iff_eq_none] at hc
  obtain ⟨a, ha, hsucc⟩ := (Option.any_eq_true _ _).mp hc.1.2
  obtain ⟨r, hr, hcurrent, -⟩ := hreplaces c a hi hc.1.1 ha hsucc
  rw [hr, Option.all_some] at hc
  obtain ⟨e, he, hkey⟩ := List.any_eq_true.mp hc.2
  exact hcurrent.2 e he (beq_iff_eq.mp hkey)

def restarted : List (Turn String) :=
  [.call (.set "acme" "hits" "page" "5" 0), .act 0, .restart]

/-- An `Incr` has read the counter of five when it is set again. -/
def overtaken : List (Turn String) :=
  restarted ++ [.call (.incr "acme" "hits" "page" 1 0), .act 0, .act 0,
    .call (.set "acme" "hits" "page" "100" 0), .act 1]

/-- Then it tries again. -/
def noticed : List (Turn String) :=
  restarted ++
    [.call (.set "acme" "hits" "other" "1" 0), .act 0, .call (.incr "acme" "hits" "page" 1 0),
      .act 1,
    .act 1, .call (.set "acme" "hits" "page" "100" 0), .act 2, .act 1, .act 1, .act 1, .act 1]

theorem replacesRead_noticed :
    Along (Process.next (counting unlimited)) Untwinned (.opened (fun _ => none) 0) noticed ∧
      Along (Process.next (counting unlimited)) ReplacesRead
        (.opened (fun _ => none) 0) noticed := by
  have happart : Along (Process.next (counting unlimited)) (fun w t => apart w t = true)
      (.opened (fun _ => none) 0) noticed := by decide
  have hapart := happart.of_invariant (I := fun _ => True) (fun _ _ _ _ _ _ => trivial)
    (fun _ _ _ h => untwinned_of_apart h) trivial
  exact ⟨hapart, replacesRead_along (counting unlimited) _ 0 noticed hapart⟩

/-- The first write of a process gets the index of the pair that the first write of the process
before left. -/
theorem not_replacesRead_restarted :
    ¬Along (Process.next (counting unlimited)) ReplacesRead (.opened (fun _ => none) 0)
      (overtaken ++ [.act 0]) := by
  intro h
  have hstale :
    (overtaken.foldlM (Process.next (counting unlimited)) (.opened (fun _ => none) 0)).any
      (oblivious · 0) = true := by decide
  obtain ⟨w, hw, hstale⟩ := (Option.any_eq_true _ _).mp hstale
  exact not_replacesRead_of_oblivious hstale (h.after hw)

end Scenes

end ThanksComputer.Kv.Bolt
