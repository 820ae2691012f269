import Mathlib.Algebra.Order.Group.Multiset
import ThanksComputer.Lib.Ownership
import ThanksComputer.Continuation.Runs

/-! Concurrent recordings of one op's terminal.  Every call leaves a remark in the history of what
it reported. -/

namespace ThanksComputer.Continuation

open Lib.CreateOnce Lib.Process Lib.Ownership

/-- Call number `i` and what it reported. -/
abbrev Report := Nat × Bool

def reported : Except RecordError Bool → Bool
  | .ok recorded => recorded
  | .error _ => false

/-- The `i`-th call. -/
def recorder (w : Writer) (p : Place) (task : Call × Nat) :
    Prog Doc Report (Call × Nat) Unit := do
  let r ← recordTerminal w p task.1
  Prog.say (task.2, reported r)

/-- The calls, all of them about to start. -/
def recorders (w : Writer) (p : Place) (s : Store Doc Report) (calls : List Call) :
    Pool Doc Report (Call × Nat) :=
  ⟨s, calls.zipIdx.map (start (recorder w p))⟩

/-- Nothing is filed under the op yet. -/
structure Unrecorded (s : Store Doc Report) (p : Place) : Prop where
  output : s.has (.output p) = false
  error : s.has (.error p) = false
  terminal : s.has (.terminal p) = false
  silent : ∀ e, .note e ∉ s.log

/-- At most one call reported success, and what is read back is what that call passed. -/
structure OneRecorded (calls : List Call) (p : Place) (s : Store Doc Report) : Prop where
  unique : ∀ i j, .note (i, true) ∈ s.log → .note (j, true) ∈ s.log → i = j
  readBack : ∀ i call, calls[i]? = some call → .note (i, true) ∈ s.log →
    readBack s p = some (call.status, call.info, call.payload)

/-- Calls that report the same outcome pass the same bytes. -/
def SamePayloads (calls : List Call) : Prop :=
  ∀ a ∈ calls, ∀ b ∈ calls, a.status = b.status → a.status = .completed ∨ a.status = .failed →
    a.payload = b.payload

namespace Recording

variable (calls : List Call) (w : Writer) (p : Place)

def winners (log : List (Entry Doc Report)) : Multiset Nat :=
  log.filterMap fun
    | .note (i, true) => some i
    | _ => none

@[simp] theorem winners_write (log : List (Entry Doc Report)) (k : Key) (d : Doc k) (fresh : Bool) :
    winners (log ++ [.write k d fresh]) = winners log := by
  simp [winners]

@[simp] theorem winners_false (log : List (Entry Doc Report)) (i : Nat) :
    winners (log ++ [.note (i, false)]) = winners log := by
  simp [winners]

@[simp] theorem winners_true (log : List (Entry Doc Report)) (i : Nat) :
    winners (log ++ [.note (i, true)]) = winners log + {i} := by
  simp [winners, ← Multiset.coe_add]

theorem mem_winners {log : List (Entry Doc Report)} {i : Nat} :
    i ∈ winners log ↔ .note (i, true) ∈ log := by
  rw [winners, Multiset.mem_coe, List.mem_filterMap]
  constructor
  · rintro ⟨e, he, hi⟩
    split at hi
    · cases hi
      exact he
    · cases hi
  · intro h
    exact ⟨_, h, rfl⟩

theorem readBack_grows {s s' : Store Doc Report} (hs : Grows s s') {p : Place}
    {x : Status × TerminalMeta × String} (h : readBack s p = some x) : readBack s' p = some x := by
  simp only [readBack, Option.bind_eq_bind, Option.bind_eq_some_iff] at h ⊢
  obtain ⟨term, hterm, payload, hpayload, hx⟩ := h
  refine ⟨term, hs.docs _ _ hterm, payload, ?_, hx⟩
  rw [OpTerminal.bytes] at hpayload ⊢
  split at hpayload
  · exact hs.docs _ _ hpayload
  · exact hs.docs _ _ hpayload
  · cases hpayload

@[simp] theorem readBack_note (s : Store Doc Report) (e : Report) (p : Place) :
    readBack (s.note e) p = readBack s p := rfl

/-- Bytes on file are some call's, and the winner is the call that is read back.  A call that has
won and not yet reported holds its number. -/
structure Inv (s : Store Doc Report) (r : Multiset Nat) : Prop where
  output : ∀ x, s.docs (.output p) = some x → ∃ c ∈ calls, c.status = .completed ∧ c.payload = x
  error : ∀ x, s.docs (.error p) = some x → ∃ c ∈ calls, c.status = .failed ∧ c.payload = x
  recorded : (s.has (.terminal p) = false ∧ r + winners s.log = 0) ∨
    ∃ i c, calls[i]? = some c ∧ r + winners s.log = {i} ∧ s.has (.terminal p) = true ∧
      readBack s p = some (c.status, c.info, c.payload)

def discipline : Discipline Doc Report (Call × Nat) (Multiset Nat) where
  inv := Inv calls p
  pre task _ r := calls[task.2]? = some task.1 ∧ r = 0
  pre_grows _ _ _ _ _ h := h

variable {calls p}

theorem Inv.create_output {s : Store Doc Report} {r : Multiset Nat} (h : Inv calls p s r) {c : Call}
    (hc : c ∈ calls) (hstatus : c.status = .completed) :
    Inv calls p (s.create (.output p) c.payload) r := by
  have hgrows := Grows.create s (.output p) c.payload
  constructor
  · intro x hx
    rw [Store.docs_create_self] at hx
    split at hx
    · exact h.output x hx
    · exact ⟨c, hc, hstatus, by simpa using hx⟩
  · simpa using h.error
  · simp only [Store.log_create, winners_write]
    rcases h.recorded with ⟨hno, hr⟩ | ⟨i, d, hd, hr, hyes, hread⟩
    · exact .inl ⟨by simpa using hno, hr⟩
    · exact .inr ⟨i, d, hd, hr, hgrows.has hyes, readBack_grows hgrows hread⟩

theorem Inv.create_error {s : Store Doc Report} {r : Multiset Nat} (h : Inv calls p s r) {c : Call}
    (hc : c ∈ calls) (hstatus : c.status = .failed) :
    Inv calls p (s.create (.error p) c.payload) r := by
  have hgrows := Grows.create s (.error p) c.payload
  constructor
  · simpa using h.output
  · intro x hx
    rw [Store.docs_create_self] at hx
    split at hx
    · exact h.error x hx
    · exact ⟨c, hc, hstatus, by simpa using hx⟩
  · simp only [Store.log_create, winners_write]
    rcases h.recorded with ⟨hno, hr⟩ | ⟨i, d, hd, hr, hyes, hread⟩
    · exact .inl ⟨by simpa using hno, hr⟩
    · exact .inr ⟨i, d, hd, hr, hgrows.has hyes, readBack_grows hgrows hread⟩

theorem Inv.create_late {s : Store Doc Report} {r : Multiset Nat} (h : Inv calls p s r)
    (hyes : s.has (.terminal p) = true) (t : OpTerminal) :
    Inv calls p (s.create (.terminal p) t) r := by
  have hgrows := Grows.create s (.terminal p) t
  refine ⟨by simpa using h.output, by simpa using h.error, ?_⟩
  simp only [Store.log_create, winners_write]
  rcases h.recorded with ⟨hno, -⟩ | ⟨i, d, hd, hr, -, hread⟩
  · simp [hyes] at hno
  · exact .inr ⟨i, d, hd, hr, hgrows.has hyes, readBack_grows hgrows hread⟩

theorem Inv.create_first {s : Store Doc Report} {f : Multiset Nat} (h : Inv calls p s (0 + f))
    (hno : s.has (.terminal p) = false) {i : Nat} {c : Call} (hc : calls[i]? = some c)
    (t : OpTerminal)
    (hread : readBack (s.create (.terminal p) t) p = some (c.status, c.info, c.payload)) :
    Inv calls p (s.create (.terminal p) t) ({i} + f) := by
  refine ⟨by simpa using h.output, by simpa using h.error, .inr ⟨i, c, hc, ?_, by simp, hread⟩⟩
  rw [Store.log_create, winners_write]
  rcases h.recorded with ⟨-, hr⟩ | ⟨j, d, -, -, hyes, -⟩
  · rw [add_assoc, ← zero_add f, hr, add_zero]
  · simp [hyes] at hno

theorem Inv.note_false {s : Store Doc Report} {r : Multiset Nat} (h : Inv calls p s r) (i : Nat) :
    Inv calls p (s.note (i, false)) r :=
  ⟨h.output, h.error, by simpa using h.recorded⟩

theorem Inv.note_true {s : Store Doc Report} {f : Multiset Nat} {i : Nat}
    (h : Inv calls p s ({i} + f)) : Inv calls p (s.note (i, true)) (0 + f) := by
  have hsum : 0 + f + (winners s.log + {i}) = {i} + f + winners s.log := by
    rw [zero_add, ← add_assoc, add_comm (f + winners s.log) {i}, add_assoc]
  refine ⟨h.output, h.error, ?_⟩
  simp only [Store.log_note, winners_true, hsum]
  exact h.recorded

theorem safe_terminal {s : Store Doc Report} {i : Nat} {c : Call} (hc : calls[i]? = some c)
    (t : OpTerminal)
    (hread : ∀ s' r, Grows s s' → Inv calls p s' r → s'.has (.terminal p) = false →
      readBack (s'.create (.terminal p) t) p = some (c.status, c.info, c.payload)) :
    Safe (discipline calls p)
      (do let b ← create (.terminal p) t; Prog.say (i, b)) Ended s 0 := by
  intro s' f hs hinv
  cases hhas : s'.has (.terminal p) with
  | true =>
    refine ⟨0, hinv.create_late hhas t, ?_⟩
    intro s'' f' _ hinv'
    exact ⟨0, hinv'.note_false i, rfl⟩
  | false =>
    refine ⟨{i}, hinv.create_first hhas hc t (hread s' _ hs hinv hhas), ?_⟩
    intro s'' f' _ hinv'
    exact ⟨0, hinv'.note_true, rfl⟩

theorem sound (hsame : SamePayloads calls) : Sound (discipline calls p) (recorder w p) := by
  rintro ⟨c, i⟩ s r ⟨hc, rfl⟩
  have hmem : c ∈ calls := List.mem_of_getElem? hc
  cases hstatus : c.status with
  | completed =>
    obtain ⟨status, info, payload, now⟩ := c
    cases hstatus
    intro s' f hs hinv
    refine ⟨0, hinv.create_output hmem rfl, ?_⟩
    refine safe_terminal hc _ ?_
    intro s'' r hs'' hinv'' hno
    obtain ⟨x, hx⟩ := Store.docs_of_has (hs''.has (Store.has_create_self s' (.output p) payload))
    obtain ⟨d, hd, hdstatus, rfl⟩ := hinv''.output x hx
    have hpayload := hsame d hd _ hmem hdstatus (.inl hdstatus)
    simp [readBack, OpTerminal.bytes, Store.docs_create_of_not_has hno, hx, hpayload,
      TerminalMeta.terminal]
  | failed =>
    obtain ⟨status, info, payload, now⟩ := c
    cases hstatus
    intro s' f hs hinv
    refine ⟨0, hinv.create_error hmem rfl, ?_⟩
    refine safe_terminal hc _ ?_
    intro s'' r hs'' hinv'' hno
    obtain ⟨x, hx⟩ := Store.docs_of_has (hs''.has (Store.has_create_self s' (.error p) payload))
    obtain ⟨d, hd, hdstatus, rfl⟩ := hinv''.error x hx
    have hpayload := hsame d hd _ hmem hdstatus (.inr hdstatus)
    simp [readBack, OpTerminal.bytes, Store.docs_create_of_not_has hno, hx, hpayload,
      TerminalMeta.terminal]
  | other text =>
    obtain ⟨status, info, payload, now⟩ := c
    cases hstatus
    intro s' f hs hinv
    exact ⟨0, hinv.note_false i, rfl⟩

theorem inv_start {s : Store Doc Report} (hs : Unrecorded s p) : Inv calls p s 0 := by
  have hsilent : winners s.log = 0 :=
    Multiset.eq_zero_of_forall_notMem fun i hi => hs.silent _ (mem_winners.mp hi)
  refine ⟨?_, ?_, .inl ⟨hs.terminal, by rw [hsilent, add_zero]⟩⟩
  · intro x hx
    simp [Store.docs_of_not_has hs.output] at hx
  · intro x hx
    simp [Store.docs_of_not_has hs.error] at hx

theorem Inv.oneRecorded {s : Store Doc Report} {r : Multiset Nat} (h : Inv calls p s r) :
    OneRecorded calls p s := by
  have hmem : ∀ i, .note (i, true) ∈ s.log → ∃ c, calls[i]? = some c ∧ r + winners s.log = {i} ∧
      readBack s p = some (c.status, c.info, c.payload) := by
    intro i hi
    have hwin : i ∈ r + winners s.log := Multiset.mem_add.mpr (.inr (mem_winners.mpr hi))
    rcases h.recorded with ⟨-, hr⟩ | ⟨j, c, hc, hr, -, hread⟩
    · simp [hr] at hwin
    · rw [hr, Multiset.mem_singleton] at hwin
      subst hwin
      exact ⟨c, hc, hr, hread⟩
  constructor
  · intro i j hi hj
    obtain ⟨-, -, hri, -⟩ := hmem i hi
    obtain ⟨-, -, hrj, -⟩ := hmem j hj
    exact Multiset.singleton_inj.mp (hri.symm.trans hrj)
  · intro i call hcall hi
    obtain ⟨c, hc, -, hread⟩ := hmem i hi
    rw [hcall] at hc
    cases hc
    exact hread

theorem oneRecorded_of_samePayloads (hsame : SamePayloads calls) {s : Store Doc Report}
    (hs : Unrecorded s p) {c : Pool Doc Report (Call × Nat)}
    (hreach : Reach (recorder w p) (recorders w p s calls) c) : OneRecorded calls p c.store := by
  let ts : List ((Call × Nat) × Multiset Nat) := calls.zipIdx.map fun t => (t, 0)
  have hsound := sound (p := p) w hsame
  have hsum : (ts.map Prod.snd).sum = 0 := by simp [ts, Function.comp_def]
  have hpre : ∀ t ∈ ts, (discipline calls p).pre t.1 s t.2 := by
    intro t ht
    obtain ⟨⟨call, i⟩, hmem, rfl⟩ := List.mem_map.mp ht
    exact ⟨List.mk_mem_zipIdx_iff_getElem?.mp hmem, rfl⟩
  have hheld := held_start hsound ts (by rw [hsum]; exact inv_start hs) hpre
  rw [List.map_map] at hheld
  obtain ⟨r, hinv⟩ := inv_of_reach hsound ⟨_, hheld⟩ hreach
  exact hinv.oneRecorded

theorem reach_mixed {code : Call × Nat → Prog Doc Report (Call × Nat) Unit} {s : Store Doc Report}
    {procs : List (Proc Doc Report (Call × Nat))} {i j n : Nat} {ti tj : Call × Nat} {k : Key}
    {d d' : Doc k} {t : OpTerminal} {next : Bool → Prog Doc Report (Call × Nat) Unit} (hij : i ≠ j)
    (hk : k ≠ .terminal p) (hno : s.has (.terminal p) = false)
    (hi : procs[i]? = some ⟨ti, .create k d next⟩)
    (hj : procs[j]? = some ⟨tj, .create k d' fun _ => .create (.terminal p) t fun b =>
      .note (n, b) (.pure ())⟩) :
    ∃ c, Reach code ⟨s, procs⟩ c ∧
      c.store = (((s.create k d).create k d').create (.terminal p) t).note (n, true) := by
  have hlt : j < procs.length := (List.getElem?_eq_some_iff.mp hj).1
  have hfresh : (!((s.create k d).create k d').has (.terminal p)) = true := by
    rw [Store.has_create_of_ne _ _ hk.symm, Store.has_create_of_ne _ _ hk.symm, hno]
    rfl
  let filing : Bool → Prog Doc Report (Call × Nat) Unit := fun b => .note (n, b) (.pure ())
  let procs₁ := procs.set i ⟨ti, next (!s.has k)⟩
  let procs₂ := procs₁.set j ⟨tj, .create (.terminal p) t filing⟩
  let procs₃ := procs₂.set j ⟨tj, filing true⟩
  have hj₁ : procs₁[j]? = procs[j]? := List.getElem?_set_ne hij
  have hj₂ : procs₂[j]? = some ⟨tj, .create (.terminal p) t filing⟩ :=
    List.getElem?_set_self (by simpa [procs₁] using hlt)
  have hj₃ : procs₃[j]? = some ⟨tj, filing true⟩ :=
    List.getElem?_set_self (by simpa [procs₂, procs₁] using hlt)
  have h₁ : Step code ⟨s, procs⟩ ⟨s.create k d, procs₁⟩ := step_set hi (.create s ti k d next)
  have h₂ : Step code ⟨s.create k d, procs₁⟩ ⟨(s.create k d).create k d', procs₂⟩ :=
    step_set (hj₁.trans hj) (.create _ tj k d' _)
  have h₃ := @Act.create _ _ _ _ _ code ((s.create k d).create k d') tj (.terminal p) t filing
  rw [hfresh] at h₃
  have h₄ := @Act.note _ _ _ _ _ code (((s.create k d).create k d').create (.terminal p) t) tj
    (n, true) (.pure ())
  exact ⟨_, .tail (.tail (.tail (.single h₁) h₂) (step_set hj₂ h₃)) (step_set hj₃ h₄), rfl⟩

theorem exists_mixed {s : Store Doc Report} (hs : Unrecorded s p) {i j : Nat} {a b : Call}
    (ha : calls[i]? = some a) (hb : calls[j]? = some b) (hstatus : a.status = b.status)
    (hvalid : a.status = .completed ∨ a.status = .failed) (hne : a.payload ≠ b.payload) :
    ∃ c, Reach (recorder w p) (recorders w p s calls) c ∧ .note (j, true) ∈ c.store.log ∧
      readBack c.store p = some (b.status, b.info, a.payload) := by
  have hij : i ≠ j := by
    rintro rfl
    rw [ha] at hb
    cases hb
    exact hne rfl
  have hproc : ∀ {i call}, calls[i]? = some call →
      (calls.zipIdx.map (start (recorder w p)))[i]? = some (start (recorder w p) (call, i)) := by
    intro i call hcall
    simp [hcall]
  obtain ⟨status, info, payload, now⟩ := b
  obtain ⟨status', info', payload', now'⟩ := a
  cases hstatus
  rcases hvalid with hvalid | hvalid
  · cases hvalid
    obtain ⟨c, hreach, hstore⟩ := reach_mixed hij (by simp) hs.terminal (hproc ha) (hproc hb)
    refine ⟨c, hreach, by simp [hstore], ?_⟩
    simp [hstore, readBack, OpTerminal.bytes, Store.docs_create_of_not_has, hs.terminal,
      Store.docs_create_self, hs.output, TerminalMeta.terminal]
  · cases hvalid
    obtain ⟨c, hreach, hstore⟩ := reach_mixed hij (by simp) hs.terminal (hproc ha) (hproc hb)
    refine ⟨c, hreach, by simp [hstore], ?_⟩
    simp [hstore, readBack, OpTerminal.bytes, Store.docs_create_of_not_has, hs.terminal,
      Store.docs_create_self, hs.error, TerminalMeta.terminal]

end Recording

/-- The calls are atomic as a group exactly when those of one outcome agree on the bytes. -/
theorem oneRecorded_iff (w : Writer) (p : Place) (s : Store Doc Report) (calls : List Call)
    (hs : Unrecorded s p) :
    (∀ c, Reach (recorder w p) (recorders w p s calls) c → OneRecorded calls p c.store) ↔
      SamePayloads calls := by
  constructor
  · intro h a ha b hb hstatus hvalid
    by_contra hne
    obtain ⟨i, hi⟩ := List.mem_iff_getElem?.mp ha
    obtain ⟨j, hj⟩ := List.mem_iff_getElem?.mp hb
    obtain ⟨c, hreach, hnote, hread⟩ := Recording.exists_mixed w hs hi hj hstatus hvalid hne
    have hback := (h c hreach).readBack j b hj hnote
    rw [hread] at hback
    simp only [Option.some.injEq, Prod.mk.injEq, true_and] at hback
    exact hne hback
  · intro hsame c hreach
    exact Recording.oneRecorded_of_samePayloads w hsame hs hreach

theorem unrecorded_empty (p : Place) : Unrecorded Store.empty p :=
  ⟨rfl, rfl, rfl, by simp [Store.empty]⟩

/-- A worker that posts the same answer twice, and once that it failed. -/
theorem oneRecorded_retries :
    Unrecorded Store.empty (.deferred "opc") ∧
      ∀ c, Reach (recorder .callback (.deferred "opc"))
          (recorders .callback (.deferred "opc") Store.empty
            [⟨.completed, {}, "a", 0⟩, ⟨.completed, {}, "a", 1⟩, ⟨.failed, {}, "b", 2⟩]) c →
        OneRecorded [⟨.completed, {}, "a", 0⟩, ⟨.completed, {}, "a", 1⟩, ⟨.failed, {}, "b", 2⟩]
          (.deferred "opc") c.store :=
  ⟨unrecorded_empty _, (oneRecorded_iff .callback _ _ _ (unrecorded_empty _)).mpr
    (by simp [SamePayloads])⟩

/-- A worker posts `a` and then `b`: the second post is recorded and `a` is read back. -/
theorem second_post_recorded_first_read :
    ∃ c, Reach (recorder .callback (.op ⟨"web", 100⟩ ⟨0, "ask"⟩))
        (recorders .callback (.op ⟨"web", 100⟩ ⟨0, "ask"⟩) Store.empty
          [⟨.completed, {}, "a", 0⟩, ⟨.completed, {}, "b", 1⟩]) c ∧
      .note (1, true) ∈ c.store.log ∧
      readBack c.store (.op ⟨"web", 100⟩ ⟨0, "ask"⟩) = some (.completed, {}, "a") ∧
      ¬OneRecorded [⟨.completed, {}, "a", 0⟩, ⟨.completed, {}, "b", 1⟩]
        (.op ⟨"web", 100⟩ ⟨0, "ask"⟩) c.store := by
  obtain ⟨c, hreach, hnote, hread⟩ := Recording.exists_mixed .callback
    (unrecorded_empty (.op ⟨"web", 100⟩ ⟨0, "ask"⟩))
    (show ([⟨.completed, {}, "a", 0⟩, ⟨.completed, {}, "b", 1⟩] : List Call)[0]? = _ from rfl)
    (show _[1]? = _ from rfl) rfl (.inl rfl) (by decide)
  refine ⟨c, hreach, hnote, hread, fun hone => ?_⟩
  have hback := hone.readBack 1 _ rfl hnote
  rw [hread] at hback
  simp at hback

end ThanksComputer.Continuation
