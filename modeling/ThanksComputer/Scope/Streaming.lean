import ThanksComputer.Lib.Runs

/-! What a run whose frame may not stream sends on its response channel, scope by scope. -/

namespace ThanksComputer.Scope

open Lib.Runs

/-- The type of an `event.Payload`. -/
inductive PayloadType
  | json
  | errorStr
  | streamHead
  | streamChunk
  | streamEnd
  deriving DecidableEq

def PayloadType.isStream : PayloadType → Bool
  | .json | .errorStr => false
  | .streamHead | .streamChunk | .streamEnd => true

/-- The frames that may not stream.  None of them has a stream sink; `inlet` is the root frame of a
request that is not HTTP. -/
inductive FrameKind
  | call
  | resumed
  | detached
  | inlet
  deriving DecidableEq

/-- `_txc.web.res.body` of the merged envelope. -/
inductive Body
  | absent
  | undecodable
  | decoded
  deriving DecidableEq

/-- What follows a scope: a stop asked for, a jump or the next scope, or nothing.  `inside` tells
whether a call frame confines the target, `denied` whether the tenant crossed into refuses it. -/
inductive Control
  | halt
  | jump (inside denied : Bool)
  | last
  deriving DecidableEq

def Control.continues : Control → Bool
  | .jump _ _ => true
  | .halt | .last => false

def Control.leaves : Control → Bool
  | .jump inside _ => !inside
  | .halt | .last => false

/-- The fields of the merged envelope that `advanceAfterScope` sends by.  `late` tells whether `Run`
finds its context cancelled when it turns again after the final response. -/
structure ScopeOut where
  flagBreakpoint : Bool
  body : Body
  control : Control
  late : Bool
  deriving DecidableEq

/-- How `Run` leaves a scope.  `errored` returns without an answer, `opFailed` is the answer of a
failed continuable or deferred op. -/
inductive ScopeEnd
  | exhausted
  | failed
  | cancelled
  | suspended
  | opFailed
  | errored
  | ended (out : ScopeOut)
  deriving DecidableEq

/-- The frame, and whether the envelope says that its stream is open. -/
structure StreamState where
  kind : FrameKind
  streamOpen : Bool
  deriving DecidableEq

/-- A callee starts from a fresh envelope; the others from one that may have been streaming. -/
def StreamState.start (kind : FrameKind) (marked : Bool) : StreamState :=
  ⟨kind, marked && kind != .call⟩

section Sends

variable (st : StreamState)

def StreamState.chunk (body : Body) : List PayloadType :=
  if body = .decoded then [.streamChunk] else []

/-- The last switch of `advanceAfterScope`; a scope with nothing after it turns the loop of `Run`
once more. -/
def StreamState.finish (out : ScopeOut) : List PayloadType × Option StreamState :=
  match out.control with
  | .halt => ([.json], none)
  | .jump _ denied => if denied then ([.json], none) else ([], some st)
  | .last => (if out.late then [.json, .errorStr] else [.json], none)

/-- The sends of `advanceAfterScope`, and the state the run goes on in. -/
def StreamState.advance (out : ScopeOut) : List PayloadType × Option StreamState :=
  if st.kind = .call ∧ out.control.leaves = true then ([], none)
  else if st.kind = .call ∧ out.control.continues = true ∧ out.body ≠ .absent then ([], none)
  else if out.flagBreakpoint = true ∨ st.kind = .call then st.finish out
  else if out.control.continues = true then
    if out.body = .absent then st.finish out
    else
      let rest := StreamState.finish { st with streamOpen := true } out
      ((if st.streamOpen then [] else [.streamHead]) ++ chunk out.body ++ rest.1, rest.2)
  else if st.streamOpen then (chunk out.body ++ [.streamEnd], none)
  else st.finish out

/-- What a scope sends, and the state the run goes on in.  A suspension answers the client unless
there is none. -/
def StreamState.step : ScopeEnd → List PayloadType × Option StreamState
  | .exhausted => ([.json], none)
  | .failed => ([if st.streamOpen then .streamEnd else .errorStr], none)
  | .cancelled | .opFailed => ([.errorStr], none)
  | .suspended =>
    (if st.kind = .call ∨
      st.kind = .resumed then [] else [if st.streamOpen then .streamEnd else .json],
      none)
  | .errored => ([], none)
  | .ended out => st.advance out

end Sends

def StreamState.next (st : StreamState) (e : ScopeEnd) : Option StreamState :=
  (st.step e).2

def StreamState.sends : StreamState → List ScopeEnd → List PayloadType
  | _, [] => []
  | st, e :: es =>
    (st.step e).1 ++
      match (st.step e).2 with
      | none => []
      | some st' => st'.sends es

/-- No stream payload is sent, and a resumed run's capture channel of one slot takes every send. -/
def NeverStreams (st : StreamState) (es : List ScopeEnd) : Prop :=
  (∀ p ∈ st.sends es, p.isStream = false) ∧ (st.kind = .resumed → (st.sends es).length ≤ 1)

/-- In a call, or with the breakpoint flag set, anything; else the envelope does not say that the
stream is open, and a scope with another after it leaves no body to send.  A resumed run is not
cancelled after its final response. -/
def Buffered (st : StreamState) : ScopeEnd → Prop
  | .failed => st.streamOpen = false
  | .suspended => st.kind = .call ∨ st.kind = .resumed ∨ st.streamOpen = false
  | .ended out =>
    (st.kind = .call ∨ out.flagBreakpoint = true ∨
      if out.control.continues = true then
        out.body = .absent ∨ out.body = .undecodable ∧ st.streamOpen = true
      else st.streamOpen = false) ∧
      (st.kind = .resumed → out.control = .last → out.late = false)
  | _ => True

section

variable {st : StreamState}

theorem finish_next {out : ScopeOut} {st' : StreamState} (h : (st.finish out).2 = some st') :
    st' = st ∧ (st.finish out).1 = [] := by
  rw [StreamState.finish] at *
  cases hcontrol : out.control with
  | jump inside denied =>
    rw [hcontrol] at h
    cases denied with
    | true => cases h
    | false => exact ⟨(Option.some.inj h).symm, rfl⟩
  | halt | last =>
    rw [hcontrol] at h
    cases h

theorem finish_buffered (out : ScopeOut) : ∀ p ∈ (st.finish out).1, p.isStream = false := by
  rw [StreamState.finish]
  cases out.control with
  | jump inside denied => cases denied <;> simp [PayloadType.isStream]
  | halt => simp [PayloadType.isStream]
  | last => cases out.late <;> simp [PayloadType.isStream]

theorem finish_length_le {out : ScopeOut} :
    (st.finish out).1.length ≤ 1 ↔ (out.control = .last → out.late = false) := by
  rw [StreamState.finish]
  cases out.control with
  | jump inside denied => cases denied <;> simp
  | halt => simp
  | last => cases out.late <;> simp

/-- A scope of a frame that may not stream ends a call, is answered as it should be, flushes its
body all the same, or closes a stream. -/
theorem advance_cases (st : StreamState) (out : ScopeOut) :
    (st.kind = .call ∧ st.advance out = ([], none)) ∨
      ((st.kind = .call ∨ out.flagBreakpoint = true ∨
          if out.control.continues = true then out.body = .absent else st.streamOpen = false) ∧
        st.advance out = st.finish out) ∨
      (st.kind ≠ .call ∧ out.flagBreakpoint = false ∧ out.control.continues = true ∧
        out.body ≠ .absent ∧ st.advance out =
          ((if st.streamOpen then [] else [.streamHead]) ++ StreamState.chunk out.body ++
            (StreamState.finish { st with streamOpen := true } out).1,
            (StreamState.finish { st with streamOpen := true } out).2)) ∨
      (st.kind ≠ .call ∧ out.flagBreakpoint = false ∧ out.control.continues = false ∧
        st.streamOpen = true ∧
        st.advance out = (StreamState.chunk out.body ++ [.streamEnd], none)) := by
  rw [StreamState.advance]
  split
  · next h => exact .inl ⟨h.1, rfl⟩
  · split
    · next h => exact .inl ⟨h.1, rfl⟩
    · split
      · next h => exact .inr (.inl ⟨h.symm.imp_right .inl, rfl⟩)
      · next h =>
        rw [not_or, Bool.not_eq_true] at h
        split
        · next hcont =>
          split
          · next hbody => exact .inr (.inl ⟨.inr (.inr hbody), rfl⟩)
          · next hbody => exact .inr (.inr (.inl ⟨h.2, h.1, hcont, hbody, rfl⟩))
        · next hcont =>
          split
          · next hopen =>
            exact .inr (.inr (.inr ⟨h.2, h.1, Bool.not_eq_true _ ▸ hcont, hopen, rfl⟩))
          · next hopen =>
            exact .inr (.inl ⟨.inr (.inr (Bool.not_eq_true _ ▸ hopen)), rfl⟩)

theorem step_next {e : ScopeEnd} {st' : StreamState} (h : (st.step e).2 = some st') :
    st'.kind = st.kind ∧ ((∀ p ∈ (st.step e).1, p.isStream = false) → (st.step e).1 = []) := by
  cases e with
  | ended out =>
    rw [StreamState.step] at *
    rcases advance_cases st out with ⟨-, heq⟩ | ⟨-, heq⟩ | ⟨-, -, -, -, heq⟩ | ⟨-, -, -, -, heq⟩
    · rw [heq] at h
      cases h
    · rw [heq] at h ⊢
      obtain ⟨rfl, hsends⟩ := finish_next h
      exact ⟨rfl, fun _ => hsends⟩
    · rw [heq] at h ⊢
      obtain ⟨rfl, hsends⟩ := finish_next h
      refine ⟨rfl, fun hall => ?_⟩
      dsimp only at hall ⊢
      rw [hsends, List.append_nil] at hall ⊢
      refine List.eq_nil_iff_forall_not_mem.mpr fun p hp => ?_
      have hstream : p.isStream = true := by
        rcases List.mem_append.mp hp with hp | hp
        · split at hp
          · cases hp
          · rw [List.mem_singleton.mp hp]
            rfl
        · rw [StreamState.chunk] at hp
          split at hp
          · rw [List.mem_singleton.mp hp]
            rfl
          · cases hp
      exact absurd (hall p hp) (by simp [hstream])
    · rw [heq] at h
      cases h
  | exhausted | failed | cancelled | suspended | opFailed | errored => cases h

theorem buffered_iff_ended (st : StreamState) (out : ScopeOut) :
    Buffered st (.ended out) ↔ (∀ p ∈ (st.advance out).1, p.isStream = false) ∧
      (st.kind = .resumed → (st.advance out).1.length ≤ 1) := by
  rw [Buffered]
  rcases advance_cases st out with ⟨hcall, heq⟩ | ⟨hcond, heq⟩ | ⟨hcall, hflag, hcont, hbody, heq⟩ |
    ⟨hcall, hflag, hcont, hopen, heq⟩
  · simp [heq, hcall]
  · rw [heq]
    refine and_congr (iff_of_true ?_ (finish_buffered out)) (imp_congr_right fun _ =>
      finish_length_le.symm)
    refine hcond.imp_right (Or.imp_right fun h => ?_)
    split at h
    · next hcont => simpa [hcont] using Or.inl h
    · next hcont => simpa [hcont] using h
  · have hlast : out.control ≠ .last := by
      intro h
      rw [h] at hcont
      cases hcont
    have hlen : (StreamState.finish { st with streamOpen := true } out).1.length ≤ 1 :=
      finish_length_le.mpr fun h => absurd h hlast
    have hfin : ∀ p ∈ (StreamState.finish { st with streamOpen := true } out).1,
        p.isStream = false := finish_buffered out
    rw [heq]
    cases hopen : st.streamOpen with
    | false => simp [hcall, hflag, hcont, hbody, PayloadType.isStream]
    | true =>
      cases hb : out.body with
      | absent => exact absurd hb hbody
      | undecodable => simpa [hcont, hlast, StreamState.chunk] using ⟨hfin, fun _ => hlen⟩
      | decoded => simp [hcall, hflag, hcont, StreamState.chunk, PayloadType.isStream]
  · rw [heq]
    refine iff_of_false (by simp [hcall, hflag, hcont, hopen]) fun h => ?_
    exact absurd (h.1 .streamEnd (by simp)) (by decide)

theorem buffered_iff (st : StreamState) (e : ScopeEnd) :
    Buffered st e ↔ (∀ p ∈ (st.step e).1, p.isStream = false) ∧
      (st.kind = .resumed → (st.step e).1.length ≤ 1) := by
  cases e with
  | ended out => exact buffered_iff_ended st out
  | failed =>
    cases hopen : st.streamOpen <;> simp [Buffered, StreamState.step, hopen, PayloadType.isStream]
  | suspended =>
    cases hkind : st.kind <;> cases hopen : st.streamOpen <;>
      simp [Buffered, StreamState.step, hkind, hopen, PayloadType.isStream]
  | exhausted | cancelled | opFailed | errored =>
    simp [Buffered, StreamState.step, PayloadType.isStream]

theorem neverStreams_iff_along (st : StreamState) (es : List ScopeEnd) :
    NeverStreams st es ↔ Along StreamState.next Buffered st es := by
  induction es generalizing st with
  | nil => simp [NeverStreams, StreamState.sends, Along]
  | cons e es ih =>
    rw [Along, buffered_iff, NeverStreams, StreamState.sends]
    cases hnext : (st.step e).2 with
    | none => simp [StreamState.next, hnext]
    | some st' =>
      obtain ⟨hkind, hnil⟩ := step_next hnext
      have ih' := ih st'
      rw [NeverStreams, hkind] at ih'
      simp only [StreamState.next, hnext, Option.some.injEq, forall_eq', ← ih', List.mem_append,
        List.length_append]
      constructor
      · rintro ⟨hall, hlen⟩
        have hsends := hnil fun p hp => hall p (.inl hp)
        simp only [hsends, List.length_nil, Nat.zero_add] at hlen ⊢
        exact ⟨⟨by simp, fun _ => Nat.zero_le _⟩, fun p hp => hall p (.inr hp), hlen⟩
      · rintro ⟨⟨hall, -⟩, hall', hlen⟩
        have hsends := hnil hall
        simp only [hsends, List.length_nil, Nat.zero_add]
        exact ⟨fun p hp => hall' p (hp.resolve_left (by simp)), hlen⟩

theorem call_neverStreams (marked : Bool) (es : List ScopeEnd) :
    NeverStreams (.start .call marked) es := by
  rw [neverStreams_iff_along]
  refine Along.of_invariant (I := fun st => st.kind = .call ∧ st.streamOpen = false)
    (Q := fun _ _ => True) ?_ ?_ ⟨rfl, by simp [StreamState.start]⟩ ?_
  · rintro st e st' ⟨hcall, hopen⟩ - hnext
    refine ⟨(step_next hnext).1.trans hcall, ?_⟩
    cases e with
    | ended out =>
      rcases advance_cases st out with ⟨-, heq⟩ | ⟨-, heq⟩ | ⟨hne, -⟩ | ⟨hne, -⟩
      · rw [StreamState.next, StreamState.step, heq] at hnext
        cases hnext
      · rw [StreamState.next, StreamState.step, heq] at hnext
        exact (finish_next hnext).1 ▸ hopen
      · exact absurd hcall hne
      · exact absurd hcall hne
    | exhausted | failed | cancelled | suspended | opFailed | errored => cases hnext
  · rintro st e ⟨hcall, hopen⟩ -
    cases e <;> simp [Buffered, hcall, hopen]
  · exact Along.true _ _

end

/-- A call never streams; any other run of a frame that may not stream does so exactly when one of
its scopes is not buffered. -/
theorem neverStreams_iff_buffered (kind : FrameKind) (marked : Bool) (es : List ScopeEnd) :
    (kind = .call → NeverStreams (.start kind marked) es) ∧
      (NeverStreams (.start kind marked) es ↔
        Along StreamState.next Buffered (.start kind marked) es) :=
  ⟨fun h => h ▸ call_neverStreams marked es, neverStreams_iff_along _ es⟩

/-- A resumed run whose scope leaves a body before the last one sends three payloads on its one
slot, two of them of a stream. -/
theorem resumed_run_streams :
    ¬ NeverStreams (.start .resumed false)
      [.ended ⟨false, .decoded, .jump true false, false⟩,
        .ended ⟨false, .absent, .last, false⟩] := by
  rintro ⟨h, -⟩
  exact absurd (h .streamHead (by decide)) (by decide)

end ThanksComputer.Scope
