import Mathlib.Algebra.Ring.Int.Defs
import Mathlib.Logic.Function.Basic

/-! The replay memory (auth/nonces.go): seven buckets of the pairs seen, of which the oldest is
cleared each time the window moves on. -/

namespace ThanksComputer.Auth

/-- A `time.Duration`, in nanoseconds. -/
abbrev Duration : Type :=
  { d : Int // -2 ^ 63 ≤ d ∧ d < 2 ^ 63 }

def minute : Int := 60 * 1000000000

def nonceBuckets : Nat := 6

/-- A bucket is a set of keys, as a list. -/
structure NonceStore where
  bucketDur : Int
  buckets : Fin (nonceBuckets + 1) → List String
  head : Fin (nonceBuckets + 1)
  rotateAt : Int
  bucketDur_pos : 0 < bucketDur

/-- `none` where the rotation of `use` would not end, a bucket lasting no time. -/
def newNonceStore (ttl : Duration) (now : Int) : Option NonceStore :=
  let ttl := if ttl.val ≤ 0 then 10 * minute else ttl.val
  let bucketDur := ttl / nonceBuckets
  if h : 0 < bucketDur then some ⟨bucketDur, fun _ => [], 0, now + bucketDur, h⟩ else none

/-- One turn of the loop in `use`; the index of the head wraps. -/
def NonceStore.rotateOnce (s : NonceStore) : NonceStore :=
  { s with
    head := s.head + 1
    buckets := Function.update s.buckets (s.head + 1) []
    rotateAt := s.rotateAt + s.bucketDur }

def NonceStore.rotate (s : NonceStore) (now : Int) : NonceStore :=
  if now < s.rotateAt then s else s.rotateOnce.rotate now
termination_by (now - s.rotateAt + 1).toNat
decreasing_by
  have hpos := s.bucketDur_pos
  simp only [NonceStore.rotateOnce]
  omega

def nonceKey (keyID nonce : String) : String :=
  keyID ++ "\x00" ++ nonce

def NonceStore.seen (s : NonceStore) (key : String) : Bool :=
  decide (∃ i, key ∈ s.buckets i)

def NonceStore.insert (s : NonceStore) (key : String) : NonceStore :=
  { s with buckets := Function.update s.buckets s.head (key :: s.buckets s.head) }

/-- `false` is a replay. -/
def NonceStore.use (s : NonceStore) (now : Int) (keyID nonce : String) : Bool × NonceStore :=
  let key := nonceKey keyID nonce
  let s := s.rotate now
  if s.seen key then (false, s) else (true, s.insert key)

section Retention

variable {s : NonceStore} {key : String} {deadline now : Int}

/-- A key is in a bucket that is cleared at the given time or later.  The bucket `j` places ahead of
the next head is cleared by the rotation after the next `j`. -/
def NonceStore.Held (s : NonceStore) (key : String) (deadline : Int) : Prop :=
  ∃ j : Fin (nonceBuckets + 1), key ∈ s.buckets (s.head + 1 + j) ∧
    deadline ≤ s.rotateAt + j.val * s.bucketDur

theorem NonceStore.Held.seen (h : s.Held key deadline) : s.seen key = true := by
  obtain ⟨j, hmem, -⟩ := h
  exact decide_eq_true ⟨_, hmem⟩

theorem NonceStore.Held.rotateOnce (h : s.Held key deadline) (hnow : s.rotateAt < deadline) :
    s.rotateOnce.Held key deadline := by
  obtain ⟨j, hmem, hle⟩ := h
  have hj : j ≠ 0 := by
    rintro rfl
    simp only [Fin.val_zero, Int.natCast_zero, Int.zero_mul, Int.add_zero] at hle
    omega
  have hturn : ∀ head j : Fin (nonceBuckets + 1), head + 1 + 1 + (j - 1) = head + 1 + j := by decide
  have hkeep : ∀ head j : Fin (nonceBuckets + 1), j ≠ 0 → head + 1 + j ≠ head + 1 := by decide
  have hpred : ∀ j : Fin (nonceBuckets + 1), j ≠ 0 → (j - 1).val + 1 = j.val := by decide
  refine ⟨j - 1, ?_, ?_⟩
  · simp only [NonceStore.rotateOnce, hturn]
    rw [Function.update_of_ne (hkeep s.head j hj)]
    exact hmem
  · have hval : (j.val : Int) = (j - 1).val + 1 := by
      rw [← hpred j hj]
      rfl
    rw [hval, Int.add_mul, Int.one_mul] at hle
    simp only [NonceStore.rotateOnce]
    omega

theorem NonceStore.Held.rotate (h : s.Held key deadline) (hnow : now < deadline) :
    (s.rotate now).Held key deadline := by
  fun_induction NonceStore.rotate s now with
  | case1 s hlt => exact h
  | case2 s hlt ih =>
    apply ih
    apply h.rotateOnce
    omega

theorem NonceStore.Held.insert (h : s.Held key deadline) (key' : String) :
    (s.insert key').Held key deadline := by
  obtain ⟨j, hmem, hle⟩ := h
  refine ⟨j, ?_, hle⟩
  simp only [NonceStore.insert]
  by_cases hj : s.head + 1 + j = s.head
  · rw [hj, Function.update_self]
    exact List.mem_cons_of_mem _ (hj ▸ hmem)
  · rw [Function.update_of_ne hj]
    exact hmem

theorem NonceStore.Held.use (h : s.Held key deadline) (hnow : now < deadline)
    (keyID nonce : String) :
    (s.use now keyID nonce).2.Held key deadline ∧
      (nonceKey keyID nonce = key → (s.use now keyID nonce).1 = false) := by
  have hrotated := h.rotate hnow
  rw [NonceStore.use]
  split
  · exact ⟨hrotated, fun _ => rfl⟩
  · next hseen =>
    refine ⟨hrotated.insert _, fun hkey => ?_⟩
    rw [hkey] at hseen
    exact absurd hrotated.seen hseen

theorem NonceStore.lt_rotateAt_rotate (s : NonceStore) (now : Int) :
    now < (s.rotate now).rotateAt := by
  fun_induction NonceStore.rotate s now with
  | case1 s hlt => exact hlt
  | case2 s hlt ih => exact ih

theorem NonceStore.bucketDur_rotate (s : NonceStore) (now : Int) :
    (s.rotate now).bucketDur = s.bucketDur := by
  fun_induction NonceStore.rotate s now with
  | case1 s hlt => rfl
  | case2 s hlt ih => exact ih

theorem NonceStore.bucketDur_use (s : NonceStore) (now : Int) (keyID nonce : String) :
    (s.use now keyID nonce).2.bucketDur = s.bucketDur := by
  rw [NonceStore.use]
  split
  · exact s.bucketDur_rotate now
  · exact s.bucketDur_rotate now

theorem NonceStore.held_of_use {keyID nonce : String} (h : (s.use now keyID nonce).1 = true) :
    (s.use now keyID nonce).2.Held (nonceKey keyID nonce)
      (now + nonceBuckets * s.bucketDur + 1) := by
  rw [NonceStore.use] at h ⊢
  split at h
  · cases h
  · next hseen =>
    rw [if_neg hseen]
    have hlast : ∀ head : Fin (nonceBuckets + 1), head + 1 + Fin.last nonceBuckets = head := by
      decide
    refine ⟨Fin.last nonceBuckets, ?_, ?_⟩
    · simp only [NonceStore.insert, hlast, Function.update_self]
      exact List.mem_cons_self
    · have hlt := s.lt_rotateAt_rotate now
      simp only [NonceStore.insert, NonceStore.bucketDur_rotate, Fin.val_last]
      omega

end Retention

theorem bucketDur_newNonceStore {ttl : Duration} {start : Int} {s : NonceStore} (hpos : 0 < ttl.val)
    (hdvd : (nonceBuckets : Int) ∣ ttl.val) (h : newNonceStore ttl start = some s) :
    nonceBuckets * s.bucketDur = ttl.val := by
  unfold newNonceStore at h
  dsimp only at h
  rw [if_neg (Int.not_le.mpr hpos)] at h
  split at h
  · cases h
    exact Int.mul_ediv_cancel' hdvd
  · cases h

end ThanksComputer.Auth
