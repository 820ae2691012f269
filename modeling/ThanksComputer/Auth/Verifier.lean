import Mathlib.Data.List.Basic
import ThanksComputer.Auth.Nonces
import ThanksComputer.Lib.Runs

/-! Signed requests (auth/signature/verifier.go): a request is fresh by its `created` time and its
nonce is used once, before its signature is looked at. -/

universe u v

namespace ThanksComputer.Auth

open Lib.Runs

/-- What the signature input of a request says. -/
structure Details where
  keyID : Option String
  created : Option Int
  nonce : Option String

inductive Cause
  | text (message : String)
  | err (message : String)
  /-- The text shows the created time and how far away it is. -/
  | away (created age : Int)
  deriving DecidableEq

/-- `AuthError`, or what the resolver of keys answers. -/
inductive VerifyError
  | auth (code : String) (cause : Cause)
  | resolve (message : String)
  deriving DecidableEq

def errMissingSignatureHeaders : String := "missing_signature_headers"
def errTimestampOutOfRange : String := "timestamp_out_of_range"
def errNonceReplay : String := "nonce_replay"
def errInvalidSignature : String := "invalid_signature"
def errInvalidContentDigest : String := "invalid_content_digest"

/-- The signature library, which reads the clock itself where it checks the signature. -/
structure Httpsign (Request : Type u) (Key : Type v) where
  requestDetails : Request → Except String (Option Details)
  newEd25519Verifier : Key → String → Except String Unit
  verifyRequest : Int → Key → String → Request → Except String Unit
  contentDigest : Request → List String
  validateContentDigestHeader : Request → Except String Unit

/-- `nonceCheck` is whether the store of nonces is asked. -/
structure VerifyOptions where
  notOlderThan : Duration
  nonceCheck : Bool
  skipBodyDigest : Bool

structure VerifiedSignature where
  keyID : String
  algorithm : String
  created : Option Int
  nonce : Option String
  deriving DecidableEq

/-- `time.Since`, which stops at the ends of a duration. -/
def since (now created : Int) : Int :=
  max (-2 ^ 63) (min (2 ^ 63 - 1) (now - created))

def checkCreated (opts : VerifyOptions) (now : Int) (details : Details) : Except VerifyError Unit :=
  if 0 < opts.notOlderThan.val then
    match details.created with
    | none => .error (.auth errTimestampOutOfRange (.text "missing created parameter"))
    | some created =>
      let age := since now created
      if opts.notOlderThan.val < age ∨ age < -opts.notOlderThan.val then
        .error (.auth errTimestampOutOfRange (.away created age))
      else .ok ()
  else .ok ()

def checkNonce (opts : VerifyOptions) (s : NonceStore) (now : Int) (keyID : String)
    (details : Details) : Except VerifyError Unit × NonceStore :=
  if opts.nonceCheck then
    match details.nonce with
    | none | some "" => (.error (.auth errMissingSignatureHeaders (.text "missing nonce")), s)
    | some nonce =>
      match s.use now keyID nonce with
      | (true, s) => (.ok (), s)
      | (false, s) => (.error (.auth errNonceReplay (.err "nonce_replay")), s)
  else (.ok (), s)

section Verify

variable {Request : Type u} {Key : Type v} (lib : Httpsign Request Key)

/-- The steps of `Verify` behind the check of the nonce. -/
def verifySigned (opts : VerifyOptions) (resolve : String → Except String Key) (now : Int)
    (req : Request) (keyID : String) (details : Details) : Except VerifyError VerifiedSignature :=
  match resolve keyID with
  | .error e => .error (.resolve e)
  | .ok pubKey =>
    match lib.newEd25519Verifier pubKey keyID with
    | .error e => .error (.auth errInvalidSignature (.err e))
    | .ok () =>
      match lib.verifyRequest now pubKey keyID req with
      | .error e => .error (.auth errInvalidSignature (.err e))
      | .ok () =>
        match if (lib.contentDigest req).isEmpty || opts.skipBodyDigest then .ok ()
          else lib.validateContentDigestHeader req with
        | .error e => .error (.auth errInvalidContentDigest (.err e))
        | .ok () => .ok ⟨keyID, "ed25519", details.created, details.nonce⟩

def verify (opts : VerifyOptions) (resolve : String → Except String Key) (s : NonceStore)
    (now : Int) (req : Request) : Except VerifyError VerifiedSignature × NonceStore :=
  match lib.requestDetails req with
  | .error e => (.error (.auth errMissingSignatureHeaders (.err e)), s)
  | .ok none =>
    (.error (.auth errMissingSignatureHeaders (.text "no keyid in signature input")), s)
  | .ok (some details) =>
    match details.keyID with
    | none | some "" =>
      (.error (.auth errMissingSignatureHeaders (.text "no keyid in signature input")), s)
    | some keyID =>
      match checkCreated opts now details with
      | .error e => (.error e, s)
      | .ok () =>
        match checkNonce opts s now keyID details with
        | (.error e, s) => (.error e, s)
        | (.ok (), s) => (verifySigned lib opts resolve now req keyID details, s)

/-- A request at the server: when it comes, which keys resolve then, and whether its route
streams. -/
structure Call (Request : Type u) (Key : Type v) where
  now : Int
  req : Request
  resolve : String → Except String Key
  streamingBody : Bool

def Call.options (skew : Duration) (c : Call Request Key) : VerifyOptions :=
  ⟨skew, true, c.streamingBody⟩

def Call.verify (skew : Duration) (s : NonceStore) (c : Call Request Key) :
    Except VerifyError VerifiedSignature × NonceStore :=
  Auth.verify lib (c.options skew) c.resolve s c.now c.req

/-- The calls in turn, over one store. -/
def verifyAll (skew : Duration) : NonceStore → List (Call Request Key) →
    List (Except VerifyError VerifiedSignature)
  | _, [] => []
  | s, c :: cs => (c.verify lib skew s).1 :: verifyAll skew (c.verify lib skew s).2 cs

/-- The request names this key, nonce and created time. -/
def Carries (req : Request) (keyID nonce : String) (created : Int) : Prop :=
  lib.requestDetails req = .ok (some ⟨some keyID, some created, some nonce⟩)

end Verify

section Replay

variable {Request : Type u} {Key : Type v} {lib : Httpsign Request Key} {skew : Duration}
  {s : NonceStore} {c : Call Request Key} {keyID nonce : String} {created deadline : Int}

theorem checkCreated_ok {opts : VerifyOptions} {now : Int} {details : Details}
    (hpos : 0 < opts.notOlderThan.val) (hhalf : 2 * opts.notOlderThan.val < 2 ^ 63)
    (h : checkCreated opts now details = .ok ()) (hcreated : details.created = some created) :
    created - opts.notOlderThan.val ≤ now ∧ now ≤ created + opts.notOlderThan.val := by
  unfold checkCreated at h
  rw [if_pos hpos, hcreated] at h
  dsimp only at h
  split at h
  · cases h
  · next hage =>
    -- A window below the largest duration does not reach the ends where `since` stops.
    rw [since] at hage
    omega

theorem checkNonce_ok {opts : VerifyOptions} {now : Int} {details : Details}
    (hcheck : opts.nonceCheck = true) (hnonce : details.nonce = some nonce)
    (h : (checkNonce opts s now keyID details).1 = .ok ()) :
    (s.use now keyID nonce).1 = true ∧
      (checkNonce opts s now keyID details).2 = (s.use now keyID nonce).2 := by
  unfold checkNonce at h ⊢
  rw [if_pos hcheck, hnonce] at h ⊢
  split at h
  · next hnone => cases hnone
  · next hempty => cases h
  · next hsome =>
    cases hsome
    split at h
    · next huse => rw [huse]; exact ⟨rfl, rfl⟩
    · cases h

theorem accepted_spec (hpos : 0 < skew.val) (hhalf : 2 * skew.val < 2 ^ 63)
    (hreq : Carries lib c.req keyID nonce created) {out : VerifiedSignature}
    (h : (c.verify lib skew s).1 = .ok out) :
    created - skew.val ≤ c.now ∧ c.now ≤ created + skew.val ∧
      (s.use c.now keyID nonce).1 = true ∧ (c.verify lib skew s).2 =
        (s.use c.now keyID nonce).2 := by
  unfold Call.verify verify at h ⊢
  rw [hreq] at h ⊢
  dsimp only at h ⊢
  split at h
  · cases h
  · cases h
  · next hkey hid =>
    cases hid
    split at h
    · cases h
    · next hcreated =>
      split at h
      · cases h
      · next s' hchecked =>
        obtain ⟨hlow, hhigh⟩ := checkCreated_ok hpos hhalf hcreated rfl
        obtain ⟨huse, hstore⟩ := checkNonce_ok rfl rfl (congrArg Prod.fst hchecked)
        refine ⟨hlow, hhigh, huse, ?_⟩
        rw [← hstore, hchecked]

theorem store_verify (lib : Httpsign Request Key) (skew : Duration) (c : Call Request Key)
    (s : NonceStore) :
    (c.verify lib skew s).2 = s ∨
      ∃ keyID nonce, (c.verify lib skew s).2 = (s.use c.now keyID nonce).2 := by
  have hcheck : ∀ opts keyID details, (checkNonce opts s c.now keyID details).2 = s ∨
      ∃ nonce, (checkNonce opts s c.now keyID details).2 = (s.use c.now keyID nonce).2 := by
    intro opts keyID details
    unfold checkNonce
    split
    · split
      · exact .inl rfl
      · exact .inl rfl
      · next nonce _ _ =>
        refine .inr ⟨nonce, ?_⟩
        split
        · next huse => rw [huse]
        · next huse => rw [huse]
    · exact .inl rfl
  unfold Call.verify verify
  split
  · exact .inl rfl
  · exact .inl rfl
  · next details _ =>
    split
    · exact .inl rfl
    · exact .inl rfl
    · next keyID _ _ =>
      split
      · exact .inl rfl
      · have hstore := hcheck (c.options skew) keyID details
        split
        · next hchecked =>
          rw [hchecked] at hstore
          exact hstore.imp_right fun ⟨nonce, h⟩ => ⟨keyID, nonce, h⟩
        · next hchecked =>
          rw [hchecked] at hstore
          exact hstore.imp_right fun ⟨nonce, h⟩ => ⟨keyID, nonce, h⟩

theorem bucketDur_verify (s : NonceStore) (c : Call Request Key) :
    (c.verify lib skew s).2.bucketDur = s.bucketDur := by
  rcases store_verify lib skew c s with h | ⟨keyID, nonce, h⟩
  · rw [h]
  · rw [h, s.bucketDur_use]

theorem NonceStore.Held.verify {key : String} (h : s.Held key deadline) (hnow : c.now < deadline) :
    (c.verify lib skew s).2.Held key deadline := by
  rcases store_verify lib skew c s with hs | ⟨keyID, nonce, hs⟩
  · rw [hs]
    exact h
  · rw [hs]
    exact (h.use hnow keyID nonce).1

def storeAfter (lib : Httpsign Request Key) (skew : Duration) (s : NonceStore)
    (calls : List (Call Request Key)) : NonceStore :=
  calls.foldl (fun s c => (c.verify lib skew s).2) s

theorem getElem?_verifyAll (s : NonceStore) (calls : List (Call Request Key)) (n : Nat) :
    (verifyAll lib skew s calls)[n]? =
      calls[n]?.map fun c => (c.verify lib skew (storeAfter lib skew s (calls.take n))).1 := by
  induction calls generalizing s n with
  | nil => rfl
  | cons c cs ih =>
    cases n with
    | zero => rfl
    | succ n => exact ih (c.verify lib skew s).2 n

theorem bucketDur_storeAfter (s : NonceStore) (calls : List (Call Request Key)) :
    (storeAfter lib skew s calls).bucketDur = s.bucketDur := by
  apply foldl_invariant (I := fun s' : NonceStore => s'.bucketDur = s.bucketDur)
    (R := fun _ => True)
  · intro s' c hs' _
    rw [bucketDur_verify, hs']
  · rfl
  · exact fun _ _ => trivial

end Replay

section Main

variable {Request : Type u} {Key : Type v}

/-- Of the calls at a server whose nonces live twice its skew, no two that carry the same key, nonce
and created time are accepted. -/
theorem replay_refused (lib : Httpsign Request Key) (skew ttl : Duration) (hpos : 0 < skew.val)
    (hthree : 3 ∣ skew.val) (httl : ttl.val = 2 * skew.val) (start : Int) (s : NonceStore)
    (hs : newNonceStore ttl start = some s) (calls : List (Call Request Key))
    (hclock : calls.Pairwise fun c c' => c.now ≤ c'.now) (i j : Nat) (hij : i < j)
    (c c' : Call Request Key) (hc : calls[i]? = some c) (hc' : calls[j]? = some c')
    (keyID nonce : String) (created : Int) (hreq : Carries lib c.req keyID nonce created)
    (hreq' : Carries lib c'.req keyID nonce created) (out out' : VerifiedSignature) :
    ¬((verifyAll lib skew s calls)[i]? = some (.ok out) ∧
      (verifyAll lib skew s calls)[j]? = some (.ok out')) := by
  rintro ⟨h, h'⟩
  rw [getElem?_verifyAll, hc, Option.map_some] at h
  rw [getElem?_verifyAll, hc', Option.map_some] at h'
  have hhalf : 2 * skew.val < 2 ^ 63 := httl ▸ ttl.property.2
  obtain ⟨hlow, -, huse, hstore⟩ := accepted_spec hpos hhalf hreq (Option.some.inj h)
  obtain ⟨-, hhigh, huse', -⟩ := accepted_spec hpos hhalf hreq' (Option.some.inj h')
  have hdur : nonceBuckets * s.bucketDur = ttl.val := by
    apply bucketDur_newNonceStore _ _ hs
    · omega
    · rw [httl]
      exact Int.mul_dvd_mul_left 2 hthree
  let deadline := c.now + ttl.val + 1
  have hheld : (c.verify lib skew (storeAfter lib skew s (calls.take i))).2.Held
      (nonceKey keyID nonce) deadline := by
    have hheld := NonceStore.held_of_use huse
    rw [bucketDur_storeAfter, hdur] at hheld
    rw [hstore]
    exact hheld
  have hlast : c'.now < deadline := by
    dsimp only [deadline]
    omega
  have hbefore : ∀ b ∈ calls.take j, b.now < deadline := by
    intro b hb
    rw [← List.take_append_drop j calls, List.pairwise_append] at hclock
    refine Int.lt_of_le_of_lt (hclock.2.2 b hb c' ?_) hlast
    rw [List.drop_eq_getElem?_toList_append, hc']
    exact List.mem_cons_self
  have hheld' : (storeAfter lib skew s (calls.take j)).Held (nonceKey keyID nonce) deadline := by
    have hsplit : calls.take j = calls.take i ++ c :: (calls.take j).drop (i + 1) := by
      have hfirst : (calls.take j)[i]? = some c := by rw [List.getElem?_take_of_lt hij, hc]
      have hdrop : (calls.take j).drop i = c :: (calls.take j).drop (i + 1) := by
        rw [List.drop_eq_getElem?_toList_append, hfirst]
        rfl
      have htake : (calls.take j).take i = calls.take i := by
        rw [List.take_take, Nat.min_eq_left (Nat.le_of_lt hij)]
      rw [← hdrop, ← htake, List.take_append_drop]
    rw [hsplit, storeAfter, List.foldl_append, List.foldl_cons]
    apply foldl_invariant (I := fun s' : NonceStore => s'.Held (nonceKey keyID nonce) deadline)
      (R := fun b : Call Request Key => b.now < deadline)
    · exact fun s' b hheld hnow => hheld.verify hnow
    · exact hheld
    · exact fun b hb => hbefore b (List.mem_of_mem_drop hb)
  rw [(hheld'.use hlast keyID nonce).2 rfl] at huse'
  cases huse'

def signedAll : Httpsign Details Unit where
  requestDetails details := .ok (some details)
  newEd25519Verifier _ _ := .ok ()
  verifyRequest _ _ _ _ := .ok ()
  contentDigest _ := []
  validateContentDigestHeader _ := .ok ()

def replayed : Details :=
  ⟨some "key", some 100, some "n1"⟩

/-- A request from the far end of the window, another one, and the first again at the near end. -/
def replayedCalls : List (Call Details Unit) :=
  [⟨97, replayed, fun _ => .ok (), false⟩,
    ⟨100, ⟨some "key", some 100, some "n2"⟩, fun _ => .ok (), false⟩,
    ⟨103, replayed, fun _ => .ok (), false⟩]

def threeNanoseconds : Duration := ⟨3, by decide⟩
def sixNanoseconds : Duration := ⟨6, by decide⟩

def smallStore : NonceStore :=
  ⟨1, fun _ => [], ⟨0, Nat.succ_pos nonceBuckets⟩, 91, by decide⟩

theorem replay_refused_replayedCalls :
    newNonceStore sixNanoseconds 90 = some smallStore ∧
      (verifyAll signedAll threeNanoseconds smallStore replayedCalls).map (fun out => out.toBool) =
        [true, true, false] ∧
      ¬((verifyAll signedAll threeNanoseconds smallStore replayedCalls)[0]? =
          some (.ok ⟨"key", "ed25519", some 100, some "n1"⟩) ∧
        (verifyAll signedAll threeNanoseconds smallStore replayedCalls)[2]? =
          some (.ok ⟨"key", "ed25519", some 100, some "n1"⟩)) :=
  ⟨rfl, by decide +kernel, replay_refused signedAll threeNanoseconds sixNanoseconds (by decide)
    (by decide) rfl 90 smallStore rfl replayedCalls (by simp [replayedCalls]) 0 2
      (by decide) _ _ rfl rfl
    "key" "n1" 100 rfl rfl _ _⟩

end Main

end ThanksComputer.Auth
