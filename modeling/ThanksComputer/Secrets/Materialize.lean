import Mathlib.Data.Char
import Mathlib.Data.List.Lex
import Mathlib.Data.List.MinMax
import Mathlib.Data.List.Sort
import Mathlib.Order.Nat
import ThanksComputer.Lib.Assoc
import ThanksComputer.Lib.Runs
import ThanksComputer.Lib.Table
import ThanksComputer.Net.Address

/-! Secrets for ops, through the cache of their sealed versions (`secrets/store.go`,
`matcache.go`). -/

namespace ThanksComputer.Secrets

open Net Lib Lib.Runs

section Tables

/-- `EncryptedSecret` as its row has it. -/
structure Sealed where
  nonce : List UInt8
  ciphertext : List UInt8
  wrappedDEK : List UInt8
  dekNonce : List UInt8
  deriving DecidableEq

/-- A row of `tenant_secrets`; a tenant-wide secret has the empty stack. -/
structure SecretRow where
  secretID : Str
  tenantID : Str
  stack : Str
  name : Str
  description : Str
  createdAt : Str
  createdBy : Str
  lastRotatedAt : Option Int
  revokedAt : Option Int
  keyVersion : Nat
  deriving DecidableEq

structure VersionRow where
  secretID : Str
  versionNo : Nat
  es : Sealed
  revoked : Bool
  deriving DecidableEq

structure Metadata extends SecretRow where
  versionNo : Nat
  deriving DecidableEq

structure Db where
  secrets : List SecretRow
  versions : List VersionRow
  deriving DecidableEq

/-- `Decrypt` under the node's master key, with the additional data of the row. -/
structure Node where
  decrypt : Metadata → Sealed → Option (List UInt8)

variable (db : Db)

/-- `MAX(version_no)` over the versions that count. -/
def Db.maxNo (counts : VersionRow → Bool) (secretID : Str) : Nat :=
  ((db.versions.filter fun v => v.secretID == secretID && counts v).map VersionRow.versionNo).foldr
    max 0

def Db.activeNo (secretID : Str) : Nat :=
  db.maxNo (fun v => !v.revoked) secretID

/-- `lookupMetadataExact`: of several rows the newest. -/
def Db.lookupMetadataExact (tenantID stack name : Str) : Option Metadata :=
  ((db.secrets.filter fun r =>
      r.tenantID == tenantID && r.stack == stack && r.name == name &&
        r.revokedAt.isNone).insertionSort
    fun a b => b.createdAt < a.createdAt ∨ b.createdAt = a.createdAt ∧
      b.secretID ≤ a.secretID).head?.map
      fun r => ⟨r, db.activeNo r.secretID⟩

def Db.fetchActiveEncrypted (md : Metadata) : Option Sealed :=
  (db.versions.find? fun v =>
    v.secretID == md.secretID && v.versionNo == md.versionNo && !v.revoked).map VersionRow.es

/-- The commit of `CreateSecret`; `none` is a key that exists. -/
def Db.create (row : SecretRow) (es : Sealed) : Option Db :=
  if db.secrets.any (·.secretID == row.secretID) then none
  else
    some ⟨db.secrets ++ [{ row with lastRotatedAt := none, revokedAt := none }],
      db.versions ++ [⟨row.secretID, 1, es, false⟩]⟩

/-- The commit of `RotateSecret`: the row it found first is locked, and the name looked up again. -/
def Db.rotate (now : Int) (secretID tenantID stack name : Str) (es : Sealed) (keyVersion : Nat) :
    Option Db :=
  if db.secrets.any (·.secretID == secretID) &&
    (db.lookupMetadataExact tenantID stack name).isSome then
    some ⟨Table.update (·.secretID == secretID)
        (fun r => { r with lastRotatedAt := some now, keyVersion := keyVersion }) db.secrets,
      db.versions ++ [⟨secretID, db.maxNo (fun _ => true) secretID + 1, es, false⟩]⟩
  else none

/-- The commit of `RevokeSecret`. -/
def Db.revoke (now : Int) (secretID : Str) : Db :=
  { db with
    secrets := Table.update (fun r => r.secretID == secretID && r.revokedAt.isNone)
      (fun r => { r with revokedAt := some now }) db.secrets }

end Tables

section Cache

/-- `nameRE`. -/
def validateName : Str → Bool
  | [] => false
  | ch :: rest => ch.isAlpha && rest.all (fun ch => ch.isAlphanum || ch == '_') && rest.length ≤ 127

/-- `materializeTTL`, in nanoseconds. -/
def materializeTTL : Int := 300000000000

structure MatEntry where
  md : Metadata
  es : Sealed
  stamp : Int
  deriving DecidableEq

def matKey (tenantID stack name : Str) : Str :=
  tenantID ++ ['\x00'] ++ stack ++ ['\x00'] ++ name

abbrev Cache := List (Str × MatEntry)

variable (c : Cache) (key : Str)

def Cache.drop : Cache :=
  c.filter (·.1 != key)

/-- An entry past its time is deleted. -/
def Cache.get (now : Int) : Cache × Option MatEntry :=
  match c.lookup key with
  | none => (c, none)
  | some e => if materializeTTL < now - e.stamp then (c.drop key, none) else (c, some e)

def Cache.set (e : MatEntry) : Cache :=
  (key, e) :: c.drop key

end Cache

section Runs

/-- Where a call of `MaterializeSecretForOp` stands. -/
inductive Phase
  | get
  | drop
  | stackMeta
  | tenantMeta
  | fetch (md : Metadata)
  | set (md : Metadata) (es : Sealed) (value : List UInt8)
  deriving DecidableEq

structure Call where
  id : Nat
  tenantID : Str
  stack : Str
  name : Str
  begun : Int
  phase : Phase
  deriving DecidableEq

/-- `past` holds the tables at the instant of every step so far. -/
structure World where
  db : Db
  cache : Cache
  calls : List Call
  begun : Nat
  clock : Int
  past : List (Int × Db)
  deriving DecidableEq

def World.start (clock : Int) : World := ⟨⟨[], []⟩, [], [], 0, clock, []⟩

/-- The steps of calls and writers.  `fails` is a read that fails; a flush follows the commit of a
writer, or a reload. -/
inductive Event
  | call (tenantID stack name : Str)
  | step (call : Nat) (fails : Bool)
  | create (row : SecretRow) (es : Sealed)
  | rotate (secretID tenantID stack name : Str) (es : Sealed) (keyVersion : Nat)
  | revoke (secretID : Str)
  | flush
  deriving DecidableEq

/-- A value that a call returns, with what it was opened from. -/
structure Answer where
  md : Metadata
  es : Sealed
  value : List UInt8
  deriving DecidableEq

/-- What one step of a call leaves: its next phase, or its end with the value it returns. -/
inductive Outcome
  | goes (phase : Phase)
  | ends (answer : Option Answer)
  deriving DecidableEq

variable (N : Node) (w : World)

def Call.key (c : Call) : Str :=
  matKey c.tenantID c.stack c.name

def Call.step (db : Db) (cache : Cache) (c : Call) (now : Int) (fails : Bool) : Cache × Outcome :=
  let lookup : Phase := if c.stack.isEmpty then .tenantMeta else .stackMeta
  match c.phase with
  | .get =>
    match cache.get c.key now with
    | (cache, none) => (cache, .goes lookup)
    | (cache, some e) =>
      match N.decrypt e.md e.es with
      | some value => (cache, .ends (some ⟨e.md, e.es, value⟩))
      | none => (cache, .goes .drop)
  | .drop => (cache.drop c.key, .goes lookup)
  | .stackMeta =>
    if fails then (cache, .ends none)
    else
      match db.lookupMetadataExact c.tenantID c.stack c.name with
      | some md => (cache, .goes (.fetch md))
      | none => (cache, .goes .tenantMeta)
  | .tenantMeta =>
    if fails then (cache, .ends none)
    else
      match db.lookupMetadataExact c.tenantID [] c.name with
      | some md => (cache, .goes (.fetch md))
      | none => (cache, .ends none)
  | .fetch md =>
    if fails then (cache, .ends none)
    else
      match db.fetchActiveEncrypted md with
      | none => (cache, .ends none)
      | some es =>
        match N.decrypt md es with
        | none => (cache, .ends none)
        | some value => (cache, .goes (.set md es value))
  | .set md es value => (cache.set c.key ⟨md, es, now⟩, .ends (some ⟨md, es, value⟩))

def World.put (c : Call) : Outcome → World
  | .goes phase =>
    { w with calls := w.calls.map fun q => if q.id = c.id then { c with phase := phase } else q }
  | .ends _ => { w with calls := w.calls.filter (·.id != c.id) }

def World.run (c : Call) (now : Int) (fails : Bool) : World × Outcome :=
  let (cache, out) := c.step N w.db w.cache now fails
  (World.put { w with cache := cache } c out, out)

def World.act (now : Int) : Event → Option World
  | .call tenantID stack name =>
    if validateName name then
      some { w with
        calls := w.calls ++ [⟨w.begun, tenantID, stack, name, now, .get⟩]
        begun := w.begun + 1 }
    else some w
  | .step id fails => (w.calls.find? (·.id == id)).map fun c => (w.run N c now fails).1
  | .create row es => (w.db.create row es).map fun db => { w with db := db }
  | .rotate secretID tenantID stack name es keyVersion =>
    (w.db.rotate now secretID tenantID stack name es keyVersion).map fun db => { w with db := db }
  | .revoke secretID => some { w with db := w.db.revoke now secretID }
  | .flush => some { w with cache := [] }

/-- Clock readings do not decrease. -/
def World.next (event : Int × Event) : Option World :=
  if w.clock ≤ event.1 then
    (w.act N event.1 event.2).map fun w' =>
      { w' with clock := event.1, past := w.past ++ [(event.1, w.db)] }
  else none

end Runs

section Statement

def Db.Active (db : Db) (md : Metadata) (es : Sealed) : Prop :=
  (∃ r ∈ db.secrets, r.secretID = md.secretID ∧ r.revokedAt = none) ∧
    md.versionNo = db.activeNo md.secretID ∧
    ∃ v ∈ db.versions, v.secretID = md.secretID ∧ v.versionNo = md.versionNo ∧ v.revoked = false ∧
      v.es = es

/-- It was active at some instant no earlier than `bound`. -/
def World.ActiveSince (w : World) (now bound : Int) (md : Metadata) (es : Sealed) : Prop :=
  ∃ s ∈ w.past ++ [(now, w.db)], bound ≤ s.1 ∧ s.2.Active md es

variable (N : Node)

/-- Every value returned is of a version that was active within the bound before the call began. -/
def Bounded (w : World) (event : Int × Event) : Prop :=
  w.clock ≤ event.1 → ∀ id fails, event.2 = .step id fails → ∀ c ∈ w.calls, c.id = id → ∀ a,
    (w.run N c event.1 fails).2 = .ends (some a) →
      N.decrypt a.md a.es = some a.value ∧
        w.ActiveSince event.1 (c.begun - materializeTTL) a.md a.es

/-- A call that fills the cache does so while what it read is active. -/
def FillsActive (w : World) (event : Int × Event) : Prop :=
  ∀ id fails, event.2 = .step id fails → ∀ c ∈ w.calls, c.id = id → ∀ md es value,
    c.phase = .set md es value → w.ActiveSince event.1 event.1 md es

end Statement

section Reads

variable {db db' : Db} {md : Metadata} {es : Sealed}

theorem le_maxNo {counts : VersionRow → Bool} {v : VersionRow} (hv : v ∈ db.versions)
    (hcounts : counts v = true) : v.versionNo ≤ db.maxNo counts v.secretID := by
  refine List.le_max_of_le (List.mem_map_of_mem (List.mem_filter.mpr ⟨hv, ?_⟩)) (Nat.le_refl _)
  rw [beq_self_eq_true, hcounts]
  rfl

theorem maxNo_le {counts : VersionRow → Bool} {id : Str} {n : Nat}
    (h : ∀ v ∈ db.versions, v.secretID = id → counts v = true → v.versionNo ≤ n) :
    db.maxNo counts id ≤ n := by
  refine List.max_le_of_forall_le _ n fun x hx => ?_
  obtain ⟨v, hv, rfl⟩ := List.mem_map.mp hx
  obtain ⟨hv, hmatch⟩ := List.mem_filter.mp hv
  rw [Bool.and_eq_true, beq_iff_eq] at hmatch
  exact h v hv hmatch.1 hmatch.2

theorem lookupMetadataExact_spec {tenantID stack name : Str}
    (h : db.lookupMetadataExact tenantID stack name = some md) :
    (∃ r ∈ db.secrets, r.secretID = md.secretID ∧ r.revokedAt = none) ∧
      md.versionNo = db.activeNo md.secretID := by
  obtain ⟨r, hr, rfl⟩ := Option.map_eq_some_iff.mp h
  have hmem := List.mem_of_head? hr
  rw [List.mem_insertionSort] at hmem
  obtain ⟨hmem, hrow⟩ := List.mem_filter.mp hmem
  rw [Bool.and_eq_true, Option.isNone_iff_eq_none] at hrow
  exact ⟨⟨r, hmem, rfl, hrow.2⟩, rfl⟩

theorem fetchActiveEncrypted_spec (h : db.fetchActiveEncrypted md = some es) :
    ∃ v ∈ db.versions, v.secretID = md.secretID ∧ v.versionNo = md.versionNo ∧ v.revoked = false ∧
      v.es = es := by
  obtain ⟨v, hv, rfl⟩ := Option.map_eq_some_iff.mp h
  have hrow := List.find?_some hv
  rw [Bool.and_eq_true, Bool.and_eq_true, beq_iff_eq, beq_iff_eq, Bool.not_eq_true'] at hrow
  exact ⟨v, List.mem_of_find?_eq_some hv, hrow.1.1, hrow.1.2, hrow.2, rfl⟩

/-- What writers do to the tables: rows stay, and a new version is past the old ones of its
secret. -/
structure Db.Grows (db db' : Db) : Prop where
  rows : ∀ r ∈ db.secrets, ∃ r' ∈ db'.secrets, r'.secretID = r.secretID
  kept : ∀ v ∈ db.versions, v ∈ db'.versions
  fresh : ∀ v ∈ db'.versions, v ∈ db.versions ∨ db.maxNo (fun _ => true) v.secretID < v.versionNo ∨
    ∀ r ∈ db.secrets, r.secretID ≠ v.secretID

theorem Db.Grows.refl (db : Db) : db.Grows db :=
  ⟨fun r hr => ⟨r, hr, rfl⟩, fun _ hv => hv, fun _ hv => .inl hv⟩

theorem rows_update {cond : SecretRow → Bool} {set : SecretRow → SecretRow} {t : List SecretRow}
    (hset : ∀ r, (set r).secretID = r.secretID) :
    ∀ r ∈ t, ∃ r' ∈ Table.update cond set t, r'.secretID = r.secretID := by
  intro r hr
  refine ⟨_, List.mem_map_of_mem hr, ?_⟩
  split
  · exact hset r
  · rfl

theorem create_grows {row : SecretRow} (h : db.create row es = some db') : db.Grows db' := by
  obtain ⟨hnew, h⟩ := Option.ite_none_left_eq_some.mp h
  cases h
  refine ⟨fun r hr => ⟨r, List.mem_append_left _ hr, rfl⟩, fun v hv =>
    List.mem_append_left _ hv, ?_⟩
  intro v hv
  rcases List.mem_append.mp hv with hv | hv
  · exact .inl hv
  · rw [List.mem_singleton.mp hv]
    refine .inr (.inr fun r hr heq => hnew ?_)
    exact List.any_eq_true.mpr ⟨r, hr, beq_iff_eq.mpr heq⟩

theorem rotate_grows {now : Int} {secretID tenantID stack name : Str} {keyVersion : Nat}
    (h : db.rotate now secretID tenantID stack name es keyVersion = some db') : db.Grows db' := by
  obtain ⟨-, h⟩ := Option.ite_none_right_eq_some.mp h
  cases h
  refine ⟨rows_update fun _ => rfl, fun v hv => List.mem_append_left _ hv, fun v hv => ?_⟩
  rcases List.mem_append.mp hv with hv | hv
  · exact .inl hv
  · rw [List.mem_singleton.mp hv]
    exact .inr (.inl (Nat.lt_succ_self _))

theorem revoke_grows (db : Db) (now : Int) (secretID : Str) : db.Grows (db.revoke now secretID) :=
  ⟨rows_update fun _ => rfl, fun _ hv => hv, fun _ hv => .inl hv⟩

end Reads

section Calls

variable {N : Node} {db db' : Db} {past : List (Int × Db)} {md : Metadata} {es : Sealed}
    {begun : Int}

/-- What a call knows once it has its metadata: they were active at an instant since it began, and
no later version has their number. -/
structure HasMeta (db : Db) (past : List (Int × Db)) (begun : Int) (md : Metadata) : Prop where
  row : ∃ r ∈ db.secrets, r.secretID = md.secretID
  number : md.versionNo ≤ db.maxNo (fun _ => true) md.secretID
  read : ∃ s ∈ past, begun ≤ s.1 ∧
    (∃ r ∈ s.2.secrets, r.secretID = md.secretID ∧ r.revokedAt = none) ∧
    md.versionNo = s.2.activeNo md.secretID ∧
    ∀ v ∈ db.versions, v.secretID = md.secretID → v.versionNo = md.versionNo → v ∈ s.2.versions

def Seen (past : List (Int × Db)) (since : Int) (md : Metadata) (es : Sealed) : Prop :=
  ∃ s ∈ past, since ≤ s.1 ∧ s.2.Active md es

theorem HasMeta.lookup {now : Int} {tenantID stack name : Str}
    (h : db.lookupMetadataExact tenantID stack name = some md) (hnow : begun ≤ now) :
    HasMeta db (past ++ [(now, db)]) begun md := by
  obtain ⟨⟨r, hr, hid, hlive⟩, hno⟩ := lookupMetadataExact_spec h
  refine ⟨⟨r, hr, hid⟩, ?_, ⟨(now, db), List.mem_append_right _ (List.mem_singleton_self _), hnow,
    ⟨r, hr, hid, hlive⟩, hno, fun v hv _ _ => hv⟩⟩
  rw [hno, Db.activeNo]
  exact maxNo_le fun v hv hid' _ => hid' ▸ le_maxNo hv rfl

theorem HasMeta.grows (h : HasMeta db past begun md) (hgrows : db.Grows db') :
    HasMeta db' past begun md := by
  obtain ⟨r, hr, hid⟩ := h.row
  obtain ⟨r', hr', hid'⟩ := hgrows.rows r hr
  obtain ⟨s, hs, hbegun, hrow, hno, hold⟩ := h.read
  have hmax : db.maxNo (fun _ => true) md.secretID ≤ db'.maxNo (fun _ => true) md.secretID :=
    maxNo_le fun v hv hid _ => hid ▸ le_maxNo (hgrows.kept v hv) rfl
  refine ⟨⟨r', hr', hid'.trans hid⟩, Nat.le_trans h.number hmax, s, hs, hbegun, hrow, hno, ?_⟩
  intro v hv hvid hvno
  rcases hgrows.fresh v hv with hv | hlt | hnone
  · exact hold v hv hvid hvno
  · rw [hvid, hvno] at hlt
    exact absurd h.number (Nat.not_le.mpr hlt)
  · exact absurd (hid.trans hvid.symm) (hnone r hr)

theorem HasMeta.later (h : HasMeta db past begun md) (more : List (Int × Db)) :
    HasMeta db (past ++ more) begun md := by
  obtain ⟨s, hs, hrest⟩ := h.read
  exact ⟨h.row, h.number, s, List.mem_append_left _ hs, hrest⟩

theorem Seen.later {since : Int} (h : Seen past since md es) (more : List (Int × Db)) :
    Seen (past ++ more) since md es := by
  obtain ⟨s, hs, hrest⟩ := h
  exact ⟨s, List.mem_append_left _ hs, hrest⟩

theorem HasMeta.fetch (h : HasMeta db past begun md) (hes : db.fetchActiveEncrypted md = some es) :
    Seen past begun md es := by
  obtain ⟨v, hv, hid, hno, hlive, rfl⟩ := fetchActiveEncrypted_spec hes
  obtain ⟨s, hs, hbegun, hrow, hactive, hold⟩ := h.read
  exact ⟨s, hs, hbegun, hrow, hactive, v, hold v hv hid hno, hid, hno, hlive, rfl⟩

/-- What holds of a call by where it stands. -/
def Call.Ok (N : Node) (db : Db) (past : List (Int × Db)) (c : Call) : Prop :=
  match c.phase with
  | .get | .drop | .stackMeta | .tenantMeta => True
  | .fetch md => HasMeta db past c.begun md
  | .set md es value => Seen past c.begun md es ∧ N.decrypt md es = some value

theorem Call.Ok.later {c : Call} (h : c.Ok N db past) (hgrows : db.Grows db')
    (more : List (Int × Db)) : c.Ok N db' (past ++ more) := by
  unfold Call.Ok at h ⊢
  split
  · trivial
  · trivial
  · trivial
  · trivial
  · next md hphase =>
    rw [hphase] at h
    exact (h.grows hgrows).later more
  · next md es value hphase =>
    rw [hphase] at h
    exact ⟨h.1.later more, h.2⟩

/-- The cached versions were active since they were stamped. -/
def Cache.Ok (past : List (Int × Db)) (cache : Cache) : Prop :=
  ∀ entry ∈ cache, Seen past entry.2.stamp entry.2.md entry.2.es

theorem Cache.Ok.later {cache : Cache} (h : cache.Ok past) (more : List (Int × Db)) :
    cache.Ok (past ++ more) :=
  fun entry hentry => (h entry hentry).later more

theorem Cache.Ok.drop {cache : Cache} (h : cache.Ok past) (key : Str) : (cache.drop key).Ok past :=
  fun entry hentry => h entry (List.mem_of_mem_filter hentry)

theorem get_cases (cache : Cache) (key : Str) (now : Int) :
    (∀ entry ∈ (cache.get key now).1, entry ∈ cache) ∧
      ∀ e, (cache.get key now).2 = some e → (∃ k, (k, e) ∈ cache) ∧
        now - materializeTTL ≤ e.stamp := by
  rw [Cache.get]
  split
  · exact ⟨fun _ h => h, nofun⟩
  · next e hlookup =>
    split
    · exact ⟨fun _ h => List.mem_of_mem_filter h, nofun⟩
    · next hage =>
      refine ⟨fun _ h => h, ?_⟩
      rintro _ ⟨rfl⟩
      refine ⟨⟨key, ?_⟩, by omega⟩
      exact Assoc.mem_of_lookup hlookup

variable {cache : Cache} {c : Call} {now : Int}

/-- What a step of a call may come to. -/
structure StepOk (N : Node) (db : Db) (past : List (Int × Db)) (c : Call) (now : Int)
    (res : Cache × Outcome) : Prop where
  cache : res.1.Ok (past ++ [(now, db)])
  goes : ∀ phase, res.2 = .goes phase → Call.Ok N db (past ++ [(now, db)]) { c with phase := phase }
  ends : ∀ a, res.2 = .ends (some a) → N.decrypt a.md a.es = some a.value ∧
    Seen (past ++ [(now, db)]) (c.begun - materializeTTL) a.md a.es

theorem StepOk.plain {phase : Phase} (hcache : cache.Ok past)
    (hphase : Call.Ok N db (past ++ [(now, db)]) { c with phase := phase }) :
    StepOk N db past c now (cache, .goes phase) where
  cache := hcache.later _
  goes := by
    rintro phase ⟨rfl⟩
    exact hphase
  ends := nofun

theorem StepOk.none (hcache : cache.Ok past) : StepOk N db past c now (cache, .ends none) :=
  ⟨hcache.later _, nofun, nofun⟩

theorem ok_lookup : Call.Ok N db (past ++ [(now, db)])
    { c with phase := if c.stack.isEmpty then .tenantMeta else .stackMeta } := by
  unfold Call.Ok
  simp only
  split
  · trivial
  · trivial
  · trivial
  · trivial
  · next hphase => split at hphase <;> cases hphase
  · next hphase => split at hphase <;> cases hphase

theorem Call.Ok.step (h : c.Ok N db past) (hcache : cache.Ok past) (hnow : c.begun ≤ now)
    (fails : Bool)
    (hfill : ∀ md es value, c.phase = .set md es value → Seen (past ++ [(now, db)]) now md es) :
    StepOk N db past c now (c.step N db cache now fails) := by
  rw [Call.step]
  split
  · -- The cache is asked first; a hit is as old as the bound allows.
    obtain ⟨hsub, hhit⟩ := get_cases cache c.key now
    have hcache' : Cache.Ok past (cache.get c.key now).1 := fun entry he =>
      hcache entry (hsub entry he)
    split
    · next cache' heq =>
      rw [heq] at hcache'
      exact .plain hcache' ok_lookup
    · next cache' e heq =>
      rw [heq] at hcache' hhit
      obtain ⟨⟨k, hmem⟩, hage⟩ := hhit e rfl
      split
      · next value hvalue =>
        refine ⟨hcache'.later _, nofun, ?_⟩
        rintro a ⟨rfl⟩
        obtain ⟨s, hs, hstamp, hactive⟩ := (hcache (k, e) hmem).later [(now, db)]
        simp only at hstamp
        exact ⟨hvalue, s, hs, by omega, hactive⟩
      · exact .plain hcache' trivial
  · exact .plain (hcache.drop _) ok_lookup
  · split
    · exact .none hcache
    · split
      · next md hmd => exact .plain hcache (HasMeta.lookup hmd hnow)
      · exact .plain hcache trivial
  · split
    · exact .none hcache
    · split
      · next md hmd => exact .plain hcache (HasMeta.lookup hmd hnow)
      · exact .none hcache
  · next md hphase =>
    unfold Call.Ok at h
    rw [hphase] at h
    split
    · exact .none hcache
    · split
      · exact .none hcache
      · next es hes =>
        split
        · exact .none hcache
        · next value hvalue => exact .plain hcache ⟨(h.fetch hes).later _, hvalue⟩
  · next md es value hphase =>
    unfold Call.Ok at h
    rw [hphase] at h
    obtain ⟨⟨s, hs, hbegun, hactive⟩, hvalue⟩ := h
    refine ⟨?_, nofun, ?_⟩
    · intro entry hentry
      rcases List.mem_cons.mp hentry with rfl | hentry
      · exact hfill md es value hphase
      · exact (hcache.drop _).later _ entry hentry
    · rintro a ⟨rfl⟩
      have hpos : (0 : Int) ≤ materializeTTL := by decide
      exact ⟨hvalue, s, List.mem_append_left _ hs, by omega, hactive⟩

end Calls

section Bound

variable {N : Node} {w : World}

structure World.Inv (N : Node) (w : World) : Prop where
  begun : ∀ c ∈ w.calls, c.begun ≤ w.clock
  calls : ∀ c ∈ w.calls, c.Ok N w.db w.past
  cache : w.cache.Ok w.past

theorem World.Inv.start (N : Node) (clock : Int) : (World.start clock).Inv N :=
  ⟨nofun, nofun, nofun⟩

theorem World.Inv.write (h : w.Inv N) {db : Db} (hgrows : w.db.Grows db) {cache : Cache}
    (hcache : ∀ entry ∈ cache, entry ∈ w.cache) {now : Int} (hnow : w.clock ≤ now) :
    World.Inv N
      { w with db := db, cache := cache, clock := now, past := w.past ++ [(now, w.db)] } where
  begun c hc := Int.le_trans (h.begun c hc) hnow
  calls c hc := (h.calls c hc).later hgrows _
  cache entry hentry := (h.cache entry (hcache entry hentry)).later _

theorem World.Inv.run (h : w.Inv N) {c : Call} (hc : c ∈ w.calls) {now : Int} (hnow : w.clock ≤ now)
    {fails : Bool} (hstep : StepOk N w.db w.past c now (c.step N w.db w.cache now fails)) :
    World.Inv N { (w.run N c now fails).1 with clock := now, past := w.past ++ [(now, w.db)] } := by
  rw [World.run]
  generalize c.step N w.db w.cache now fails = res at hstep ⊢
  obtain ⟨cache, out⟩ := res
  have hold : ∀ q ∈ w.calls, q.begun ≤ now ∧ q.Ok N w.db (w.past ++ [(now, w.db)]) := fun q hq =>
    ⟨Int.le_trans (h.begun q hq) hnow, (h.calls q hq).later (.refl w.db) _⟩
  cases out with
  | goes phase =>
    have hnew : ∀ q ∈ w.calls.map fun q => if q.id = c.id then { c with phase := phase } else q,
        q.begun ≤ now ∧ q.Ok N w.db (w.past ++ [(now, w.db)]) := by
      intro q hq
      obtain ⟨q₀, hq₀, rfl⟩ := List.mem_map.mp hq
      split
      · exact ⟨(hold c hc).1, hstep.goes phase rfl⟩
      · exact hold q₀ hq₀
    exact ⟨fun q hq => (hnew q hq).1, fun q hq => (hnew q hq).2, hstep.cache⟩
  | ends answer =>
    exact ⟨fun q hq => (hold q (List.mem_of_mem_filter hq)).1,
      fun q hq => (hold q (List.mem_of_mem_filter hq)).2, hstep.cache⟩

theorem World.Inv.stepOk (h : w.Inv N) {event : Int × Event} (hfill : FillsActive w event)
    (hnow : w.clock ≤ event.1) {id : Nat} {fails : Bool} (hevent : event.2 = .step id fails)
    {c : Call} (hc : c ∈ w.calls) (hid : c.id = id) :
    StepOk N w.db w.past c event.1 (c.step N w.db w.cache event.1 fails) :=
  (h.calls c hc).step h.cache (Int.le_trans (h.begun c hc) hnow) fails
    fun md es value hphase => hfill id fails hevent c hc hid md es value hphase

theorem World.Inv.next (h : w.Inv N) {event : Int × Event} (hfill : FillsActive w event)
    {w' : World} (hnext : w.next N event = some w') : w'.Inv N := by
  obtain ⟨hnow, hnext⟩ := Option.ite_none_right_eq_some.mp hnext
  obtain ⟨w₁, hact, rfl⟩ := Option.map_eq_some_iff.mp hnext
  obtain ⟨now, act⟩ := event
  cases act with
  | call tenantID stack name =>
    rw [World.act] at hact
    split at hact
    · cases hact
      refine ⟨fun c hc => ?_, fun c hc => ?_, h.cache.later _⟩
      · rcases List.mem_append.mp hc with hc | hc
        · exact Int.le_trans (h.begun c hc) hnow
        · rw [List.mem_singleton.mp hc]
      · rcases List.mem_append.mp hc with hc | hc
        · exact (h.calls c hc).later (.refl w.db) _
        · rw [List.mem_singleton.mp hc]
          trivial
    · cases hact
      exact h.write (.refl w.db) (fun _ he => he) hnow
  | step id fails =>
    obtain ⟨c, hc, rfl⟩ := Option.map_eq_some_iff.mp hact
    have hid : c.id = id := by simpa using List.find?_some hc
    have hmem := List.mem_of_find?_eq_some hc
    exact h.run hmem hnow (h.stepOk hfill hnow rfl hmem hid)
  | create row es =>
    obtain ⟨db, hdb, rfl⟩ := Option.map_eq_some_iff.mp hact
    exact h.write (create_grows hdb) (fun _ he => he) hnow
  | rotate secretID tenantID stack name es keyVersion =>
    obtain ⟨db, hdb, rfl⟩ := Option.map_eq_some_iff.mp hact
    exact h.write (rotate_grows hdb) (fun _ he => he) hnow
  | revoke secretID =>
    cases hact
    exact h.write (revoke_grows w.db now secretID) (fun _ he => he) hnow
  | flush =>
    cases hact
    exact h.write (.refl w.db) (fun _ he => absurd he List.not_mem_nil) hnow

theorem World.Inv.bounded (h : w.Inv N) {event : Int × Event} (hfill : FillsActive w event) :
    Bounded N w event := by
  intro hnow id fails hevent c hc hid a ha
  exact (h.stepOk hfill hnow hevent hc hid).ends a ha

/-- No value is served past its bound where what is cached is active when it is stamped. -/
theorem bounded_along (N : Node) (clock : Int) (events : List (Int × Event))
    (h : Along (World.next N) FillsActive (World.start clock) events) :
    Along (World.next N) (Bounded N) (World.start clock) events :=
  Along.of_invariant (I := World.Inv N) (fun _ _ _ hinv hfill hnext => hinv.next hfill hnext)
    (fun _ _ hinv hfill => hinv.bounded hfill) (World.Inv.start N clock) h

end Bound

section LateFill

/-- A node whose seal is no seal. -/
def plain : Node := ⟨fun _ es => some es.ciphertext⟩

def apiKey : SecretRow :=
  ⟨"sec_1".toList, "acme".toList, [], "API_KEY".toList, [], "2026-01-01T00:00:00Z".toList, [],
    none, none, 1⟩

def sealedAs (value : UInt8) : Sealed := ⟨[], [value], [], []⟩

/-- A call reads its metadata, the secret is rotated and the cache flushed, and the call then
fetches the version it read of and caches it two seconds later; a call at the end of the cached
entry's time. -/
def lateFill : List (Int × Event) :=
  [(0, .create apiKey (sealedAs 1)), (1000000000, .call "acme".toList [] "API_KEY".toList),
    (1000000000, .step 0 false), (1000000000, .step 0 false),
    (2000000000, .rotate "sec_1".toList "acme".toList [] "API_KEY".toList (sealedAs 2) 1),
    (2000000000, .flush), (2000000000, .step 0 false), (4000000000, .step 0 false),
    (304000000000, .call "acme".toList [] "API_KEY".toList), (304000000000, .step 1 false)]

instance Db.Active.decidable (db : Db) (md : Metadata) (es : Sealed) :
    Decidable (db.Active md es) :=
  inferInstanceAs (Decidable (_ ∧ _ ∧ _))

instance World.ActiveSince.decidable (w : World) (now bound : Int) (md : Metadata) (es : Sealed) :
    Decidable (w.ActiveSince now bound md es) :=
  inferInstanceAs (Decidable (∃ s ∈ w.past ++ [(now, w.db)], bound ≤ s.1 ∧ s.2.Active md es))

/-- The next step of a call ends it with a value that was not active since the bound. -/
def World.endsStale (n : Node) (w : World) (c : Call) (now : Int) : Bool :=
  match (w.run n c now false).2 with
  | .ends (some a) => !decide (w.ActiveSince now (c.begun - materializeTTL) a.md a.es)
  | _ => false

/-- The last call is served the value that was rotated away 302 seconds before it began. -/
theorem not_bounded_lateFill :
    ¬Along (World.next plain) (Bounded plain) (World.start 0) lateFill := by
  intro h
  have hbad : ((lateFill.take 9).foldlM (World.next plain) (World.start 0)).any (fun w =>
      decide (w.clock ≤ 304000000000) && w.calls.any fun c => c.id == 1 &&
        w.endsStale plain c 304000000000) = true := by
    decide
  obtain ⟨w, hw, hbad⟩ := (Option.any_eq_true _ _).mp hbad
  obtain ⟨hclock, hbad⟩ := Bool.and_eq_true_iff.mp hbad
  obtain ⟨c, hc, hbad⟩ := List.any_eq_true.mp hbad
  obtain ⟨hid, hbad⟩ := Bool.and_eq_true_iff.mp hbad
  have hlast :=
    along_iff.mp h 9 (304000000000, .step 1 false) w rfl hw (of_decide_eq_true hclock) 1 false rfl
    c hc (beq_iff_eq.mp hid)
  unfold World.endsStale at hbad
  split at hbad
  · next a ha =>
    rw [Bool.not_eq_true', decide_eq_false_iff_not] at hbad
    exact hbad (hlast a ha).2
  · cases hbad

/-- The same calls, with the rotation behind the fill. -/
def promptFill : List (Int × Event) :=
  [(0, .create apiKey (sealedAs 1)), (1000000000, .call "acme".toList [] "API_KEY".toList),
    (1000000000, .step 0 false), (1000000000, .step 0 false), (2000000000, .step 0 false),
    (4000000000, .step 0 false),
    (4000000000, .rotate "sec_1".toList "acme".toList [] "API_KEY".toList (sealedAs 2) 1),
    (304000000000, .call "acme".toList [] "API_KEY".toList), (304000000000, .step 1 false)]

instance FillsActive.decidable (w : World) (event : Int × Event) :
    Decidable (FillsActive w event) :=
  match event with
  | (now, .step id _) =>
    decidable_of_iff (w.calls.all fun c => c.id != id ||
        match c.phase with
        | .set md es _ => decide (w.ActiveSince now now md es)
        | _ => true)
      ⟨fun h id' fails' heq c hc hid md es value hphase => by
        obtain ⟨rfl, -⟩ := Event.step.inj heq
        have hc' := List.all_eq_true.mp h c hc
        simpa [hid, hphase] using hc',
       fun h => List.all_eq_true.mpr fun c hc => by
        rw [Bool.or_eq_true, bne_iff_ne]
        by_cases hid : c.id = id
        · right
          split
          · next md es value hphase => exact decide_eq_true (h id _ rfl c hc hid md es value hphase)
          · rfl
        · exact .inl hid⟩
  | (_, .call _ _ _) | (_, .create _ _) | (_, .rotate _ _ _ _ _ _) | (_, .revoke _) | (_, .flush) =>
    .isTrue nofun

theorem bounded_promptFill : Along (World.next plain) FillsActive (World.start 0) promptFill ∧
    Along (World.next plain) (Bounded plain) (World.start 0) promptFill := by
  have h : Along (World.next plain) FillsActive (World.start 0) promptFill := by decide
  exact ⟨h, bounded_along plain 0 promptFill h⟩

end LateFill

end ThanksComputer.Secrets
