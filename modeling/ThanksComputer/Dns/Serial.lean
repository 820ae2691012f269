import ThanksComputer.Dns.Existence
import ThanksComputer.Dns.Store
import ThanksComputer.Lib.Checks
import ThanksComputer.Lib.Runs

/-! The serials of the served zones.  A serial is the latest stamp of the zone's live rows, and all
operations but the revocation of a record stamp what they change. -/

namespace ThanksComputer.Dns

open Net Lib.Checks Lib.Runs Lib.Table

section Stamps

theorem le_foldl_later (t : Time) (l : List (Option Time)) : t ≤ l.foldl later t := by
  induction l generalizing t with
  | nil => exact Int.le_refl t
  | cons s l ih =>
    refine Int.le_trans ?_ (ih (later t s))
    cases s with
    | none => exact Int.le_refl t
    | some u =>
      rw [later]
      split
      · next hlt => exact Int.le_of_lt hlt
      · exact Int.le_refl t

theorem foldl_later_le {t bound : Time} (ht : t ≤ bound) {l : List (Option Time)}
    (hl : ∀ u, some u ∈ l → u ≤ bound) : l.foldl later t ≤ bound := by
  induction l generalizing t with
  | nil => exact ht
  | cons s l ih =>
    refine ih ?_ fun u hu => hl u (List.mem_cons_of_mem s hu)
    cases s with
    | none => exact ht
    | some u =>
      rw [later]
      split
      · exact hl u List.mem_cons_self
      · exact ht

theorem mem_le_foldl_later {t u : Time} {l : List (Option Time)} (hu : some u ∈ l) :
    u ≤ l.foldl later t := by
  induction l generalizing t with
  | nil => cases hu
  | cons s l ih =>
    rcases List.mem_cons.mp hu with rfl | hu
    · refine Int.le_trans ?_ (le_foldl_later (later t (some u)) l)
      rw [later]
      split
      · exact Int.le_refl u
      · next hlt => exact Int.not_lt.mp hlt
    · exact ih hu

theorem latest_eq {zr : ZoneRow} {records : List RecordRow} {active : List StackRow} {now : Time}
    (htouched : zr.updatedAt = some now ∨ ∃ r ∈ records, r.updatedAt = some now)
    (hzone : ∀ u, zr.updatedAt = some u → u ≤ now) (hsome : zr.updatedAt.isSome = true)
    (hrecords : ∀ r ∈ records, ∀ u, r.updatedAt = some u → u ≤ now)
    (hactive : ∀ s ∈ active, ∀ a ∈ s.activatedAt, a < now) : latest zr records active = now := by
  have hrow : zr.updatedAt.getD zeroTime ≤ now := by
    obtain ⟨u, hu⟩ := Option.isSome_iff_exists.mp hsome
    rw [hu]
    exact hzone u hu
  have hrows : (records.map RecordRow.updatedAt).foldl later (zr.updatedAt.getD zeroTime) =
    now := by
    refine Int.le_antisymm (foldl_later_le hrow fun u hu => ?_) ?_
    · obtain ⟨r, hr, hru⟩ := List.mem_map.mp hu
      exact hrecords r hr u hru
    · rcases htouched with hz | ⟨r, hr, hru⟩
      · rw [hz]
        exact le_foldl_later now _
      · exact mem_le_foldl_later (List.mem_map.mpr ⟨r, hr, hru⟩)
  rw [latest, hrows]
  split
  · refine Int.le_antisymm (foldl_later_le (Int.le_refl now) fun u hu => ?_) (le_foldl_later now _)
    obtain ⟨s, hs, hsu⟩ := List.mem_map.mp hu
    exact Int.le_of_lt (hactive s hs u hsu)
  · rfl

theorem serialAt_stamp {now : Int} (hpos : 0 < now) (hlt : now < 2 ^ 32) :
    (serialAt (stamp now) : Int) = now := by
  have hdiv : stamp now / 10 ^ 9 = now := Int.mul_ediv_cancel now (by decide)
  have hmod : now % 2 ^ 32 = now := Int.emod_eq_of_lt (Int.le_of_lt hpos) hlt
  rw [serialAt, hdiv, hmod, if_neg (by omega)]
  exact Int.toNat_of_nonneg (Int.le_of_lt hpos)

end Stamps

section Effects

variable {E : Externals} {clock now : Int} {db db' : Db}

theorem stamp_le (h : clock ≤ now) : stamp clock ≤ stamp now :=
  Int.mul_le_mul_of_nonneg_right h (by decide)

/-- The rows are stamped up to now, and the active zones have each an origin of their own. -/
structure DbOk (E : Externals) (clock : Int) (db : Db) : Prop where
  active : ((db.zones.filter fun q => q.revokedAt.isNone).map ZoneRow.origin).Nodup
  recordIDs : (db.records.map RecordRow.id).Nodup
  canonical : ∀ zr ∈ db.zones, zr.canonicalOrigin E = zr.origin
  zones : ∀ zr ∈ db.zones, ∃ u, zr.updatedAt = some u ∧ u ≤ stamp clock
  records : ∀ r ∈ db.records, ∃ u, r.updatedAt = some u ∧ u ≤ stamp clock

theorem DbOk.mono (h : DbOk E clock db) (hle : clock ≤ now) : DbOk E now db where
  active := h.active
  recordIDs := h.recordIDs
  canonical := h.canonical
  zones zr hzr := by
    obtain ⟨u, hu, hle'⟩ := h.zones zr hzr
    exact ⟨u, hu, Int.le_trans hle' (stamp_le hle)⟩
  records r hr := by
    obtain ⟨u, hu, hle'⟩ := h.records r hr
    exact ⟨u, hu, Int.le_trans hle' (stamp_le hle)⟩

/-- What an operation does: a zone that is served is as it was, or has the operation's stamp. -/
structure Effect (E : Externals) (now : Int) (db db' : Db) : Prop where
  ok : DbOk E now db'
  rest : db' = { db with zones := db'.zones, records := db'.records }
  touched : ∀ zr ∈ db'.zones, zr.served = true →
    zr ∈ db.zones ∧ db'.recordsOf zr.id = db.recordsOf zr.id ∨
      zr.updatedAt = some (stamp now) ∨ ∃ r ∈ db'.recordsOf zr.id, r.updatedAt = some (stamp now)

theorem effect_refl (h : DbOk E clock db) (hle : clock ≤ now) : Effect E now db db :=
  ⟨h.mono hle, rfl, fun _ hzr _ => .inl ⟨hzr, rfl⟩⟩

theorem effect_createZone (h : DbOk E clock db) (hle : clock ≤ now) {z : NewZone}
    (hok : db.createZoneTx E z now = .ok db') : Effect E now db db' := by
  rw [Db.createZoneTx, check_eq_ok, check_eq_ok] at hok
  obtain ⟨-, -, hok⟩ := hok
  split at hok
  · cases hok
  next canon hcanon =>
  rw [check_eq_ok, check_eq_ok, check_eq_ok, check_eq_ok] at hok
  obtain ⟨hvalid, -, -, hfree, hok⟩ := hok
  rw [Bool.not_eq_true', Bool.not_eq_false] at hvalid
  cases hok
  have hmono := h.mono hle
  refine ⟨⟨?_, h.recordIDs, fun zr hzr => ?_, fun zr hzr => ?_, hmono.records⟩, rfl,
    fun zr hzr _ => ?_⟩
  · rw [List.filter_append, List.filter_cons_of_pos rfl, List.filter_nil]
    refine nodup_insert h.active fun q hq heq => hfree (List.any_eq_true.mpr ?_)
    obtain ⟨hq, hlive⟩ := List.mem_filter.mp hq
    exact ⟨q, hq, by rw [hlive, Bool.and_true, beq_iff_eq]; exact heq⟩
  · rcases List.mem_append.mp hzr with hzr | hzr
    · exact h.canonical zr hzr
    · rw [List.mem_singleton.mp hzr]
      exact canonicalOrigin_eq hcanon hvalid
  · rcases List.mem_append.mp hzr with hzr | hzr
    · exact hmono.zones zr hzr
    · rw [List.mem_singleton.mp hzr]
      exact ⟨stamp now, rfl, Int.le_refl _⟩
  · rcases List.mem_append.mp hzr with hzr | hzr
    · exact .inl ⟨hzr, rfl⟩
    · rw [List.mem_singleton.mp hzr]
      exact .inr (.inl rfl)

theorem effect_updateZone (h : DbOk E clock db) (hle : clock ≤ now) {tenantID : String}
    {origin : Name} {f : ZoneRow → ZoneRow} (hok : db.updateZone E tenantID origin f = .ok db')
    (horigin : ∀ q, (f q).origin = q.origin)
    (hlive : ∀ q, (f q).revokedAt.isNone = true → q.revokedAt.isNone = true)
    (hstamp : ∀ q, (f q).updatedAt = some (stamp now) ∨
      (f q).updatedAt = q.updatedAt ∧ (f q).served = false) : Effect E now db db' := by
  rw [Db.updateZone] at hok
  split at hok
  · cases hok
  rw [check_eq_ok] at hok
  obtain ⟨-, hok⟩ := hok
  cases hok
  have hmono := h.mono hle
  refine ⟨⟨?_, h.recordIDs, fun zr hzr => ?_, fun zr hzr => ?_, hmono.records⟩, rfl,
    fun zr hzr hserved => ?_⟩
  · exact h.active.sublist (sublist_update horigin hlive db.zones)
  · obtain ⟨q, hq, rfl⟩ := mem_update.mp hzr
    split
    · rw [ZoneRow.canonicalOrigin, horigin]
      exact h.canonical q hq
    · exact h.canonical q hq
  · obtain ⟨q, hq, rfl⟩ := mem_update.mp hzr
    split
    · rcases hstamp q with hnow | ⟨hsame, -⟩
      · exact ⟨stamp now, hnow, Int.le_refl _⟩
      · rw [hsame]
        exact hmono.zones q hq
    · exact hmono.zones q hq
  · obtain ⟨q, hq, rfl⟩ := mem_update.mp hzr
    split at hserved
    · next hhit =>
      rw [if_pos hhit]
      rcases hstamp q with hnow | ⟨-, hout⟩
      · exact .inr (.inl hnow)
      · rw [hout] at hserved
        cases hserved
    · next hhit =>
      rw [if_neg hhit]
      exact .inl ⟨hq, rfl⟩

theorem effect_createRecord (h : DbOk E clock db) (hle : clock ≤ now) {id zoneID : String}
    {name : Name} {rtype : RecordType} {ttl : Option Int} {rdata : Str}
    (hok : db.createRecordTx id zoneID name rtype ttl rdata now = .ok db') :
      Effect E now db db' := by
  rw [Db.createRecordTx, check_eq_ok, check_eq_ok, check_eq_ok] at hok
  obtain ⟨-, -, hfree, hok⟩ := hok
  cases hok
  have hmono := h.mono hle
  refine ⟨⟨h.active, ?_, h.canonical, hmono.zones, fun r hr => ?_⟩, rfl, fun zr hzr _ => ?_⟩
  · refine nodup_insert h.recordIDs fun q hq heq => hfree (List.any_eq_true.mpr ⟨q, hq, ?_⟩)
    exact beq_iff_eq.mpr heq
  · rcases List.mem_append.mp hr with hr | hr
    · exact hmono.records r hr
    · rw [List.mem_singleton.mp hr]
      exact ⟨stamp now, rfl, Int.le_refl _⟩
  · rw [Db.recordsOf, List.filter_append]
    by_cases hzone : zoneID = zr.id
    · right
      right
      refine ⟨_, List.mem_append_right _ (List.mem_filter.mpr ⟨List.mem_singleton_self _, ?_⟩), rfl⟩
      rw [hzone, beq_self_eq_true]
      rfl
    · left
      rw [List.filter_cons_of_neg (by simp [hzone]), List.filter_nil, List.append_nil]
      exact ⟨hzr, rfl⟩

theorem effect_revokeRecord (h : DbOk E clock db) (hle : clock ≤ now) {zoneID : String}
    {name : Name} {rtype : RecordType} (hnone : ∀ zr ∈ db.zones, zr.served = true → zr.id = zoneID →
      ∀ r ∈ db.records, Db.revocable zoneID name rtype r = false)
    (hok : db.revokeRecordTx zoneID name rtype now = .ok db') : Effect E now db db' := by
  rw [Db.revokeRecordTx, check_eq_ok] at hok
  obtain ⟨hsome, hok⟩ := hok
  cases hok
  have hmono := h.mono hle
  refine ⟨⟨h.active, ?_, h.canonical, hmono.zones, fun r hr => ?_⟩, rfl, fun zr hzr hserved => ?_⟩
  · change ((update _ _ db.records).map RecordRow.id).Nodup
    rw [map_update]
    · exact h.recordIDs
    · exact fun _ => rfl
  · obtain ⟨q, hq, rfl⟩ := mem_update.mp hr
    split
    · exact hmono.records q hq
    · exact hmono.records q hq
  · refine .inl ⟨hzr, ?_⟩
    have hother : zr.id ≠ zoneID := by
      intro heq
      apply hsome
      rw [List.map_eq_nil_iff, List.filter_eq_nil_iff]
      intro r hr
      rw [hnone zr hzr hserved heq r hr]
      exact Bool.false_ne_true
    refine filter_update fun r hr hhit => ?_
    have hzone : r.zoneID = zoneID := by
      obtain ⟨q, hq, hqid⟩ := List.mem_map.mp (List.contains_iff_mem.mp hhit)
      obtain ⟨hq, hrev⟩ := List.mem_filter.mp hq
      cases eq_of_key h.recordIDs hq hr hqid
      rw [Db.revocable, Bool.and_eq_true, Bool.and_eq_true, Bool.and_eq_true] at hrev
      exact beq_iff_eq.mp hrev.1.1.1
    have hne : (r.zoneID == zr.id) = false := beq_eq_false_iff_ne.mpr fun heq =>
      hother (heq ▸ hzone)
    rw [hne]
    exact ⟨rfl, rfl⟩

end Effects

section Runs

variable {E : Externals} {flagDefaults : SynthConfig}

/-- The records a zone answers with, its SOA apart. -/
def Zone.records (z : Zone) : List RR :=
  z.index.rr.flatMap fun e => e.2.flatMap fun b => if b.1 = typeSOA then [] else b.2

/-- What was served for a zone after a rebuild. -/
structure Published where
  origin : Name
  serial : Nat
  records : List RR
  deriving DecidableEq

def Zone.published (z : Zone) : Published :=
  ⟨z.origin, z.serial, z.records⟩

/-- The rows, the time of the last operation, and all that was served so far. -/
structure History where
  clock : Int
  db : Db
  published : List Published
  deriving DecidableEq

/-- No zone yet, beside whatever stacks, tenants and hosts there are. -/
def History.start (clock : Int) (db : Db) : History :=
  ⟨clock, { db with zones := [], records := [] }, []⟩

def History.snapshot (E : Externals) (flagDefaults : SynthConfig) (h : History) : ZoneSnapshot :=
  buildSnapshot E flagDefaults h.db

/-- One operation and the rebuild behind it. -/
def History.next (E : Externals) (flagDefaults : SynthConfig) (h : History) (op : Int × ZoneOp) :
    Option History :=
  let db := match h.db.apply E op.1 op.2 with
    | .ok db => db
    | .error _ => h.db
  some ⟨op.1, db, h.published ++ (buildSnapshot E flagDefaults db).map Zone.published⟩

def SameRecords (rrs rrs' : List RR) : Prop :=
  (∀ rr ∈ rrs, rr ∈ rrs') ∧ ∀ rr ∈ rrs', rr ∈ rrs

/-- A zone that is served with other records than at some time before has a greater serial than it
had then. -/
def SerialsRise (published : List Published) (snap : ZoneSnapshot) : Prop :=
  ∀ z ∈ snap, ∀ p ∈ published, p.origin = z.origin → ¬ SameRecords p.records z.records →
    p.serial < z.serial

def InOrder (h : History) (op : Int × ZoneOp) : Prop :=
  h.clock < op.1

/-- The time is one that 32 bits hold, and later than the activation of every active stack; and no
live record of a zone that is served is revoked. -/
def KeepsStamps (h : History) (op : Int × ZoneOp) : Prop :=
  0 < op.1 ∧ op.1 < 2 ^ 32 ∧ (∀ s ∈ h.db.activeStacks, ∀ a ∈ s.activatedAt, a < stamp op.1) ∧
    match op.2 with
    | .revokeRecord zoneID name rtype => ∀ zr ∈ h.db.zones, zr.served = true → zr.id = zoneID →
      ∀ r ∈ h.db.records, Db.revocable zoneID name rtype r = false
    | _ => True

theorem mem_buildSnapshot {db : Db} {z : Zone} :
    z ∈ buildSnapshot E flagDefaults db ↔ ∃ zr ∈ db.zones, zr.served = true ∧
      buildZone E (effectiveSynthConfig db.settings flagDefaults) db zr = z := by
  rw [buildSnapshot, List.mem_insertionSort, List.mem_map]
  refine exists_congr fun zr => ?_
  rw [List.mem_filter, and_assoc]

theorem buildZone_congr {cfg : SynthConfig} {db : Db} {zones : List ZoneRow}
    {records : List RecordRow} {zr : ZoneRow}
    (h : Db.recordsOf { db with zones := zones, records := records } zr.id =
      db.recordsOf zr.id) :
    buildZone E cfg { db with zones := zones, records := records } zr = buildZone E cfg db zr := by
  rw [buildZone, buildZone, h]
  rfl

theorem DbOk.unique {clock : Int} {db : Db} (h : DbOk E clock db) {z z' : Zone}
    (hz : z ∈ buildSnapshot E flagDefaults db) (hz' : z' ∈ buildSnapshot E flagDefaults db)
    (horigin : z.origin = z'.origin) : z = z' := by
  obtain ⟨zr, hzr, hserved, rfl⟩ := mem_buildSnapshot.mp hz
  obtain ⟨zr', hzr', hserved', rfl⟩ := mem_buildSnapshot.mp hz'
  have hlive : ∀ q ∈ db.zones, q.served = true →
      q ∈ db.zones.filter fun q => q.revokedAt.isNone := fun q hq hserved =>
    List.mem_filter.mpr ⟨hq, (Bool.and_eq_true _ _ ▸ hserved).1⟩
  have hsame : zr.origin = zr'.origin := by
    rw [← h.canonical zr hzr, ← h.canonical zr' hzr']
    exact horigin
  rw [eq_of_key h.active (hlive zr hzr hserved) (hlive zr' hzr' hserved') hsame]

theorem serial_touched {now : Int} {db : Db} (hok : DbOk E now db) (hpos : 0 < now)
    (hlt : now < 2 ^ 32) (hactive : ∀ s ∈ db.activeStacks, ∀ a ∈ s.activatedAt, a < stamp now)
    (cfg : SynthConfig) {zr : ZoneRow} (hzr : zr ∈ db.zones)
    (htouched : zr.updatedAt = some (stamp now) ∨
      ∃ r ∈ db.recordsOf zr.id, r.updatedAt = some (stamp now)) :
    ((buildZone E cfg db zr).serial : Int) = now := by
  obtain ⟨u, hu, hle⟩ := hok.zones zr hzr
  change (serialAt (latest zr (db.recordsOf zr.id) (db.stacksOf zr.tenantID)) : Int) = now
  rw [latest_eq htouched, serialAt_stamp hpos hlt]
  · intro v hv
    cases hu.symm.trans hv
    exact hle
  · rw [hu]
    rfl
  · intro r hr v hv
    obtain ⟨w, hw, hwle⟩ := hok.records r (List.mem_filter.mp hr).1
    cases hw.symm.trans hv
    exact hwle
  · exact fun s hs => hactive s (List.mem_filter.mp hs).1

theorem effect_apply {clock now : Int} {db db' : Db} (h : DbOk E clock db) (hle : clock ≤ now)
    {op : ZoneOp}
    (hkeeps : ∀ zoneID name rtype, op = .revokeRecord zoneID name rtype → ∀ zr ∈ db.zones,
      zr.served = true → zr.id = zoneID →
      ∀ r ∈ db.records, Db.revocable zoneID name rtype r = false)
    (hok : db.apply E now op = .ok db') : Effect E now db db' := by
  cases op with
  | createZone z => exact effect_createZone h hle hok
  | verifyZone tenantID origin =>
    rw [Db.apply, Db.setZoneVerifiedTx] at hok
    exact effect_updateZone h hle hok (fun _ => rfl) (fun _ hq => hq) fun _ => .inl rfl
  | setAnswer tenantID origin mode fallback =>
    rw [Db.apply, Db.setZoneAnswerTx, check_eq_ok] at hok
    exact effect_updateZone h hle hok.2 (fun _ => rfl) (fun _ hq => hq) fun _ => .inl rfl
  | revokeZone tenantID origin =>
    rw [Db.apply, Db.revokeZoneTx] at hok
    exact effect_updateZone h hle hok (fun _ => rfl) (fun _ hq => by cases hq) fun _ =>
      .inr ⟨rfl, rfl⟩
  | createRecord id zoneID name rtype ttl rdata => exact effect_createRecord h hle hok
  | revokeRecord zoneID name rtype =>
    exact effect_revokeRecord h hle (hkeeps zoneID name rtype rfl) hok

structure HistoryInv (E : Externals) (flagDefaults : SynthConfig) (h : History) : Prop where
  ok : DbOk E h.clock h.db
  bounded : ∀ p ∈ h.published, (p.serial : Int) ≤ h.clock
  current : ∀ z ∈ h.snapshot E flagDefaults, z.published ∈ h.published
  rises : SerialsRise h.published (h.snapshot E flagDefaults)

theorem Effect.zones {now : Int} {db db' : Db} (heff : Effect E now db db') (hpos : 0 < now)
    (hlt : now < 2 ^ 32) (hactive : ∀ s ∈ db.activeStacks, ∀ a ∈ s.activatedAt, a < stamp now)
    {z : Zone} (hz : z ∈ buildSnapshot E flagDefaults db') :
    z ∈ buildSnapshot E flagDefaults db ∨ (z.serial : Int) = now := by
  obtain ⟨zr, hzr, hserved, rfl⟩ := mem_buildSnapshot.mp hz
  have hrest := heff.rest
  have hactive' : db'.activeStacks = db.activeStacks := by rw [hrest]
  have hsettings : db'.settings = db.settings := by rw [hrest]
  rw [hsettings]
  rcases heff.touched zr hzr hserved with ⟨hold, hrecords⟩ | htouched
  · left
    refine mem_buildSnapshot.mpr ⟨zr, hold, hserved, ?_⟩
    rw [hrest] at hrecords
    rw [hrest]
    exact (buildZone_congr hrecords).symm
  · exact .inr (serial_touched heff.ok hpos hlt (hactive' ▸ hactive) _ hzr htouched)

theorem HistoryInv.next {h h' : History} (hinv : HistoryInv E flagDefaults h) {op : Int × ZoneOp}
    (horder : InOrder h op) (hkeeps : KeepsStamps h op)
    (hnext : h.next E flagDefaults op = some h') :
    HistoryInv E flagDefaults h' ∧ SerialsRise h.published (h'.snapshot E flagDefaults) := by
  obtain ⟨now, op⟩ := op
  obtain ⟨hpos, hlt, hactive, hrevoke⟩ := hkeeps
  dsimp only at hpos hlt hactive hrevoke
  have hclock : h.clock < now := horder
  have heff : Effect E now h.db (match h.db.apply E now op with
      | .ok db => db
      | .error _ => h.db) := by
    split
    · next db hok =>
      refine effect_apply hinv.ok (Int.le_of_lt hclock) ?_ hok
      rintro zoneID name rtype rfl
      exact hrevoke
    · exact effect_refl hinv.ok (Int.le_of_lt hclock)
  cases hnext
  have hrises : SerialsRise h.published
    (buildSnapshot E flagDefaults (match h.db.apply E now op with
      | .ok db => db
      | .error _ => h.db)) := by
    intro z hz p hp horigin hdiff
    rcases heff.zones hpos hlt hactive hz with hold | hnow
    · exact hinv.rises z hold p hp horigin hdiff
    · have hle := hinv.bounded p hp
      omega
  refine ⟨⟨heff.ok, fun p hp => ?_, fun z hz => ?_, fun z hz p hp horigin hdiff => ?_⟩, hrises⟩
  · rcases List.mem_append.mp hp with hp | hp
    · exact Int.le_trans (hinv.bounded p hp) (Int.le_of_lt hclock)
    · obtain ⟨z, hz, rfl⟩ := List.mem_map.mp hp
      rcases heff.zones hpos hlt hactive hz with hold | hnow
      · exact Int.le_trans (hinv.bounded _ (hinv.current z hold)) (Int.le_of_lt hclock)
      · exact Int.le_of_eq hnow
  · exact List.mem_append_right _ (List.mem_map_of_mem hz)
  · rcases List.mem_append.mp hp with hp | hp
    · exact hrises z hz p hp horigin hdiff
    · obtain ⟨z', hz', rfl⟩ := List.mem_map.mp hp
      cases heff.ok.unique hz' hz horigin
      exact absurd ⟨fun _ hrr => hrr, fun _ hrr => hrr⟩ hdiff

theorem historyInv_start (clock : Int) (db : Db) : HistoryInv E flagDefaults (.start clock db) where
  ok := ⟨List.nodup_nil, List.nodup_nil, fun _ hzr => absurd hzr List.not_mem_nil,
    fun _ hzr => absurd hzr List.not_mem_nil, fun _ hr => absurd hr List.not_mem_nil⟩
  bounded _ hp := absurd hp List.not_mem_nil
  current _ hz := absurd hz List.not_mem_nil
  rises _ hz := absurd hz List.not_mem_nil

/-- In every run of operations in the order of their times, none of which revokes a live record of a
served zone, a zone's serial rises whenever other records are served for it. -/
theorem serialsRise_along (E : Externals) (flagDefaults : SynthConfig) (clock : Int) (db : Db)
    {ops : List (Int × ZoneOp)}
    (hops : Along (History.next E flagDefaults) (fun h op => InOrder h op ∧ KeepsStamps h op)
      (.start clock db) ops) :
    Along (History.next E flagDefaults) (fun h op => ∀ h' ∈ h.next E flagDefaults op,
      SerialsRise h.published (h'.snapshot E flagDefaults)) (.start clock db) ops := by
  refine Along.of_invariant (I := HistoryInv E flagDefaults) ?_ ?_ (historyInv_start clock db) hops
  · exact fun h op h' hinv hop hnext => (hinv.next hop.1 hop.2 hnext).1
  · exact fun h op hinv hop h' hnext => (hinv.next hop.1 hop.2 hnext).2

instance (rrs rrs' : List RR) : Decidable (SameRecords rrs rrs') :=
  inferInstanceAs (Decidable ((∀ rr ∈ rrs, _) ∧ ∀ rr ∈ rrs', _))

instance (published : List Published) (snap : ZoneSnapshot) :
    Decidable (SerialsRise published snap) :=
  inferInstanceAs (Decidable (∀ z ∈ snap, ∀ p ∈ published, _ → ¬ SameRecords _ _ → _))

instance (h : History) (op : Int × ZoneOp) : Decidable (InOrder h op) :=
  inferInstanceAs (Decidable (_ < _))

instance (h : History) (op : Int × ZoneOp) : Decidable (KeepsStamps h op) :=
  match op with
  | (now, .revokeRecord _ _ _) => inferInstanceAs (Decidable (0 < now ∧ now < 2 ^ 32 ∧
      (∀ s ∈ h.db.activeStacks, ∀ a ∈ s.activatedAt, _) ∧ ∀ zr ∈ h.db.zones, _ → _ →
        ∀ r ∈ h.db.records, _))
  | (now, .createZone _) | (now, .verifyZone _ _) | (now, .setAnswer _ _ _ _)
  | (now, .revokeZone _ _)
  | (now, .createRecord _ _ _ _ _ _) => inferInstanceAs (Decidable (0 < now ∧ now < 2 ^ 32 ∧
      (∀ s ∈ h.db.activeStacks, ∀ a ∈ s.activatedAt, _) ∧ True))

def manualZone (id : String) : NewZone where
  id := id
  tenantID := "acme"
  origin := "acme.example".toList
  mname := "ns1.thanks.computer".toList
  rname := "hostmaster.thanks.computer".toList
  refresh := 0
  retry := 0
  expire := 0
  minimum := 0
  defaultTTL := 0
  mode := some .manual
  answerMode := none
  stackFallback := none
  dkim := none
  generated := []
  verifiedAt := some 0

def addressRecord (id zoneID : String) (name : Name) : ZoneOp :=
  .createRecord id zoneID name .a none "203.0.113.7".toList

theorem serialsRise_madeAgain :
    Along (History.next plain mailConfig) (fun h op => ∀ h' ∈ h.next plain mailConfig op,
      SerialsRise h.published (h'.snapshot plain mailConfig)) (.start 0 acmeDb)
      [(1700000000, .createZone (manualZone "dnz_1")),
        (1700000001, addressRecord "dnr_1" "dnz_1" "www".toList),
        (1700000002, .revokeZone "acme" "acme.example".toList),
        (1700000003, .createZone (manualZone "dnz_2")),
        (1700000004, addressRecord "dnr_2" "dnz_2" "ftp".toList)] :=
  serialsRise_along plain mailConfig 0 acmeDb (by decide)

/-- A record is revoked: the zone goes back to the serial it had before the record. -/
theorem not_serialsRise_revoked :
    Along (History.next plain mailConfig) InOrder (.start 0 acmeDb)
      [(1700000000, .createZone (manualZone "dnz_1")),
        (1700000001, addressRecord "dnr_1" "dnz_1" "www".toList),
        (1700000002, .revokeRecord "dnz_1" "www".toList .a)] ∧
    ¬ Along (History.next plain mailConfig) (fun h op => ∀ h' ∈ h.next plain mailConfig op,
      SerialsRise ((h.snapshot plain mailConfig).map Zone.published) (h'.snapshot plain mailConfig))
      (.start 0 acmeDb)
      [(1700000000, .createZone (manualZone "dnz_1")),
        (1700000001, addressRecord "dnr_1" "dnz_1" "www".toList),
        (1700000002, .revokeRecord "dnz_1" "www".toList .a)] := by
  decide

end Runs

end ThanksComputer.Dns
