import ThanksComputer.Dns.Zone
import ThanksComputer.Lib.Table

/-! The operations on zones and records (`tenants/dns_store.go`). -/

namespace ThanksComputer.Dns

open Net Guard Lib.Table

section Store

variable (E : Externals)

inductive StoreError
  | missingID
  | emptyTenant
  | invalidOrigin
  | missingSOA
  | emptyRdata
  | zoneExists
  | duplicateID
  | nothingToSet
  | notFound
  deriving DecidableEq

/-- A stamp as the store writes it: RFC 3339, in whole seconds. -/
def stamp (now : Int) : Time :=
  now * 10 ^ 9

/-- The zone to create; `generated` is the public key that is made for it, unless it comes with
one. -/
structure NewZone where
  id : String
  tenantID : String
  origin : Name
  mname : Name
  rname : Name
  refresh : Nat
  retry : Nat
  expire : Nat
  minimum : Nat
  defaultTTL : Nat
  mode : Option Mode
  answerMode : Option AnswerMode
  stackFallback : Option Fallback
  dkim : Option (Str × Str)
  generated : Str
  verifiedAt : Option Time

def orDefault (default n : Nat) : Nat :=
  if n = 0 then default else n

/-- The row of a zone, with the defaults of `zoneSOADefaults`. -/
def NewZone.row (z : NewZone) (origin : Name) (now : Int) : ZoneRow where
  id := z.id
  tenantID := z.tenantID
  origin := origin
  mname := z.mname
  rname := z.rname
  refresh := orDefault 7200 z.refresh
  retry := orDefault 3600 z.retry
  expire := orDefault 1209600 z.expire
  minimum := orDefault 90 z.minimum
  defaultTTL := orDefault 60 z.defaultTTL
  mode := z.mode.getD .pattern
  updatedAt := some (stamp now)
  dkimSelector := match z.dkim, z.mode with
    | some (selector, _), _ => selector
    | none, some .manual => []
    | none, _ => dkimSelector
  dkimPublicB64 := match z.dkim, z.mode with
    | some (_, pub), _ => pub
    | none, some .manual => []
    | none, _ => z.generated
  answerMode := z.answerMode.getD .snapshot
  stackFallback := z.stackFallback.getD .proposal
  verifiedAt := z.verifiedAt
  revokedAt := none

namespace Db

variable (db : Db)

def createZoneTx (z : NewZone) (now : Int) : Except StoreError Db :=
  if z.id = "" then .error .missingID
  else if z.tenantID = "" then .error .emptyTenant
  else match canonicalizeHost E.lower z.origin with
    | none => .error .invalidOrigin
    | some canon =>
      if !isValidHostname E.parseIP canon then .error .invalidOrigin
      else if trimSpace z.mname = [] ∨ trimSpace z.rname = [] then .error .missingSOA
      else if db.zones.any fun q => q.id == z.id then .error .duplicateID
      else if db.zones.any fun q => q.origin == canon && q.revokedAt.isNone then .error .zoneExists
      else .ok { db with zones := db.zones ++ [z.row canon now] }

def updateZone (tenantID : String) (origin : Name) (f : ZoneRow → ZoneRow) : Except StoreError Db :=
  match canonicalizeHost E.lower origin with
  | none => .error .notFound
  | some canon =>
    let hit := fun q : ZoneRow => q.tenantID == tenantID && q.origin == canon && q.revokedAt.isNone
    if !db.zones.any hit then .error .notFound
    else .ok { db with zones := update hit f db.zones }

def setZoneVerifiedTx (tenantID : String) (origin : Name) (now : Int) : Except StoreError Db :=
  db.updateZone E tenantID origin fun q =>
    { q with verifiedAt := some (stamp now), updatedAt := some (stamp now) }

def setZoneAnswerTx (tenantID : String) (origin : Name) (answerMode : Option AnswerMode)
    (fallback : Option Fallback) (now : Int) : Except StoreError Db :=
  if answerMode = none ∧ fallback = none then .error .nothingToSet
  else db.updateZone E tenantID origin fun q =>
    { q with
      answerMode := answerMode.getD q.answerMode
      stackFallback := fallback.getD q.stackFallback
      updatedAt := some (stamp now) }

def revokeZoneTx (tenantID : String) (origin : Name) (now : Int) : Except StoreError Db :=
  db.updateZone E tenantID origin fun q => { q with revokedAt := some (stamp now) }

def createRecordTx (id zoneID : String) (name : Name) (rtype : RecordType) (ttl : Option Int)
    (rdata : Str) (now : Int) : Except StoreError Db :=
  if id = "" ∨ zoneID = "" then .error .missingID
  else if trimSpace rdata = [] then .error .emptyRdata
  else if db.records.any fun q => q.id == id then .error .duplicateID
  else
    let name := if trimSpace name = [] then ['@'] else trimSpace name
    .ok { db with
      records := db.records ++ [⟨id, zoneID, name, rtype, ttl, rdata, some (stamp now), none⟩] }

def revocable (zoneID : String) (name : Name) (rtype : RecordType) (r : RecordRow) : Bool :=
  r.zoneID == zoneID && r.name == (if name = [] then ['@'] else name) && decide (r.rtype = rtype) &&
    r.revokedAt.isNone

/-- `RevokeRecordTx`.  It stamps neither the record's nor the zone's `updated_at`. -/
def revokeRecordTx (zoneID : String) (name : Name) (rtype : RecordType) (now : Int) :
    Except StoreError Db :=
  let ids := (db.records.filter (revocable zoneID name rtype)).map RecordRow.id
  if ids = [] then .error .notFound
  else .ok { db with
    records :=
      update (fun r => ids.contains r.id) (fun r => { r with revokedAt := some (stamp now) })
      db.records }

end Db

/-- One operation on the zones, with its time in seconds. -/
inductive ZoneOp
  | createZone (z : NewZone)
  | verifyZone (tenantID : String) (origin : Name)
  | setAnswer (tenantID : String) (origin : Name) (mode : Option AnswerMode)
    (fallback : Option Fallback)
  | revokeZone (tenantID : String) (origin : Name)
  | createRecord (id zoneID : String) (name : Name) (rtype : RecordType) (ttl : Option Int)
    (rdata : Str)
  | revokeRecord (zoneID : String) (name : Name) (rtype : RecordType)

def Db.apply (db : Db) (now : Int) : ZoneOp → Except StoreError Db
  | .createZone z => db.createZoneTx E z now
  | .verifyZone tenantID origin => db.setZoneVerifiedTx E tenantID origin now
  | .setAnswer tenantID origin mode fallback =>
    db.setZoneAnswerTx E tenantID origin mode fallback now
  | .revokeZone tenantID origin => db.revokeZoneTx E tenantID origin now
  | .createRecord id zoneID name rtype ttl rdata =>
    db.createRecordTx id zoneID name rtype ttl rdata now
  | .revokeRecord zoneID name rtype => db.revokeRecordTx zoneID name rtype now

end Store

section Origins

variable {E : Externals}

theorem trimLast_eq_self {s : Str} {c : Char} (h : s.getLast? ≠ some c) : trimLast c s = s :=
  if_neg h

theorem isValidHostname_getLast {parseIP : Str → Option IP} {s : Str}
    (h : isValidHostname parseIP s = true) : s.getLast? ≠ some '.' := by
  intro hdot
  obtain ⟨front, rfl⟩ := List.getLast?_eq_some_iff.mp hdot
  have hall := (Bool.and_eq_true _ _ ▸ h).2
  rw [labels, List.splitOn_append_cons_self, List.splitOn_nil] at hall
  have hempty := List.all_eq_true.mp hall [] (List.mem_append_right _ (List.mem_singleton_self _))
  cases hempty

theorem canonicalizeHost_lower {input canon : Str}
    (h : canonicalizeHost E.lower input = some canon) :
    E.lower canon = canon := by
  rw [canonicalizeHost] at h
  dsimp only at h
  split at h
  · cases h
  split at h
  · cases h
  next host _ =>
  split at h
  · cases h
  cases h
  rw [trimLast]
  split
  · rw [E.lower_dropLast, E.lower_lower]
  · exact E.lower_lower host

theorem canonicalOrigin_eq {zr : ZoneRow} {input : Str}
    (hcanon : canonicalizeHost E.lower input = some zr.origin)
    (hvalid : isValidHostname E.parseIP zr.origin = true) : zr.canonicalOrigin E = zr.origin := by
  rw [ZoneRow.canonicalOrigin, trimLast_eq_self (isValidHostname_getLast hvalid)]
  exact canonicalizeHost_lower hcanon

end Origins

end ThanksComputer.Dns
