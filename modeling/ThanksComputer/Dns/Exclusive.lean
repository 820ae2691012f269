import ThanksComputer.Dns.Chase
import ThanksComputer.Dns.Store

/-! An alias is alone at its name.  The write path checks it on the names as they are sent
(`server/admin/dns_crud_endpoints.go`), the snapshot files the records under names in lower case. -/

namespace ThanksComputer.Dns

open Net Guard Lib.Assoc Lib.Table

section Write

variable (E : Externals)

inductive RecordError
  | cnameAtApex
  | invalidRdata
  | cnameExclusive
  | createRecord (e : StoreError)
  deriving DecidableEq

namespace Db

variable (db : Db)

/-- The name that `ActiveRecordTypesAtNameTx` looks for. -/
def checkedName (name : Name) : Name :=
  if trimSpace name = [] then ['@'] else name

def activeRecordTypesAtNameTx (zoneID : String) (name : Name) : List RecordType :=
  ((db.recordsOf zoneID).filter fun r => r.name == checkedName name).map RecordRow.rtype

/-- The rdata to store: an alias is not at the apex, and its target is a host name. -/
def recordRdata (name : Name) (rtype : RecordType) (rdata : Str) : Except RecordError Str :=
  if rtype = .cname then
    if trimSpace name = [] ∨ trimSpace name = ['@'] then .error .cnameAtApex
    else match canonicalizeHost E.lower (trimLast '.' (trimSpace rdata)) with
      | none => .error .invalidRdata
      | some target =>
        if isValidHostname E.parseIP target then .ok (target ++ ['.']) else .error .invalidRdata
  else .ok rdata

/-- `handleCreateRecord`, behind the choice of the zone. -/
def handleCreateRecord (id zoneID : String) (name : Name) (rtype : RecordType) (ttl : Option Int)
    (rdata : Str) (now : Int) : Except RecordError Db :=
  match recordRdata E name rtype rdata with
  | .error e => .error e
  | .ok rdata =>
    let existing := db.activeRecordTypesAtNameTx zoneID name
    if (rtype = .cname ∧ existing ≠ []) ∨ (rtype ≠ .cname ∧ .cname ∈ existing) then
      .error .cnameExclusive
    else (db.createRecordTx id zoneID name rtype ttl rdata now).mapError .createRecord

/-- `handleRevokeRecord`: nothing to revoke is no error. -/
def handleRevokeRecord (zoneID : String) (name : Name) (rtype : RecordType) (now : Int) : Db :=
  match db.revokeRecordTx zoneID name rtype now with
  | .ok db' => db'
  | .error _ => db

end Db

/-- One request, with its time in seconds. -/
inductive RecordOp
  | create (id zoneID : String) (name : Name) (rtype : RecordType) (ttl : Option Int) (rdata : Str)
  | revoke (zoneID : String) (name : Name) (rtype : RecordType)

def Db.handle (db : Db) (now : Int) : RecordOp → Db
  | .create id zoneID name rtype ttl rdata =>
    match db.handleCreateRecord E id zoneID name rtype ttl rdata now with
    | .ok db' => db'
    | .error _ => db
  | .revoke zoneID name rtype => db.handleRevokeRecord zoneID name rtype now

def Db.after (db : Db) (ops : List (Int × RecordOp)) : Db :=
  ops.foldl (fun db op => db.handle E op.1 op.2) db

end Write

section Clash

variable (E : Externals)

def RecordRow.built (zr : ZoneRow) (r : RecordRow) : Option RR :=
  let key := zr.key E
  buildRR E key.origin key.originFQDN r.name r.rtype (effTTL zr.defaultTTL r.ttl) r.rdata

def sharesAlias (rr rr' : RR) : Prop :=
  E.lower rr.name = E.lower rr'.name ∧ (rr.rtype = typeCNAME ∨ rr'.rtype = typeCNAME)

def Clash (zr : ZoneRow) (r r' : RecordRow) : Prop :=
  ∃ rr ∈ r.built E zr, ∃ rr' ∈ r'.built E zr, sharesAlias E rr rr'

def storedRow (id zoneID : String) (name : Name) (rtype : RecordType) (ttl : Option Int)
    (rdata : Str) (now : Int) : RecordRow :=
  ⟨id, zoneID, if trimSpace name = [] then ['@'] else trimSpace name, rtype, ttl, rdata,
    some (stamp now), none⟩

/-- The check sees what the snapshot will: a live record that the new one would share its name and
an alias with is stored under the name as it was sent, and the alias is stored as one. -/
def Foreseen (db : Db) (now : Int) : RecordOp → Prop
  | .create id zoneID name rtype ttl rdata =>
    ∀ stored, Db.recordRdata E name rtype rdata = .ok stored →
      ∀ zr ∈ db.zones, zr.served = true → zr.id = zoneID → ∀ r' ∈ db.recordsOf zoneID,
        Clash E zr (storedRow id zoneID name rtype ttl stored now) r' →
          r'.name = Db.checkedName name ∧ (rtype = .cname ∨ r'.rtype = .cname)
  | .revoke _ _ _ => True

/-- Every name with an alias has one alias and nothing else, but for the SOA of the apex. -/
def AliasesAlone (snap : ZoneSnapshot) : Prop :=
  ∀ z ∈ snap, ∀ owner, z.index.setAt owner typeCNAME ≠ [] →
    (z.index.setAt owner typeCNAME).length = 1 ∧
      ∀ t, t ≠ typeCNAME → z.index.setAt owner t = [] ∨
        (owner = z.originFQDN ∧ t = typeSOA ∧ z.index.setAt owner t = [z.soa])

variable {E} {zr : ZoneRow} {r r' : RecordRow} {db : Db}

theorem Clash.symm (h : Clash E zr r r') : Clash E zr r' r := by
  obtain ⟨rr, hrr, rr', hrr', hname, hcname⟩ := h
  exact ⟨rr', hrr', rr, hrr, hname.symm, hcname.symm⟩

def ClashFree (E : Externals) (db : Db) : Prop :=
  ∀ zr ∈ db.zones, zr.served = true → (db.recordsOf zr.id).Pairwise fun r r' => ¬ Clash E zr r r'

theorem ClashFree.perm (h : ClashFree E db) {records : List RecordRow}
    (hperm : records.Perm db.records) :
    ClashFree E { db with records } := by
  intro zr hzr hserved
  refine ((hperm.filter _).pairwise_iff ?_).mpr (h zr hzr hserved)
  exact fun hnot hclash => hnot hclash.symm

theorem ClashFree.of_sublist {db' : Db} (h : ClashFree E db) (hzones : db'.zones = db.zones)
    (hsub : ∀ zoneID, (db'.recordsOf zoneID).Sublist (db.recordsOf zoneID)) : ClashFree E db' := by
  intro zr hzr hserved
  rw [hzones] at hzr
  exact (h zr hzr hserved).sublist (hsub zr.id)

theorem ClashFree.revoke (h : ClashFree E db) (zoneID : String) (name : Name) (rtype : RecordType)
    (now : Int) : ClashFree E (db.handleRevokeRecord zoneID name rtype now) := by
  rw [Db.handleRevokeRecord, Db.revokeRecordTx]
  split
  · next db' hok =>
    split at hok
    · cases hok
    cases hok
    refine h.of_sublist rfl fun zid => sublist_update_of_drop (fun r => ?_) db.records
    exact Bool.and_false _
  · exact h

theorem handleCreateRecord_ok {id zoneID : String} {name : Name} {rtype : RecordType}
    {ttl : Option Int} {rdata : Str} {now : Int} {db' : Db}
    (h : db.handleCreateRecord E id zoneID name rtype ttl rdata now = .ok db') :
    ∃ stored, Db.recordRdata E name rtype rdata = .ok stored ∧
      (∀ r' ∈ db.recordsOf zoneID, r'.name = Db.checkedName name →
        rtype ≠ .cname ∧ r'.rtype ≠ .cname) ∧
      db' = { db with
        records := db.records ++ [storedRow id zoneID name rtype ttl stored now] } := by
  rw [Db.handleCreateRecord] at h
  split at h
  · cases h
  next stored hstored =>
  dsimp only at h
  split at h
  · cases h
  next hcheck =>
  refine ⟨stored, hstored, fun r' hr' hname => ?_, ?_⟩
  · have hexisting : r'.rtype ∈ db.activeRecordTypesAtNameTx zoneID name :=
      List.mem_map_of_mem (List.mem_filter.mpr ⟨hr', beq_iff_eq.mpr hname⟩)
    rw [not_or] at hcheck
    have hnew : rtype ≠ .cname := fun hcn => hcheck.1 ⟨hcn, List.ne_nil_of_mem hexisting⟩
    exact ⟨hnew, fun hcn => hcheck.2 ⟨hnew, hcn ▸ hexisting⟩⟩
  · rw [Db.createRecordTx] at h
    split at h
    · cases h
    split at h
    · cases h
    split at h
    · cases h
    cases h
    rfl

theorem ClashFree.create (h : ClashFree E db) {id zoneID : String} {name : Name}
    {rtype : RecordType} {ttl : Option Int} {rdata : Str} {now : Int}
    (hseen : Foreseen E db now (.create id zoneID name rtype ttl rdata)) {db' : Db}
    (hok : db.handleCreateRecord E id zoneID name rtype ttl rdata now = .ok db') :
      ClashFree E db' := by
  obtain ⟨stored, hstored, hcheck, rfl⟩ := handleCreateRecord_ok hok
  intro zr hzr hserved
  have hsplit : Db.recordsOf
    { db with records := db.records ++ [storedRow id zoneID name rtype ttl stored now] }
      zr.id = db.recordsOf zr.id ++ if zoneID = zr.id then
        [storedRow id zoneID name rtype ttl stored now] else [] := by
    rw [Db.recordsOf, List.filter_append, Db.recordsOf, List.filter_cons, List.filter_nil]
    by_cases hid : zoneID = zr.id
    · simp [storedRow, hid]
    · simp [storedRow, hid]
  rw [hsplit]
  split
  · next hid =>
    refine List.pairwise_append.mpr ⟨h zr hzr hserved, List.pairwise_singleton _ _, ?_⟩
    intro r' hr' r hr hclash
    rw [List.mem_singleton.mp hr] at hclash
    obtain ⟨hname, hcn⟩ := hseen stored hstored zr hzr hserved hid.symm r' (hid ▸ hr') hclash.symm
    obtain ⟨hnew, hold⟩ := hcheck r' (hid ▸ hr') hname
    exact hcn.elim hnew hold
  · rw [List.append_nil]
    exact h zr hzr hserved

theorem ClashFree.handle (h : ClashFree E db) {now : Int} {op : RecordOp}
    (hseen : Foreseen E db now op) :
    ClashFree E (db.handle E now op) := by
  cases op with
  | create id zoneID name rtype ttl rdata =>
    rw [Db.handle]
    split
    · next db' hok => exact h.create hseen hok
    · exact h
  | revoke zoneID name rtype => exact h.revoke zoneID name rtype now

theorem ClashFree.after (h : ClashFree E db) {ops : List (Int × RecordOp)}
    (hseen : ∀ pre op post, ops = pre ++ op :: post → Foreseen E (db.after E pre) op.1 op.2) :
    ClashFree E (db.after E ops) := by
  induction ops generalizing db with
  | nil => exact h
  | cons op ops ih =>
    refine ih (h.handle (hseen [] op ops rfl)) fun pre op' post heq => ?_
    exact hseen (op :: pre) op' post (congrArg (op :: ·) heq)

end Clash

section Synthesized

variable {E : Externals} {cfg : SynthConfig} {owner : Name} {ttl : Nat} {rr : RR}

theorem rtype_mkSRV {port : Nat} {target : Name} (h : rr ∈ mkSRV owner ttl port target) :
    rr.rtype = typeSRV := by
  rw [mkSRV] at h
  split at h
  · cases h
  · cases h
    rfl

theorem rtype_mkNS {ns : Str} (h : mkNS E owner ttl ns = some rr) : rr.rtype = typeNS := by
  rw [mkNS] at h
  split at h
  · cases h
  · cases h
    rfl

theorem rtype_mkMX {pref : Nat} {host : Str} (h : rr ∈ mkMX E owner ttl pref host) :
    rr.rtype = typeMX := by
  rw [mkMX] at h
  split at h
  · cases h
  · cases h
    rfl

theorem rtype_mkTXT {value : Str} (h : rr ∈ mkTXT owner ttl value) : rr.rtype = typeTXT := by
  rw [mkTXT] at h
  split at h
  · cases h
  · cases h
    rfl

theorem rtype_mkAddrs {ips : List Str} (h : rr ∈ mkAddrs E owner ttl ips) :
    rr.rtype ≠ typeCNAME := by
  obtain ⟨raw, -, hraw⟩ := List.mem_filterMap.mp h
  rw [mkAddr] at hraw
  obtain ⟨ip, -, rfl⟩ := Option.map_eq_some_iff.mp hraw
  cases ip.to4 with
  | none => exact (by decide : typeAAAA ≠ typeCNAME)
  | some v4 => exact (by decide : typeA ≠ typeCNAME)

theorem srv_ne_cname {port : Nat} {target : Name} (h : rr ∈ (mkSRV owner ttl port target).toList) :
    rr.rtype ≠ typeCNAME := by
  rw [rtype_mkSRV (Option.mem_toList.mp h)]
  decide

theorem mx_ne_cname {pref : Nat} {host : Str} (h : rr ∈ (mkMX E owner ttl pref host).toList) :
    rr.rtype ≠ typeCNAME := by
  rw [rtype_mkMX (Option.mem_toList.mp h)]
  decide

theorem txt_ne_cname {value : Str} (h : rr ∈ (mkTXT owner ttl value).toList) :
    rr.rtype ≠ typeCNAME := by
  rw [rtype_mkTXT (Option.mem_toList.mp h)]
  decide

theorem davs_ne_cname {port : Nat} {target : Name} {path : Str}
    (h : rr ∈ mkDAVS owner ttl port target path) :
    rr.rtype ≠ typeCNAME := by
  rw [mkDAVS] at h
  split at h
  · cases h
  next srv hsrv =>
  rcases List.mem_cons.mp h with rfl | h
  · exact srv_ne_cname (Option.mem_toList.mpr hsrv)
  · exact txt_ne_cname h

theorem discovery_ne_cname (h : rr ∈ discovery cfg ttl owner) : rr.rtype ≠ typeCNAME := by
  rw [discovery, List.mem_append, List.mem_append] at h
  rcases h with (h | h) | h
  · exact srv_ne_cname h
  · exact davs_ne_cname h
  · exact davs_ne_cname h

theorem hostRRs_ne_cname {row : HostRow} (h : rr ∈ hostRRs E cfg ttl row) :
    rr.rtype ≠ typeCNAME := by
  rw [hostRRs] at h
  rcases List.mem_append.mp h with h | h
  · split at h
    · cases h
    · cases h
    · rcases List.mem_append.mp h with h | h
      · exact txt_ne_cname h
      · exact txt_ne_cname h
  · exact discovery_ne_cname h

theorem apex_ne_cname {key : ZoneKey} (h : rr ∈ synthesizeApex E cfg key) :
    rr.rtype ≠ typeCNAME := by
  rw [synthesizeApex] at h
  simp only [List.mem_append] at h
  rcases h with (((((h | h) | h) | h) | h) | h) | h
  · obtain ⟨ns, -, hns⟩ := List.mem_filterMap.mp h
    rw [rtype_mkNS hns]
    decide
  · exact rtype_mkAddrs h
  · exact mx_ne_cname h
  · exact discovery_ne_cname h
  · split at h
    · exact rtype_mkAddrs h
    · cases h
  · split at h
    · cases h
    · rcases List.mem_append.mp h with h | h
      · exact txt_ne_cname h
      · exact txt_ne_cname h
  · split at h
    · exact txt_ne_cname h
    · cases h

theorem synthesize_ne_cname {key : ZoneKey} {active : List Str}
    (h : rr ∈ synthesize E cfg key active) :
    rr.rtype ≠ typeCNAME := by
  rw [synthesize] at h
  rcases List.mem_append.mp h with h | h
  · exact apex_ne_cname h
  split at h
  · rw [synthesizeWild] at h
    simp only [List.mem_append] at h
    rcases h with ((h | h) | h) | h
    · exact rtype_mkAddrs h
    · exact mx_ne_cname h
    · exact txt_ne_cname h
    · exact srv_ne_cname h
  · obtain ⟨stack, -, h⟩ := List.mem_flatMap.mp h
    rw [synthesizeStack] at h
    dsimp only at h
    split at h
    · cases h
    rw [List.mem_append, List.mem_append] at h
    rcases h with (h | h) | h
    · exact rtype_mkAddrs h
    · exact mx_ne_cname h
    · exact discovery_ne_cname h

theorem synthesized_ne_cname {db : Db} {zr : ZoneRow} (h : rr ∈ synthesized E cfg db zr) :
    rr.rtype ≠ typeCNAME := by
  rw [synthesized] at h
  split at h
  · cases h
  rcases List.mem_append.mp h with h | h
  · exact synthesize_ne_cname h
  split at h
  · obtain ⟨row, -, h⟩ := List.mem_flatMap.mp h
    exact hostRRs_ne_cname h
  · cases h

end Synthesized

section Overlay

variable {E : Externals} {ix : Index} {owner : Name} {t : RRType} {pattern : Bool} {rr : RR}
  {rrs : List RR} {state : Index × List (Name × RRType)}

theorem mem_setAt_add {x : RR} (h : x ∈ (ix.add E rr).setAt owner t) :
    x ∈ ix.setAt owner t ∨ x = rr := by
  by_cases hown : owner = E.lower rr.name
  · by_cases ht : t = rr.rtype
    · rw [hown, ht, setAt_add_self] at h
      rw [hown, ht]
      exact (List.mem_append.mp h).imp_right List.mem_singleton.mp
    · rw [setAt_add_of_ne_type ix ht] at h
      exact .inl h
  · rw [setAt_add_of_ne ix hown] at h
    exact .inl h

theorem mem_setAt_addAll {x : RR} (h : x ∈ (ix.addAll E rrs).setAt owner t) :
    x ∈ ix.setAt owner t ∨ x ∈ rrs := by
  induction rrs generalizing ix with
  | nil => exact .inl h
  | cons rr rrs ih =>
    rcases ih h with h | h
    · refine (mem_setAt_add h).imp_right fun (heq : x = rr) => ?_
      exact heq ▸ List.mem_cons_self
    · exact .inr (List.mem_cons_of_mem _ h)

theorem mem_setAt_overlay {x : RR} (h : x ∈ (Index.overlay E pattern state rr).1.setAt owner t) :
    x ∈ state.1.setAt owner t ∨ x = rr := by
  rw [Index.overlay] at h
  split at h
  · exact (mem_setAt_add h).imp_left fun hx => setAt_clear_subset state.1 rr owner t hx
  · exact mem_setAt_add h

theorem mem_setAt_foldl {x : RR}
    (h : x ∈ (rrs.foldl (Index.overlay E pattern) state).1.setAt owner t) :
    x ∈ state.1.setAt owner t ∨ x ∈ rrs := by
  induction rrs generalizing state with
  | nil => exact .inl h
  | cons rr rrs ih =>
    rcases ih h with h | h
    · refine (mem_setAt_overlay h).imp_right fun (heq : x = rr) => ?_
      exact heq ▸ List.mem_cons_self
    · exact .inr (List.mem_cons_of_mem _ h)

theorem overlay_of_ne (h : owner ≠ E.lower rr.name) :
    (Index.overlay E pattern state rr).1.setAt owner t = state.1.setAt owner t ∧
      ((owner, t) ∈ (Index.overlay E pattern state rr).2 ↔ (owner, t) ∈ state.2) := by
  have hlower : owner ≠ E.lower (E.lower rr.name) := by rwa [E.lower_lower]
  rw [Index.overlay]
  split
  · refine ⟨?_, ?_⟩
    · rw [setAt_add_of_ne _ h]
      split
      · exact setAt_clearOwner_of_ne state.1 hlower t
      · exact setAt_clearOwnerType_of_ne state.1 hlower _ t
    · rw [List.mem_cons, Prod.mk.injEq, or_iff_right fun hcons => h hcons.1]
  · exact ⟨setAt_add_of_ne state.1 h t, Iff.rfl⟩

theorem foldl_of_ne (h : ∀ rr ∈ rrs, owner ≠ E.lower rr.name) :
    (rrs.foldl (Index.overlay E pattern) state).1.setAt owner t = state.1.setAt owner t ∧
      ((owner, t) ∈ (rrs.foldl (Index.overlay E pattern) state).2 ↔ (owner, t) ∈ state.2) := by
  induction rrs generalizing state with
  | nil => exact ⟨rfl, Iff.rfl⟩
  | cons rr rrs ih =>
    rw [List.forall_mem_cons] at h
    obtain ⟨hset, hcleared⟩ := ih h.2
    obtain ⟨hset', hcleared'⟩ := overlay_of_ne (t := t) h.1
    exact ⟨hset.trans hset', hcleared.trans hcleared'⟩

theorem overlay_cname (hrr : rr.rtype = typeCNAME)
    (hcname : state.1.setAt (E.lower rr.name) typeCNAME = [])
    (hcleared : (E.lower rr.name, typeCNAME) ∉ state.2)
    (hmanual : pattern = false → ∀ t, state.1.setAt (E.lower rr.name) t = []) :
    (Index.overlay E pattern state rr).1.setAt (E.lower rr.name) typeCNAME = [rr] ∧
      ∀ t, t ≠ typeCNAME → (Index.overlay E pattern state rr).1.setAt (E.lower rr.name) t = [] := by
  have hself : ∀ ix : Index, (ix.add E rr).setAt (E.lower rr.name) typeCNAME =
      ix.setAt (E.lower rr.name) typeCNAME ++ [rr] := fun ix => hrr ▸ setAt_add_self ix rr
  have hother : ∀ (ix : Index) t, t ≠ typeCNAME →
      (ix.add E rr).setAt (E.lower rr.name) t = ix.setAt (E.lower rr.name) t :=
    fun ix t ht => setAt_add_of_ne_type ix (hrr ▸ ht) _
  rw [Index.overlay]
  cases pattern with
  | false =>
    rw [Bool.false_and, if_neg Bool.false_ne_true]
    refine ⟨by rw [hself, hcname, List.nil_append], fun t ht => ?_⟩
    rw [hother _ t ht]
    exact hmanual rfl t
  | true =>
    have hgo : (true && !state.2.contains (E.lower rr.name, rr.rtype)) = true := by
      rw [hrr, Bool.true_and, Bool.not_eq_true', Bool.eq_false_iff]
      exact fun hmem => hcleared (List.contains_iff_mem.mp hmem)
    rw [if_pos hgo, if_pos hrr]
    have hclear : ∀ t, (state.1.clearOwner E (E.lower rr.name)).setAt (E.lower rr.name) t = [] := by
      intro t
      have hempty := setAt_clearOwner_self (E := E) state.1 (E.lower rr.name) t
      rwa [E.lower_lower] at hempty
    refine ⟨by rw [hself, hclear, List.nil_append], fun t ht => ?_⟩
    rw [hother _ t ht, hclear]

theorem overlayAll_alone (hfiled : Filed E ix) (hcname : ∀ owner, ix.setAt owner typeCNAME = [])
    (hmanual : pattern = false → ∀ owner t, ix.setAt owner t = [])
    (hrrs : rrs.Pairwise fun rr rr' => ¬ sharesAlias E rr rr')
    (howner : (ix.overlayAll E pattern rrs).setAt owner typeCNAME ≠ []) :
    ∃ rr, (ix.overlayAll E pattern rrs).setAt owner typeCNAME = [rr] ∧
      ∀ t, t ≠ typeCNAME → (ix.overlayAll E pattern rrs).setAt owner t = [] := by
  obtain ⟨rr, hmem⟩ := List.exists_mem_of_ne_nil _ howner
  obtain ⟨hname, hrr⟩ := hfiled.overlayAll pattern rrs owner typeCNAME rr hmem
  have hin : rr ∈ rrs := by
    rcases mem_setAt_foldl hmem with h | h
    · rw [hcname] at h
      cases h
    · exact h
  obtain ⟨pre, post, rfl⟩ := List.append_of_mem hin
  obtain ⟨-, hpost, hcross⟩ := List.pairwise_append.mp hrrs
  have hbefore : ∀ x ∈ pre, owner ≠ E.lower x.name := by
    intro x hx heq
    exact hcross x hx rr List.mem_cons_self ⟨heq.symm.trans hname.symm, .inr hrr⟩
  have hafter : ∀ x ∈ post, owner ≠ E.lower x.name := by
    intro x hx heq
    exact (List.pairwise_cons.mp hpost).1 x hx ⟨hname.trans heq, .inl hrr⟩
  have hpre : ∀ t, (pre.foldl (Index.overlay E pattern) (ix, [])).1.setAt owner t =
    ix.setAt owner t ∧
      ((owner, t) ∈ (pre.foldl (Index.overlay E pattern) (ix, [])).2 ↔ (owner, t) ∈ []) :=
    fun t => foldl_of_ne hbefore
  subst hname
  obtain ⟨hone, hnone⟩ := overlay_cname hrr ((hpre _).1.trans (hcname _))
    (fun h => (List.not_mem_nil ((hpre _).2.mp h)).elim)
    (fun hp t => (hpre t).1.trans (hmanual hp _ t))
  refine ⟨rr, ?_, fun t ht => ?_⟩
  · rw [Index.overlayAll, List.foldl_append, List.foldl_cons, (foldl_of_ne hafter).1]
    exact hone
  · rw [Index.overlayAll, List.foldl_append, List.foldl_cons, (foldl_of_ne hafter).1]
    exact hnone t ht

end Overlay

section Alone

variable {E : Externals} {db : Db} {zr : ZoneRow}

theorem materialized_eq (zr : ZoneRow) (records : List RecordRow) :
    materialized E zr records = records.filterMap (RecordRow.built E zr) :=
  rfl

theorem setAt_synthesized (cfg : SynthConfig) (db : Db) (zr : ZoneRow) (names : List Name) :
    (∀ owner, ((Index.mk [] names).addAll E (synthesized E cfg db zr)).setAt owner typeCNAME = []) ∧
      ((zr.mode == .pattern) = false → ∀ owner t,
        ((Index.mk [] names).addAll E (synthesized E cfg db zr)).setAt owner t = []) := by
  refine ⟨fun owner => ?_, fun hmode owner t => ?_⟩
  · refine List.eq_nil_iff_forall_not_mem.mpr fun rr hrr => ?_
    have htype := (((filed_empty E names).addAll _) owner typeCNAME rr hrr).2
    rcases mem_setAt_addAll hrr with h | h
    · cases h
    · exact synthesized_ne_cname h htype
  · have hempty : synthesized E cfg db zr = [] := by
      rw [synthesized]
      cases hm : zr.mode with
      | manual => rfl
      | pattern =>
        rw [hm] at hmode
        cases hmode
    rw [hempty]
    rfl

theorem buildZone_alone (cfg : SynthConfig)
    (hfree : (db.recordsOf zr.id).Pairwise fun r r' => ¬ Clash E zr r r') (owner : Name)
    (howner : (buildZone E cfg db zr).index.setAt owner typeCNAME ≠ []) :
    ((buildZone E cfg db zr).index.setAt owner typeCNAME).length = 1 ∧
      ∀ t, t ≠ typeCNAME → (buildZone E cfg db zr).index.setAt owner t = [] ∨
        (owner = (buildZone E cfg db zr).originFQDN ∧ t = typeSOA ∧
          (buildZone E cfg db zr).index.setAt owner t = [(buildZone E cfg db zr).soa]) := by
  obtain ⟨hcname, hmanual⟩ := setAt_synthesized (E := E) cfg db zr [(zr.key E).originFQDN]
  have hrrs : (materialized E zr (db.recordsOf zr.id)).Pairwise fun rr rr' =>
    ¬ sharesAlias E rr rr' := by
    rw [materialized_eq, List.pairwise_filterMap]
    exact hfree.imp fun hnot rr hrr rr' hrr' hshare => hnot ⟨rr, hrr, rr', hrr', hshare⟩
  have hne : ∀ serial, typeCNAME ≠ (soaRR E zr serial).rtype := fun _ =>
    (by decide : typeCNAME ≠ typeSOA)
  rw [buildZone] at howner ⊢
  dsimp only at howner ⊢
  generalize serialAt (latest zr (db.recordsOf zr.id) (db.stacksOf zr.tenantID)) =
    serial at howner ⊢
  rw [setAt_add_of_ne_type _ (hne serial)] at howner ⊢
  obtain ⟨rr, hone, hnone⟩ :=
    overlayAll_alone ((filed_empty E _).addAll _) hcname hmanual hrrs howner
  refine ⟨by rw [hone]; rfl, fun t ht => ?_⟩
  by_cases htype : t = (soaRR E zr serial).rtype
  · by_cases hown : owner = E.lower (soaRR E zr serial).name
    · right
      refine ⟨hown.trans (lower_soaRR E zr serial), htype, ?_⟩
      have hbefore := hnone t ht
      rw [hown, htype] at hbefore ⊢
      rw [setAt_add_self, hbefore, List.nil_append]
    · left
      rw [setAt_add_of_ne _ hown]
      exact hnone t ht
  · left
    rw [setAt_add_of_ne_type _ htype]
    exact hnone t ht

/-- Whatever records are created and revoked, as long as the check sees what the snapshot will, and
however the database orders the rows, an alias is alone at its name. -/
theorem aliasesAlone_of_foreseen (E : Externals) (flagDefaults : SynthConfig) (db : Db)
    (hstart : db.records = []) (ops : List (Int × RecordOp))
    (hseen : ∀ pre op post, ops = pre ++ op :: post → Foreseen E (db.after E pre) op.1 op.2)
    (records : List RecordRow) (hperm : records.Perm (db.after E ops).records) :
    AliasesAlone (buildSnapshot E flagDefaults { db.after E ops with records }) := by
  have hempty : ClashFree E db := by
    intro zr _ _
    rw [Db.recordsOf, hstart]
    exact .nil
  have hfree := (hempty.after hseen).perm hperm
  intro z hz owner howner
  rw [buildSnapshot, List.mem_insertionSort] at hz
  obtain ⟨zr, hzr, rfl⟩ := List.mem_map.mp hz
  obtain ⟨hmem, hserved⟩ := List.mem_filter.mp hzr
  exact buildZone_alone _ (hfree zr hmem hserved) owner howner

def addressRequest (name : Name) : Int × RecordOp :=
  (0, .create "1" "dnz_1" name .a none "192.0.2.1".toList)

def aliasRequest (name : Name) : Int × RecordOp :=
  (0, .create "2" "dnz_1" name .cname none "cdn.example".toList)

/-- `WWW` gets an address and `www` an alias: the check takes them for two names. -/
theorem not_aliasesAlone_case :
    ¬ AliasesAlone (buildSnapshot zoneFile bareConfig
      ((manualDb []).after zoneFile [addressRequest "WWW".toList, aliasRequest "www".toList])) := by
  intro h
  have halone := h (aliasZone ((manualDb []).after zoneFile
    [addressRequest "WWW".toList, aliasRequest "www".toList])) (by decide +kernel)
    "www.acme.example.".toList (by decide +kernel)
  exact absurd (halone.2 typeA (by decide +kernel)) (by decide +kernel)

/-- The address is refused where the alias is. -/
theorem aliasesAlone_refused :
    AliasesAlone (buildSnapshot zoneFile bareConfig
      ((manualDb []).after zoneFile [aliasRequest "www".toList, addressRequest "www".toList])) := by
  refine aliasesAlone_of_foreseen zoneFile bareConfig (manualDb []) rfl
    [aliasRequest "www".toList, addressRequest "www".toList] (fun pre op post heq => ?_) _ (.refl _)
  cases pre with
  | nil =>
    obtain ⟨rfl, -⟩ := List.cons_eq_cons.mp heq
    intro stored _ zr _ _ _ r' hr'
    exact (List.not_mem_nil hr').elim
  | cons x pre =>
    obtain ⟨rfl, hrest⟩ := List.cons_eq_cons.mp heq
    cases pre with
    | nil =>
      obtain ⟨rfl, -⟩ := List.cons_eq_cons.mp hrest
      intro stored _ zr _ _ _ r' hr' _
      have hall :
        ∀ r ∈ ((manualDb []).after zoneFile [aliasRequest "www".toList]).recordsOf "dnz_1",
          r.name = Db.checkedName "www".toList ∧ (RecordType.a = .cname ∨ r.rtype = .cname) := by
        decide
      exact hall r' hr'
    | cons y pre =>
      obtain ⟨-, hnil⟩ := List.cons_eq_cons.mp hrest
      cases pre with
      | nil => cases hnil
      | cons w pre => cases hnil

end Alone

end ThanksComputer.Dns
