import ThanksComputer.Dns.Zone

/-! Which names exist.  The index of a zone knows the owners of its records, and not the names that
are only above one: such a name does not exist for `Lookup`, or is taken for one of the
wildcard's. -/

namespace ThanksComputer.Dns

open Lib.Assoc

section Owners

variable {E : Externals} {ix : Index} {apex : Name}

def hasRecord (byType : List (RRType × List RR)) : Bool :=
  byType.any fun b => b.2 ≠ []

def Index.owns (ix : Index) (name : Name) : Bool :=
  (ix.rr.lookup name).any hasRecord

def Index.owners (ix : Index) : List Name :=
  (keys ix.rr).filter ix.owns

theorem mem_owners {name : Name} : name ∈ ix.owners ↔ ix.owns name = true := by
  rw [Index.owners, List.mem_filter, and_iff_right_iff_imp]
  intro h
  obtain ⟨byType, hlookup, -⟩ := (Option.any_eq_true _ _).mp h
  exact mem_keys_of_lookup hlookup

/-- Every owner but `except` has a record and is among the names, and every name but the apex has a
record. -/
structure IndexOkBut (apex : Name) (except : Name → Prop) (ix : Index) : Prop where
  owned : ∀ n, ¬ except n → ∀ byType, ix.rr.lookup n = some byType →
    hasRecord byType = true ∧ n ∈ ix.names
  named : ∀ n ∈ ix.names, ¬ except n → n = apex ∨ (ix.rr.lookup n).isSome = true

def IndexOk (apex : Name) (ix : Index) : Prop :=
  IndexOkBut apex (fun _ => False) ix

theorem IndexOk.but (h : IndexOk apex ix) (except : Name → Prop) : IndexOkBut apex except ix :=
  ⟨fun n _ => h.owned n id, fun n hn _ => h.named n hn id⟩

theorem IndexOkBut.change {owner : Name} (h : IndexOkBut apex (· = owner) ix)
    {rr : List (Name × List (RRType × List RR))}
    (hrr : ∀ n ≠ owner, rr.lookup n = ix.rr.lookup n) :
    IndexOkBut apex (· = owner) ⟨rr, ix.names⟩ where
  owned n hn byType hlookup := h.owned n hn byType (hrr n hn ▸ hlookup)
  named n hmem hn := by
    change _ ∨ (rr.lookup n).isSome = true
    rw [hrr n hn]
    exact h.named n hmem hn

theorem hasRecord_upsert (t : RRType) (rr : RR) (byType : List (RRType × List RR)) :
    hasRecord (upsert t (fun rrs => rrs.getD [] ++ [rr]) byType) = true := by
  have hmem := mem_of_lookup (lookup_upsert_self t (fun rrs => rrs.getD [] ++ [rr]) byType)
  refine List.any_eq_true.mpr ⟨_, hmem, ?_⟩
  simp

theorem rr_add (ix : Index) (rr : RR) : (ix.add E rr).rr = upsert (E.lower rr.name)
    (fun byType => upsert rr.rtype (fun rrs => rrs.getD [] ++ [rr]) (byType.getD [])) ix.rr :=
  rfl

theorem IndexOkBut.add {rr : RR} (h : IndexOkBut apex (· = E.lower rr.name) ix) :
    IndexOk apex (ix.add E rr) := by
  have hnames : ∀ n, n ∈ (ix.add E rr).names ↔ n ∈ ix.names ∨ n = E.lower rr.name := by
    intro n
    rw [Index.add]
    dsimp only
    split
    · next hmem =>
      refine ⟨.inl, ?_⟩
      rintro (hn | rfl)
      · exact hn
      · exact hmem
    · rw [List.mem_append, List.mem_singleton]
  refine ⟨fun n _ byType hlookup => ?_, fun n hn _ => ?_⟩
  · by_cases hown : n = E.lower rr.name
    · subst hown
      rw [rr_add, lookup_upsert_self, Option.some.injEq] at hlookup
      rw [← hlookup, hnames]
      exact ⟨hasRecord_upsert _ _ _, .inr rfl⟩
    · rw [rr_add, lookup_upsert_of_ne hown] at hlookup
      obtain ⟨hrec, hmem⟩ := h.owned n hown byType hlookup
      exact ⟨hrec, (hnames n).mpr (.inl hmem)⟩
  · by_cases hown : n = E.lower rr.name
    · subst hown
      right
      rw [rr_add, lookup_upsert_self]
      rfl
    · rw [rr_add, lookup_upsert_of_ne hown]
      exact h.named n (((hnames n).mp hn).resolve_right hown) hown

theorem IndexOk.add (h : IndexOk apex ix) (rr : RR) : IndexOk apex (ix.add E rr) :=
  (h.but _).add

theorem IndexOk.addAll (h : IndexOk apex ix) (rrs : List RR) : IndexOk apex (ix.addAll E rrs) := by
  induction rrs generalizing ix with
  | nil => exact h
  | cons rr rrs ih => exact ih (h.add rr)

theorem IndexOk.clear (h : IndexOk apex ix) (rr : RR) :
    IndexOkBut apex (· = E.lower rr.name)
      (if rr.rtype = typeCNAME then ix.clearOwner E (E.lower rr.name)
      else ix.clearOwnerType E (E.lower rr.name) rr.rtype) := by
  split
  · rw [Index.clearOwner, E.lower_lower]
    exact (h.but _).change fun n hn => lookup_filter_of_ne hn ix.rr
  · rw [Index.clearOwnerType, E.lower_lower]
    refine (h.but _).change fun n hn =>
      lookup_map_of_ne hn (fun e => ?_) (fun e he => if_neg he) ix.rr
    split
    · rfl
    · rfl

theorem IndexOk.overlayAll (h : IndexOk apex ix) (pattern : Bool) (rrs : List RR) :
    IndexOk apex (ix.overlayAll E pattern rrs) := by
  rw [Index.overlayAll]
  generalize ([] : List (Name × RRType)) = cleared
  induction rrs generalizing ix cleared with
  | nil => exact h
  | cons rr rrs ih =>
    rw [List.foldl_cons, Index.overlay]
    dsimp only
    split
    · exact ih (h.clear rr).add _
    · exact ih (h.add rr) _

theorem buildZone_names (cfg : SynthConfig) (db : Db) (zr : ZoneRow) :
    let z := buildZone E cfg db zr
    IndexOk z.originFQDN z.index ∧ (z.index.rr.lookup z.originFQDN).isSome = true := by
  have hstart : IndexOk (zr.key E).originFQDN ⟨[], [(zr.key E).originFQDN]⟩ :=
    ⟨fun n _ byType hlookup => (by cases hlookup), fun n hn _ => .inl (List.mem_singleton.mp hn)⟩
  refine ⟨((hstart.addAll _).overlayAll _ _).add _, ?_⟩
  rw [buildZone]
  dsimp only
  rw [rr_add, lower_soaRR, lookup_upsert_self]
  rfl

end Owners

section Names

variable (E : Externals)

/-- The text ends in an odd number of backslashes, so that what follows is escaped. -/
def endsEscaped (s : Name) : Bool :=
  (s.reverse.takeWhile (· == '\\')).length % 2 == 1

/-- The owner is under the name, by one label or more. -/
def liesBelow (owner name : Name) : Bool :=
  ('.' :: name).isSuffixOf owner && !endsEscaped (owner.take (owner.length - name.length - 1))

/-- A name is denied only when nothing is at it or below it, and one that only has names below it is
there, without records.  ANY is refused, at every name. -/
def ExistenceRight (snap : ZoneSnapshot) (q : Question) : Prop :=
  ∀ z ∈ snap.zoneFor (q.qname E),
    ((snap.lookup E q).rcode = .nameError → ∀ o ∈ z.index.owners, o ≠ q.qname E ∧
      liesBelow o (q.qname E) = false) ∧
    ((snap.lookup E q).rcode ≠ .refused → q.qname E ∉ z.index.owners →
      (∃ o ∈ z.index.owners, liesBelow o (q.qname E) = true) →
      (snap.lookup E q).answer = [] ∧ (snap.lookup E q).rcode = .success)

/-- The wildcard has nothing for the question: it is for another service than the wildcard's, or the
wildcard has neither the type nor a CNAME. -/
def wildSilent (z : Zone) (qname : Name) (qtype : RRType) : Bool :=
  (z.index.rr.lookup z.wildcard).any fun byType =>
    (qtype == typeSRV && z.wildSRVService != [] && !z.wildSRVService.isPrefixOf qname) ||
      ((rrsOf byType qtype).isEmpty && ((rrsOf byType typeCNAME).isEmpty || qtype == typeCNAME))

/-- The name owns records or has no owner below it, or else the question is for ANY or the wildcard
has nothing for it. -/
def NotBareParent (snap : ZoneSnapshot) (q : Question) : Prop :=
  ∀ z ∈ snap.zoneFor (q.qname E),
    q.qtype = typeANY ∨ q.qname E ∈ z.index.owners ∨
      (∀ o ∈ z.index.owners, liesBelow o (q.qname E) = false) ∨
      wildSilent z (q.qname E) q.qtype = true

variable {E} {z : Zone}

theorem chase_ne_nil {qtype : RRType} {depth : Nat} {seen : List Name} {cur : RR} {out : List RR}
    (h : out ≠ []) : z.chase E qtype depth seen cur out ≠ [] := by
  induction depth generalizing seen cur out with
  | zero => exact h
  | succ depth ih =>
    rw [Zone.chase]
    split
    · dsimp only
      split
      · exact h
      split
      · exact h
      split
      · exact List.append_ne_nil_of_left_ne_nil h _
      · exact h
      · exact ih (List.append_ne_nil_of_left_ne_nil h _)
    · exact h

theorem rcode_lookupExact (byType : List (RRType × List RR)) (qtype : RRType) :
    (z.lookupExact E byType qtype).rcode = .success := by
  rw [Zone.lookupExact]
  split
  · rfl
  · split
    · rfl
    · rfl
  · rfl

theorem lookupWild_silent {byType : List (RRType × List RR)}
    (hwild : z.index.rr.lookup z.wildcard = some byType) (qname : Name) (qtype : RRType) :
    (z.lookupWild E byType qname qtype).rcode = .success ∧
      ((z.lookupWild E byType qname qtype).answer = [] ↔ wildSilent z qname qtype = true) := by
  rw [wildSilent, hwild, Option.any_some, Zone.lookupWild]
  split
  · next hsrv =>
    refine ⟨rfl, iff_of_true rfl ?_⟩
    simp [hsrv.1, hsrv.2.1, hsrv.2.2]
  next hsrv =>
  have hgate : (qtype == typeSRV && z.wildSRVService != [] &&
      !z.wildSRVService.isPrefixOf qname) = false := by
    rw [Bool.eq_false_iff]
    intro h
    rw [Bool.and_eq_true, Bool.and_eq_true, beq_iff_eq, bne_iff_ne] at h
    exact hsrv ⟨h.1.1, h.1.2, h.2⟩
  rw [hgate, Bool.false_or]
  split
  · next hsome =>
    refine ⟨rfl, iff_of_false (List.cons_ne_nil _ _) ?_⟩
    simp [hsome]
  · next hnone hcn =>
    rw [hnone, hcn]
    split
    · next hne =>
      refine ⟨rfl, iff_of_false (chase_ne_nil (List.cons_ne_nil _ _)) ?_⟩
      simp [hne]
    · next heq =>
      refine ⟨rfl, iff_of_true rfl ?_⟩
      simp [not_not.mp heq]
  · next hnone hcn =>
    refine ⟨rfl, iff_of_true rfl ?_⟩
    simp [hnone, hcn]

theorem not_exists_below {owners : List Name} {name : Name} :
    ¬ (∃ o ∈ owners, liesBelow o name = true) ↔ ∀ o ∈ owners, liesBelow o name = false := by
  simp

theorem existence_zone (hok : IndexOk z.originFQDN z.index)
    (hapex : (z.index.rr.lookup z.originFQDN).isSome = true) (qname : Name) (qtype : RRType) :
    (((z.lookup E qname qtype).rcode = .nameError → ∀ o ∈ z.index.owners, o ≠ qname ∧
        liesBelow o qname = false) ∧
      ((z.lookup E qname qtype).rcode ≠ .refused → qname ∉ z.index.owners →
        (∃ o ∈ z.index.owners, liesBelow o qname = true) →
        (z.lookup E qname qtype).answer = [] ∧ (z.lookup E qname qtype).rcode = .success)) ↔
    (qtype = typeANY ∨ qname ∈ z.index.owners ∨ (∀ o ∈ z.index.owners, liesBelow o qname = false) ∨
      wildSilent z qname qtype = true) := by
  rw [Zone.lookup]
  split
  · next hany => exact iff_of_true ⟨nofun, fun h => absurd rfl h⟩ (.inl hany)
  next hany =>
  split
  · next byType hlookup =>
    -- The name has records of its own.
    have hown : qname ∈ z.index.owners := by
      rw [mem_owners, Index.owns, hlookup]
      exact (hok.owned qname id byType hlookup).1
    rw [rcode_lookupExact]
    exact iff_of_true ⟨nofun, fun _ hnot => absurd hown hnot⟩ (.inr (.inl hown))
  next hlookup =>
  have hnot : qname ∉ z.index.owners := by
    rw [mem_owners, Index.owns, hlookup]
    exact Bool.false_ne_true
  have hname : qname ∉ z.index.names := by
    intro hmem
    rcases hok.named qname hmem id with rfl | hsome
    · rw [hlookup] at hapex
      cases hapex
    · rw [hlookup] at hsome
      cases hsome
  rw [if_neg hname]
  split
  · next byType hwild =>
    obtain ⟨hrcode, hsilent⟩ := lookupWild_silent (E := E) hwild qname qtype
    rw [hrcode, hsilent]
    constructor
    · rintro ⟨-, hbelow⟩
      by_cases hb : ∃ o ∈ z.index.owners, liesBelow o qname = true
      · exact .inr (.inr (.inr (hbelow (by decide) hnot hb).1))
      · exact .inr (.inr (.inl (not_exists_below.mp hb)))
    · rintro (h | h | h | h)
      · exact absurd h hany
      · exact absurd h hnot
      · exact ⟨nofun, fun _ _ hb => absurd hb (not_exists_below.mpr h)⟩
      · exact ⟨nofun, fun _ _ _ => ⟨h, rfl⟩⟩
  · next hwild =>
    have hsilent : wildSilent z qname qtype = false := by
      rw [wildSilent, hwild]
      rfl
    rw [hsilent]
    constructor
    · rintro ⟨hdenied, -⟩
      exact .inr (.inr (.inl fun o ho => (hdenied rfl o ho).2))
    · rintro (h | h | h | h)
      · exact absurd h hany
      · exact absurd h hnot
      · refine ⟨fun _ o ho => ⟨fun heq => hnot (heq ▸ ho), h o ho⟩, fun _ _ hb => ?_⟩
        exact absurd hb (not_exists_below.mpr h)
      · cases h

/-- A question about a zone is answered rightly, as to which names exist, just when its name is none
that only has owners below it, or else it is for ANY or the wildcard has nothing for it. -/
theorem existenceRight_iff (E : Externals) (flagDefaults : SynthConfig) (db : Db) (q : Question) :
    ExistenceRight E (buildSnapshot E flagDefaults db) q ↔
      NotBareParent E (buildSnapshot E flagDefaults db) q := by
  refine forall₂_congr fun z hz => ?_
  have hmem := List.mem_of_find?_eq_some hz
  rw [buildSnapshot, List.mem_insertionSort] at hmem
  obtain ⟨zr, -, rfl⟩ := List.mem_map.mp hmem
  obtain ⟨hok, hapex⟩ :=
    buildZone_names (E := E) (effectiveSynthConfig db.settings flagDefaults) db zr
  have hlookup : (buildSnapshot E flagDefaults db).lookup E q =
      (buildZone E (effectiveSynthConfig db.settings flagDefaults) db zr).lookup E
        (q.qname E) q.qtype := by
    rw [ZoneSnapshot.lookup, hz]
  rw [hlookup]
  exact existence_zone hok hapex (q.qname E) q.qtype

instance (E : Externals) (snap : ZoneSnapshot) (q : Question) :
    Decidable (ExistenceRight E snap q) :=
  inferInstanceAs (Decidable (∀ z ∈ snap.zoneFor (q.qname E), (_ → ∀ o ∈ z.index.owners, _) ∧
    (_ → _ → (∃ o ∈ z.index.owners, _) → _)))

def mailConfig : SynthConfig where
  nameservers := ["ns1.thanks.computer".toList]
  edgeIPs := ["203.0.113.7".toList]
  mxHost := []
  mxPriority := 0
  ttl := 60
  spfOverride := []
  dmarc := []
  imapsPort := 993
  caldavsPort := 0
  carddavsPort := 0
  ipp := false
  structuredSuffix := []

def acmeRow : ZoneRow where
  id := "dnz_1"
  tenantID := "acme"
  origin := "acme.example".toList
  mname := "ns1.thanks.computer".toList
  rname := "hostmaster.thanks.computer".toList
  refresh := 7200
  retry := 3600
  expire := 1209600
  minimum := 90
  defaultTTL := 60
  mode := .pattern
  updatedAt := some (1700000000 * 10 ^ 9)
  dkimSelector := []
  dkimPublicB64 := []
  answerMode := .snapshot
  stackFallback := .proposal
  verifiedAt := some (1700000000 * 10 ^ 9)
  revokedAt := none

def acmeDb : Db where
  zones := [acmeRow]
  records := []
  activeStacks := []
  tenants := [⟨"acme", "acme".toList⟩]
  hostnames := []
  settings := none

/-- `_tcp.acme.example` is denied, with `_imaps._tcp.acme.example` under it. -/
theorem not_existenceRight_tcp :
    ¬ ExistenceRight plain
      (buildSnapshot plain mailConfig acmeDb) ⟨"_tcp.acme.example".toList, typeA⟩ := by
  decide +kernel

end Names

end ThanksComputer.Dns
