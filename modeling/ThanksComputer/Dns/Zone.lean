import Mathlib.Algebra.Ring.Int.Defs
import Mathlib.Algebra.Ring.Nat
import Mathlib.Data.List.Sort
import ThanksComputer.Dns.Records
import ThanksComputer.Lib.Assoc
import ThanksComputer.Lib.Builtin

/-! The zones the DNS head serves (`server/personality/dns/zone.go`): a snapshot built from the rows
of the runtime mirror, and how a question is answered from it. -/

namespace ThanksComputer.Dns

open Lib (toLower_toLower toLower_eq_iff)
open Net Guard Lib.Assoc

section Rows

/-- An instant, in nanoseconds since 1970.  A row holds its stamps as text; they stand here as what
`parseTS` reads of them. -/
abbrev Time := Int

/-- `time.Time{}`. -/
def zeroTime : Time := -62135596800 * 10 ^ 9

inductive Mode
  | pattern
  | manual
  deriving DecidableEq

inductive AnswerMode
  | snapshot
  | stack
  deriving DecidableEq

inductive Fallback
  | proposal
  | servfail
  deriving DecidableEq

inductive RecordType
  | ns
  | a
  | aaaa
  | mx
  | txt
  | cname
  deriving DecidableEq

def RecordType.text : RecordType → Str
  | .ns => "NS".toList
  | .a => "A".toList
  | .aaaa => "AAAA".toList
  | .mx => "MX".toList
  | .txt => "TXT".toList
  | .cname => "CNAME".toList

/-- A row of `dns_zones`. -/
structure ZoneRow where
  id : String
  tenantID : String
  origin : Name
  mname : Name
  rname : Name
  refresh : Nat
  retry : Nat
  expire : Nat
  minimum : Nat
  defaultTTL : Nat
  mode : Mode
  updatedAt : Option Time
  dkimSelector : Str
  dkimPublicB64 : Str
  answerMode : AnswerMode
  stackFallback : Fallback
  verifiedAt : Option Time
  revokedAt : Option Time
  deriving DecidableEq

/-- A row of `dns_records`. -/
structure RecordRow where
  id : String
  zoneID : String
  name : Name
  rtype : RecordType
  ttl : Option Int
  rdata : Str
  updatedAt : Option Time
  revokedAt : Option Time
  deriving DecidableEq

/-- A stack that has an active version, with that version's activation. -/
structure StackRow where
  tenantID : String
  name : Str
  activatedAt : Option Time
  deriving DecidableEq

structure TenantRow where
  tenantID : String
  slug : Str
  deriving DecidableEq

/-- What of the runtime mirror a snapshot is built from. -/
structure Db where
  zones : List ZoneRow
  records : List RecordRow
  activeStacks : List StackRow
  tenants : List TenantRow
  hostnames : List HostRow
  settings : Option Settings
  deriving DecidableEq

def ZoneRow.served (zr : ZoneRow) : Bool :=
  zr.revokedAt.isNone && zr.verifiedAt.isSome

def Db.recordsOf (db : Db) (zoneID : String) : List RecordRow :=
  db.records.filter fun r => r.zoneID == zoneID && r.revokedAt.isNone

def Db.stacksOf (db : Db) (tenantID : String) : List StackRow :=
  db.activeStacks.filter fun s => s.tenantID == tenantID

def Db.slugOf (db : Db) (tenantID : String) : Str :=
  ((db.tenants.find? fun t => t.tenantID == tenantID).map TenantRow.slug).getD []

end Rows

local instance : LawfulBEq Name :=
  inferInstance

section Index

variable (E : Externals)

/-- The answers of a zone, by owner and type, and the names that exist in it. -/
structure Index where
  rr : List (Name × List (RRType × List RR))
  names : List Name
  deriving DecidableEq

namespace Index

variable (ix : Index)

def clearOwnerType (owner : Name) (t : RRType) : Index :=
  { ix with
    rr := ix.rr.map fun e => if e.1 = E.lower owner then (e.1, e.2.filter fun b => b.1 != t)
      else e }

def clearOwner (owner : Name) : Index :=
  { ix with rr := ix.rr.filter fun e => e.1 != E.lower owner }

def add (rr : RR) : Index :=
  let owner := E.lower rr.name
  { rr := upsert owner
      (fun byType => upsert rr.rtype (fun rrs => rrs.getD [] ++ [rr]) (byType.getD [])) ix.rr
    names := if owner ∈ ix.names then ix.names else ix.names ++ [owner] }

def addAll (rrs : List RR) : Index :=
  rrs.foldl (add E) ix

/-- A stored record: in a pattern zone the first one of its owner and type takes the place of what
was made up there, a CNAME that of the whole owner.  `cleared` are the owners and types this was
done for. -/
def overlay (pattern : Bool) (state : Index × List (Name × RRType)) (rr : RR) :
    Index × List (Name × RRType) :=
  let owner := E.lower rr.name
  if pattern && !state.2.contains (owner, rr.rtype) then
    ((if rr.rtype = typeCNAME then state.1.clearOwner E owner
      else state.1.clearOwnerType E owner rr.rtype).add E rr, (owner, rr.rtype) :: state.2)
  else (state.1.add E rr, state.2)

def overlayAll (pattern : Bool) (rrs : List RR) : Index :=
  (rrs.foldl (overlay E pattern) (ix, [])).1

end Index

end Index

section Build

variable (E : Externals)

structure Zone where
  tenantID : String
  origin : Name
  originFQDN : Name
  soa : RR
  defaultTTL : Nat
  serial : Nat
  wildSRVService : Str
  mode : Mode
  tenantSlug : Str
  observe : Bool
  stackAnswered : Bool
  fallback : Fallback
  index : Index
  deriving DecidableEq

/-- `strings.ReplaceAll(s, c, "\\" + c)`. -/
def escape (c : Char) (s : Str) : Str :=
  s.flatMap fun d => if d = c then ['\\', c] else [d]

def txtRdata (raw : Str) : Str :=
  let raw := trimSpace raw
  if raw.head? = some '"' then raw else '"' :: escape '"' (escape '\\' raw) ++ ['"']

def buildRR (origin originFQDN : Name) (name : Name) (rtype : RecordType) (ttl : Nat)
    (rdata : Str) :
    Option RR :=
  let owner := if name = ['@'] ∨
    name = [] then originFQDN else E.fqdn (E.lower name ++ '.' :: origin)
  let rdataPres := if rtype = .txt then txtRdata rdata else rdata
  E.newRR (owner ++ ' ' :: (toString ttl).toList ++ " IN ".toList ++ rtype.text ++ ' ' :: rdataPres)

def effTTL (defaultTTL : Nat) : Option Int → Nat
  | some t => if 0 ≤ t then t.toNat % 2 ^ 32 else defaultTTL
  | none => defaultTTL

/-- The later one of two stamps; one that cannot be read does not count. -/
def later (t : Time) : Option Time → Time
  | some u => if t < u then u else t
  | none => t

/-- The latest stamp of the zone, its records and, for a pattern zone, its tenant's activations. -/
def latest (zr : ZoneRow) (records : List RecordRow) (active : List StackRow) : Time :=
  let t := (records.map RecordRow.updatedAt).foldl later (zr.updatedAt.getD zeroTime)
  if zr.mode = .pattern then (active.map StackRow.activatedAt).foldl later t else t

/-- `uint32(maxT.UTC().Unix())`, and 1 for 0. -/
def serialAt (t : Time) : Nat :=
  let serial := ((t / 10 ^ 9) % 2 ^ 32).toNat
  if serial = 0 then 1 else serial

def observeStack : Str := "_dns".toList

def ZoneRow.canonicalOrigin (zr : ZoneRow) : Name :=
  E.lower (trimLast '.' zr.origin)

def ZoneRow.key (zr : ZoneRow) : ZoneKey where
  origin := zr.canonicalOrigin E
  originFQDN := E.fqdn (zr.canonicalOrigin E)
  defaultTTL := zr.defaultTTL
  dkimSelector := zr.dkimSelector
  dkimPubB64 := zr.dkimPublicB64

def synthesized (cfg : SynthConfig) (db : Db) (zr : ZoneRow) : List RR :=
  let key := zr.key E
  match zr.mode with
  | .manual => []
  | .pattern =>
    synthesize E cfg key ((db.stacksOf zr.tenantID).map StackRow.name) ++
      if isSuffixZone cfg key.origin then
        perHostRRs E cfg db.hostnames key.origin (synthTTL cfg key)
      else []

def materialized (zr : ZoneRow) (records : List RecordRow) : List RR :=
  let key := zr.key E
  records.filterMap fun r =>
    buildRR E key.origin key.originFQDN r.name r.rtype (effTTL zr.defaultTTL r.ttl) r.rdata

def soaRR (zr : ZoneRow) (serial : Nat) : RR where
  name := (zr.key E).originFQDN
  rtype := typeSOA
  ttl := zr.defaultTTL
  data := .soa (E.fqdn zr.mname) (E.fqdn zr.rname) serial zr.refresh zr.retry zr.expire zr.minimum

theorem lower_soaRR (zr : ZoneRow) (serial : Nat) :
    E.lower (soaRR E zr serial).name = (zr.key E).originFQDN := by
  change E.lower (E.fqdn (E.lower _)) = E.fqdn (E.lower _)
  rw [E.lower_fqdn, E.lower_lower]

/-- The body of the loop of `BuildSnapshot`. -/
def buildZone (cfg : SynthConfig) (db : Db) (zr : ZoneRow) : Zone :=
  let key := zr.key E
  let active := db.stacksOf zr.tenantID
  let records := db.recordsOf zr.id
  let slug := db.slugOf zr.tenantID
  let observe := active.any (fun s => s.name == observeStack) && slug != []
  let serial := serialAt (latest zr records active)
  let soa := soaRR E zr serial
  { tenantID := zr.tenantID
    origin := key.origin
    originFQDN := key.originFQDN
    soa := soa
    defaultTTL := zr.defaultTTL
    serial := serial
    wildSRVService := if zr.mode = .pattern ∧ isSuffixZone cfg key.origin ∧ cfg.imapsPort ≠ 0 then
      "_imaps._tcp.".toList else []
    mode := zr.mode
    tenantSlug := slug
    observe := observe
    stackAnswered := observe && zr.answerMode == .stack
    fallback := zr.stackFallback
    index := (((Index.mk [] [key.originFQDN]).addAll E (synthesized E cfg db zr)).overlayAll E
      (zr.mode == .pattern) (materialized E zr records)).add E soa }

abbrev ZoneSnapshot := List Zone

/-- `BuildSnapshot`, with the longest origins first. -/
def buildSnapshot (flagDefaults : SynthConfig) (db : Db) : ZoneSnapshot :=
  ((db.zones.filter ZoneRow.served).map
    (buildZone E (effectiveSynthConfig db.settings flagDefaults) db)).insertionSort
      fun a b => b.originFQDN.length ≤ a.originFQDN.length

end Build

section Lookup

variable (E : Externals)

structure Question where
  name : Name
  qtype : RRType
  deriving DecidableEq

inductive Rcode
  | success
  | servfail
  | nameError
  | refused
  deriving DecidableEq

structure Answer where
  answer : List RR
  ns : List RR
  rcode : Rcode
  deriving DecidableEq

def Zone.covers (z : Zone) (name : Name) : Bool :=
  name == z.originFQDN || ('.' :: z.originFQDN).isSuffixOf name

def ZoneSnapshot.zoneFor (snap : ZoneSnapshot) (qname : Name) : Option Zone :=
  snap.find? fun z => z.covers qname

def rrsOf (byType : List (RRType × List RR)) (t : RRType) : List RR :=
  (byType.lookup t).getD []

namespace Zone

variable (z : Zone)

/-- The loop of `chaseCNAME`. -/
def chase (qtype : RRType) : Nat → List Name → RR → List RR → List RR
  | 0, _, _, out => out
  | depth + 1, seen, cur, out =>
    match cur.data with
    | .cname target =>
      let target := E.lower target
      if target ∈ seen ∨ !z.covers target then out
      else match z.index.rr.lookup target with
        | none => out
        | some byType =>
          match rrsOf byType qtype, rrsOf byType typeCNAME with
          | rr :: rrs, _ => out ++ rr :: rrs
          | [], [] => out
          | [], next :: more => chase qtype depth (target :: seen) next (out ++ next :: more)
    | _ => out

def chaseCNAME (qtype : RRType) (start : RR) (more : List RR) : List RR :=
  z.chase E qtype 8 [] start (start :: more)

def nodata : Answer := ⟨[], [z.soa], .success⟩

def wildcard : Name := '*' :: '.' :: z.originFQDN

def lookupExact (byType : List (RRType × List RR)) (qtype : RRType) : Answer :=
  match rrsOf byType qtype, rrsOf byType typeCNAME with
  | rr :: rrs, _ => ⟨rr :: rrs, [], .success⟩
  | [], cn :: more => if qtype ≠ typeCNAME then ⟨z.chaseCNAME E qtype cn more, [], .success⟩
    else z.nodata
  | [], [] => z.nodata

/-- The answer from the records of the wildcard, with the name asked for as their owner. -/
def lookupWild (byType : List (RRType × List RR)) (qname : Name) (qtype : RRType) : Answer :=
  if qtype = typeSRV ∧ z.wildSRVService ≠ [] ∧ !z.wildSRVService.isPrefixOf qname then z.nodata
  else match rrsOf byType qtype, rrsOf byType typeCNAME with
    | rr :: rrs, _ => ⟨(rr :: rrs).map fun r => { r with name := qname }, [], .success⟩
    | [], cn :: _ =>
      if qtype ≠ typeCNAME then ⟨z.chaseCNAME E qtype { cn with name := qname } [], [], .success⟩
      else z.nodata
    | [], [] => z.nodata

/-- The part of `Lookup` behind the choice of the zone. -/
def lookup (qname : Name) (qtype : RRType) : Answer :=
  if qtype = typeANY then ⟨[], [], .refused⟩
  else match z.index.rr.lookup qname with
    | some byType => z.lookupExact E byType qtype
    | none =>
      if qname ∈ z.index.names then z.nodata
      else match z.index.rr.lookup z.wildcard with
        | some byType => z.lookupWild E byType qname qtype
        | none => ⟨[], [z.soa], .nameError⟩

end Zone

def Question.qname (q : Question) : Name :=
  E.lower (E.fqdn q.name)

def ZoneSnapshot.lookup (snap : ZoneSnapshot) (q : Question) : Answer :=
  match snap.zoneFor (q.qname E) with
  | none => ⟨[], [], .refused⟩
  | some z => z.lookup E (q.qname E) q.qtype

end Lookup

section Plain

/-! The library and the dns package on plain input: ASCII names without escapes, IPv4 addresses, and
lines of address records. -/

def plainFqdn (s : Name) : Name :=
  if s.getLast? = some '.' then s else s ++ ['.']

theorem map_toLower_plainFqdn (s : Str) :
    (plainFqdn s).map Char.toLower = plainFqdn (s.map Char.toLower) := by
  have hlast : (s.map Char.toLower).getLast? = some '.' ↔ s.getLast? = some '.' := by
    rw [List.getLast?_map]
    cases s.getLast? with
    | none => simp
    | some c => simp [toLower_eq_iff (d := '.') (by decide)]
  rw [plainFqdn, plainFqdn]
  by_cases h : s.getLast? = some '.'
  · rw [if_pos h, if_pos (hlast.mpr h)]
  · rw [if_neg h, if_neg (mt hlast.mp h), List.map_append]
    rfl

def plainNewRR (line : Str) : Option RR :=
  match line.splitOn ' ' with
  | [name, ttl, _, rtype, rdata] =>
    if rtype = "A".toList then
      match decimal ttl, (parseIPv4 rdata).bind IP.to4 with
      | some ttl, some ip => some ⟨name, typeA, ttl, .a ip⟩
      | _, _ => none
    else none
  | _ => none

def plain : Externals where
  lowerChar := Char.toLower
  lowerChar_lowerChar := toLower_toLower
  fqdn := plainFqdn
  map_fqdn := map_toLower_plainFqdn
  parseIP := parseIPv4
  ipString := ipv4String
  newRR := plainNewRR

end Plain

end ThanksComputer.Dns
