import ThanksComputer.Net.Address

/-! Resource records, and those the DNS head makes up for a zone
(`server/personality/dns/synth.go`, `tenants/handle.go`). -/

namespace ThanksComputer.Dns

open Net Guard

abbrev Name := Str

/-- The types the head names; a record may have any other. -/
abbrev RRType := Nat

def typeA : RRType := 1
def typeNS : RRType := 2
def typeCNAME : RRType := 5
def typeSOA : RRType := 6
def typeMX : RRType := 15
def typeTXT : RRType := 16
def typeAAAA : RRType := 28
def typeSRV : RRType := 33
def typeANY : RRType := 255

inductive RData
  | a (ip : IP)
  | aaaa (ip : IP)
  | ns (ns : Name)
  | cname (target : Name)
  | soa (ns mbox : Name) (serial refresh retry expire minttl : Nat)
  | mx (preference : Nat) (mx : Name)
  | txt (txt : List Str)
  | srv (priority weight port : Nat) (target : Name)
  | other (rdata : Str)
  deriving DecidableEq

/-- `dns.RR`; the class is always IN. -/
structure RR where
  name : Name
  rtype : RRType
  ttl : Nat
  data : RData
  deriving DecidableEq

/-- What the head uses of Go's library and of the dns package: lower case, which is the same in
lower case; fully qualified names, where the dot at the end has no case; addresses; and the reading
of one line of a zone file. -/
structure Externals where
  lowerChar : Char → Char
  lowerChar_lowerChar : ∀ c, lowerChar (lowerChar c) = lowerChar c
  fqdn : Name → Name
  map_fqdn : ∀ s, (fqdn s).map lowerChar = fqdn (s.map lowerChar)
  parseIP : Str → Option IP
  ipString : IP → Str
  newRR : Str → Option RR

namespace Externals

variable (E : Externals)

/-- `strings.ToLower`. -/
def lower (s : Str) : Str :=
  s.map E.lowerChar

theorem lower_lower (s : Str) : E.lower (E.lower s) = E.lower s := by
  rw [lower, lower, List.map_map]
  exact List.map_congr_left fun c _ => E.lowerChar_lowerChar c

theorem lower_fqdn (s : Str) : E.lower (E.fqdn s) = E.fqdn (E.lower s) :=
  E.map_fqdn s

theorem lower_dropLast (s : Str) : E.lower s.dropLast = (E.lower s).dropLast :=
  List.map_dropLast

end Externals

structure SynthConfig where
  nameservers : List Str
  edgeIPs : List Str
  mxHost : Str
  mxPriority : Nat
  ttl : Nat
  spfOverride : Str
  dmarc : Str
  imapsPort : Nat
  caldavsPort : Nat
  carddavsPort : Nat
  ipp : Bool
  structuredSuffix : Str
  deriving DecidableEq

/-- The `dns_settings` row. -/
structure Settings where
  nameservers : List Str
  edgeIPs : List Str
  mxHost : Str
  mxPriority : Int
  synthTTL : Int
  deriving DecidableEq

def effectiveSynthConfig (settings : Option Settings) (flagDefaults : SynthConfig) : SynthConfig :=
  match settings with
  | none => flagDefaults
  | some s =>
    { flagDefaults with
      nameservers := s.nameservers
      edgeIPs := s.edgeIPs
      mxHost := s.mxHost
      mxPriority := s.mxPriority.toNat % 2 ^ 16
      ttl := s.synthTTL.toNat % 2 ^ 32 }

section Stacks

/-- A run of characters outside `a-z0-9` becomes one dash. -/
def dashRuns (dashed : Bool) : Str → Str
  | [] => []
  | c :: s =>
    if isLabelChar c then c :: dashRuns false s
    else if dashed then dashRuns true s
    else '-' :: dashRuns true s

def trimDashes (s : Str) : Str :=
  ((s.dropWhile (· == '-')).reverse.dropWhile (· == '-')).reverse

def handleHintMaxLen : Nat := 30

/-- `sanitizeHint`; no two dashes are left together once runs have become one. -/
def sanitizeHint (lower : Str → Str) (stack : Str) : Str :=
  let s := trimDashes (dashRuns false (lower (trimSpace stack)))
  if handleHintMaxLen < s.length then trimDashes (s.take handleHintMaxLen) else s

def stackLabel (lower : Str → Str) (stack : Str) : Str :=
  sanitizeHint lower stack

def hostedStack (lower : Str → Str) (stack : Str) : Bool :=
  if stack = [] || stack.head? == some '_' || contains stack "/_".toList then false
  else
    let ls := lower stack
    !(ls == "boot".toList || "boot/".toList.isPrefixOf ls || ls == "txc-continuation".toList)

def ippHostLabel : Str := "ipp".toList

def reservedZoneLabel (lower : Str → Str) (label : Str) : Bool :=
  lower label == ippHostLabel

end Stacks

section Make

variable (E : Externals)

/-- `chunk255`, with a character for a byte. -/
def chunk255 (s : Str) : List Str :=
  if s.length ≤ 255 then [s] else s.toChunks 255

def mkSRV (owner : Name) (ttl port : Nat) (target : Name) : Option RR :=
  if port = 0 ∨ owner = [] ∨ target = [] then none
  else some ⟨owner, typeSRV, ttl, .srv 0 1 port target⟩

def mkNS (owner : Name) (ttl : Nat) (ns : Str) : Option RR :=
  let ns := trimSpace ns
  if ns = [] then none else some ⟨owner, typeNS, ttl, .ns (E.fqdn ns)⟩

def mkMX (owner : Name) (ttl pref : Nat) (host : Str) : Option RR :=
  let host := trimSpace host
  if host = [] then none else some ⟨owner, typeMX, ttl, .mx pref (E.fqdn host)⟩

def mkTXT (owner : Name) (ttl : Nat) (value : Str) : Option RR :=
  let value := trimSpace value
  if value = [] then none else some ⟨owner, typeTXT, ttl, .txt (chunk255 value)⟩

def mkAddr (owner : Name) (ttl : Nat) (raw : Str) : Option RR :=
  (E.parseIP (trimSpace raw)).map fun ip =>
    match ip.to4 with
    | some v4 => ⟨owner, typeA, ttl, .a v4⟩
    | none => ⟨owner, typeAAAA, ttl, .aaaa ip⟩

def mkAddrs (owner : Name) (ttl : Nat) (ips : List Str) : List RR :=
  ips.filterMap (mkAddr E owner ttl)

def mkDAVS (owner : Name) (ttl port : Nat) (target : Name) (pathTXT : Str) : List RR :=
  match mkSRV owner ttl port target with
  | none => []
  | some rr => rr :: (mkTXT owner ttl pathTXT).toList

def mkCalDAVS (owner : Name) (ttl port : Nat) (target : Name) : List RR :=
  mkDAVS owner ttl port target "path=/.well-known/caldav".toList

def mkCardDAVS (owner : Name) (ttl port : Nat) (target : Name) : List RR :=
  mkDAVS owner ttl port target "path=/.well-known/carddav".toList

def spfMech (raw : Str) : Option Str :=
  (E.parseIP (trimSpace raw)).map fun ip =>
    match ip.to4 with
    | some v4 => "ip4:".toList ++ E.ipString v4
    | none => "ip6:".toList ++ E.ipString ip

def effectiveSPF (cfg : SynthConfig) : Str :=
  let s := trimSpace cfg.spfOverride
  if s ≠ [] then s
  else
    let mechs := cfg.edgeIPs.filterMap (spfMech E) ++
      if trimSpace cfg.mxHost = [] then [] else ["mx".toList]
    if mechs = [] then []
    else "v=spf1 ".toList ++ [' '].intercalate mechs ++ " ~all".toList

/-- The discovery records of one host: `_imaps`, `_caldavs` and `_carddavs`. -/
def discovery (cfg : SynthConfig) (ttl : Nat) (owner : Name) : List RR :=
  (mkSRV ("_imaps._tcp.".toList ++ owner) ttl cfg.imapsPort owner).toList ++
    mkCalDAVS ("_caldavs._tcp.".toList ++ owner) ttl cfg.caldavsPort owner ++
    mkCardDAVS ("_carddavs._tcp.".toList ++ owner) ttl cfg.carddavsPort owner

end Make

section Synthesize

variable (E : Externals)

/-- A row of `tenant_hostnames`. -/
structure HostRow where
  hostname : Name
  createdBy : String
  dkimSelector : Str
  dkimPublicB64 : Option Str
  revoked : Bool
  deriving DecidableEq

def systemStructuredHostCreatedBy : String := "system:structured-host"

def dkimSelector : Str := "txco".toList

/-- `perHostRRs` for one host. -/
def hostRRs (cfg : SynthConfig) (ttl : Nat) (row : HostRow) : List RR :=
  let host := E.lower (trimLast '.' row.hostname)
  let sel := if row.dkimSelector = [] then dkimSelector else row.dkimSelector
  (match row.dkimPublicB64 with
    | none | some [] => []
    | some pub =>
      (mkTXT (E.fqdn (sel ++ "._domainkey.".toList ++ host)) ttl
        ("v=DKIM1; k=rsa; p=".toList ++ pub)).toList ++
      (mkTXT (E.fqdn ("_dmarc.".toList ++ host)) ttl "v=DMARC1; p=none".toList).toList) ++
  discovery cfg ttl (E.fqdn host)

/-- `hostname LIKE '%.' || origin`, which does not tell upper from lower case; the names in the
table are in lower case. -/
def underOrigin (origin hostname : Name) : Bool :=
  ('.' :: origin).isSuffixOf hostname

def perHostRRs (cfg : SynthConfig) (hosts : List HostRow) (origin : Name) (ttl : Nat) : List RR :=
  (hosts.filter fun h => h.createdBy == systemStructuredHostCreatedBy && !h.revoked &&
    underOrigin origin h.hostname).flatMap (hostRRs E cfg ttl)

/-- What `synthesize` reads of the zone. -/
structure ZoneKey where
  origin : Name
  originFQDN : Name
  defaultTTL : Nat
  dkimSelector : Str
  dkimPubB64 : Str

def synthTTL (cfg : SynthConfig) (z : ZoneKey) : Nat :=
  if cfg.ttl = 0 then z.defaultTTL else cfg.ttl

def synthesizeApex (cfg : SynthConfig) (z : ZoneKey) : List RR :=
  let ttl := synthTTL cfg z
  cfg.nameservers.filterMap (mkNS E z.originFQDN ttl) ++
    mkAddrs E z.originFQDN ttl cfg.edgeIPs ++
    (mkMX E z.originFQDN ttl cfg.mxPriority cfg.mxHost).toList ++
    discovery cfg ttl z.originFQDN ++
    (if cfg.ipp then mkAddrs E (E.fqdn (ippHostLabel ++ '.' :: z.origin)) ttl cfg.edgeIPs
      else []) ++
    (if trimSpace cfg.mxHost = [] then [] else
      (mkTXT z.originFQDN ttl (effectiveSPF E cfg)).toList ++
        (mkTXT (E.fqdn ("_dmarc.".toList ++ z.origin)) ttl cfg.dmarc).toList) ++
    if z.dkimSelector ≠ [] ∧ z.dkimPubB64 ≠ [] then
      (mkTXT (E.fqdn (z.dkimSelector ++ "._domainkey.".toList ++ z.origin)) ttl
        ("v=DKIM1; k=rsa; p=".toList ++ z.dkimPubB64)).toList
    else []

def synthesizeWild (cfg : SynthConfig) (z : ZoneKey) : List RR :=
  let ttl := synthTTL cfg z
  let wild := E.fqdn ("*.".toList ++ z.origin)
  mkAddrs E wild ttl cfg.edgeIPs ++ (mkMX E wild ttl cfg.mxPriority cfg.mxHost).toList ++
    (mkTXT wild ttl (effectiveSPF E cfg)).toList ++
    (mkSRV wild ttl cfg.imapsPort (E.fqdn ("imap.".toList ++ z.origin))).toList

def synthesizeStack (cfg : SynthConfig) (z : ZoneKey) (stack : Str) : List RR :=
  let label := stackLabel E.lower stack
  if !hostedStack E.lower stack || label == [] || reservedZoneLabel E.lower label then []
  else
    let ttl := synthTTL cfg z
    let owner := E.fqdn (label ++ '.' :: z.origin)
    mkAddrs E owner ttl cfg.edgeIPs ++ (mkMX E owner ttl cfg.mxPriority cfg.mxHost).toList ++
      discovery cfg ttl owner

def isSuffixZone (cfg : SynthConfig) (origin : Name) : Bool :=
  cfg.structuredSuffix != [] && origin == cfg.structuredSuffix

def synthesize (cfg : SynthConfig) (z : ZoneKey) (active : List Str) : List RR :=
  synthesizeApex E cfg z ++
    if isSuffixZone cfg z.origin then synthesizeWild E cfg z
    else active.flatMap (synthesizeStack E cfg z)

end Synthesize

end ThanksComputer.Dns
