import ThanksComputer.Net.Address

/-! The client's address behind trusted proxies (`edgeproxy/clientip.go`): the first address in
X-Forwarded-For, from the right, that is not a proxy's. -/

namespace ThanksComputer.Edge

open Net Guard

section Resolver

/-- The characters of an address in text: hexadecimal digits, colons and dots. -/
def isAddressChar (c : Char) : Bool :=
  c.isDigit || ('a' ≤ c && c ≤ 'f') || ('A' ≤ c && c ≤ 'F') || c == ':' || c == '.'

/-- `net.ParseIP` and `IP.String`.  An address in text is dotted decimals, which have no colon, or
IPv6, which has two or more. -/
structure NetLib where
  parseIP : Str → Option IP
  ipString : IP → Str
  parseIP_chars : ∀ {s ip}, parseIP s = some ip → ∀ c ∈ s, isAddressChar c = true
  parseIP_colons : ∀ {s ip}, parseIP s = some ip → s.count ':' ≠ 1

structure IPNet where
  ip : IP
  mask : List Nat
  deriving DecidableEq

/-- `networkNumberAndMask`. -/
def IPNet.numberAndMask (n : IPNet) : Option (List Nat × List Nat) :=
  let number := (n.ip.to4.getD n.ip).bytes
  if n.ip.to4.isNone ∧ number.length ≠ 16 then none
  else if n.mask.length = 4 then if number.length = 4 then some (number, n.mask) else none
  else if n.mask.length = 16 then
    some (number, if number.length = 4 then n.mask.drop 12 else n.mask)
  else none

def IPNet.contains (n : IPNet) (ip : IP) : Bool :=
  match n.numberAndMask with
  | none => false
  | some (number, mask) =>
    let bytes := (ip.to4.getD ip).bytes
    bytes.length == number.length &&
      ((bytes.zip number).zip mask).all fun e => e.1.2 &&& e.2 == e.1.1 &&& e.2

def trimFirst (c : Char) (s : Str) : Str :=
  if s.head? = some c then s.tail else s

def hostOnly (a : Str) : Str :=
  let host := match splitHostPort a with
    | .ok (h, _) => h
    | .error _ => a
  (trimLast ']' (trimFirst '[' host)).takeWhile (· != '%')

structure Clients where
  trusted : List IPNet
  deriving DecidableEq

variable (N : NetLib) (c : Clients)

def Clients.contains (ip : IP) : Bool :=
  c.trusted.any fun n => n.contains ip

def readHop (hop : Str) : Option IP :=
  N.parseIP (hostOnly (trimSpace hop))

/-- The loops of `IP` over the entries, from the right; `inside` is the last trusted address. -/
def Clients.walk (peer inside : Str) : List (Option IP) → Str
  | [] => if inside = [] then peer else inside
  | none :: _ => peer
  | some ip :: hops =>
    if c.contains ip then Clients.walk peer (N.ipString ip) hops else N.ipString ip

/-- `Clients.IP`, with the peer's address and the lines of X-Forwarded-For. -/
def Clients.ip (remoteAddr : Str) (values : List Str) : Str :=
  let peer := hostOnly remoteAddr
  if c.trusted = [] then peer
  else match N.parseIP peer with
    | none => peer
    | some ip =>
      if !c.contains ip then peer
      else c.walk N peer []
        ((values.reverse.flatMap fun v => (v.splitOn ',').reverse).map (readHop N))

end Resolver

section Forwarding

variable (N : NetLib)

/-- An address as a proxy records it: with a zone, a port and brackets, or without. -/
structure Recorded where
  address : Str
  zone : Option Str
  port : Option Str
  bracketed : Bool

def Recorded.host (r : Recorded) : Str :=
  r.address ++ match r.zone with
    | none => []
    | some zone => '%' :: zone

def Recorded.text (r : Recorded) : Str :=
  (if r.bracketed then '[' :: r.host ++ [']'] else r.host) ++ match r.port with
    | none => []
    | some port => ':' :: port

def isZoneChar (ch : Char) : Bool :=
  !isSpace ch && !(['[', ']', ':', ',', '%'].contains ch)

/-- The entry records `ip`.  A port behind a bare address is one behind dotted decimals. -/
structure Recorded.Ok (r : Recorded) (ip : IP) : Prop where
  parses : N.parseIP r.address = some ip
  zone : ∀ zone ∈ r.zone, ∀ ch ∈ zone, isZoneChar ch = true
  port : ∀ port ∈ r.port, ∀ ch ∈ port, ch.isDigit = true
  bare : r.bracketed = false → ∀ port ∈ r.port, ':' ∉ r.address ∧ r.zone = none

/-- How a proxy appends its entry: on a line of its own, on the last line, or on one line for
all. -/
inductive Way
  | newLine
  | lastLine
  | oneLine
  deriving DecidableEq

structure Hop where
  recorded : Recorded
  left : Str
  right : Str
  way : Way

def Hop.text (h : Hop) : Str :=
  h.left ++ h.recorded.text ++ h.right

structure Hop.Ok (h : Hop) (ip : IP) : Prop where
  recorded : h.recorded.Ok N ip
  left : ∀ ch ∈ h.left, isSpace ch = true
  right : ∀ ch ∈ h.right, isSpace ch = true

def forward (lines : List Str) (h : Hop) : List Str :=
  match h.way, lines.getLast? with
  | .newLine, _ => lines ++ [h.text]
  | _, none => [h.text]
  | .lastLine, some line => lines.dropLast ++ [line ++ ',' :: h.text]
  | .oneLine, some _ => [", ".toList.intercalate lines ++ ',' :: h.text]

def forwardAll (lines : List Str) (hops : List Hop) : List Str :=
  hops.foldl forward lines

end Forwarding

section Texts

variable {N : NetLib} {r : Recorded} {ip : IP}

theorem isAddressChar_range {ch : Char} (h : isAddressChar ch = true) :
    46 ≤ ch.toNat ∧ ch.toNat ≤ 102 := by
  simp only [isAddressChar, Char.isDigit, Bool.or_eq_true, Bool.and_eq_true, decide_eq_true_eq,
    beq_iff_eq, ← Char.toNat_inj, le_iff_toNat_le, ge_iff_le, UInt32.le_iff_toNat_le,
      Char.toNat_val,
    Char.reduceToNat] at h
  omega

theorem isSpace_of_isAddressChar {ch : Char} (h : isAddressChar ch = true) :
    isSpace ch = false := by
  rw [Bool.eq_false_iff]
  intro hs
  have hrange := isAddressChar_range h
  have hspace := isSpace_range hs
  omega

theorem isAddressChar_of_isDigit {ch : Char} (h : ch.isDigit = true) : isAddressChar ch = true := by
  rw [isAddressChar, h]
  rfl

theorem trimSpace_pad {left s right : Str} (hleft : ∀ ch ∈ left, isSpace ch = true)
    (hs : ∀ ch ∈ s, isSpace ch = false) (hright : ∀ ch ∈ right, isSpace ch = true) :
    trimSpace (left ++ s ++ right) = s := by
  have hfront : (left ++ s ++ right).dropWhile isSpace = (s ++ right).dropWhile isSpace := by
    rw [List.append_assoc, List.dropWhile_append_of_pos hleft]
  rw [trimSpace, hfront]
  cases s with
  | nil =>
    rw [List.nil_append, List.dropWhile_eq_nil_iff.mpr hright]
    rfl
  | cons ch s =>
    have hhead : ¬ isSpace ch = true := Bool.not_eq_true _ ▸ hs ch List.mem_cons_self
    rw [List.cons_append, List.dropWhile_cons_of_neg hhead, ← List.cons_append, List.reverse_append,
      List.dropWhile_append_of_pos fun x hx => hright x (List.mem_reverse.mp hx)]
    have hlast : (ch :: s).reverse.dropWhile isSpace = (ch :: s).reverse := by
      rw [List.dropWhile_eq_self_iff]
      intro hl hp
      have hmem := List.mem_reverse.mp (List.getElem_mem hl)
      rw [hs _ hmem] at hp
      cases hp
    rw [hlast, List.reverse_reverse]

theorem trimSpace_cons_space (s : Str) : trimSpace (' ' :: s) = trimSpace s := by
  rw [trimSpace, List.dropWhile_cons_of_pos (by decide), trimSpace]

theorem Recorded.Ok.not_mem_address (h : r.Ok N ip) {ch : Char} (hch : isAddressChar ch = false) :
    ch ∉ r.address := by
  intro hmem
  rw [N.parseIP_chars h.parses ch hmem] at hch
  cases hch

theorem Recorded.Ok.not_mem_zone (h : r.Ok N ip) {ch : Char} (hch : isZoneChar ch = false)
    {zone : Str} (hzone : r.zone = some zone) : ch ∉ zone := by
  intro hmem
  rw [h.zone zone hzone ch hmem] at hch
  cases hch

theorem Recorded.Ok.not_mem_port (h : r.Ok N ip) {ch : Char} (hch : ch.isDigit = false) {port : Str}
    (hport : r.port = some port) : ch ∉ port := by
  intro hmem
  rw [h.port port hport ch hmem] at hch
  cases hch

theorem Recorded.Ok.not_mem_host (h : r.Ok N ip) {ch : Char} (haddress : isAddressChar ch = false)
    (hzone : isZoneChar ch = false) (hpercent : ch ≠ '%') : ch ∉ r.host := by
  rw [Recorded.host, List.mem_append, not_or]
  refine ⟨h.not_mem_address haddress, ?_⟩
  split
  · exact List.not_mem_nil
  · next zone heq =>
    rw [List.mem_cons, not_or]
    exact ⟨hpercent, h.not_mem_zone hzone heq⟩

theorem Recorded.Ok.count_host (h : r.Ok N ip) : r.host.count ':' ≠ 1 := by
  have hrest : r.host.count ':' = r.address.count ':' := by
    rw [Recorded.host, List.count_append]
    split
    · rfl
    · next zone heq =>
      rw [List.count_cons_of_ne (by decide), List.count_eq_zero_of_not_mem (h.not_mem_zone rfl heq)]
      rfl
  rw [hrest]
  exact N.parseIP_colons h.parses

theorem Recorded.Ok.takeWhile_host (h : r.Ok N ip) : r.host.takeWhile (· != '%') = r.address := by
  have hall : ∀ ch ∈ r.address, (ch != '%') = true := fun ch hch =>
    bne_iff_ne.mpr fun heq => h.not_mem_address rfl (heq ▸ hch)
  rw [Recorded.host, List.takeWhile_append_of_pos hall]
  split
  · rw [List.takeWhile_nil, List.append_nil]
  · rw [List.takeWhile_cons_of_neg (by decide), List.append_nil]

theorem Recorded.Ok.unwrap (h : r.Ok N ip) :
    trimLast ']' (trimFirst '[' r.host) = r.host ∧
      trimLast ']' (trimFirst '[' ('[' :: r.host ++ [']'])) = r.host := by
  have hopen : r.host.head? ≠ some '[' := fun heq =>
    h.not_mem_host rfl rfl (by decide) (List.mem_of_head? heq)
  have hclose : r.host.getLast? ≠ some ']' := fun heq =>
    h.not_mem_host rfl rfl (by decide) (List.mem_of_getLast? heq)
  constructor
  · rw [trimFirst, if_neg hopen, trimLast, if_neg hclose]
  · have hhead : ('[' :: r.host ++ [']']).head? = some '[' := rfl
    rw [trimFirst, if_pos hhead, List.cons_append, List.tail_cons, trimLast,
      if_pos List.getLast?_concat, List.dropLast_concat]

end Texts

section Ports

theorem portOf_eq {host port : Str} (hport : ':' ∉ port) : portOf (host ++ ':' :: port) = port := by
  have hall : ∀ ch ∈ port.reverse, (ch != ':') = true := fun ch hch =>
    bne_iff_ne.mpr fun heq => hport (heq ▸ List.mem_reverse.mp hch)
  rw [portOf, List.reverse_append, List.reverse_cons, List.append_assoc,
    List.takeWhile_append_of_pos hall, List.singleton_append,
      List.takeWhile_cons_of_neg (by decide),
    List.append_nil, List.reverse_reverse]

theorem hostOf_eq {host port : Str} (hport : ':' ∉ port) : hostOf (host ++ ':' :: port) = host := by
  have hall : ∀ ch ∈ port.reverse, (ch != ':') = true := fun ch hch =>
    bne_iff_ne.mpr fun heq => hport (heq ▸ List.mem_reverse.mp hch)
  rw [hostOf, List.reverse_append, List.reverse_cons, List.append_assoc,
    List.dropWhile_append_of_pos hall, List.singleton_append,
      List.dropWhile_cons_of_neg (by decide),
    List.tail_cons, List.reverse_reverse]

theorem exists_lastColon {s : Str} (h : ':' ∈ s) :
    ∃ host port, s = host ++ ':' :: port ∧ ':' ∉ port := by
  induction s with
  | nil => cases h
  | cons ch s ih =>
    by_cases hs : ':' ∈ s
    · obtain ⟨host, port, rfl, hport⟩ := ih hs
      exact ⟨ch :: host, port, rfl, hport⟩
    · rcases List.mem_cons.mp h with rfl | h
      · exact ⟨[], s, rfl, hs⟩
      · exact absurd h hs

theorem splitHostPort_bare {s : Str} (hhead : s.head? ≠ some '[') (hcount : s.count ':' ≠ 1) :
    ∃ e, splitHostPort s = .error e := by
  rw [splitHostPort]
  by_cases hmem : ':' ∈ s
  · rw [if_neg (not_not.mpr hmem), if_neg hhead]
    obtain ⟨host, port, rfl, hport⟩ := exists_lastColon hmem
    have hhost : ':' ∈ hostOf (host ++ ':' :: port) := by
      rw [hostOf_eq hport]
      rw [List.count_append, List.count_cons_self, List.count_eq_zero_of_not_mem hport] at hcount
      exact List.count_pos_iff.mp (by omega)
    exact ⟨_, if_pos hhost⟩
  · exact ⟨_, if_pos hmem⟩

variable {N : NetLib} {r : Recorded} {ip : IP}

theorem dropWhile_closing {host rest : Str} (h : ']' ∉ host) :
    ('[' :: host ++ ']' :: rest).dropWhile (· != ']') = ']' :: rest := by
  have hall : ∀ ch ∈ '[' :: host, (ch != ']') = true := by
    intro ch hch
    rcases List.mem_cons.mp hch with rfl | hch
    · rfl
    · exact bne_iff_ne.mpr fun heq => h (heq ▸ hch)
  rw [List.dropWhile_append_of_pos hall, List.dropWhile_cons_of_neg (by decide)]

theorem takeWhile_closing {host rest : Str} (h : ']' ∉ host) :
    ('[' :: host ++ ']' :: rest).takeWhile (· != ']') = '[' :: host := by
  have hall : ∀ ch ∈ '[' :: host, (ch != ']') = true := by
    intro ch hch
    rcases List.mem_cons.mp hch with rfl | hch
    · rfl
    · exact bne_iff_ne.mpr fun heq => h (heq ▸ hch)
  rw [List.takeWhile_append_of_pos hall, List.takeWhile_cons_of_neg (by decide), List.append_nil]

theorem splitHostPort_bracketed {host : Str} (h : ']' ∉ host) :
    ∃ e, splitHostPort ('[' :: host ++ [']']) = .error e := by
  rw [splitHostPort]
  split
  · exact ⟨_, rfl⟩
  · have hhead : ('[' :: host ++ [']']).head? = some '[' := rfl
    rw [if_pos hhead, dropWhile_closing h]
    exact ⟨_, rfl⟩

theorem splitHostPort_bracketedPort {host port : Str} (hopen : '[' ∉ host) (hclose : ']' ∉ host)
    (hcolon : ':' ∉ port) (hopen' : '[' ∉ port) (hclose' : ']' ∉ port) :
    splitHostPort ('[' :: host ++ ']' :: ':' :: port) = .ok (host, port) := by
  have hsplit : '[' :: host ++ ']' :: ':' :: port = ('[' :: host ++ [']']) ++ ':' :: port := by
    rw [List.append_assoc]
    rfl
  have hport : portOf ('[' :: host ++ ']' :: ':' :: port) = port := by
    rw [hsplit]
    exact portOf_eq hcolon
  have hmem : ':' ∈ '[' :: host ++ ']' :: ':' :: port := by simp
  have hhead : ('[' :: host ++ ']' :: ':' :: port).head? = some '[' := rfl
  rw [splitHostPort, if_neg (not_not.mpr hmem), if_pos hhead, dropWhile_closing hclose]
  dsimp only
  rw [hport, if_pos rfl, if_neg (by simp [hopen, hopen']), if_neg (by simp [hclose']),
    takeWhile_closing hclose, List.tail_cons]

theorem splitHostPort_port {host port : Str} (hhost : ':' ∉ host) (hport : ':' ∉ port)
    (hopen : '[' ∉ host ++ ':' :: port) (hclose : ']' ∉ host ++ ':' :: port) :
    splitHostPort (host ++ ':' :: port) = .ok (host, port) := by
  have hhead : (host ++ ':' :: port).head? ≠ some '[' := fun heq => hopen (List.mem_of_head? heq)
  rw [splitHostPort, if_neg (by simp), if_neg hhead, hostOf_eq hport, if_neg hhost, if_neg hopen,
    if_neg hclose, portOf_eq hport]

theorem Recorded.Ok.hostOnly_text (h : r.Ok N ip) : hostOnly r.text = r.address := by
  obtain ⟨hbare, hwrapped⟩ := h.unwrap
  have hopen : '[' ∉ r.host := h.not_mem_host rfl rfl (by decide)
  have hclose : ']' ∉ r.host := h.not_mem_host rfl rfl (by decide)
  rw [hostOnly, Recorded.text]
  cases hport : r.port with
  | none =>
    dsimp only
    rw [List.append_nil]
    cases hb : r.bracketed with
    | false =>
      obtain ⟨e, he⟩ := splitHostPort_bare (fun heq => hopen (List.mem_of_head? heq)) h.count_host
      rw [if_neg Bool.false_ne_true, he]
      dsimp only
      rw [hbare, h.takeWhile_host]
    | true =>
      obtain ⟨e, he⟩ := splitHostPort_bracketed hclose
      rw [if_pos rfl, he]
      dsimp only
      rw [hwrapped, h.takeWhile_host]
  | some port =>
    dsimp only
    have hnoport : ∀ ch : Char, ch.isDigit = false →
      ch ∉ port := fun ch hch => h.not_mem_port hch hport
    cases hb : r.bracketed with
    | false =>
      obtain ⟨hcolon, hzone⟩ := h.bare hb port hport
      have hhost : r.host = r.address := by
        rw [Recorded.host, hzone, List.append_nil]
      rw [if_neg Bool.false_ne_true, splitHostPort_port (hhost ▸ hcolon) (hnoport ':' rfl)
        (by simp [hopen, hnoport '[' rfl]) (by simp [hclose, hnoport ']' rfl])]
      dsimp only
      rw [hbare, h.takeWhile_host]
    | true =>
      rw [if_pos rfl, List.append_assoc]
      rw [List.singleton_append, splitHostPort_bracketedPort hopen hclose (hnoport ':' rfl)
        (hnoport '[' rfl) (hnoport ']' rfl)]
      dsimp only
      rw [hbare, h.takeWhile_host]

end Ports

section Entries

variable {N : NetLib} {r : Recorded} {h : Hop} {ip : IP}

theorem isAddressChar_comma_space {ch : Char} (hch : ch = ',' ∨ isSpace ch = true) :
    isAddressChar ch = false := by
  rcases hch with rfl | hspace
  · rfl
  · rw [Bool.eq_false_iff]
    intro haddress
    rw [isSpace_of_isAddressChar haddress] at hspace
    cases hspace

theorem isZoneChar_comma_space {ch : Char} (hch : ch = ',' ∨ isSpace ch = true) :
    isZoneChar ch = false := by
  rcases hch with rfl | hspace
  · rfl
  · rw [isZoneChar, hspace]
    rfl

theorem Recorded.Ok.not_mem_text (hr : r.Ok N ip) {ch : Char} (hch : ch = ',' ∨ isSpace ch = true) :
    ch ∉ r.text := by
  have haddress := isAddressChar_comma_space hch
  have hother : ch ≠ '%' ∧ ch ≠ '[' ∧ ch ≠ ']' ∧ ch ≠ ':' := by
    rcases hch with rfl | hspace
    · decide
    · refine ⟨?_, ?_, ?_, ?_⟩ <;> rintro rfl <;> cases hspace
  have hhost : ch ∉ r.host := hr.not_mem_host haddress (isZoneChar_comma_space hch) hother.1
  have hdigit : ch.isDigit = false := by
    rw [Bool.eq_false_iff]
    intro hdigit
    rw [isAddressChar_of_isDigit hdigit] at haddress
    cases haddress
  rw [Recorded.text, List.mem_append, not_or]
  constructor
  · split
    · simp [hhost, hother]
    · exact hhost
  · split
    · exact List.not_mem_nil
    · next port heq =>
      rw [List.mem_cons, not_or]
      exact ⟨hother.2.2.2, hr.not_mem_port hdigit heq⟩

theorem Hop.Ok.not_mem_text (hh : h.Ok N ip) : ',' ∉ h.text := by
  have hspaces : ∀ {s : Str}, (∀ ch ∈ s, isSpace ch = true) → ',' ∉ s := fun hs hmem => by
    cases hs _ hmem
  rw [Hop.text, List.mem_append, List.mem_append, not_or, not_or]
  exact ⟨⟨hspaces hh.left, hh.recorded.not_mem_text (.inl rfl)⟩, hspaces hh.right⟩

theorem Hop.Ok.readHop_text (hh : h.Ok N ip) : readHop N h.text = some ip := by
  have htext : ∀ ch ∈ h.recorded.text, isSpace ch = false := fun ch hch => by
    rw [Bool.eq_false_iff]
    exact fun hspace => hh.recorded.not_mem_text (.inr hspace) hch
  rw [readHop, Hop.text, trimSpace_pad hh.left htext hh.right, hh.recorded.hostOnly_text,
    hh.recorded.parses]

/-- The entries of the header's lines, from the left. -/
def reads (N : NetLib) (lines : List Str) : List (Option IP) :=
  (lines.flatMap fun line => line.splitOn ',').map (readHop N)

theorem reads_append (xs ys : List Str) : reads N (xs ++ ys) = reads N xs ++ reads N ys := by
  rw [reads, List.flatMap_append, List.map_append, reads, reads]

theorem reads_singleton (line : Str) : reads N [line] = (line.splitOn ',').map (readHop N) := by
  rw [reads, List.flatMap_singleton]

theorem reads_comma (line entry : Str) :
    reads N [line ++ ',' :: entry] = reads N [line] ++ reads N [entry] := by
  simp only [reads_singleton, List.splitOn_append_cons_self, List.map_append]

theorem reads_space (line : Str) : reads N [' ' :: line] = reads N [line] := by
  rw [reads_singleton, reads_singleton, List.splitOn_cons_eq_if_modifyHead, if_neg (by decide)]
  cases hsplit : line.splitOn ',' with
  | nil => rfl
  | cons entry entries =>
    rw [List.modifyHead_cons, List.map_cons, List.map_cons, readHop, trimSpace_cons_space, readHop]

theorem reads_intercalate {lines : List Str} (h : lines ≠ []) :
    reads N [", ".toList.intercalate lines] = reads N lines := by
  induction lines with
  | nil => exact absurd rfl h
  | cons line lines ih =>
    cases lines with
    | nil => rw [List.intercalate_singleton]
    | cons next lines =>
      have hjoin : ", ".toList.intercalate (line :: next :: lines) =
          line ++ ',' :: ' ' :: ", ".toList.intercalate (next :: lines) := by
        rw [List.intercalate_cons_cons, List.append_assoc]
        rfl
      rw [hjoin, reads_comma, reads_space, ih (List.cons_ne_nil _ _), ← reads_append]
      rfl

theorem Hop.Ok.reads_forward (hh : h.Ok N ip) (lines : List Str) :
    reads N (forward lines h) = reads N lines ++ [some ip] := by
  have hentry : reads N [h.text] = [some ip] := by
    rw [reads_singleton, List.splitOn_eq_singleton hh.not_mem_text, List.map_singleton,
      hh.readHop_text]
  rw [forward]
  split
  · rw [reads_append, hentry]
  · next hlast _ =>
    rw [List.getLast?_eq_none_iff.mp hlast, hentry]
    rfl
  · next line _ hlast =>
    obtain ⟨init, rfl⟩ := List.getLast?_eq_some_iff.mp hlast
    rw [List.dropLast_concat, reads_append, reads_comma, hentry, ← List.append_assoc,
      ← reads_append]
  · next line _ hlast =>
    have hne : lines ≠ [] := by
      rintro rfl
      cases hlast
    rw [reads_comma, reads_intercalate hne, hentry]

theorem reads_forwardAll {hops : List Hop} {ips : List IP}
    (hhops : List.Forall₂ (Hop.Ok N) hops ips) (lines : List Str) :
      reads N (forwardAll lines hops) = reads N lines ++ ips.map some := by
  induction hhops generalizing lines with
  | nil => rw [List.map_nil, List.append_nil, forwardAll, List.foldl_nil]
  | cons hh _ ih =>
    rw [forwardAll, List.foldl_cons, ← forwardAll, ih, hh.reads_forward, List.append_assoc,
      List.map_cons, List.singleton_append]

end Entries

section Walk

variable {N : NetLib} {c : Clients}

theorem reverse_reads (values : List Str) :
    (values.reverse.flatMap fun v => (v.splitOn ',').reverse).map (readHop N) =
      (reads N values).reverse := by
  rw [reads, ← List.map_reverse, List.reverse_flatMap]
  rfl

theorem Clients.walk_trusted {peer inside : Str} {ips : List IP} {client : IP}
    {rest : List (Option IP)} (hips : ∀ ip ∈ ips, c.contains ip = true)
    (hclient : c.contains client = false) :
    c.walk N peer inside (ips.map some ++ some client :: rest) = N.ipString client := by
  induction ips generalizing inside with
  | nil => rw [List.map_nil, List.nil_append, Clients.walk, hclient, if_neg Bool.false_ne_true]
  | cons ip ips ih =>
    rw [List.map_cons, List.cons_append, Clients.walk, if_pos (hips ip List.mem_cons_self)]
    exact ih fun ip' hip' => hips ip' (List.mem_cons_of_mem ip hip')

/-- The socket's peer is one of the proxies. -/
def Clients.PeerTrusted (N : NetLib) (c : Clients) (remoteAddr : Str) : Prop :=
  ∃ ip, N.parseIP (hostOnly remoteAddr) = some ip ∧ c.contains ip = true

theorem Clients.ip_of_peerTrusted {remoteAddr : Str} (h : c.PeerTrusted N remoteAddr)
    (values : List Str) :
    c.ip N remoteAddr values = c.walk N (hostOnly remoteAddr) [] (reads N values).reverse := by
  obtain ⟨ip, hparse, htrusted⟩ := h
  have hsome : c.trusted ≠ [] := by
    intro hnil
    rw [Clients.contains, hnil] at htrusted
    cases htrusted
  rw [Clients.ip, if_neg hsome, hparse]
  dsimp only
  rw [htrusted, Bool.not_true, if_neg Bool.false_ne_true, reverse_reads]

theorem Clients.ip_of_not_peerTrusted {remoteAddr : Str} (h : ¬ c.PeerTrusted N remoteAddr)
    (values : List Str) : c.ip N remoteAddr values = hostOnly remoteAddr := by
  rw [Clients.ip]
  split
  · rfl
  · cases hparse : N.parseIP (hostOnly remoteAddr) with
    | none => rfl
    | some ip =>
      have hnot : c.contains ip = false := by
        rw [Bool.eq_false_iff]
        exact fun htrusted => h ⟨ip, hparse, htrusted⟩
      dsimp only
      rw [hnot, Bool.not_false, if_pos rfl]

/-- Behind a trusted peer the client's address is the one the first proxy recorded, whatever the
client typed in front of it; from any other peer the header does not count. -/
theorem clientAddress (N : NetLib) (c : Clients) (remoteAddr : Str) :
    (c.PeerTrusted N remoteAddr →
      ∀ (typed : List Str) (client : Hop) (proxies : List Hop) (ip : IP) (ips : List IP),
        client.Ok N ip → c.contains ip = false →
        List.Forall₂ (Hop.Ok N) proxies ips → (∀ p ∈ ips, c.contains p = true) →
        c.ip N remoteAddr (forwardAll typed (client :: proxies)) = N.ipString ip) ∧
      (¬ c.PeerTrusted N remoteAddr →
        ∀ values values', c.ip N remoteAddr values = c.ip N remoteAddr values') := by
  constructor
  · intro hpeer typed client proxies ip ips hclient huntrusted hproxies htrusted
    have hreads : reads N (forwardAll typed (client :: proxies)) =
        reads N typed ++ some ip :: ips.map some := reads_forwardAll (.cons hclient hproxies) typed
    rw [Clients.ip_of_peerTrusted hpeer, hreads, List.reverse_append, List.reverse_cons,
      List.append_assoc, List.singleton_append, ← List.map_reverse]
    exact Clients.walk_trusted (fun p hp => htrusted p (List.mem_reverse.mp hp)) huntrusted
  · intro hpeer values values'
    rw [Clients.ip_of_not_peerTrusted hpeer, Clients.ip_of_not_peerTrusted hpeer]

/-- Dotted decimals alone. -/
def ipv4 : NetLib where
  parseIP := parseIPv4
  ipString := ipv4String
  parseIP_chars h ch hch := by
    rcases parseIPv4_chars h ch hch with rfl | hdigit
    · rfl
    · exact isAddressChar_of_isDigit hdigit
  parseIP_colons h := by
    have hcolon : ':' ∉ _ := fun hmem => by
      rcases parseIPv4_chars h ':' hmem with heq | hdigit
      · cases heq
      · cases hdigit
    rw [List.count_eq_zero_of_not_mem hcolon]
    exact Nat.zero_ne_one

/-- Two proxies in 10.0.0.0/8, behind what the client typed: one of their own addresses, an empty
entry and no address at all. -/
theorem clientAddress_typed :
    let c : Clients := ⟨[⟨⟨[10, 0, 0, 0]⟩, [255, 0, 0, 0]⟩]⟩
    c.ip ipv4 "10.0.0.2:4711".toList
        (forwardAll ["unknown,,10.0.0.1".toList, "10.0.0.1".toList]
          [⟨⟨"203.0.113.7".toList, none, some "443".toList, false⟩, [' '], [], .lastLine⟩,
            ⟨⟨"10.0.0.1".toList, none, none, false⟩, [' '], [], .oneLine⟩]) =
      "203.0.113.7".toList := by
  intro c
  have hrecorded : ∀ {address port ip}, parseIPv4 address = some ip → ':' ∉ address →
      (∀ p ∈ port, ∀ ch ∈ p, ch.isDigit = true) →
      Recorded.Ok ipv4 ⟨address, none, port, false⟩ ip := fun hparse hcolon hport =>
    ⟨hparse, nofun, hport, fun _ _ _ => ⟨hcolon, rfl⟩⟩
  have hspace : ∀ ch ∈ [' '], isSpace ch = true := List.forall_mem_singleton.mpr rfl
  have hdigits : ∀ p ∈ some "443".toList, ∀ ch ∈ p, ch.isDigit = true := by
    rintro p ⟨rfl⟩
    exact List.all_eq_true.mp (by decide)
  have hanswer := (clientAddress ipv4 c "10.0.0.2:4711".toList).1
    ⟨⟨List.replicate 10 0 ++ [255, 255, 10, 0, 0, 2]⟩, by decide, by decide⟩
    ["unknown,,10.0.0.1".toList, "10.0.0.1".toList]
    ⟨⟨"203.0.113.7".toList, none, some "443".toList, false⟩, [' '], [], .lastLine⟩
    [⟨⟨"10.0.0.1".toList, none, none, false⟩, [' '], [], .oneLine⟩]
    ⟨List.replicate 10 0 ++ [255, 255, 203, 0, 113, 7]⟩
    [⟨List.replicate 10 0 ++ [255, 255, 10, 0, 0, 1]⟩]
    ⟨hrecorded (by decide) (by decide) hdigits, hspace, nofun⟩
    (by decide)
    (.cons ⟨hrecorded (by decide) (by decide) nofun, hspace, nofun⟩ .nil)
    (by decide)
  rw [hanswer]
  decide

end Walk

end ThanksComputer.Edge
