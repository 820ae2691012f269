import ThanksComputer.Guard.Paths

/-! Addresses as text: what the chassis uses of `net`, and `tenants/host.go`. -/

namespace ThanksComputer.Net

abbrev Str := List Char

/-- `net.IP`, in its 4 or 16 bytes. -/
structure IP where
  bytes : List Nat
  deriving DecidableEq

/-- `IP.To4`. -/
def IP.to4 (ip : IP) : Option IP :=
  if ip.bytes.length = 4 then some ip
  else if ip.bytes.length = 16 ∧ ip.bytes.take 12 = List.replicate 10 0 ++ [255, 255] then
    some ⟨ip.bytes.drop 12⟩
  else none

/-- The errors of `net.SplitHostPort`. -/
inductive SplitError
  | missingPort
  | tooManyColons
  | missingClose
  | unexpectedOpen
  | unexpectedClose
  deriving DecidableEq

def portOf (s : Str) : Str :=
  (s.reverse.takeWhile (· != ':')).reverse

def hostOf (s : Str) : Str :=
  (s.reverse.dropWhile (· != ':')).tail.reverse

/-- `net.SplitHostPort`.  Behind an opening bracket the first closing one must be right before the
last colon. -/
def splitHostPort (s : Str) : Except SplitError (Str × Str) :=
  if ':' ∉ s then .error .missingPort
  else if s.head? = some '[' then
    match s.dropWhile (· != ']') with
    | [] => .error .missingClose
    | [_] => .error .missingPort
    | _ :: after =>
      if after = ':' :: portOf s then
        if '[' ∈ s.tail then .error .unexpectedOpen
        else if ']' ∈ after then .error .unexpectedClose
        else .ok ((s.takeWhile (· != ']')).tail, portOf s)
      else if after.head? = some ':' then .error .tooManyColons
      else .error .missingPort
  else if ':' ∈ hostOf s then .error .tooManyColons
  else if '[' ∈ s then .error .unexpectedOpen
  else if ']' ∈ s then .error .unexpectedClose
  else .ok (hostOf s, portOf s)

/-- `strings.TrimSuffix`, for one character. -/
def trimLast (c : Char) (s : Str) : Str :=
  if s.getLast? = some c then s.dropLast else s

/-- `strings.Contains`. -/
def contains (s part : Str) : Bool :=
  s.tails.any part.isPrefixOf

/-- `tenants.CanonicalizeHost`.  The error's own text holds the address, and is searched for the
words "missing port". -/
def canonicalizeHost (lower : Str → Str) (input : Str) : Option Str :=
  let s := Guard.trimSpace input
  if s = [] then none
  else
    let host := match splitHostPort s with
      | .ok (h, _) => some h
      | .error e =>
        if e = .missingPort ∨ contains s "missing port".toList then
          if 2 ≤ s.length ∧ s.head? = some '[' ∧ s.getLast? = some ']' then some (s.drop 1).dropLast
          else some s
        else none
    match host with
    | none => none
    | some h =>
      let canon := trimLast '.' (lower h)
      if canon = [] then none else some canon

def labels (s : Str) : List Str :=
  s.splitOn '.'

def isLabelChar (c : Char) : Bool :=
  ('a' ≤ c && c ≤ 'z') || ('0' ≤ c && c ≤ '9')

/-- One label of `hostnameRE`. -/
def validLabel (l : Str) : Bool :=
  decide (l.length ≤ 63) && l.all (fun c => isLabelChar c || c == '-') &&
    l.head?.any isLabelChar && l.getLast?.any isLabelChar

/-- `tenants.IsValidHostname`. -/
def isValidHostname (parseIP : Str → Option IP) (canonical : Str) : Bool :=
  canonical != [] && decide (canonical.length ≤ 253) && (parseIP canonical).isNone &&
    (labels canonical).all validLabel

section IPv4

def decimal (s : Str) : Option Nat :=
  if s ≠ [] ∧ s.all Char.isDigit ∧ (s.length = 1 ∨ s.head? ≠ some '0') then
    some (s.foldl (fun n c => 10 * n + (c.toNat - '0'.toNat)) 0)
  else none

/-- `net.ParseIP` on dotted decimals. -/
def parseIPv4 (s : Str) : Option IP :=
  match (s.splitOn '.').map decimal with
  | [some a, some b, some c, some d] =>
    if a < 256 ∧ b < 256 ∧ c < 256 ∧ d < 256 then
      some ⟨List.replicate 10 0 ++ [255, 255, a, b, c, d]⟩
    else none
  | _ => none

/-- `IP.String` on an IPv4 address. -/
def ipv4String (ip : IP) : Str :=
  ['.'].intercalate ((ip.to4.getD ip).bytes.map fun b => (toString b).toList)

theorem mem_of_mem_intercalate {sep : Str} {parts : List Str} {ch : Char}
    (h : ch ∈ sep.intercalate parts) : ch ∈ sep ∨ ∃ part ∈ parts, ch ∈ part := by
  induction parts with
  | nil => cases h
  | cons part parts ih =>
    cases parts with
    | nil =>
      rw [List.intercalate_singleton] at h
      exact .inr ⟨part, List.mem_singleton_self part, h⟩
    | cons next parts =>
      rw [List.intercalate_cons_cons, List.mem_append, List.mem_append] at h
      rcases h with (h | h) | h
      · exact .inr ⟨part, List.mem_cons_self, h⟩
      · exact .inl h
      · exact (ih h).imp_right fun ⟨part', hpart', hch⟩ =>
          ⟨part', List.mem_cons_of_mem part hpart', hch⟩

theorem isDigit_of_decimal {s : Str} {n : Nat} (h : decimal s = some n) :
    ∀ ch ∈ s, ch.isDigit = true := by
  rw [decimal] at h
  split at h
  · next hs => exact List.all_eq_true.mp hs.2.1
  · cases h

theorem parseIPv4_chars {s : Str} {ip : IP} (h : parseIPv4 s = some ip) :
    ∀ ch ∈ s, ch = '.' ∨ ch.isDigit = true := by
  intro ch hch
  have hparts : ∀ part ∈ s.splitOn '.', ∃ n, decimal part = some n := by
    rw [parseIPv4] at h
    split at h
    · next a b c d heq =>
      intro part hpart
      have hmem : decimal part ∈ [some a, some b, some c, some d] := heq ▸ List.mem_map_of_mem hpart
      simp only [List.mem_cons, List.not_mem_nil, or_false] at hmem
      rcases hmem with hmem | hmem | hmem | hmem <;> exact ⟨_, hmem⟩
    · cases h
  have hjoin : ch ∈ ['.'].intercalate (s.splitOn '.') := by
    rw [List.intercalate_splitOn]
    exact hch
  rcases mem_of_mem_intercalate hjoin with hdot | ⟨part, hpart, hmem⟩
  · exact .inl (List.mem_singleton.mp hdot)
  · obtain ⟨n, hn⟩ := hparts part hpart
    exact .inr (isDigit_of_decimal hn ch hmem)

end IPv4

section Spaces

open Guard

theorem le_iff_toNat_le {a b : Char} : a ≤ b ↔ a.toNat ≤ b.toNat :=
  Iff.rfl

theorem isSpace_range {ch : Char} (h : isSpace ch = true) : ch.toNat ≤ 32 ∨ 133 ≤ ch.toNat := by
  simp only [isSpace, Bool.or_eq_true, Bool.and_eq_true, decide_eq_true_eq, beq_iff_eq,
    ← Char.toNat_inj,
    le_iff_toNat_le, Char.reduceToNat] at h
  omega

theorem mem_trimSpace {s : Str} {ch : Char} (hmem : ch ∈ s) (hch : isSpace ch = false) :
    ch ∈ trimSpace s := by
  have hdrop : ∀ {l : Str}, ch ∈ l → ch ∈ l.dropWhile isSpace := by
    intro l hl
    rw [← List.takeWhile_append_dropWhile (p := isSpace) (l := l), List.mem_append] at hl
    refine hl.resolve_left fun htake => ?_
    rw [List.mem_takeWhile_imp htake] at hch
    cases hch
  exact List.mem_reverse.mpr (hdrop (List.mem_reverse.mpr (hdrop hmem)))

end Spaces

end ThanksComputer.Net
