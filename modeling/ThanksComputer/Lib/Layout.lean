import Mathlib.Algebra.Ring.Nat
import ThanksComputer.Lib.Builtin
import ThanksComputer.Lib.Civil

/-! Times as texts.  A layout is a list of fields; it writes a clock, and reads the texts it writes
and some others: a shorter hour, a fraction of a second, a zone that is not UTC. -/

namespace ThanksComputer.Lib.Layout

open Lib (second)
open Civil

section Digits

def pad (w n : Nat) : List Char :=
  List.replicate (w - (Nat.toDigits 10 n).length) '0' ++ Nat.toDigits 10 n

def padInt (w : Nat) (x : Int) : List Char :=
  if x < 0 then '-' :: pad w (-x).toNat else pad w x.toNat

/-- `n` digits at the front of a text, and the number they are. -/
def digits (n : Nat) (s : List Char) : Option (Nat × List Char) :=
  if (s.take n).length = n ∧ (s.take n).all Char.isDigit then
    some (Nat.ofDigitChars 10 (s.take n) 0, s.drop n)
  else none

@[simp] theorem ofDigitChars_pad (w n : Nat) : Nat.ofDigitChars 10 (pad w n) 0 = n := by
  rw [pad, Nat.ofDigitChars_append, Nat.ofDigitChars_replicate_zero, Nat.mul_zero]
  exact Nat.ofDigitChars_ten_toDigits

theorem pad_injective {w m n : Nat} (h : pad w m = pad w n) : m = n := by
  rw [← ofDigitChars_pad w m, h, ofDigitChars_pad]

theorem isDigit_of_mem_pad {w n : Nat} {c : Char} (hc : c ∈ pad w n) : c.isDigit = true := by
  rw [pad, List.mem_append] at hc
  rcases hc with hc | hc
  · rw [List.eq_of_mem_replicate hc]
    rfl
  · exact Nat.isDigit_of_mem_toDigits (by decide) (by decide) hc

theorem length_pad {w n : Nat} (hw : 0 < w) (hn : n < 10 ^ w) : (pad w n).length = w := by
  have hle : (Nat.toDigits 10 n).length ≤ w := (Nat.length_toDigits_le_iff (by decide) hw).mpr hn
  rw [pad, List.length_append, List.length_replicate]
  omega

theorem padInt_injective {w : Nat} {x y : Int} (h : padInt w x = padInt w y) : x = y := by
  -- a sign is not a digit
  have hsign : ∀ (m n : Nat), '-' :: pad w m ≠ pad w n := by
    intro m n heq
    have hmem : '-' ∈ pad w n := by
      rw [← heq]
      exact List.mem_cons_self
    exact absurd (isDigit_of_mem_pad hmem) (by decide)
  rw [padInt, padInt] at h
  split at h
  · split at h
    · have := pad_injective (List.cons.inj h).2
      omega
    · exact absurd h (hsign _ _)
  · split at h
    · exact absurd h.symm (hsign _ _)
    · have := pad_injective h
      omega

theorem digits_pad {w n : Nat} (hw : 0 < w) (hn : n < 10 ^ w) (s : List Char) :
    digits w (pad w n ++ s) = some (n, s) := by
  have hlen := length_pad hw hn
  have htake : (pad w n ++ s).take w = pad w n := List.take_left' hlen
  have hdrop : (pad w n ++ s).drop w = s := List.drop_left' hlen
  rw [digits, htake, hdrop, ofDigitChars_pad, if_pos]
  exact ⟨hlen, List.all_eq_true.mpr fun _ => isDigit_of_mem_pad⟩

end Digits

inductive Field where
  | year | month | day | hour | minute | second
  /-- The zone of a time in UTC. -/
  | zone
  | lit (c : Char)
  deriving DecidableEq

namespace Field

def write (c : Clock) : Field → List Char
  | year => padInt 4 c.date.year
  | month => pad 2 c.date.month
  | day => pad 2 c.date.day
  | hour => pad 2 c.hour
  | minute => pad 2 c.minute
  | second => pad 2 c.second
  | zone => ['Z']
  | lit c => [c]

end Field

/-- What has been read: a clock, nanoseconds, and seconds east of UTC. -/
structure Reading where
  clock : Clock
  nanos : Nat
  offset : Int
  deriving DecidableEq

/-- The time a layout without any field stands for. -/
def Reading.start : Reading :=
  ⟨⟨⟨0, 1, 1⟩, 0, 0, 0⟩, 0, 0⟩

/-- The fraction after the seconds: a point or a comma and digits, of which nine count. -/
def fraction (s : List Char) : Nat × List Char :=
  match s with
  | c :: d :: s =>
    if (c = '.' ∨ c = ',') ∧ d.isDigit then
      let ds := (d :: s).takeWhile Char.isDigit
      (Nat.ofDigitChars 10 (ds.take 9 ++ List.replicate (9 - ds.length) '0') 0,
        (d :: s).dropWhile Char.isDigit)
    else (0, c :: d :: s)
  | s => (0, s)

def oneOrTwo (s : List Char) : Option (Nat × List Char) :=
  digits 2 s <|> digits 1 s

/-- `Z`, or a sign, hours and minutes.  24 hours and 60 minutes are accepted. -/
def readZone : List Char → Option (Int × List Char)
  | 'Z' :: s => some (0, s)
  | sign :: s => do
    let (hours, s) ← digits 2 s
    let s ← if s.head? = some ':' then some s.tail else none
    let (minutes, s) ← digits 2 s
    if hours ≤ 24 ∧ minutes ≤ 60 then
      if sign = '+' then some (60 * (60 * hours + minutes : Int), s)
      else if sign = '-' then some (-(60 * (60 * hours + minutes : Int)), s)
      else none
    else none
  | [] => none

/-- A number in a range, given to what takes it. -/
def within {α : Type} (p : Nat → Bool) (k : Nat → α) (x : Option (Nat × List Char)) :
    Option (α × List Char) :=
  x.bind fun y => if p y.1 then some (k y.1, y.2) else none

def Field.read (r : Reading) (s : List Char) : Field → Option (Reading × List Char)
  | year => (digits 4 s).map fun y => ({ r with clock.date.year := y.1 }, y.2)
  | month =>
    within (fun n => 1 ≤ n && n ≤ 12) (fun n => { r with clock.date.month := n }) (digits 2 s)
  | day => within (fun _ => true) (fun n => { r with clock.date.day := n }) (digits 2 s)
  | hour => within (· < 24) (fun n => { r with clock.hour := n }) (oneOrTwo s)
  | minute => within (· < 60) (fun n => { r with clock.minute := n }) (digits 2 s)
  | second =>
    within (· < 60) (fun n => { r with clock.second := n }) (digits 2 s) |>.map fun y =>
      ({ y.1 with nanos := (fraction y.2).1 }, (fraction y.2).2)
  | zone => (readZone s).map fun y => ({ r with offset := y.1 }, y.2)
  | lit c => if s.head? = some c then some (r, s.tail) else none

def write (layout : List Field) (c : Clock) : List Char :=
  layout.flatMap (Field.write c)

def read : List Field → Reading → List Char → Option (Reading × List Char)
  | [], r, s => some (r, s)
  | f :: fs, r, s => (f.read r s).bind fun y => read fs y.1 y.2

/-- The whole text is read, and the day is one of its month. -/
def parse (layout : List Field) (s : List Char) : Option Reading :=
  (read layout .start s).bind fun y =>
    if y.2 = [] ∧ 1 ≤ y.1.clock.date.day ∧
      y.1.clock.date.day ≤ daysIn y.1.clock.date.year y.1.clock.date.month
    then some y.1 else none

section RoundTrip

variable {c c' : Clock} {r : Reading} {s : List Char}

def Field.set (c : Clock) (r : Reading) : Field → Reading
  | year => { r with clock.date.year := c.date.year }
  | month => { r with clock.date.month := c.date.month }
  | day => { r with clock.date.day := c.date.day }
  | hour => { r with clock.hour := c.hour }
  | minute => { r with clock.minute := c.minute }
  | second => { r with clock.second := c.second, nanos := 0 }
  | zone => { r with offset := 0 }
  | lit _ => r

def Field.isPoint : Field → Bool
  | lit c => c == '.' || c == ','
  | _ => false

theorem fraction_of_head (h : ∀ c, s.head? = some c → c ≠ '.' ∧ c ≠ ',') : fraction s = (0, s) := by
  unfold fraction
  split
  · next c d s =>
    have hc := h c rfl
    rw [if_neg]
    rintro ⟨hpoint | hpoint, -⟩
    · exact hc.1 hpoint
    · exact hc.2 hpoint
  · rfl

theorem day_lt (hc : c.Valid) : c.date.month < 10 ^ 2 ∧ c.date.day < 10 ^ 2 := by
  obtain ⟨-, hmonth, -, hday⟩ := hc.date
  have hlast : daysIn c.date.year c.date.month ≤ 31 := by
    rw [daysIn]
    split
    · split
      · decide
      · decide
    · split
      · decide
      · decide
  omega

theorem within_some {α : Type} {p : Nat → Bool} {k : Nat → α} {n : Nat} (h : p n = true) :
    within p k (some (n, s)) = some (k n, s) := by
  rw [within, Option.bind_some, if_pos h]

theorem Field.read_write (hc : c.Valid) {f : Field}
    (hyear : f = .year → 0 ≤ c.date.year ∧ c.date.year ≤ 9999) (hs : fraction s = (0, s)) :
      f.read r (f.write c ++ s) = some (f.set c r, s) := by
  obtain ⟨hmonth, hday⟩ := day_lt hc
  obtain ⟨hfirst, hlast, -, -⟩ := hc.date
  have hhour := hc.hour
  have hminute := hc.minute
  have hsecond := hc.second
  cases f with
  | year =>
    have hrange := hyear rfl
    have hpad : padInt 4 c.date.year = pad 4 c.date.year.toNat := by
      rw [padInt, if_neg (by omega)]
    rw [Field.read, Field.write, hpad, digits_pad (by decide) (by omega)]
    have hnat : (c.date.year.toNat : Int) = c.date.year := by omega
    rw [Option.map_some, hnat]
    rfl
  | month =>
    rw [Field.read, Field.write, digits_pad (by decide) hmonth,
      within_some (by simp [hfirst, hlast])]
    rfl
  | day =>
    rw [Field.read, Field.write, digits_pad (by decide) hday, within_some rfl]
    rfl
  | hour =>
    rw [Field.read, Field.write, oneOrTwo, digits_pad (by decide) (by omega)]
    exact within_some (by simpa using hhour)
  | minute =>
    rw [Field.read, Field.write, digits_pad (by decide) (by omega),
      within_some (by simpa using hminute)]
    rfl
  | second =>
    rw [Field.read, Field.write, digits_pad (by decide) (by omega),
      within_some (by simpa using hsecond),
      Option.map_some, hs]
    rfl
  | zone => rfl
  | lit d =>
    rw [Field.read, Field.write, List.singleton_append, List.head?_cons, if_pos rfl, List.tail_cons]
    rfl

theorem Field.head_write {f : Field} (hpoint : f.isPoint = false) {d : Char}
    (h : (f.write c).head? = some d) :
    d ≠ '.' ∧ d ≠ ',' := by
  have hdigit : ∀ {w n : Nat}, (pad w n).head? = some d → d ≠ '.' ∧ d ≠ ',' := by
    intro w n hhead
    have hd := isDigit_of_mem_pad (List.mem_of_head? hhead)
    constructor
    · rintro rfl
      cases hd
    · rintro rfl
      cases hd
  cases f with
  | year =>
    rw [Field.write, padInt] at h
    split at h
    · cases h
      exact ⟨by decide, by decide⟩
    · exact hdigit h
  | month | day | hour | minute | second => exact hdigit h
  | zone =>
    cases h
    exact ⟨by decide, by decide⟩
  | lit =>
    cases h
    simpa [Field.isPoint] using hpoint

theorem Field.write_ne_nil (f : Field) : f.write c ≠ [] := by
  have hpad : ∀ (w n : Nat), pad w n ≠ [] := by
    intro w n h
    rw [pad, List.append_eq_nil_iff] at h
    exact Nat.toDigits_ne_nil h.2
  cases f with
  | year =>
    rw [Field.write, padInt]
    split
    · exact List.cons_ne_nil _ _
    · exact hpad _ _
  | month | day | hour | minute | second => exact hpad _ _
  | zone | lit => exact List.cons_ne_nil _ _

theorem fraction_write {layout : List Field} (hpoint : ∀ f ∈ layout, f.isPoint = false)
    (hs : fraction s = (0, s)) : fraction (write layout c ++ s) = (0, write layout c ++ s) := by
  cases layout with
  | nil => exact hs
  | cons f fs =>
    refine fraction_of_head fun d hd => ?_
    refine Field.head_write (c := c) (hpoint f List.mem_cons_self) ?_
    obtain ⟨e, es, hwrite⟩ := List.exists_cons_of_ne_nil (Field.write_ne_nil (c := c) f)
    rw [write, List.flatMap_cons, List.append_assoc, hwrite] at hd
    rw [hwrite]
    exact hd

theorem read_write (hc : c.Valid) {layout : List Field}
    (hyear : .year ∈ layout → 0 ≤ c.date.year ∧ c.date.year ≤ 9999)
    (hpoint : ∀ f ∈ layout, f.isPoint = false) (hs : fraction s = (0, s)) :
    read layout r (write layout c ++ s) = some (layout.foldl (Field.set c) r, s) := by
  induction layout generalizing r with
  | nil => rfl
  | cons f fs ih =>
    rw [List.forall_mem_cons] at hpoint
    have hrest : fraction (write fs c ++ s) = (0, write fs c ++ s) := fraction_write hpoint.2 hs
    have htext : write (f :: fs) c ++ s = f.write c ++ (write fs c ++ s) := by
      rw [write, List.flatMap_cons, List.append_assoc]
      rfl
    rw [htext, read, Field.read_write hc (fun hf => hyear (hf ▸ List.mem_cons_self)) hrest,
      Option.bind_some]
    exact ih (fun hmem => hyear (List.mem_cons_of_mem _ hmem)) hpoint.2

theorem parse_write (hc : c.Valid) (hyear : 0 ≤ c.date.year ∧ c.date.year ≤ 9999)
    {layout : List Field} (hpoint : ∀ f ∈ layout, f.isPoint = false)
    (hdate : (layout.foldl (Field.set c) .start).clock.date = c.date) :
    parse layout (write layout c) = some (layout.foldl (Field.set c) .start) := by
  have hread := read_write (r := .start) hc (fun _ => hyear) hpoint (s := []) rfl
  rw [List.append_nil] at hread
  rw [parse, hread, Option.bind_some, hdate, if_pos ⟨rfl, hc.date.2.2⟩]

end RoundTrip

section Apart

variable {c c' : Clock} {layout : List Field}

def Field.width : Field → Nat
  | year => 4
  | zone | lit _ => 1
  | _ => 2

def width (layout : List Field) : Nat :=
  layout.foldr (fun f n => f.width + n) 0

theorem Field.length_write (hc : c.Valid) {f : Field} (hf : f ≠ .year) :
    (f.write c).length = f.width := by
  obtain ⟨hmonth, hday⟩ := day_lt hc
  have hhour := hc.hour
  have hminute := hc.minute
  have hsecond := hc.second
  cases f with
  | year => exact absurd rfl hf
  | month | day | hour | minute | second => exact length_pad (by decide) (by omega)
  | zone | lit => rfl

theorem length_write (hc : c.Valid) (hyear : .year ∉ layout) :
    (write layout c).length = width layout := by
  induction layout with
  | nil => rfl
  | cons f fs ih =>
    rw [List.mem_cons, not_or] at hyear
    have hrest := ih hyear.2
    rw [write] at hrest ⊢
    rw [List.flatMap_cons, List.length_append, hrest, Field.length_write hc (Ne.symm hyear.1)]
    rfl

theorem write_injective (hc : c.Valid) (hc' : c'.Valid) (hyear : .year ∉ layout)
    (hpoint : ∀ f ∈ layout, f.isPoint = false)
    (h : write (.year :: layout) c = write (.year :: layout) c') :
    c.date.year = c'.date.year ∧ ∀ r, layout.foldl (Field.set c) r = layout.foldl
      (Field.set c') r := by
  have hcons : ∀ d : Clock, write (.year :: layout) d = padInt 4 d.date.year ++ write layout d :=
    fun d => List.flatMap_cons
  rw [hcons, hcons] at h
  obtain ⟨hyears, hrest⟩ :=
    List.append_inj' h ((length_write hc hyear).trans (length_write hc' hyear).symm)
  refine ⟨padInt_injective hyears, fun r => ?_⟩
  have hread := read_write (r := r) hc (fun hmem => absurd hmem hyear) hpoint (s := []) rfl
  have hread' := read_write (r := r) hc' (fun hmem => absurd hmem hyear) hpoint (s := []) rfl
  rw [hrest, hread'] at hread
  exact (congrArg Prod.fst (Option.some.inj hread)).symm

theorem eq_of_write (hc : c.Valid) (hc' : c'.Valid) (hyear : .year ∉ layout)
    (hpoint : ∀ f ∈ layout, f.isPoint = false)
    (hfull : ∀ d : Clock, (layout.foldl (Field.set d) .start).clock =
      ⟨⟨0, d.date.month, d.date.day⟩, d.hour, d.minute, d.second⟩)
    (h : write (.year :: layout) c = write (.year :: layout) c') : c = c' := by
  obtain ⟨hyears, hrest⟩ := write_injective hc hc' hyear hpoint h
  have hclock := congrArg Reading.clock (hrest .start)
  rw [hfull, hfull] at hclock
  obtain ⟨⟨year, month, day⟩, hour, minute, second⟩ := c
  obtain ⟨⟨year', month', day'⟩, hour', minute', second'⟩ := c'
  cases hyears
  cases hclock
  rfl

end Apart

section Unreadable

variable {c : Clock} {layout : List Field} {r : Reading} {s : List Char}

def Written (c : Clock) : Prop :=
  0 ≤ c.date.year ∧ c.date.year ≤ 9999

theorem length_padInt (h : Written c) : (padInt 4 c.date.year).length = 4 := by
  obtain ⟨hlow, hhigh⟩ := h
  rw [padInt, if_neg (by omega)]
  exact length_pad (by decide) (by omega)

theorem length_padInt_gt (h : ¬Written c) : 4 < (padInt 4 c.date.year).length := by
  have hpad : ∀ n, 4 ≤ (pad 4 n).length := by
    intro n
    rw [pad, List.length_append, List.length_replicate]
    omega
  rw [padInt]
  split
  · rw [List.length_cons]
    exact Nat.lt_succ_of_le (hpad _)
  · next hlow =>
    have hlarge : ¬(Nat.toDigits 10 c.date.year.toNat).length ≤ 4 := by
      rw [Nat.length_toDigits_le_iff (by decide) (by decide)]
      intro hlt
      refine h ⟨by omega, ?_⟩
      omega
    rw [pad, List.length_append]
    omega

theorem digits_append {ds : List Char} (hds : ∀ d ∈ ds, d.isDigit = true) {n : Nat}
    (hn : n ≤ ds.length) :
    digits n (ds ++ s) = some (Nat.ofDigitChars 10 (ds.take n) 0, ds.drop n ++ s) := by
  have htake : (ds ++ s).take n = ds.take n := List.take_append_of_le_length hn
  have hdrop : (ds ++ s).drop n = ds.drop n ++ s := List.drop_append_of_le_length hn
  rw [digits, htake, hdrop, if_pos]
  refine ⟨by rw [List.length_take]; omega, List.all_eq_true.mpr fun d hd =>
    hds d (List.mem_of_mem_take hd)⟩

theorem digits_of_sign (n : Nat) (hn : 0 < n) : digits n ('-' :: s) = none := by
  rw [digits, if_neg]
  rintro ⟨-, hall⟩
  obtain ⟨m, rfl⟩ := Nat.exists_eq_succ_of_ne_zero (Nat.pos_iff_ne_zero.mp hn)
  rw [List.take_succ_cons, List.all_cons] at hall
  cases hall

theorem head_ne_of_digits {ds : List Char} (hds : ∀ d ∈ ds, d.isDigit = true) {n : Nat}
    (hn : n < ds.length) {d : Char} (hd : d.isDigit = false) : (ds.drop n ++ s).head? ≠ some d := by
  intro hhead
  cases hdrop : ds.drop n with
  | nil =>
    rw [List.drop_eq_nil_iff] at hdrop
    omega
  | cons e es =>
    rw [hdrop] at hhead
    cases hhead
    have hmem : d ∈ ds.drop n := hdrop ▸ List.mem_cons_self
    rw [hds d (List.mem_of_mem_drop hmem)] at hd
    cases hd

theorem read_date_digits {ds : List Char} (hds : ∀ d ∈ ds, d.isDigit = true)
    (hlen : 8 ≤ ds.length) :
    read (.year :: .month :: .day :: layout) r (ds ++ s) = none ∨
      ∃ r', read (.year :: .month :: .day :: layout) r (ds ++ s) = read layout r'
        (ds.drop 8 ++ s) := by
  have hsub : ∀ {n}, ∀ d ∈ ds.drop n, d.isDigit = true := fun d hd =>
    hds d (List.mem_of_mem_drop hd)
  rw [read, Field.read, digits_append hds (by omega), Option.map_some, Option.bind_some,
    read, Field.read,
    digits_append hsub (by rw [List.length_drop]; omega), within, Option.bind_some]
  split
  · rw [Option.bind_some, read, Field.read, List.drop_drop,
      digits_append hsub (by rw [List.length_drop]; omega), within, Option.bind_some, if_pos rfl,
        Option.bind_some,
      List.drop_drop]
    exact .inr ⟨_, rfl⟩
  · exact .inl rfl

theorem parse_date_none {fs gs : List Field} (h : ¬Written c)
    (hfs : ∀ f fs', fs = f :: fs' → f = .lit 'T') :
    parse (.year :: .month :: .day :: fs) (write (.year :: .month :: .day :: gs) c) = none := by
  have hlen := length_padInt_gt h
  have htext : write (.year :: .month :: .day :: gs) c =
      padInt 4 c.date.year ++ (pad 2 c.date.month ++ (pad 2 c.date.day ++ write gs c)) := by
    simp only [write, List.flatMap_cons]
    rfl
  rw [htext]
  by_cases hneg : c.date.year < 0
  · rw [padInt, if_pos hneg, List.cons_append, parse, read, Field.read,
      digits_of_sign 4 (by decide)]
    rfl
  · rw [padInt, if_neg hneg] at hlen
    rw [padInt, if_neg hneg, ← List.append_assoc, ← List.append_assoc]
    have hpad : ∀ n, 2 ≤ (pad 2 n).length := by
      intro n
      rw [pad, List.length_append, List.length_replicate]
      omega
    have hmonth := hpad c.date.month
    have hday := hpad c.date.day
    generalize hds : pad 4 c.date.year.toNat ++ pad 2 c.date.month ++ pad 2 c.date.day = ds
    have hdigits : ∀ d ∈ ds, d.isDigit = true := by
      intro d hd
      rw [← hds, List.mem_append, List.mem_append] at hd
      rcases hd with (hd | hd) | hd
      · exact isDigit_of_mem_pad hd
      · exact isDigit_of_mem_pad hd
      · exact isDigit_of_mem_pad hd
    have hlong : 8 < ds.length := by
      rw [← hds, List.length_append, List.length_append]
      omega
    rw [parse]
    rcases read_date_digits hdigits (by omega) with hnone | ⟨r', hread⟩
    · rw [hnone]
      rfl
    · rw [hread]
      cases fs with
      | nil =>
        have hmore : ds.drop 8 ++ write gs c ≠ [] := by
          intro hnil
          have := (List.append_eq_nil_iff.mp hnil).1
          rw [List.drop_eq_nil_iff] at this
          omega
        rw [read, Option.bind_some, if_neg fun hall => hmore hall.1]
      | cons f fs =>
        rw [hfs f fs rfl, read, Field.read, if_neg (head_ne_of_digits hdigits hlong (by decide))]
        rfl

end Unreadable

section Texts

def isTimeChar (c : Char) : Bool :=
  c.isDigit || c == '-' || c == ':' || c == 'T' || c == 'Z'

def Field.isPlain : Field → Bool
  | lit c => isTimeChar c
  | _ => true

theorem isTimeChar_of_mem_write {layout : List Field} (h : ∀ f ∈ layout, f.isPlain = true)
    {k : Clock} {c : Char} (hc : c ∈ write layout k) : isTimeChar c = true := by
  have hdigit : ∀ {w n : Nat}, c ∈ pad w n → isTimeChar c = true := by
    intro w n hmem
    simp [isTimeChar, isDigit_of_mem_pad hmem]
  rw [write, List.mem_flatMap] at hc
  obtain ⟨f, hf, hc⟩ := hc
  cases f with
  | year =>
    rw [Field.write, padInt] at hc
    split at hc
    · rcases List.mem_cons.mp hc with rfl | hc
      · rfl
      · exact hdigit hc
    · exact hdigit hc
  | month | day | hour | minute | second => exact hdigit hc
  | zone =>
    rw [List.mem_singleton.mp hc]
    rfl
  | lit d =>
    rw [List.mem_singleton.mp hc]
    exact h _ hf

theorem utf8Size_of_isTimeChar {c : Char} (h : isTimeChar c = true) : c.utf8Size = 1 := by
  simp only [isTimeChar, Bool.or_eq_true, beq_iff_eq] at h
  rcases h with (((h | rfl) | rfl) | rfl) | rfl
  · rw [Char.utf8Size_eq_one_iff]
    simp only [Char.isDigit, Bool.and_eq_true, decide_eq_true_eq] at h
    exact UInt32.le_trans h.2 (by decide)
  · rfl
  · rfl
  · rfl
  · rfl

theorem read_append (layout layout' : List Field) (r : Reading) (s : List Char) :
    read (layout ++ layout') r s = (read layout r s).bind fun y => read layout' y.1 y.2 := by
  induction layout generalizing r s with
  | nil => rfl
  | cons f fs ih =>
    rw [List.cons_append, read, read, Option.bind_assoc]
    simp only [ih]

end Texts

section Instants

/-- The text of an instant in UTC.  An instant is a number of nanoseconds since
1970-01-01T00:00:00 UTC. -/
def formatUtc (layout : List Field) (t : Int) : List Char :=
  write layout (clockOf (t / second))

/-- The instant of a text that stands for UTC or names its zone. -/
def parseTime (layout : List Field) (s : List Char) : Option Int :=
  (parse layout s).map fun r => second * (r.clock.seconds - r.offset) + r.nanos

/-- A time zone: its name, and at a number of seconds since 1970-01-01T00:00:00 UTC the abbreviation
in use and the seconds east of UTC. -/
structure Zone where
  name : String
  abbreviation : Int → String
  offset : Int → Int

/-- What clocks in the zone show at a second. -/
def Zone.clock (z : Zone) (t : Int) : Clock :=
  clockOf (t + z.offset t)

/-- `time.Date`: the second at which a clock in the zone shows a time, or next to the gap that the
time is in. The offset is the one at the second that the offset at the clock taken for UTC leads
to. -/
def Zone.date (z : Zone) (c : Clock) : Int :=
  c.seconds - z.offset (c.seconds - z.offset c.seconds)

/-- The instant of a text that stands for the clocks of a zone. -/
def parseIn (z : Zone) (layout : List Field) (s : List Char) : Option Int :=
  (parse layout s).map fun r => second * z.date r.clock + r.nanos

/-- `2006-01-02T15:04:05Z07:00`. -/
def rfc3339 : List Field :=
  [.year, .lit '-', .month, .lit '-', .day, .lit 'T', .hour, .lit ':', .minute, .lit ':',
    .second, .zone]

theorem parse_rfc3339_none {c : Clock} (h : ¬Written c) :
    parse rfc3339 (write rfc3339 c) = none := by
  have hlen := length_padInt_gt h
  have htext : write rfc3339 c = padInt 4 c.date.year ++ write rfc3339.tail c := List.flatMap_cons
  rw [htext]
  by_cases hneg : c.date.year < 0
  · rw [padInt, if_pos hneg, List.cons_append, parse, rfc3339, read, Field.read,
      digits_of_sign 4 (by decide)]
    rfl
  · rw [padInt, if_neg hneg] at hlen
    rw [padInt, if_neg hneg, parse, rfc3339, read, Field.read,
      digits_append (fun _ => isDigit_of_mem_pad) (by omega), Option.map_some, Option.bind_some,
        read, Field.read,
      if_neg (head_ne_of_digits (fun _ => isDigit_of_mem_pad) hlen (by decide))]
    rfl

end Instants

end ThanksComputer.Lib.Layout
