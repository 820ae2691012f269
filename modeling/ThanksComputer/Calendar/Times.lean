import Mathlib.Data.List.DropRight
import ThanksComputer.Calendar.Ical

/-! The times of an event in the object, and read back from it. -/

namespace ThanksComputer.Calendar

open Lib (second byteLen byteLen_eq_length)
open Lib.Civil Lib.Layout
open Guard (trimSpace isSpace)

variable {R : Type} {H : Host R} {tzid : Text} {w : When} {z : Zone} {t : Int}

section Trim

theorem trimSpace_eq_self {v : Text} (h : ∀ c ∈ v, isSpace c = false) : trimSpace v = v := by
  have hdrop : ∀ {u : Text}, (∀ c ∈ u, isSpace c = false) → u.dropWhile isSpace = u := by
    intro u hu
    cases u with
    | nil => rfl
    | cons c u =>
      rw [List.dropWhile_cons_of_neg (by rw [hu c List.mem_cons_self]; exact Bool.false_ne_true)]
  rw [trimSpace, hdrop h, hdrop fun c hc => h c (List.mem_reverse.mp hc), List.reverse_reverse]

theorem trimSpace_trimSpace (v : Text) : trimSpace (trimSpace v) = trimSpace v := by
  have hlast : ∀ u, trimSpace u = (u.dropWhile isSpace).rdropWhile isSpace := fun _ => rfl
  have hfirst : (trimSpace v).dropWhile isSpace = trimSpace v := by
    rw [List.dropWhile_eq_self_iff]
    intro hpos
    have hfront : trimSpace v <+: v.dropWhile isSpace := List.rdropWhile_prefix isSpace _
    have hlong := hfront.length_le
    rw [hfront.getElem]
    exact List.dropWhile_get_zero_not isSpace v (by omega)
  rw [hlast (trimSpace v), hfirst, hlast v]
  exact List.rdropWhile_idempotent isSpace _

theorem trimSpace_map {f : Char → Char} (h : ∀ c, isSpace (f c) = isSpace c) (v : Text) :
    trimSpace (v.map f) = (trimSpace v).map f := by
  have hcomp : isSpace ∘ f = isSpace := funext h
  simp only [trimSpace, List.dropWhile_map, ← List.map_reverse, hcomp]

theorem isSpace_of_isTimeChar {c : Char} (h : isTimeChar c = true) : isSpace c = false := by
  have hascii := Char.utf8Size_eq_one_iff.mp (utf8Size_of_isTimeChar h)
  have hrange : ('\u2000' ≤ c && c ≤ '\u200a') = false := by
    rw [Bool.and_eq_false_iff]
    refine .inl (decide_eq_false fun hle => ?_)
    exact absurd (UInt32.le_trans hle hascii) (by decide)
  have hne : ∀ d : Char, isTimeChar d = false → (c == d) = false := by
    intro d hd
    rw [beq_eq_false_iff_ne]
    rintro rfl
    rw [h] at hd
    cases hd
  simp only [isSpace, hrange, hne '\t' rfl, hne '\n' rfl, hne '\x0b' rfl, hne '\x0c' rfl,
    hne '\r' rfl, hne ' ' rfl,
    hne '\x85' rfl, hne '\xa0' rfl, hne '\u1680' rfl, hne '\u2028' rfl, hne '\u2029' rfl,
      hne '\u202f' rfl,
    hne '\u205f' rfl, hne '\u3000' rfl, Bool.or_false]

theorem trimSpace_write {layout : List Field} (h : ∀ f ∈ layout, f.isPlain = true) (k : Clock) :
    trimSpace (write layout k) = write layout k :=
  trimSpace_eq_self fun _ hc => isSpace_of_isTimeChar (isTimeChar_of_mem_write h hc)

theorem byteLen_write {layout : List Field} (h : ∀ f ∈ layout, f.isPlain = true) (k : Clock) :
    byteLen (write layout k) = (write layout k).length :=
  byteLen_eq_length fun _ hc => utf8Size_of_isTimeChar (isTimeChar_of_mem_write h hc)

theorem write_of_head {layout : List Field} (hhead : layout.head? = some .year) (k : Clock) :
    write layout k = padInt 4 k.date.year ++ write layout.tail k ∧
    width layout = 4 + width layout.tail := by
  obtain ⟨fs, rfl⟩ := List.head?_eq_some_iff.mp hhead
  exact ⟨List.flatMap_cons, rfl⟩

theorem byteLen_written {layout : List Field} (hplain : ∀ f ∈ layout, f.isPlain = true)
    (hhead : layout.head? = some .year) (htail : .year ∉ layout.tail) {k : Clock} (hk : k.Valid)
    (hwritten : Written k) : byteLen (write layout k) = width layout := by
  obtain ⟨htext, hwidth⟩ := write_of_head hhead k
  rw [byteLen_write hplain, htext, hwidth, List.length_append, length_padInt hwritten,
    length_write hk htail]

theorem byteLen_unwritten {layout : List Field} (hplain : ∀ f ∈ layout, f.isPlain = true)
    (hhead : layout.head? = some .year) (htail : .year ∉ layout.tail) {k : Clock} (hk : k.Valid)
    (hwritten : ¬Written k) : width layout < byteLen (write layout k) := by
  obtain ⟨htext, hwidth⟩ := write_of_head hhead k
  have hlen := length_padInt_gt hwritten
  rw [byteLen_write hplain, htext, hwidth, List.length_append, length_write hk htail]
  omega

theorem valid_clock (z : Zone) (t : Int) : (z.clock t).Valid :=
  valid_clockOf _

end Trim

section Readings

/-- `20060102`. -/
def dateLayout : List Field :=
  [.year, .month, .day]

/-- `20060102T150405Z`. -/
def utcLayout : List Field :=
  localLayout ++ [.lit 'Z']

variable {k : Clock}

theorem parse_utcLayout (hk : k.Valid) (hwritten : Written k) :
    Lib.Layout.parse utcLayout (write utcLayout k) = some ⟨k, 0, 0⟩ :=
  parse_write hk hwritten (by decide) rfl

theorem parse_localLayout (hk : k.Valid) (hwritten : Written k) :
    Lib.Layout.parse localLayout (write localLayout k) = some ⟨k, 0, 0⟩ :=
  parse_write hk hwritten (by decide) rfl

theorem parse_localForm (hk : k.Valid) (hwritten : Written k) :
    Lib.Layout.parse localForm (write localForm k) = some ⟨k, 0, 0⟩ :=
  parse_write hk hwritten (by decide) rfl

theorem parse_rfc3339 (hk : k.Valid) (hwritten : Written k) :
    Lib.Layout.parse rfc3339 (write rfc3339 k) = some ⟨k, 0, 0⟩ :=
  parse_write hk hwritten (by decide) rfl

theorem parse_dateLayout (hk : k.Valid) (hwritten : Written k) :
    Lib.Layout.parse dateLayout (write dateLayout k) = some ⟨⟨k.date, 0, 0, 0⟩, 0, 0⟩ :=
  parse_write hk hwritten (by decide) rfl

theorem parse_dateForm (hk : k.Valid) (hwritten : Written k) :
    Lib.Layout.parse dateForm (write dateForm k) = some ⟨⟨k.date, 0, 0, 0⟩, 0, 0⟩ :=
  parse_write hk hwritten (by decide) rfl

theorem parse_rfc3339_localForm (hk : k.Valid) (hwritten : Written k) :
    Lib.Layout.parse rfc3339 (write localForm k) = none := by
  have hread : read localForm .start (write localForm k ++ []) = _ :=
    read_write hk (fun _ => hwritten) (by decide) rfl
  rw [List.append_nil] at hread
  have hsplit : rfc3339 = localForm ++ [.zone] := rfl
  rw [Lib.Layout.parse, hsplit, read_append, hread]
  rfl

theorem midnight_of_read {layout : List Field}
    (hlayout : ∀ f ∈ layout, f = .year ∨ f = .month ∨ f = .day ∨ ∃ c, f = .lit c) {r r' : Reading}
    {s s' : Text} (h : read layout r s = some (r', s')) :
    r'.clock = ⟨r'.clock.date, r.clock.hour, r.clock.minute, r.clock.second⟩ ∧ r'.nanos = r.nanos ∧
      r'.offset = r.offset := by
  induction layout generalizing r s with
  | nil =>
    cases h
    exact ⟨rfl, rfl, rfl⟩
  | cons f fs ih =>
    rw [List.forall_mem_cons] at hlayout
    obtain ⟨⟨r₁, s₁⟩, hfirst, hrest⟩ := Option.bind_eq_some_iff.mp h
    have hkept : r₁.clock.hour = r.clock.hour ∧ r₁.clock.minute = r.clock.minute ∧
        r₁.clock.second = r.clock.second ∧ r₁.nanos = r.nanos ∧ r₁.offset = r.offset := by
      rcases hlayout.1 with rfl | rfl | rfl | ⟨c, rfl⟩
      · obtain ⟨y, -, hy⟩ := Option.map_eq_some_iff.mp hfirst
        cases hy
        exact ⟨rfl, rfl, rfl, rfl, rfl⟩
      · obtain ⟨y, -, hy⟩ := Option.bind_eq_some_iff.mp hfirst
        split at hy
        · cases hy
          exact ⟨rfl, rfl, rfl, rfl, rfl⟩
        · cases hy
      · obtain ⟨y, -, hy⟩ := Option.bind_eq_some_iff.mp hfirst
        split at hy
        · cases hy
          exact ⟨rfl, rfl, rfl, rfl, rfl⟩
        · cases hy
      · rw [Field.read] at hfirst
        split at hfirst
        · cases hfirst
          exact ⟨rfl, rfl, rfl, rfl, rfl⟩
        · cases hfirst
    obtain ⟨hclock, hnanos, hoffset⟩ := ih hlayout.2 hrest
    rw [hkept.1, hkept.2.1, hkept.2.2.1] at hclock
    exact ⟨hclock, hnanos.trans hkept.2.2.2.1, hoffset.trans hkept.2.2.2.2⟩

theorem oneDay_dvd_of_dateForm {v : Text} (h : parseTime dateForm v = some t) : oneDay ∣ t := by
  obtain ⟨r, hr, rfl⟩ := Option.map_eq_some_iff.mp h
  obtain ⟨⟨r', s'⟩, hread, hif⟩ := Option.bind_eq_some_iff.mp hr
  split at hif
  · cases hif
    obtain ⟨hclock, hnanos, hoffset⟩ := midnight_of_read (by simp [dateForm]) hread
    refine ⟨dayNumber r'.clock.date, ?_⟩
    rw [hclock, hnanos, hoffset]
    simp only [Clock.seconds, Reading.start, oneDay, second]
    omega
  · cases hif

end Readings

section Laws

/-- What is documented of the functions of other packages.  Upper case changes no spaces; a location
has the name it was loaded by, and a time that its clocks show is shown again at the instant of that
time.  A property has a date, a time in UTC or a local time with its `TZID`, and is read in the form
that its kind and the length of its value tell. -/
structure Host.Lawful (H : Host R) : Prop where
  upper_ascii : ∀ c, c.val < 128 → H.upper c = c.toUpper
  upper_upper : ∀ c, H.upper (H.upper c) = H.upper c
  upper_space : ∀ c, isSpace (H.upper c) = isSpace c
  zone_name : ∀ name z, H.loadLocation name = some (.zone z) → z.name.toList = name
  zone_clock : ∀ name z, H.loadLocation name = some (.zone z) →
    ∀ t, z.clock (z.date (z.clock t)) = z.clock t
  setDate_eq : ∀ t, H.setDate t = ⟨true, none, formatUtc dateLayout t⟩
  setDateTime_utc : ∀ t, H.setDateTime none t = ⟨false, none, formatUtc utcLayout t⟩
  setDateTime_zone : ∀ z t,
    H.setDateTime (some z) t = ⟨false, some z.name, write localLayout (z.clock (t / second))⟩
  dateTime_date : ∀ p, p.isDate = true →
    H.dateTime p = (parseTime dateLayout p.value).map (.utc, ·)
  dateTime_utc : ∀ p, p.isDate = false → byteLen p.value ≠ 15 →
    H.dateTime p = (parseTime utcLayout p.value).map (.utc, ·)
  dateTime_zone : ∀ tzid z v, byteLen v = 15 → H.loadLocation tzid.toList = some (.zone z) →
    H.dateTime ⟨false, some tzid, v⟩ = (parseIn z localLayout v).map (.zone z, ·)
  duration_nil : H.duration [] = none
  duration_hour : (H.duration "PT1H".toList).isSome = true
  rrule_nil : ∀ r, H.rrule [] ≠ .ok r

namespace Host.Lawful

variable (L : H.Lawful)
include L

theorem toUpper_toUpper (v : Text) : H.toUpper (H.toUpper v) = H.toUpper v := by
  rw [Host.toUpper, Host.toUpper, List.map_map]
  exact List.map_congr_left fun c _ => L.upper_upper c

theorem trimSpace_toUpper (v : Text) :
    trimSpace (H.toUpper (trimSpace v)) = H.toUpper (trimSpace v) := by
  rw [Host.toUpper, trimSpace_map L.upper_space, trimSpace_trimSpace]

theorem toUpper_hour : H.toUpper "PT1H".toList = "PT1H".toList := by
  have hmap : H.toUpper "PT1H".toList = [H.upper 'P', H.upper 'T', H.upper '1', H.upper 'H'] := rfl
  rw [hmap, L.upper_ascii 'P' (by decide), L.upper_ascii 'T' (by decide),
    L.upper_ascii '1' (by decide),
    L.upper_ascii 'H' (by decide)]
  rfl

end Host.Lawful

/-- What a text was read with: a date is a midnight, and a zone is the one of the event's `tzid`. -/
def Known (H : Host R) (tzid : Text) : When → Prop
  | .allDay t => oneDay ∣ t
  | .utc _ => True
  | .zoned z _ =>
    H.loadLocation tzid = some (.zone z) ∧ tzid ≠ [] ∧ tzid ≠ "Local".toList ∧
      isUtcName tzid = false

theorem parseLocal_known {form : List Field} {v : Text} (h : parseLocal H form v tzid = .ok w) :
    Known H tzid w := by
  rw [parseLocal] at h
  split at h
  · cases h
  · next hne =>
    split at h
    · cases h
    · next loc hload =>
      split at h
      · cases h
      · next hlocal =>
        split at h
        · split at h
          · cases h
          · cases h
            trivial
        · split at h
          · cases h
          · split at h
            · cases h
              trivial
            · next hutc =>
              cases h
              exact ⟨hload, hne, hlocal, eq_false_of_ne_true hutc⟩

theorem parseWhen_known {v : Text} (h : parseWhen H v tzid = .ok w) : Known H tzid w := by
  rw [parseWhen] at h
  split at h
  · cases h
  · split at h
    · split at h
      · cases h
      · next t ht =>
        cases h
        exact oneDay_dvd_of_dateForm ht
    · split at h
      · cases h
        trivial
      · split at h
        · exact parseLocal_known h
        · split at h
          · exact parseLocal_known h
          · cases h

/-- The year of the text in the object has four digits. -/
def Legible : When → Prop
  | .allDay t => Written (clockOf (t / second))
  | .utc t => Written (clockOf (t / second))
  | .zoned z t => Written (z.clock (t / second))

def reread : When → When
  | .allDay t => .allDay t
  | .utc t => .utc (second * (t / second))
  | .zoned z t => .zoned z (second * z.date (z.clock (t / second)))

end Laws

section Reread

theorem ediv_second (t : Int) : second * t / second = t :=
  Int.mul_ediv_cancel_left t (by decide)

@[simp] theorem reread_isAllDay : (reread w).isAllDay = w.isAllDay := by
  cases w with
  | _ => rfl

@[simp] theorem reread_zone : (reread w).zone = w.zone := by
  cases w with
  | _ => rfl

theorem Known.name (L : H.Lawful) (hw : Known H tzid (.zoned z t)) : z.name.toList = tzid :=
  L.zone_name tzid z hw.1

theorem Known.clock (L : H.Lawful) (hw : Known H tzid (.zoned z t)) (u : Int) :
    z.clock (z.date (z.clock u)) = z.clock u :=
  L.zone_clock tzid z hw.1 u

theorem setWhen_reread (L : H.Lawful) (hw : Known H tzid w) :
    setWhen H (reread w) = setWhen H w := by
  cases w with
  | allDay t => rfl
  | utc t =>
    simp only [reread, setWhen, L.setDateTime_utc, formatUtc, ediv_second]
  | zoned z t =>
    simp only [reread, setWhen, L.setDateTime_zone, ediv_second, hw.clock L]

end Reread

section Object

theorem dateTime_utc (L : H.Lawful) (h : Written (clockOf (t / second))) :
    H.dateTime (H.setDateTime none t) = some (.utc, second * (t / second)) := by
  have hlen : byteLen (formatUtc utcLayout t) = 16 :=
    byteLen_written (by decide) rfl (by decide) (valid_clockOf _) h
  have hlong : byteLen (formatUtc utcLayout t) ≠ 15 := by omega
  rw [L.setDateTime_utc, L.dateTime_utc _ rfl hlong, parseTime, formatUtc,
    parse_utcLayout (valid_clockOf _) h, Option.map_some, Option.map_some]
  simp

theorem dateTime_utc_none (L : H.Lawful) (h : ¬Written (clockOf (t / second))) :
    H.dateTime (H.setDateTime none t) = none := by
  have hlen : width utcLayout < byteLen (formatUtc utcLayout t) :=
    byteLen_unwritten (by decide) rfl (by decide) (valid_clockOf _) h
  have hlong : byteLen (formatUtc utcLayout t) ≠ 15 := by
    have hwidth : width utcLayout = 16 := rfl
    omega
  have hparse : Lib.Layout.parse utcLayout (write utcLayout (clockOf (t / second))) = none :=
    parse_date_none h (by simp)
  rw [L.setDateTime_utc, L.dateTime_utc _ rfl hlong, parseTime, formatUtc, hparse]
  rfl

theorem dateTime_zoned (L : H.Lawful) {u : Int} (hw : Known H tzid (.zoned z u))
    (h : Written (z.clock (t / second))) :
    H.dateTime (H.setDateTime (some z) t) = some
      (.zone z, second * z.date (z.clock (t / second))) := by
  have hlen : byteLen (write localLayout (z.clock (t / second))) = 15 :=
    byteLen_written (by decide) rfl (by decide) (valid_clock z _) h
  have hload : H.loadLocation z.name.toList = some (.zone z) := by
    rw [hw.name L]
    exact hw.1
  rw [L.setDateTime_zone, L.dateTime_zone _ z _ hlen hload, parseIn,
    parse_localLayout (valid_clock z _) h, Option.map_some, Option.map_some]
  simp

theorem dateTime_zoned_none (L : H.Lawful) (h : ¬Written (z.clock (t / second))) :
    H.dateTime (H.setDateTime (some z) t) = none := by
  have hlen : width localLayout < byteLen (write localLayout (z.clock (t / second))) :=
    byteLen_unwritten (by decide) rfl (by decide) (valid_clock z _) h
  have hlong : byteLen (write localLayout (z.clock (t / second))) ≠ 15 := by
    have hwidth : width localLayout = 15 := rfl
    omega
  have hparse : Lib.Layout.parse utcLayout (write localLayout (z.clock (t / second))) = none :=
    parse_date_none h (by simp)
  rw [L.setDateTime_zone, L.dateTime_utc _ rfl hlong, parseTime, hparse]
  rfl

theorem seconds_date (h : oneDay ∣ t) :
    second * (⟨(clockOf (t / second)).date, 0, 0, 0⟩ : Clock).seconds = t := by
  obtain ⟨q, rfl⟩ := h
  have hday : oneDay * q / second = 86400 * q := by
    rw [oneDay, Int.mul_comm 86400 second, Int.mul_assoc]
    exact ediv_second _
  rw [hday, clockOf, Clock.seconds]
  simp only [oneDay, second]
  have : 86400 * q / 86400 = q := by omega
  rw [this, dayNumber_dateOf]
  omega

theorem dateTime_date (L : H.Lawful) (hday : oneDay ∣ t) (h : Written (clockOf (t / second))) :
    H.dateTime (H.setDate t) = some (.utc, t) := by
  rw [L.setDate_eq, L.dateTime_date _ rfl, parseTime, formatUtc,
    parse_dateLayout (valid_clockOf _) h, Option.map_some, Option.map_some]
  simp [seconds_date hday]

theorem dateTime_date_none (L : H.Lawful) (h : ¬Written (clockOf (t / second))) :
    H.dateTime (H.setDate t) = none := by
  have hparse : Lib.Layout.parse dateLayout (write dateLayout (clockOf (t / second))) = none :=
    parse_date_none h (by simp)
  rw [L.setDate_eq, L.dateTime_date _ rfl, parseTime, formatUtc, hparse]
  rfl

theorem whenOf_setWhen (L : H.Lawful) (hw : Known H tzid w) (h : Legible w) :
    whenOf H (setWhen H w) = some (reread w) := by
  cases w with
  | allDay t =>
    have hmidnight : second * (86400 * (t / (86400 * second))) = t := by
      obtain ⟨q, hq⟩ : oneDay ∣ t := hw
      simp only [oneDay, second] at hq ⊢
      omega
    rw [whenOf, setWhen, dateTime_date L hw h, Option.map_some, L.setDate_eq, if_pos rfl, hmidnight]
    rfl
  | utc t =>
    rw [whenOf, setWhen, dateTime_utc L h, Option.map_some, L.setDateTime_utc]
    rfl
  | zoned z t =>
    rw [whenOf, setWhen, dateTime_zoned L hw h, Option.map_some, L.setDateTime_zone]
    rfl

theorem whenOf_setWhen_none (L : H.Lawful) (h : ¬Legible w) :
    whenOf H (setWhen H w) = none := by
  cases w with
  | allDay t =>
    rw [whenOf, setWhen, dateTime_date_none L h]
    rfl
  | utc t =>
    rw [whenOf, setWhen, dateTime_utc_none L h]
    rfl
  | zoned z t =>
    rw [whenOf, setWhen, dateTime_zoned_none L h]
    rfl

end Object

section Again

theorem write_ne_nil {layout : List Field} (h : layout ≠ []) (k : Clock) : write layout k ≠ [] := by
  obtain ⟨f, fs, rfl⟩ := List.exists_cons_of_ne_nil h
  rw [write, List.flatMap_cons]
  exact List.append_ne_nil_of_left_ne_nil (Field.write_ne_nil f) _

theorem parseWhen_date (hday : oneDay ∣ t) (h : Written (clockOf (t / second))) :
    parseWhen H (formatUtc dateForm t) tzid = .ok (.allDay t) := by
  have hlen : byteLen (write dateForm (clockOf (t / second))) = 10 :=
    byteLen_written (by decide) rfl (by decide) (valid_clockOf _) h
  rw [parseWhen, formatUtc, trimSpace_write (by decide), if_neg (write_ne_nil (by decide) _),
    if_pos hlen, parseTime, parse_dateForm (valid_clockOf _) h,
    Option.map_some]
  simp [seconds_date hday]

theorem parseWhen_utc (h : Written (clockOf (t / second))) :
    parseWhen H (formatUtc rfc3339 t) tzid = .ok (.utc (second * (t / second))) := by
  have hlen : byteLen (write rfc3339 (clockOf (t / second))) = 20 :=
    byteLen_written (by decide) rfl (by decide) (valid_clockOf _) h
  rw [parseWhen, formatUtc, trimSpace_write (by decide), if_neg (write_ne_nil (by decide) _),
    if_neg (by omega), parseTime, parse_rfc3339 (valid_clockOf _) h,
    Option.map_some]
  simp

theorem parseWhen_utc_error (h : ¬Written (clockOf (t / second))) :
    ∃ err, parseWhen H (formatUtc rfc3339 t) tzid = .error err := by
  have hlen : width rfc3339 < byteLen (write rfc3339 (clockOf (t / second))) :=
    byteLen_unwritten (by decide) rfl (by decide) (valid_clockOf _) h
  have hwidth : width rfc3339 = 20 := rfl
  rw [parseWhen, formatUtc, trimSpace_write (by decide), if_neg (write_ne_nil (by decide) _),
    if_neg (by omega), parseTime, parse_rfc3339_none h,
    Option.map_none]
  dsimp only
  rw [if_neg (by omega), if_neg (by omega)]
  exact ⟨_, rfl⟩

theorem parseWhen_local (h : Written (z.clock t)) :
    parseWhen H (write localForm (z.clock t)) tzid = parseLocal H localForm
      (write localForm (z.clock t)) tzid := by
  have hlen : byteLen (write localForm (z.clock t)) = 19 :=
    byteLen_written (by decide) rfl (by decide) (valid_clock z _) h
  rw [parseWhen, trimSpace_write (by decide), if_neg (write_ne_nil (by decide) _),
    if_neg (by omega), parseTime,
    parse_rfc3339_localForm (valid_clock z _) h, Option.map_none]
  dsimp only
  rw [if_pos hlen]

theorem parseLocal_zoned {u : Int} (hw : Known H tzid (.zoned z u)) (h : Written (z.clock t)) :
    parseLocal H localForm (write localForm (z.clock t)) tzid = .ok
      (.zoned z (second * z.date (z.clock t))) := by
  obtain ⟨hload, hne, hlocal, hutc⟩ := hw
  rw [parseLocal, if_neg hne, hload]
  dsimp only
  rw [if_neg hlocal, parseIn, parse_localForm (valid_clock z _) h, Option.map_some]
  dsimp only
  rw [hutc, if_neg Bool.false_ne_true]
  simp

theorem parseLocal_floating (form : List Field) (v : Text) :
    ∃ err, parseLocal H form v [] = .error err := by
  rw [parseLocal, if_pos rfl]
  exact ⟨_, rfl⟩

theorem parseWhen_formatWhen (L : H.Lawful) (hw : Known H tzid w) (h : Legible w) {tzid' : Text}
    (hzone : w.zone.isSome → tzid' = tzid) :
    parseWhen H (formatWhen (reread w)).1 tzid' = .ok (reread w) := by
  cases w with
  | allDay t => exact parseWhen_date hw h
  | utc t =>
    have hwritten : Written (clockOf (second * (t / second) / second)) := by rwa [ediv_second]
    have hread : parseWhen H (formatUtc rfc3339 (second * (t / second))) tzid' = _ :=
      parseWhen_utc hwritten
    rwa [ediv_second] at hread
  | zoned z t =>
    obtain rfl := hzone rfl
    have hclock := hw.clock L (t / second)
    have hwritten : Written (z.clock (z.date (z.clock (t / second)))) := by
      rw [hclock]
      exact h
    rw [reread, formatWhen, ediv_second, parseWhen_local hwritten, parseLocal_zoned hw hwritten,
      hclock]

theorem parseWhen_formatWhen_floating (L : H.Lawful) (hw : Known H tzid w) (h : Legible w)
    (hzone : w.zone.isSome = true) :
      ∃ err, parseWhen H (formatWhen (reread w)).1 [] = .error err := by
  cases w with
  | allDay | utc => cases hzone
  | zoned z t =>
    have hclock := hw.clock L (t / second)
    have hwritten : Written (z.clock (z.date (z.clock (t / second)))) := by
      rw [hclock]
      exact h
    rw [reread, formatWhen, ediv_second, parseWhen_local hwritten]
    exact parseLocal_floating _ _

end Again

end ThanksComputer.Calendar
