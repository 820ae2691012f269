import Mathlib.Algebra.Ring.Int.Defs

/-! Dates of the Gregorian calendar, in both directions from 1970-01-01, and the time of day. -/

namespace ThanksComputer.Lib.Civil

structure Date where
  year : Int
  month : Nat
  day : Nat
  deriving DecidableEq

def isLeap (year : Int) : Bool :=
  year % 4 == 0 && (year % 100 != 0 || year % 400 == 0)

def daysIn (year : Int) (month : Nat) : Nat :=
  if month = 2 then (if isLeap year then 29 else 28)
  else if month = 4 ∨ month = 6 ∨ month = 9 ∨ month = 11 then 30
  else 31

def Date.Valid (d : Date) : Prop :=
  1 ≤ d.month ∧ d.month ≤ 12 ∧ 1 ≤ d.day ∧ d.day ≤ daysIn d.year d.month

instance (d : Date) : Decidable d.Valid :=
  inferInstanceAs (Decidable (_ ∧ _ ∧ _ ∧ _))

/-- Days before the first of a month, in a year that starts in March.  Months count from 0. -/
def daysBefore (m : Int) : Int :=
  (153 * m + 2) / 5

/-- Days since 1970-01-01.  The year starts in March here, so that a leap day is the last of its
year. -/
def dayNumber (d : Date) : Int :=
  let year := if d.month ≤ 2 then d.year - 1 else d.year
  let month : Int := if d.month ≤ 2 then d.month + 9 else d.month - 3
  365 * year + year / 4 - year / 100 + year / 400 + daysBefore month + d.day - 719469

/-- The date that many days after 1970-01-01: cycles of 400, 100, 4 years and single years are cut
off in turn.  The last cycle of 100 years and the last year of four are a day longer. -/
def dateOf (n : Int) : Date :=
  let era := (n + 719468) / 146097
  let d := (n + 719468) % 146097
  let century := d / 36524 - d / 36524 / 4
  let d := d - 36524 * century
  let four := d / 1461
  let d := d - 1461 * four
  let one := d / 365 - d / 365 / 4
  let d := d - 365 * one
  let month := (5 * d + 2) / 153
  let year := 400 * era + 100 * century + 4 * four + one
  ⟨if month < 10 then year else year + 1, (if month < 10 then month + 3 else month - 9).toNat,
    (d - daysBefore month + 1).toNat⟩

/-- The year and the day of it that `dateOf` comes to, both of the year from March on. -/
structure Split (n era century four one d : Int) : Prop where
  century_range : 0 ≤ century ∧ century ≤ 3
  four_range : 0 ≤ four ∧ four ≤ 24
  one_range : 0 ≤ one ∧ one ≤ 3
  day_range : 0 ≤ d ∧ d ≤ 365
  leap : d = 365 → one = 3 ∧ (four ≠ 24 ∨ century = 3)
  sum : n + 719468 = 146097 * era + 36524 * century + 1461 * four + 365 * one + d

theorem exists_split (n : Int) : ∃ era century four one d, Split n era century four one d ∧
    dateOf n = ⟨if (5 * d + 2) / 153 < 10 then 400 * era + 100 * century + 4 * four + one
        else 400 * era + 100 * century + 4 * four + one + 1,
      (if (5 * d + 2) / 153 < 10 then (5 * d + 2) / 153 + 3 else (5 * d + 2) / 153 - 9).toNat,
      (d - daysBefore ((5 * d + 2) / 153) + 1).toNat⟩ := by
  refine ⟨_, _, _, _, _, ?_, rfl⟩
  generalize hera : (n + 719468) / 146097 = era
  generalize hday : (n + 719468) % 146097 = d₀
  generalize hcentury : d₀ / 36524 - d₀ / 36524 / 4 = century
  generalize hd₁ : d₀ - 36524 * century = d₁
  generalize hfour : d₁ / 1461 = four
  generalize hd₂ : d₁ - 1461 * four = d₂
  generalize hone : d₂ / 365 - d₂ / 365 / 4 = one
  generalize hd₃ : d₂ - 365 * one = d₃
  have h₀ : 0 ≤ d₀ ∧ d₀ < 146097 := by omega
  have hc : 0 ≤ century ∧ century ≤ 3 := by omega
  have h₁ : 0 ≤ d₁ ∧ d₁ ≤ 36524 ∧ (d₁ = 36524 → century = 3) := by omega
  have hf : 0 ≤ four ∧ four ≤ 24 := by omega
  have h₂ : 0 ≤ d₂ ∧ d₂ ≤ 1460 ∧ (d₂ = 1460 → four ≠ 24 ∨ century = 3) := by omega
  have ho : 0 ≤ one ∧ one ≤ 3 := by omega
  exact ⟨hc, hf, ho, by omega, by omega, by omega⟩

theorem daysBefore_le {d : Int} (h : 0 ≤ d ∧ d ≤ 365) :
    0 ≤ (5 * d + 2) / 153 ∧ (5 * d + 2) / 153 ≤ 11 ∧ daysBefore ((5 * d + 2) / 153) ≤ d := by
  rw [daysBefore]
  omega

@[simp] theorem dayNumber_dateOf (n : Int) : dayNumber (dateOf n) = n := by
  obtain ⟨era, century, four, one, d, hsplit, hdate⟩ := exists_split n
  obtain ⟨hc, hf, ho, hd, -, hsum⟩ := hsplit
  obtain ⟨hm₀, hm₁, hbefore⟩ := daysBefore_le hd
  rw [hdate, dayNumber]
  generalize (5 * d + 2) / 153 = m at *
  by_cases hm : m < 10
  · have hmonth : ¬(m + 3).toNat ≤ 2 := by omega
    simp only [if_pos hm, if_neg hmonth]
    have hnat : ((m + 3).toNat : Int) - 3 = m := by omega
    rw [hnat]
    generalize daysBefore m = b at *
    omega
  · have hmonth : (m - 9).toNat ≤ 2 := by omega
    simp only [if_neg hm, if_pos hmonth]
    have hnat : ((m - 9).toNat : Int) + 9 = m := by omega
    rw [hnat]
    generalize daysBefore m = b at *
    omega

theorem isLeap_iff {year : Int} :
    isLeap year = true ↔ year % 4 = 0 ∧ (year % 100 ≠ 0 ∨ year % 400 = 0) := by
  simp [isLeap]

theorem valid_dateOf (n : Int) : (dateOf n).Valid := by
  obtain ⟨era, century, four, one, d, hsplit, hdate⟩ := exists_split n
  obtain ⟨hc, hf, ho, hd, hleap, -⟩ := hsplit
  obtain ⟨hm₀, hm₁, hbefore⟩ := daysBefore_le hd
  -- a day of a month is before the first of the next one
  have hnext : d < daysBefore ((5 * d + 2) / 153 + 1) := by
    rw [daysBefore]
    omega
  rw [hdate, Date.Valid]
  generalize (5 * d + 2) / 153 = m at *
  by_cases hm : m < 10
  · simp only [if_pos hm]
    refine ⟨by omega, by omega, by omega, ?_⟩
    rw [daysIn, if_neg (by omega)]
    unfold daysBefore at *
    split
    · omega
    · omega
  · simp only [if_neg hm]
    refine ⟨by omega, by omega, by omega, ?_⟩
    rw [daysIn]
    unfold daysBefore at *
    split
    · split
      · omega
      · next hnot =>
        rw [isLeap_iff] at hnot
        omega
    · split
      · omega
      · omega

structure Clock where
  date : Date
  hour : Nat
  minute : Nat
  second : Nat
  deriving DecidableEq

structure Clock.Valid (c : Clock) : Prop where
  date : c.date.Valid
  hour : c.hour < 24
  minute : c.minute < 60
  second : c.second < 60

def Clock.seconds (c : Clock) : Int :=
  86400 * dayNumber c.date + 3600 * c.hour + 60 * c.minute + c.second

def clockOf (t : Int) : Clock :=
  ⟨dateOf (t / 86400), (t % 86400 / 3600).toNat, (t % 3600 / 60).toNat, (t % 60).toNat⟩

@[simp] theorem seconds_clockOf (t : Int) : (clockOf t).seconds = t := by
  rw [Clock.seconds, clockOf]
  simp only [dayNumber_dateOf]
  omega

theorem valid_clockOf (t : Int) : (clockOf t).Valid :=
  ⟨valid_dateOf
    _, by simp only [clockOf]; omega, by simp only [clockOf]; omega, by simp only [clockOf]; omega⟩

end ThanksComputer.Lib.Civil
