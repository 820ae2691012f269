import ThanksComputer.Guard.Paths
import ThanksComputer.Lib.Layout
import ThanksComputer.Lib.Transitions

/-! `&tz_offsets` (`txcl/funcs/builtin.go`): the offset of a zone at a minute and its changes in the
days after it. -/

namespace ThanksComputer.Txcl.Offsets

open Lib (second)
open Lib.Civil Lib.Layout Lib.Transitions

section Arguments

/-- An argument.  A `float64` is a whole number or has a fraction, which an error shows. -/
inductive Arg
  | str (s : String)
  | int (n : Int)
  | int64 (n : Int)
  | float (n : Int)
  | fractional (text : String)
  | other (typeName : String)

def Arg.typeName : Arg → String
  | str _ => "string"
  | int _ => "int"
  | int64 _ => "int64"
  | float _ => "float64"
  | fractional _ => "float64"
  | other name => name

def toInt (name : String) : Arg → Except String Int
  | .int n => .ok n
  | .int64 n => .ok n
  | .float n => .ok n
  | .fractional text => .error (name ++ ": expected integer, got fractional " ++ text)
  | v => .error (name ++ ": must be a number, got " ++ v.typeName)

end Arguments

section Scan

def minute : Int := 60 * second

def step : Int := 30 * minute

abbrev Minute := { t : Int // minute ∣ t }

/-- `Truncate(time.Minute)`. -/
def truncate (t : Int) : Minute :=
  ⟨t - t % minute, Int.dvd_self_sub_emod⟩

def Minute.add (t : Minute) (n : Int) : Minute :=
  ⟨t.1 + n * minute, Int.dvd_add t.2 (Int.dvd_mul_left n minute)⟩

def offAt (loc : Zone) (t : Int) : Int :=
  (loc.offset (t / second)).tdiv 60

def byMinute : Halving where
  gap := minute
  mid lo hi := (truncate (lo + (hi - lo) / 2)).1
  Grid t := minute ∣ t
  grid_mid lo hi := (truncate (lo + (hi - lo) / 2)).2
  between lo hi hlo hhi hgap := by
    simp only [truncate, minute, second] at *
    omega

structure Change where
  at_ : String
  offset : Int
  deriving DecidableEq

/-- The loop over the samples: `t` is the next one, `prev` the offset at the last. -/
def changesFrom (loc : Zone) (stop : Int) (t : Minute) (prev : Int) : List Change :=
  if t.1 ≤ stop then
    if offAt loc t.1 = prev then changesFrom loc stop (t.add 30) prev
    else
      let hi := bisect byMinute (fun m => offAt loc m == prev) (t.add (-30)) t
      ⟨String.ofList (formatUtc rfc3339 hi.1), offAt loc t.1⟩ :: changesFrom loc stop (t.add 30)
        (offAt loc t.1)
  else []
termination_by (stop + 1 - t.1).toNat
decreasing_by
  all_goals
    simp only [Minute.add, minute, second]
    omega

end Scan

section Function

/-- What the function takes from elsewhere: `%q`, `time.LoadLocation`, and the error of
`time.Parse`. -/
structure Host where
  quoted : String → String
  loadLocation : String → Except String Zone
  parseError : String → String

structure Answer where
  zone : String
  offset : Int
  changes : List Change
  deriving DecidableEq

def tzOffsets (H : Host) (args : List Arg) : Except String Answer :=
  match args with
  | [zoneArg, fromArg, daysArg] =>
    match zoneArg with
    | .str zone =>
      if zone.toList.all Guard.isSpace then
        .error "&tz_offsets: zone argument must be a non-empty string, got string"
      else
        match fromArg with
        | .str fromS =>
          match toInt "&tz_offsets days" daysArg with
          | .error err => .error err
          | .ok days =>
            if days < 1 ∨
              400 < days then .error ("&tz_offsets: days must be 1-400, got " ++ toString days)
            else
              match H.loadLocation zone with
              | .error err =>
                .error ("&tz_offsets: unknown time zone " ++ H.quoted zone ++ ": " ++ err)
              | .ok loc =>
                match parseTime rfc3339 fromS.toList with
                | none =>
                  .error ("&tz_offsets: from " ++ H.quoted fromS ++ " is not RFC3339: " ++
                    H.parseError fromS)
                | some t =>
                  let start := truncate t
                  let stop := start.1 + days * (24 * 60 * minute)
                  .ok ⟨zone, offAt loc start.1,
                    changesFrom loc stop (start.add 30) (offAt loc start.1)⟩
        | v => .error ("&tz_offsets: from argument must be an RFC3339 string, got " ++ v.typeName)
    | v => .error ("&tz_offsets: zone argument must be a non-empty string, got " ++ v.typeName)
  | _ => .error
    ("&tz_offsets: expected 3 arguments (zone, from, days), got " ++ toString args.length)

end Function

section Exact

variable {loc : Zone} {stop prev : Int} {t : Minute}

/-- Offsets of whole minutes that change at whole minutes, with more than half an hour between
changes. -/
structure ByMinute (loc : Zone) : Prop where
  offset : ∀ t, 60 ∣ loc.offset t
  change : ∀ t, Changes loc.offset t → 60 ∣ t
  apart : FarApart loc.offset 1800

def minutesAt (loc : Zone) (s : Int) : Int :=
  (loc.offset s).tdiv 60

theorem changes_of_minutesAt {s : Int} (h : Changes (minutesAt loc) s) : Changes loc.offset s := by
  intro heq
  refine h ?_
  rw [minutesAt, minutesAt, heq]

theorem ByMinute.apart_minutesAt (h : ByMinute loc) : FarApart (minutesAt loc) 1800 :=
  fun s s' hs hs' => h.apart s s' (changes_of_minutesAt hs) (changes_of_minutesAt hs')

theorem bisect_minute {s : Int} (hs : 60 ∣ s) {lo hi : Minute} (hlo : lo.1 < s * second)
    (hhi : s * second ≤ hi.1) (hbefore : ∀ x, lo.1 / second ≤ x → x < s → minutesAt loc x = prev)
    (hafter : ∀ x, s ≤ x → x ≤ hi.1 / second → minutesAt loc x ≠ prev) :
    (bisect byMinute (fun m => offAt loc m == prev) lo hi).1 = s * second := by
  have hsame : ∀ x, lo.1 ≤ x → x ≤ hi.1 → ((offAt loc x == prev) = true ↔ x < s * second) :=
    sampled_iff (by decide) hbefore hafter
  have hspec := bisect_spec byMinute hlo hhi hsame
  have hgrid := (bisect byMinute (fun m => offAt loc m == prev) lo hi).2
  generalize bisect byMinute (fun m => offAt loc m == prev) lo hi = r at hspec hgrid
  simp only [byMinute, minute, second] at hspec hgrid ⊢
  omega

/-- A change as the function reports it. -/
def reported (c : Int × Int) : Change :=
  ⟨String.ofList (write rfc3339 (clockOf c.1)), c.2⟩

theorem add_sub (t : Minute) : (t.add (-30)).1 = t.1 - step := by
  simp only [Minute.add, step]
  omega

theorem add_add_sub (t : Minute) : ((t.add 30).add (-30)).1 = t.1 ∧ (t.add 30).1 - step = t.1 := by
  simp only [Minute.add, step]
  omega

theorem dvd_next (h : step ∣ stop - t.1) : step ∣ stop - (t.add 30).1 := by
  have hadd : stop - (t.add 30).1 = stop - t.1 - step := by
    simp only [Minute.add, step]
    omega
  rw [hadd]
  exact Int.dvd_sub h (Int.dvd_refl _)

theorem seconds_step (t : Minute) : t.1 / second - (t.1 - step) / second = 1800 := by
  simp only [step, minute, second]
  omega

theorem changesFrom_tracks (h : ByMinute loc) (hprev : offAt loc (t.1 - step) = prev)
    (hstop : step ∣ stop - t.1) (hlast : t.1 - step ≤ stop) :
    ∃ changes, changesFrom loc stop t prev = changes.map reported ∧
      Tracks (minutesAt loc) prev ((t.1 - step) / second) (stop / second) changes := by
  fun_induction changesFrom loc stop t prev with
  | case1 t hle ih =>
    have hlen := seconds_step t
    rw [(add_add_sub t).2] at ih
    obtain ⟨changes, heq, htracks⟩ := ih rfl (dvd_next hstop) hle
    refine ⟨changes, heq, htracks.skip (by omega) fun x hlow hhigh => ?_⟩
    exact (h.apart_minutesAt.const (by omega) hprev hlow hhigh).trans hprev
  | case2 t prev hle hne hi ih =>
    have hlen := seconds_step t
    rw [(add_add_sub t).2] at ih
    obtain ⟨changes, heq, htracks⟩ := ih rfl (dvd_next hstop) hle
    have hdiff : minutesAt loc ((t.1 - step) / second) ≠ minutesAt loc (t.1 / second) := fun heq =>
      hne (heq.symm.trans hprev)
    obtain ⟨s, has, hsb, hchange, hbefore, hafter⟩ :=
      h.apart_minutesAt.one (by omega) (by omega) hdiff
    have hfound : hi.1 = s * second := by
      refine bisect_minute (h.change s (changes_of_minutesAt hchange)) ?_ ?_ ?_ ?_
      · rw [add_sub]
        simp only [second] at has ⊢
        omega
      · simp only [second] at hsb ⊢
        omega
      · intro x hlow hlt
        rw [add_sub] at hlow
        exact (hbefore x hlow hlt).trans hprev
      · intro x hle hhigh heq
        exact hne ((hafter x hle hhigh).symm.trans heq)
    refine ⟨(s, offAt loc t.1) :: changes, ?_,
      htracks.change has hsb (Int.ediv_le_ediv (by decide) hle) (fun x hlow hlt => ?_) hafter⟩
    · rw [hfound, heq, List.map_cons, reported, formatUtc, Int.mul_ediv_cancel _ (by decide)]
    · exact (hbefore x hlow hlt).trans hprev
  | case3 t prev hgt =>
    refine ⟨[], rfl, .empty ?_ hprev.symm⟩
    obtain ⟨k, hk⟩ := hstop
    simp only [step, minute, second] at hk hlast ⊢
    omega

/-- For every start and every span the offset and the changes give the zone's offset at each whole
minute, and the changes are in order. -/
theorem tzOffsets_exact (H : Host) {zone fromS : String} {daysArg : Arg} {t days : Int}
    (hzone : zone.toList.all Guard.isSpace = false) (hload : H.loadLocation zone = .ok loc)
    (hfrom : parseTime rfc3339 fromS.toList = some t)
    (harg : toInt "&tz_offsets days" daysArg = .ok days) (hdays : 1 ≤ days ∧ days ≤ 400)
    (hloc : ByMinute loc) :
    ∃ offset changes, tzOffsets H [.str zone, .str fromS, daysArg] =
      .ok ⟨zone, offset, changes.map reported⟩ ∧
      changes.Pairwise (fun c d => c.1 < d.1) ∧
      ∀ m, 60 ∣ m → (truncate t).1 ≤ m * second →
        m * second ≤ (truncate t).1 + days * (24 * 60 * minute) →
        60 * valueAt offset changes m = loc.offset m := by
  have hstart : ((truncate t).add 30).1 - step = (truncate t).1 := (add_add_sub _).2
  have hgrid : step ∣ (truncate t).1 + days * (24 * 60 * minute) - ((truncate t).add 30).1 := by
    refine dvd_next ⟨48 * days, ?_⟩
    simp only [step, minute, second]
    omega
  have hlater : ((truncate t).add 30).1 - step ≤ (truncate t).1 + days * (24 * 60 * minute) := by
    rw [hstart]
    simp only [minute, second]
    omega
  obtain ⟨changes, hchanges, htracks⟩ := changesFrom_tracks hloc rfl hgrid hlater
  rw [hstart] at hchanges htracks
  refine ⟨offAt loc (truncate t).1, changes, ?_, htracks.sorted, ?_⟩
  · have hrange : ¬(days < 1 ∨ 400 < days) := by omega
    simp only [tzOffsets, hzone, harg, hload, hfrom, if_neg hrange, hchanges, Bool.false_eq_true,
      if_false]
  · intro m _ hlow hhigh
    have hdvd := hloc.offset m
    have hvalue :=
      htracks.value m (by simp only [second] at *; omega)
        (by simp only [minute, second] at *; omega)
    rw [hvalue, minutesAt]
    exact Int.mul_tdiv_cancel' hdvd

end Exact

section NewYork

/-- Four hours behind UTC until 2026-11-01T06:00:00Z, then five. -/
def newYork : Zone where
  name := "America/New_York"
  abbreviation t := if t < 1793512800 then "EDT" else "EST"
  offset t := if t < 1793512800 then -14400 else -18000

theorem eq_of_changes {t : Int} (h : Changes newYork.offset t) : t = 1793512800 := by
  by_contra hne
  refine h ?_
  simp only [newYork]
  split
  · rw [if_pos (by omega)]
  · rw [if_neg (by omega)]

theorem byMinute_newYork : ByMinute newYork where
  offset t := by
    simp only [newYork]
    split
    · decide
    · decide
  change t h := by
    rw [eq_of_changes h]
    decide
  apart s t hs ht hlt := by
    have := eq_of_changes hs
    have := eq_of_changes ht
    omega

def newYorkHost : Host :=
  ⟨id, fun _ => .ok newYork, fun _ => "cannot parse"⟩

theorem tzOffsets_newYork :
    ∃ offset changes, tzOffsets newYorkHost
      [.str "America/New_York", .str "2026-07-30T12:00:30Z", .int64 120] =
        .ok ⟨"America/New_York", offset, changes.map reported⟩ ∧
      changes.Pairwise (fun c d => c.1 < d.1) ∧
      ∀ m, 60 ∣ m → (truncate 1785412830000000000).1 ≤ m * second →
        m * second ≤ (truncate 1785412830000000000).1 + 120 * (24 * 60 * minute) →
        60 * valueAt offset changes m = newYork.offset m :=
  tzOffsets_exact newYorkHost (by decide) rfl (by decide) rfl (by decide) byMinute_newYork

end NewYork

end ThanksComputer.Txcl.Offsets
