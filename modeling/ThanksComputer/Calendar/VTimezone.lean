import Mathlib.Data.List.Forall2
import ThanksComputer.Lib.Layout
import ThanksComputer.Lib.Transitions

/-! `calendar/vtimezone.go`: a zone as the list of its observances over four years.  The samples are
an hour apart and the last one is an hour before the end. -/

namespace ThanksComputer.Calendar

open Lib (second)
open Lib.Civil Lib.Layout Lib.Transitions

section Component

def hour : Int := 3600 * second

def bySecond : Halving where
  gap := second
  mid lo hi := lo + (hi - lo) / 2
  Grid _ := True
  grid_mid _ _ := trivial
  between lo hi _ _ hgap := by
    simp only [second] at hgap
    omega

structure Observance where
  at_ : Int
  fromOff : Int
  toOff : Int
  name : String
  daylight : Bool

/-- The loop over the samples: `t` is the next one, `prevOff` the offset at the last. -/
def observancesFrom (loc : Zone) (to_ t prevOff : Int) : List Observance :=
  if t < to_ then
    if loc.offset (t / second) = prevOff then observancesFrom loc to_ (t + hour) prevOff
    else
      let hi := bisect bySecond (fun m => loc.offset (m / second) == prevOff) ⟨t - hour, trivial⟩
        ⟨t, trivial⟩
      ⟨hi.1, prevOff, loc.offset (t / second), loc.abbreviation (t / second),
        decide (prevOff < loc.offset (t / second))⟩ :: observancesFrom loc to_ (t + hour)
          (loc.offset (t / second))
  else []
termination_by (to_ - t).toNat
decreasing_by
  all_goals
    simp only [hour, second]
    omega

def fmtOffset (sec : Int) : List Char :=
  (if sec < 0 then '-' else '+') :: (pad 2 (sec.natAbs / 3600) ++ pad 2 (sec.natAbs % 3600 / 60))

/-- `20060102T150405`. -/
def localLayout : List Field :=
  [.year, .month, .day, .lit 'T', .hour, .minute, .second]

inductive Kind
  | standard
  | daylight
  deriving DecidableEq

/-- A `STANDARD` or `DAYLIGHT` component with its properties. -/
structure Child where
  kind : Kind
  dtStart : List Char
  offsetFrom : List Char
  offsetTo : List Char
  name : Option String

def Observance.child (o : Observance) : Child where
  kind := if o.daylight then .daylight else .standard
  dtStart := write localLayout (clockOf (o.at_ / second + o.fromOff))
  offsetFrom := fmtOffset o.fromOff
  offsetTo := fmtOffset o.toOff
  name := if o.name = "" then none else some o.name

structure Component where
  tzid : String
  children : List Child

/-- The start of a year in UTC. -/
def newYear (year : Int) : Int :=
  86400 * second * dayNumber ⟨year, 1, 1⟩

def observances (loc : Zone) (year : Int) : List Observance :=
  let from_ := newYear (year - 1)
  let off0 := loc.offset (from_ / second)
  ⟨from_, off0, off0, loc.abbreviation (from_ / second), false⟩ ::
    observancesFrom loc (newYear (year + 3)) from_ off0

/-- `VTimezone` in a year. -/
def vtimezone (loc : Zone) (year : Int) : Component where
  tzid := loc.name
  children := ((observances loc year).mergeSort fun o o' => o.at_ ≤ o'.at_).map Observance.child

end Component

section Reading

/-- The onset of a child and the offset from there on, as its texts tell them: the onset is written
in the local time of the offset before it. -/
def Child.Reads (c : Child) (o : Int × Int) : Prop :=
  ∃ fromOff, 60 ∣ fromOff ∧ 60 ∣ o.2 ∧ c.offsetFrom = fmtOffset fromOff ∧
    c.offsetTo = fmtOffset o.2 ∧
    c.dtStart = write localLayout (clockOf (o.1 + fromOff))

theorem fmtOffset_injective {a b : Int} (ha : 60 ∣ a) (hb : 60 ∣ b)
    (h : fmtOffset a = fmtOffset b) : a = b := by
  have hminutes : ∀ c : Int, (pad 2 (c.natAbs % 3600 / 60)).length = 2 :=
    fun c => length_pad (by decide) (by omega)
  obtain ⟨hsign, hdigits⟩ := List.cons.inj h
  obtain ⟨hhours, hmins⟩ := List.append_inj' hdigits ((hminutes a).trans (hminutes b).symm)
  have hh := pad_injective hhours
  have hm := pad_injective hmins
  have habs : a.natAbs = b.natAbs := by omega
  split at hsign
  · split at hsign
    · omega
    · cases hsign
  · split at hsign
    · cases hsign
    · omega

theorem write_localLayout_injective {c c' : Clock} (hc : c.Valid) (hc' : c'.Valid)
    (h : write localLayout c = write localLayout c') : c = c' :=
  eq_of_write hc hc' (by decide) (by decide) (fun _ => rfl) h

theorem Child.Reads.unique {c : Child} {o o' : Int × Int} (h : c.Reads o) (h' : c.Reads o') :
    o = o' := by
  obtain ⟨a, ha, hto, hfrom, htext, hstart⟩ := h
  obtain ⟨a', ha', hto', hfrom', htext', hstart'⟩ := h'
  have heq : a = a' := fmtOffset_injective ha ha' (hfrom.symm.trans hfrom')
  have hvalue := fmtOffset_injective hto hto' (htext.symm.trans htext')
  have hclock :=
    write_localLayout_injective (valid_clockOf _) (valid_clockOf _) (hstart.symm.trans hstart')
  have honset : o.1 + a = o'.1 + a' := by rw [← seconds_clockOf (o.1 + a), hclock, seconds_clockOf]
  exact Prod.ext (by omega) hvalue

/-- In the window the observances tell the offset of the zone, at every second of it. -/
def Exact (loc : Zone) (year : Int) : Prop :=
  ∃ onsets, List.Forall₂ Child.Reads (vtimezone loc year).children onsets ∧
    ∀ t, newYear (year - 1) ≤ t * second → t * second < newYear (year + 3) → ∀ v,
      InForce onsets t v ↔ v = loc.offset t

end Reading

section Window

variable {loc : Zone} {to_ t prevOff : Int}

/-- Offsets of whole minutes, with more than an hour between their changes. -/
structure ByHour (loc : Zone) : Prop where
  offset : ∀ t, 60 ∣ loc.offset t
  apart : FarApart loc.offset 3600

def Observance.onset (o : Observance) : Int × Int :=
  (o.at_ / second, o.toOff)

theorem bisect_second {s lo hi : Int} (hlo : lo < s * second) (hhi : s * second ≤ hi)
    (hbefore : ∀ x, lo / second ≤ x → x < s → loc.offset x = prevOff)
    (hafter : ∀ x, s ≤ x → x ≤ hi / second → loc.offset x ≠ prevOff) :
    (bisect bySecond (fun m => loc.offset (m / second) == prevOff) ⟨lo, trivial⟩ ⟨hi, trivial⟩).1 /
      second = s := by
  have hsame := sampled_iff (u := second) (by decide) hbefore hafter
  have hspec := @bisect_spec bySecond _ ⟨lo, trivial⟩ ⟨hi, trivial⟩ _ hlo hhi hsame
  generalize bisect bySecond (fun m => loc.offset (m / second) == prevOff) ⟨lo, trivial⟩
    ⟨hi, trivial⟩ = r at hspec
  simp only [bySecond, second] at hspec ⊢
  omega

theorem seconds_hour (h : second ∣ t) : t / second - (t - hour) / second = 3600 ∧
    (t + hour - hour) / second = t / second ∧ second ∣ t + hour := by
  simp only [hour, second] at *
  omega

theorem next_sample (hend : hour ∣ to_ - t) (hlt : t < to_) :
    hour ∣ to_ - (t + hour) ∧ t + hour ≤ to_ := by
  obtain ⟨k, hk⟩ := hend
  refine ⟨⟨k - 1, ?_⟩, ?_⟩
  · simp only [hour, second] at *
    omega
  · simp only [hour, second] at *
    omega

theorem observancesFrom_tracks (h : ByHour loc) (hprev : loc.offset ((t - hour) / second) = prevOff)
    (hwhole : second ∣ t) (hend : hour ∣ to_ - t) (hle : t ≤ to_) :
    Tracks loc.offset prevOff ((t - hour) / second) ((to_ - hour) / second)
      ((observancesFrom loc to_ t prevOff).map Observance.onset) ∧
      ∀ o ∈ observancesFrom loc to_ t prevOff, 60 ∣ o.fromOff ∧ 60 ∣ o.toOff := by
  fun_induction observancesFrom loc to_ t prevOff with
  | case1 t hlt ih =>
    obtain ⟨hlen, hback, hnext⟩ := seconds_hour hwhole
    obtain ⟨hend', hle'⟩ := next_sample hend hlt
    rw [hback] at ih
    obtain ⟨htracks, hoffs⟩ := ih rfl hnext hend' hle'
    refine ⟨htracks.skip (by omega) fun x hlow hhigh => ?_, hoffs⟩
    exact (h.apart.const (by omega) hprev hlow hhigh).trans hprev
  | case2 t prevOff hlt hne hi ih =>
    obtain ⟨hlen, hback, hnext⟩ := seconds_hour hwhole
    obtain ⟨hend', hle'⟩ := next_sample hend hlt
    rw [hback] at ih
    obtain ⟨htracks, hoffs⟩ := ih rfl hnext hend' hle'
    have hdiff : loc.offset ((t - hour) / second) ≠ loc.offset (t / second) := fun heq =>
      hne (heq.symm.trans hprev)
    obtain ⟨s, has, hsb, -, hbefore, hafter⟩ := h.apart.one (by omega) (by omega) hdiff
    have hfound : hi.1 / second = s := by
      refine bisect_second ?_ ?_ ?_ ?_
      · simp only [second] at has ⊢
        omega
      · simp only [second] at hsb ⊢
        omega
      · intro x hlow hlt
        exact (hbefore x hlow hlt).trans hprev
      · intro x hle hhigh heq
        exact hne ((hafter x hle hhigh).symm.trans heq)
    refine ⟨?_, List.forall_mem_cons.mpr ⟨⟨?_, h.offset _⟩, hoffs⟩⟩
    · rw [List.map_cons, Observance.onset, hfound]
      exact htracks.change has hsb (Int.ediv_le_ediv (by decide) (by omega))
        (fun x hlow hlt => (hbefore x hlow hlt).trans hprev) hafter
    · rw [← hprev]
      exact h.offset _
  | case3 t prevOff hge =>
    refine ⟨.empty ?_ hprev.symm, by simp⟩
    exact Int.ediv_le_ediv (by decide) (by omega)

theorem newYear_window (year : Int) :
    second ∣ newYear (year - 1) ∧ hour ∣ newYear (year + 3) - newYear (year - 1) ∧
    newYear (year - 1) < newYear (year + 3) := by
  have hdays : dayNumber ⟨year - 1, 1, 1⟩ < dayNumber ⟨year + 3, 1, 1⟩ := by
    simp only [dayNumber, show (1 : Nat) ≤ 2 by decide, if_true]
    omega
  refine ⟨⟨86400 * dayNumber ⟨year - 1, 1, 1⟩, ?_⟩,
    ⟨24 * (dayNumber ⟨year + 3, 1, 1⟩ - dayNumber ⟨year - 1, 1, 1⟩), ?_⟩, ?_⟩
  · simp only [newYear, second]
    omega
  · simp only [newYear, hour, second]
    omega
  · simp only [newYear, second]
    omega

def lastSample (year : Int) : Int :=
  (newYear (year + 3) - hour) / second

theorem vtimezone_reads (h : ByHour loc) (year : Int) :
    ∃ changes, List.Forall₂ Child.Reads (vtimezone loc year).children
        ((newYear (year - 1) / second, loc.offset (newYear (year - 1) / second)) :: changes) ∧
      Tracks loc.offset (loc.offset (newYear (year - 1) / second)) (newYear (year - 1) / second)
        (lastSample year)
        changes := by
  obtain ⟨hwhole, hend, hlt⟩ := newYear_window year
  obtain ⟨hend', hle'⟩ := next_sample hend hlt
  obtain ⟨-, hback, hnext⟩ := seconds_hour hwhole
  obtain ⟨htracks, hoffs⟩ :=
    observancesFrom_tracks (t := newYear (year - 1) + hour) h rfl hnext hend' hle'
  rw [hback] at htracks hoffs
  -- the first sample is where the loop starts from
  have hfirst : observances loc year =
      ⟨newYear (year - 1), loc.offset (newYear (year - 1) / second),
        loc.offset (newYear (year - 1) / second),
        loc.abbreviation (newYear (year - 1) / second), false⟩ ::
        observancesFrom loc (newYear (year + 3)) (newYear (year - 1) + hour)
          (loc.offset (newYear (year - 1) / second)) := by
    rw [observances, observancesFrom, if_pos hlt, if_pos rfl]
  generalize observancesFrom loc (newYear (year + 3)) (newYear (year - 1) + hour)
    (loc.offset (newYear (year - 1) / second)) = rest at htracks hoffs hfirst
  have hsorted : (observances loc year).Pairwise fun o o' => decide (o.at_ ≤ o'.at_) = true := by
    rw [hfirst, List.pairwise_cons]
    constructor
    · intro o ho
      have hafter := htracks.after o.onset (List.mem_map_of_mem ho)
      rw [Observance.onset] at hafter
      simp only [second, decide_eq_true_eq] at hafter ⊢
      omega
    · refine (List.pairwise_map.mp htracks.sorted).imp fun {o o'} hlt => ?_
      simp only [Observance.onset, second, decide_eq_true_eq] at hlt ⊢
      omega
  refine ⟨rest.map Observance.onset, ?_, htracks⟩
  have hchildren : (vtimezone loc year).children = (observances loc year).map Observance.child := by
    rw [vtimezone, List.mergeSort_of_pairwise hsorted]
  have honsets : (newYear (year - 1) / second, loc.offset (newYear (year - 1) / second)) ::
      rest.map Observance.onset = (observances loc year).map Observance.onset := by
    rw [hfirst]
    rfl
  rw [hchildren, honsets, List.forall₂_map_left_iff, List.forall₂_map_right_iff, List.forall₂_same]
  have hwhole : ∀ o ∈ observances loc year, 60 ∣ o.fromOff ∧ 60 ∣ o.toOff := by
    rw [hfirst]
    exact List.forall_mem_cons.mpr ⟨⟨h.offset _, h.offset _⟩, hoffs⟩
  intro o ho
  exact ⟨o.fromOff, (hwhole o ho).1, (hwhole o ho).2, rfl, rfl, rfl⟩

theorem inForce_onsets {year t : Int} {changes : List (Int × Int)}
    (h : Tracks loc.offset (loc.offset (newYear (year - 1) / second)) (newYear (year - 1) / second)
      (lastSample year) changes) (ht : newYear (year - 1) / second ≤ t) {v : Int} :
    InForce ((newYear (year - 1) / second, loc.offset (newYear (year - 1) / second)) :: changes)
      t v ↔
      v = if t ≤ lastSample year then loc.offset t else loc.offset (lastSample year) := by
  rw [inForce_cons_iff h.after h.sorted ht]
  split
  · next hle => rw [h.value t ht hle]
  · next hgt =>
    have hstart : newYear (year - 1) / second ≤ lastSample year := by
      obtain ⟨-, hend, hlt⟩ := newYear_window year
      exact Int.ediv_le_ediv (by decide) (by have := (next_sample hend hlt).2; omega)
    rw [h.value_after hstart (by omega)]

theorem Exact.no_change {year s : Int} (hloc : ByHour loc) (h : Exact loc year)
    (hlow : newYear (year + 3) - hour < s * second) (hhigh : s * second < newYear (year + 3)) :
    ¬Changes loc.offset s := by
  obtain ⟨onsets, hreads, hexact⟩ := h
  obtain ⟨changes, hreads', htracks⟩ := vtimezone_reads hloc year
  have hunique : Relator.RightUnique Child.Reads := fun _ _ _ => Child.Reads.unique
  obtain rfl := hunique.forall₂ hreads hreads'
  obtain ⟨hwhole, hend, hlt⟩ := newYear_window year
  have hwindow := (next_sample hend hlt).2
  -- both sides of the change are told as at the last sample
  have htold : ∀ x, lastSample year ≤ x → newYear (year - 1) ≤ x * second →
    x * second < newYear (year + 3) →
      loc.offset x = loc.offset (lastSample year) := by
    intro x hx hlow' hhigh'
    have hvalue := (inForce_onsets htracks (t := x) (by simp only [second] at *; omega)).mp
      ((hexact x hlow' hhigh' _).mpr rfl)
    split at hvalue
    · next hle => rw [Int.le_antisymm hle hx]
    · exact hvalue
  intro hchange
  refine hchange ?_
  have hlast : lastSample year < s := by
    simp only [lastSample, second] at *
    omega
  rw [htold s (by omega) (by simp only [hour, second] at *; omega) hhigh,
    htold (s - 1) (by omega) (by simp only [hour, lastSample, second] at *; omega)
      (by simp only [second] at *; omega)]

/-- The observances are exact in the window exactly if the zone does not change in the last hour of
it. -/
theorem exact_iff (hloc : ByHour loc) (year : Int) :
    Exact loc year ↔ ∀ s, newYear (year + 3) - hour < s * second → s * second < newYear (year + 3) →
      ¬Changes loc.offset s := by
  refine ⟨fun h s => h.no_change hloc, fun hno => ?_⟩
  obtain ⟨changes, hreads, htracks⟩ := vtimezone_reads hloc year
  refine ⟨_, hreads, fun t hlow hhigh v => ?_⟩
  rw [inForce_onsets htracks (by simp only [second] at *; omega)]
  split
  · rfl
  · next hgt =>
    have hconst : loc.offset (lastSample year) = loc.offset t := by
      by_contra hne
      obtain ⟨s, hs, hst, hchange⟩ := exists_changes (by omega) hne
      refine hno s ?_ ?_ hchange
      · simp only [lastSample, second] at *
        omega
      · simp only [second] at *
        omega
    rw [hconst]

end Window

section Zones

/-- A zone that goes from UTC to an hour east of it. -/
def oneChange (s : Int) : Zone where
  name := "Test/Zone"
  abbreviation t := if t < s then "A" else "B"
  offset t := if t < s then 0 else 3600

theorem eq_of_changes_oneChange {s t : Int} (h : Changes (oneChange s).offset t) : t = s := by
  by_contra hne
  refine h ?_
  simp only [oneChange]
  split
  · rw [if_pos (by omega)]
  · rw [if_neg (by omega)]

theorem byHour_oneChange (s : Int) : ByHour (oneChange s) where
  offset t := by
    simp only [oneChange]
    split
    · decide
    · decide
  apart t t' ht ht' hlt := by
    have := eq_of_changes_oneChange ht
    have := eq_of_changes_oneChange ht'
    omega

/-- A change on 2026-03-29T01:00:00Z. -/
theorem exact_oneChange : Exact (oneChange 1774746000) 2026 :=
  (exact_iff (byHour_oneChange _) 2026).mpr fun s hlow hhigh hchange => by
    rw [eq_of_changes_oneChange hchange] at hlow
    revert hlow
    decide

/-- A change half an hour before the end of the window, on 2028-12-31T23:30:00Z. -/
theorem not_exact_oneChange :
    ByHour (oneChange 1861918200) ∧ ¬Exact (oneChange 1861918200) 2026 := by
  refine ⟨byHour_oneChange _, fun h =>
    h.no_change (byHour_oneChange _) (s := 1861918200) (by decide) (by decide) ?_⟩
  simp [Changes, oneChange]

end Zones

end ThanksComputer.Calendar
