import ThanksComputer.Calendar.Times
import ThanksComputer.Lib.Checks

/-! An event, the object it is rendered to, and the event that the object is parsed to. -/

namespace ThanksComputer.Calendar

open Lib (second byteLen)
open Lib.Checks (bind_eq_ok forall₂_filterMap)
open Lib.Civil Lib.Layout
open Guard (trimSpace isSpace)

variable {R : Type} {H : Host R} {ev ev' : Event} {start w : When} {now : Now} {cal : Object}

section Stages

structure Stages (H : Host R) (ev : Event) where
  start : When
  status : Option Text
  url : Option Text
  ends : Option DateProp × Option Text
  rule : Option Text
  exdates : List DateProp
  uid_ne : trimSpace ev.uid ≠ []
  start_ne : trimSpace ev.start ≠ []
  start_eq : parseWhen H ev.start ev.tzid = .ok start
  one_end : ¬(ev.end_ ≠ [] ∧ ev.duration ≠ [])
  sequence : 0 ≤ ev.sequence.toInt
  status_eq : statusProp H ev = .ok status
  url_eq : urlProp H ev = .ok url
  ends_eq : endProps H ev start = .ok ends
  rule_eq : rruleProp H ev = .ok rule
  exdates_eq : exdateProps H ev.tzid start ev.exdate = .ok exdates

def Stages.object (s : Stages H ev) (now : Now) : Object :=
  objectOf H now ev s.start s.status s.url s.ends s.rule s.exdates

theorem render_eq_ok : render H now ev = .ok cal ↔ ∃ s : Stages H ev, s.object now = cal := by
  constructor
  · intro h
    rw [render] at h
    split at h
    · cases h
    · next huid =>
      split at h
      · cases h
      · next hne =>
        split at h
        · cases h
        · next start hstart =>
          split at h
          · cases h
          · next hend =>
            split at h
            · cases h
            · next hseq =>
              obtain ⟨status, hstatus, h⟩ := bind_eq_ok.mp h
              obtain ⟨url, hurl, h⟩ := bind_eq_ok.mp h
              obtain ⟨ends, hends, h⟩ := bind_eq_ok.mp h
              obtain ⟨rule, hrule, h⟩ := bind_eq_ok.mp h
              obtain ⟨exdates, hexdates, h⟩ := bind_eq_ok.mp h
              exact ⟨⟨start, status, url, ends, rule, exdates, huid, hne, hstart, hend,
                Int.not_lt.mp hseq, hstatus,
                hurl, hends, hrule, hexdates⟩, Except.ok.inj h⟩
  · rintro ⟨s, rfl⟩
    rw [render, if_neg s.uid_ne, if_neg s.start_ne, s.start_eq]
    dsimp only
    rw [if_neg s.one_end, if_neg (Int.not_lt.mpr s.sequence), s.status_eq, s.url_eq,
      s.ends_eq, s.rule_eq,
      s.exdates_eq]
    rfl

theorem Stages.known (s : Stages H ev) : Known H ev.tzid s.start :=
  parseWhen_known s.start_eq

def excluded (H : Host R) (p : DateProp) : Option Text :=
  (H.dateTime p).map fun y => formatUtc rfc3339 y.2

def told (H : Host R) (c : Vevent) (start : When) (ends : Text × Text × Text) : Event where
  uid := c.uid
  summary := c.summary.getD []
  description := c.description.getD []
  location := c.location.getD []
  status := H.toUpper (c.status.getD [])
  url := c.url.getD []
  start := (formatWhen start).1
  end_ := ends.1
  duration := ends.2.1
  tzid := (formatWhen start).2
  rrule := (c.rrule.map H.toUpper).getD []
  exdate := c.exdates.filterMap (excluded H)
  sequence := sequenceOf c.sequence

theorem parseObject_eq_ok : (∃ facts, parseObject H cal = .ok (ev', facts)) ↔
    cal.event.uid ≠ [] ∧ ∃ start ends, whenOf H cal.event.dtstart = some start ∧
      endOf H cal.event start = .ok ends ∧ told H cal.event start ends = ev' := by
  constructor
  · rintro ⟨facts, h⟩
    rw [parseObject] at h
    split at h
    · cases h
    · next huid =>
      split at h
      · cases h
      · next start hstart =>
        obtain ⟨ends, hends, h⟩ := bind_eq_ok.mp h
        exact ⟨huid, start, ends, hstart, hends, congrArg Prod.fst (Except.ok.inj h)⟩
  · rintro ⟨huid, start, ends, hstart, hends, rfl⟩
    rw [parseObject, if_neg huid, hstart]
    dsimp only
    rw [hends]
    exact ⟨_, rfl⟩

end Stages

section Fields

theorem textProp_getD (v : Text) : textProp ((textProp v).getD []) = textProp v := by
  by_cases h : v = []
  · rw [h]
    rfl
  · simp only [textProp, if_neg h, Option.getD_some]

theorem sequenceOf_formatInt {n : Int64} (h : 0 ≤ n.toInt) :
    sequenceOf (formatInt n.toInt) = n := by
  have hdigits : ∀ c ∈ pad 0 n.toInt.toNat, c.isDigit = true := fun _ => isDigit_of_mem_pad
  have hne : pad 0 n.toInt.toNat ≠ [] := by
    rw [pad]
    exact List.append_ne_nil_of_right_ne_nil _ Nat.toDigits_ne_nil
  have hsign : ∀ d : Char, d.isDigit = false → (pad 0 n.toInt.toNat).head? ≠ some d := by
    intro d hd hhead
    rw [hdigits d (List.mem_of_head? hhead)] at hd
    cases hd
  have hspace : trimSpace (pad 0 n.toInt.toNat) = pad 0 n.toInt.toNat :=
    trimSpace_eq_self fun c hc => isSpace_of_isTimeChar (by simp [isTimeChar, hdigits c hc])
  have hlow := n.le_toInt
  have hhigh := n.toInt_lt
  have hnat : ((n.toInt.toNat : Nat) : Int) = n.toInt := Int.toNat_of_nonneg h
  have hparse : parseInt64 (pad 0 n.toInt.toNat) = some n.toInt := by
    rw [parseInt64, if_neg (not_or.mpr ⟨hsign '-' rfl, hsign '+' rfl⟩)]
    rw [if_pos ⟨hne, List.all_eq_true.mpr hdigits⟩]
    dsimp only
    rw [if_neg (hsign '-' rfl), ofDigitChars_pad, hnat, if_pos]
    constructor
    · omega
    · omega
  rw [formatInt, padInt, if_neg (by omega), sequenceOf, hspace, hparse]
  dsimp only
  rw [if_pos h, Int64.ofInt_toInt]

theorem statusProp_again (L : H.Lawful) {status : Option Text} (h : statusProp H ev = .ok status)
    (hev : ev'.status = H.toUpper (status.getD [])) : statusProp H ev' = .ok status := by
  rw [statusProp] at h
  split at h
  · cases h
    have hnil : ev'.status = [] := hev
    rw [statusProp, if_pos hnil]
  · dsimp only at h
    split at h
    · next hmem =>
      cases h
      have hne : H.toUpper (trimSpace ev.status) ≠ [] := by
        intro hnil
        rw [hnil] at hmem
        exact absurd hmem (by decide)
      rw [Option.getD_some, L.toUpper_toUpper] at hev
      rw [statusProp, hev, if_neg hne]
      dsimp only
      rw [L.trimSpace_toUpper, L.toUpper_toUpper, if_pos hmem]
    · cases h

/-- The URL that is kept, read once more, is the same. -/
def UrlKept (H : Host R) (ev : Event) : Prop :=
  ∀ scheme text, ev.url ≠ [] → H.parseUrl (trimSpace ev.url) = some (scheme, text) →
    text ≠ [] ∧ ∃ scheme', scheme' ≠ [] ∧ H.parseUrl (trimSpace text) = some (scheme', text)

theorem urlProp_again {url : Option Text} (h : urlProp H ev = .ok url)
    (hev : ev'.url = url.getD []) :
    urlProp H ev' = .ok url ↔ UrlKept H ev := by
  rw [urlProp] at h
  split at h
  · next hnil =>
    cases h
    have hnil' : ev'.url = [] := hev
    rw [urlProp, if_pos hnil']
    exact iff_of_true rfl fun _ _ hne => absurd hnil hne
  · next hne =>
    split at h
    · cases h
    · next scheme text hparse =>
      split at h
      · cases h
      · cases h
        rw [Option.getD_some] at hev
        have hkept : UrlKept H ev ↔
            text ≠ [] ∧ ∃ scheme', scheme' ≠ [] ∧
              H.parseUrl (trimSpace text) = some (scheme', text) := by
          refine ⟨fun hk => hk scheme text hne hparse, ?_⟩
          rintro hk scheme₁ text₁ - heq
          rw [hparse] at heq
          cases heq
          exact hk
        rw [hkept, urlProp, hev]
        split
        · next hnil => exact iff_of_false (by simp) fun hk => hk.1 hnil
        · next htext =>
          split
          · next hnone =>
            refine iff_of_false (by simp) ?_
            rintro ⟨-, scheme', -, hsome⟩
            rw [hnone] at hsome
            cases hsome
          · next scheme₁ text₁ hagain =>
            split
            · next hscheme =>
              refine iff_of_false (by simp) ?_
              rintro ⟨-, scheme', hne', hsome⟩
              rw [hagain] at hsome
              cases hsome
              exact hne' hscheme
            · next hscheme =>
              constructor
              · intro hok
                cases hok
                exact ⟨htext, scheme₁, hscheme, hagain⟩
              · rintro ⟨-, scheme', -, hsome⟩
                rw [hagain] at hsome
                cases hsome
                rfl

/-- The rule that is kept does not begin with the name of its property. -/
def RuleKept (H : Host R) (ev : Event) : Prop :=
  ev.rrule ≠ [] → ruleMark.isPrefixOf (ruleForm H ev.rrule) = false

theorem length_trimSpace (v : Text) : (trimSpace v).length ≤ v.length := by
  have hfront : trimSpace v <+: v.dropWhile isSpace := List.rdropWhile_prefix isSpace _
  exact hfront.length_le.trans (List.dropWhile_sublist isSpace).length_le

theorem ruleForm_ruleForm (L : H.Lawful) (v : Text) :
    ruleForm H (ruleForm H v) = ruleForm H v ↔ ruleMark.isPrefixOf (ruleForm H v) = false := by
  have htrim : trimSpace (ruleForm H v) = ruleForm H v := L.trimSpace_toUpper _
  have hupper : H.toUpper (ruleForm H v) = ruleForm H v := L.toUpper_toUpper _
  generalize ruleForm H v = u at htrim hupper
  rw [ruleForm, htrim]
  split
  · next hmark =>
    refine iff_of_false ?_ (by simp [hmark])
    intro heq
    have hlong := (List.isPrefixOf_iff_prefix.mp hmark).length_le
    have hshort := length_trimSpace (u.drop ruleMark.length)
    have hlen := congrArg List.length heq
    have hmarked : ruleMark.length = 6 := rfl
    rw [Host.toUpper, List.length_map] at hlen
    rw [List.length_drop] at hshort
    omega
  · next hmark =>
    rw [htrim, hupper]
    exact iff_of_true rfl (eq_false_of_ne_true hmark)

theorem rruleProp_again (L : H.Lawful) {rule : Option Text} (h : rruleProp H ev = .ok rule)
    (hev : ev'.rrule = (rule.map H.toUpper).getD []) :
      rruleProp H ev' = .ok rule ↔ RuleKept H ev := by
  rw [rruleProp] at h
  split at h
  · next hnil =>
    cases h
    have hnil' : ev'.rrule = [] := hev
    rw [rruleProp, if_pos hnil']
    exact iff_of_true rfl fun hne => absurd hnil hne
  · next hne =>
    split at h
    · cases h
    · next hok =>
      cases h
      have hkept : RuleKept H ev ↔ ruleForm H (ruleForm H ev.rrule) = ruleForm H ev.rrule := by
        rw [ruleForm_ruleForm L]
        exact ⟨fun hk => hk hne, fun hk _ => hk⟩
      have hform : H.toUpper (ruleForm H ev.rrule) = ruleForm H ev.rrule := L.toUpper_toUpper _
      have hsome : ruleForm H ev.rrule ≠ [] := by
        intro hnil
        rw [hnil] at hok
        exact L.rrule_nil _ hok
      rw [Option.map_some, Option.getD_some, hform] at hev
      rw [hkept, rruleProp, hev, if_neg hsome]
      constructor
      · intro hagain
        split at hagain
        · cases hagain
        · exact Option.some.inj (Except.ok.inj hagain)
      · intro hsame
        rw [hsame, hok]

end Fields

section Ends

variable {tzid : Text} {c : Vevent}

theorem formatWhen_ne_nil (w : When) : (formatWhen w).1 ≠ [] := by
  cases w with
  | allDay | utc | zoned => exact write_ne_nil (by decide) _

theorem trimSpace_formatWhen (w : When) : trimSpace (formatWhen w).1 = (formatWhen w).1 := by
  cases w with
  | allDay | utc | zoned => exact trimSpace_write (by decide) _

theorem formatWhen_tzid (L : H.Lawful) (hw : Known H tzid w) (hzone : w.zone.isSome = true) :
    (formatWhen (reread w)).2 = tzid := by
  cases w with
  | allDay | utc => cases hzone
  | zoned z t => exact hw.name L

theorem formatWhen_no_tzid (hzone : w.zone.isSome = false) : (formatWhen (reread w)).2 = [] := by
  cases w with
  | allDay | utc => rfl
  | zoned => cases hzone

/-- The end that is kept, read once more, is an end of the start that is kept. -/
def Follows (start w : When) : Prop :=
  Legible w ∧ (w.zone.isSome = true → start.zone.isSome = true) ∧
    (reread start).at_ < (reread w).at_

def EndsAgain (H : Host R) (c : Vevent) (start : When) (ends : Option DateProp × Option Text) :
    Prop :=
  ∃ y, endOf H c (reread start) = .ok y ∧
    endProps H (told H c (reread start) y) (reread start) = .ok ends

theorem endsAgain_dtend (L : H.Lawful) (hstart : Known H tzid start) (hw : Known H tzid w)
    (hkind : w.isAllDay = start.isAllDay) (hc : c.dtend = some (setWhen H w)) :
    EndsAgain H c start (some (setWhen H w), none) ↔ Follows start w := by
  by_cases hlegible : Legible w
  · have hend : endOf H c (reread start) =
        .ok ((formatWhen (reread w)).1, [], formatUtc rfc3339 (reread w).at_) := by
      unfold endOf
      rw [hc]
      dsimp only
      rw [whenOf_setWhen L hw hlegible]
    have hagain : EndsAgain H c start (some (setWhen H w), none) ↔
        endProps H
          (told H c (reread start)
            ((formatWhen (reread w)).1, [], formatUtc rfc3339 (reread w).at_))
          (reread start) = .ok (some (setWhen H w), none) := by
      refine ⟨?_, fun h => ⟨_, hend, h⟩⟩
      rintro ⟨y, hy, h⟩
      rw [hend] at hy
      cases hy
      exact h
    rw [hagain]
    generalize hev : told H c (reread start)
      ((formatWhen (reread w)).1, [], formatUtc rfc3339 (reread w).at_) = ev'
    have hend' : ev'.end_ = (formatWhen (reread w)).1 := hev ▸ rfl
    have htzid' : ev'.tzid = (formatWhen (reread start)).2 := hev ▸ rfl
    unfold endProps
    rw [if_pos (hend' ▸ formatWhen_ne_nil (reread w)), hend', htzid']
    by_cases hzone : w.zone.isSome = true → start.zone.isSome = true
    · rw [parseWhen_formatWhen L hw hlegible fun h => formatWhen_tzid L hstart (hzone h)]
      dsimp only
      rw [reread_isAllDay, reread_isAllDay, if_neg (not_not.mpr hkind), setWhen_reread L hw]
      split
      · next hlt => exact iff_of_true rfl ⟨hlegible, hzone, hlt⟩
      · next hlt => exact iff_of_false (by simp) fun h => hlt h.2.2
    · have hfloating := hzone
      rw [Classical.not_imp] at hfloating
      rw [formatWhen_no_tzid (eq_false_of_ne_true hfloating.2)]
      obtain ⟨err, herr⟩ := parseWhen_formatWhen_floating L hw hlegible hfloating.1
      rw [herr]
      exact iff_of_false (by simp) fun h => hzone h.2.1
  · refine iff_of_false ?_ fun h => hlegible h.1
    rintro ⟨y, hy, -⟩
    unfold endOf at hy
    rw [hc] at hy
    dsimp only at hy
    rw [whenOf_setWhen_none L hlegible] at hy
    cases hy

theorem endsAgain_duration {d : Text} (hd : (H.duration d).isSome = true) (hne : d ≠ [])
    (hupper : H.toUpper d = d) (htrim : trimSpace d = d) (hend : c.dtend = none)
    (hc : c.duration = some d) :
    EndsAgain H c start (none, some d) := by
  obtain ⟨n, hn⟩ := Option.isSome_iff_exists.mp hd
  refine ⟨([], d, formatUtc rfc3339 ((reread start).at_ + n)), ?_, ?_⟩
  · unfold endOf
    rw [hend, hc]
    dsimp only
    rw [hn, hupper]
  · generalize hev : told H c (reread start) ([], d, formatUtc rfc3339 ((reread start).at_ + n))
      = ev'
    have hend' : ev'.end_ = [] := hev ▸ rfl
    have hduration' : ev'.duration = d := hev ▸ rfl
    unfold endProps
    rw [if_neg (not_not.mpr hend'), hduration', if_pos hne]
    dsimp only
    rw [htrim, hupper, if_pos hd]

theorem endOf_one_end {y : Text × Text × Text} (h : endOf H c start = .ok y) :
    ¬(y.1 ≠ [] ∧ y.2.1 ≠ []) := by
  unfold endOf at h
  rintro ⟨hend, hduration⟩
  split at h
  · split at h
    · cases h
    · cases h
      exact hduration rfl
  · split at h
    · split at h
      · cases h
      · cases h
        exact hend rfl
    · split at h
      · cases h
        exact hend rfl
      · cases h
        exact hend rfl

structure EndKept (H : Host R) (ev : Event) (start : When) : Prop where
  given : ev.end_ ≠ [] → ∀ w, parseWhen H ev.end_ ev.tzid = .ok w → Follows start w
  nextDay : ev.end_ = [] → ev.duration = [] → ∀ t, start = .allDay t →
    Written (clockOf ((t + oneDay) / second))

theorem endsAgain_iff (L : H.Lawful) (hstart : Known H ev.tzid start)
    {ends : Option DateProp × Option Text} (h : endProps H ev start = .ok ends)
    (hend : c.dtend = ends.1) (hduration : c.duration = ends.2) :
    EndsAgain H c start ends ↔ EndKept H ev start := by
  unfold endProps at h
  split at h
  · next hne =>
    split at h
    · cases h
    · next w hw =>
      split at h
      · cases h
      · next hkind =>
        split at h
        · cases h
          rw [endsAgain_dtend L hstart (parseWhen_known hw) (not_not.mp hkind) hend]
          constructor
          · intro hfollows
            refine ⟨fun _ w₁ hw₁ => ?_, fun hnil => absurd hnil hne⟩
            rw [hw] at hw₁
            cases hw₁
            exact hfollows
          · intro hkept
            exact hkept.given hne w hw
        · cases h
  · next hnil =>
    have hend_ : ev.end_ = [] := not_not.mp hnil
    have hkept : ev.duration ≠ [] ∨ (∀ t, start ≠ .allDay t) → EndKept H ev start := by
      intro hother
      refine ⟨fun hne => absurd hend_ hne, fun _ hd t ht => ?_⟩
      rcases hother with hne | htime
      · exact absurd hd hne
      · exact absurd ht (htime t)
    split at h
    · next hne =>
      dsimp only at h
      split at h
      · next hd =>
        cases h
        refine iff_of_true ?_ (hkept (.inl hne))
        refine endsAgain_duration hd ?_ (L.toUpper_toUpper _) (L.trimSpace_toUpper _) hend hduration
        intro hempty
        rw [hempty, L.duration_nil] at hd
        cases hd
      · cases h
    · next hd =>
      have hd := not_not.mp hd
      cases start with
      | allDay t =>
        cases h
        have hday : Known H ev.tzid (.allDay (t + oneDay)) := Int.dvd_add hstart (Int.dvd_refl _)
        have hnext : EndKept H ev (.allDay t) ↔ Written (clockOf ((t + oneDay) / second)) := by
          refine ⟨fun hk => hk.nextDay hend_ hd t rfl, fun hwritten =>
            ⟨fun hne => absurd hend_ hne, ?_⟩⟩
          rintro - - t₁ heq
          cases heq
          exact hwritten
        have hlater : (reread (.allDay t)).at_ < (reread (.allDay (t + oneDay))).at_ :=
          Int.lt_add_of_pos_right t (by decide)
        rw [hnext]
        refine (endsAgain_dtend L hstart hday rfl hend).trans ?_
        exact ⟨fun hf => hf.1, fun hwritten =>
          ⟨hwritten, fun hz => absurd hz Bool.false_ne_true, hlater⟩⟩
      | utc t | zoned z t =>
        cases h
        refine iff_of_true ?_ (hkept (.inr fun t ht => by cases ht))
        exact endsAgain_duration L.duration_hour (by decide) (L.toUpper_hour)
          (by decide) hend hduration

end Ends

section Exdates

variable {tzid tzid' x : Text} {p : DateProp}

/-- The condition on an excluded date: that of an all-day event is read back as a time. -/
def Kept (start w : When) : Prop :=
  match start with
  | .allDay _ => False
  | .utc _ => Written (clockOf (w.at_ / second))
  | .zoned z _ =>
    Written (z.clock (w.at_ / second)) ∧ Written (clockOf (z.date (z.clock (w.at_ / second))))

/-- An excluded date in the object is parsed to one that renders to it. -/
def ExcludedAgain (H : Host R) (tzid' : Text) (start : When) (p : DateProp) : Prop :=
  ∃ v, excluded H p = some v ∧ exdateProp H tzid' (reread start) v = .ok p

theorem exdateProp_eq_ok (h : exdateProp H tzid start x = .ok p) :
    ∃ w, parseWhen H x tzid = .ok w ∧ w.isAllDay = start.isAllDay ∧
      p = if w.isAllDay then H.setDate w.at_ else H.setDateTime start.zone w.at_ := by
  rw [exdateProp] at h
  split at h
  · cases h
  · next w hw =>
    split at h
    · cases h
    · next hkind =>
      refine ⟨w, hw, not_not.mp hkind, ?_⟩
      split at h
      · next hday =>
        cases h
        rw [if_pos hday]
      · next hday =>
        cases h
        rw [if_neg hday]

theorem exdateProp_utc {t : Int} (hstart : start.isAllDay = false) (h : Written (clockOf t)) :
    exdateProp H tzid' start (formatUtc rfc3339 (second * t)) = .ok
      (H.setDateTime start.zone (second * t)) := by
  have hwritten : Written (clockOf (second * t / second)) := by rwa [ediv_second]
  rw [exdateProp, parseWhen_utc hwritten, ediv_second]
  dsimp only
  rw [hstart]
  rfl

theorem excludedAgain_iff (L : H.Lawful) (hstart : Known H tzid start) (hw : Known H tzid w)
    (hkind : w.isAllDay = start.isAllDay) :
    ExcludedAgain H tzid' start
      (if w.isAllDay then H.setDate w.at_ else H.setDateTime start.zone w.at_) ↔
      Kept start w := by
  cases start with
  | allDay t =>
    refine iff_of_false ?_ not_false
    rintro ⟨v, hv, hagain⟩
    have hday : w.isAllDay = true := hkind
    rw [if_pos hday] at hv
    obtain ⟨u, rfl⟩ : ∃ u, w = .allDay u := by
      cases w with
      | allDay u => exact ⟨u, rfl⟩
      | utc | zoned => cases hkind
    obtain ⟨y, hy, rfl⟩ := Option.map_eq_some_iff.mp hv
    by_cases hwritten : Written (clockOf (u / second))
    · rw [When.at_, dateTime_date L hw hwritten] at hy
      cases hy
      rw [exdateProp, parseWhen_utc hwritten] at hagain
      cases hagain
    · rw [When.at_, dateTime_date_none L hwritten] at hy
      cases hy
  | utc t =>
    rw [if_neg (by rw [hkind]; exact Bool.false_ne_true)]
    by_cases hwritten : Written (clockOf (w.at_ / second))
    · refine iff_of_true ⟨formatUtc rfc3339 (second * (w.at_ / second)), ?_, ?_⟩ hwritten
      · rw [excluded]
        exact congrArg (Option.map _) (dateTime_utc L hwritten)
      · have hsame : H.setDateTime none (second * (w.at_ / second)) = H.setDateTime none w.at_ := by
          rw [L.setDateTime_utc, L.setDateTime_utc, formatUtc, ediv_second]
          rfl
        exact (exdateProp_utc rfl hwritten).trans (congrArg Except.ok hsame)
    · refine iff_of_false ?_ hwritten
      rintro ⟨v, hv, -⟩
      have hnone : H.dateTime (H.setDateTime none w.at_) = none := dateTime_utc_none L hwritten
      obtain ⟨y, hy, -⟩ := Option.map_eq_some_iff.mp hv
      cases hnone.symm.trans hy
  | zoned z t =>
    rw [if_neg (by rw [hkind]; exact Bool.false_ne_true)]
    by_cases hwritten : Written (z.clock (w.at_ / second))
    · have hread : H.dateTime (H.setDateTime (some z) w.at_) =
          some (.zone z, second * z.date (z.clock (w.at_ / second))) :=
            dateTime_zoned L hstart hwritten
      have hv : excluded H (H.setDateTime (some z) w.at_) =
          some (formatUtc rfc3339 (second * z.date (z.clock (w.at_ / second)))) :=
            congrArg (Option.map _) hread
      by_cases hutc : Written (clockOf (z.date (z.clock (w.at_ / second))))
      · refine iff_of_true ⟨_, hv, ?_⟩ ⟨hwritten, hutc⟩
        have hsame : H.setDateTime (some z) (second * z.date (z.clock (w.at_ / second))) =
            H.setDateTime (some z) w.at_ := by
          rw [L.setDateTime_zone, L.setDateTime_zone, ediv_second, hstart.clock L]
        exact (exdateProp_utc rfl hutc).trans (congrArg Except.ok hsame)
      · refine iff_of_false ?_ fun hk => hutc hk.2
        rintro ⟨v, hv', hagain⟩
        cases hv.symm.trans hv'
        have hillegible : ¬Written
          (clockOf (second * z.date (z.clock (w.at_ / second)) / second)) := by
          rwa [ediv_second]
        obtain ⟨err, herr⟩ := parseWhen_utc_error (H := H) hillegible
        rw [exdateProp, herr] at hagain
        cases hagain
    · refine iff_of_false ?_ fun hk => hwritten hk.1
      rintro ⟨v, hv, -⟩
      have hnone : H.dateTime (H.setDateTime (some z) w.at_) = none :=
        dateTime_zoned_none L hwritten
      obtain ⟨y, hy, -⟩ := Option.map_eq_some_iff.mp hv
      cases hnone.symm.trans hy

theorem exdateProps_eq_ok {xs : List Text} {ps : List DateProp} :
    exdateProps H tzid start xs = .ok ps ↔
    List.Forall₂ (fun x p => exdateProp H tzid start x = .ok p) xs ps := by
  constructor
  · intro h
    induction xs generalizing ps with
    | nil =>
      cases h
      exact .nil
    | cons x xs ih =>
      obtain ⟨p, hp, h⟩ := bind_eq_ok.mp h
      obtain ⟨ps', hps, h⟩ := bind_eq_ok.mp h
      cases h
      exact .cons hp (ih hps)
  · intro h
    induction h with
    | nil => rfl
    | cons hp _ ih =>
      rw [exdateProps, hp, ih]
      rfl

/-- The condition on the excluded dates of an event. -/
def ExdatesKept (H : Host R) (ev : Event) (start : When) : Prop :=
  ∀ x ∈ ev.exdate, ∀ w, parseWhen H x ev.tzid = .ok w → Kept start w

theorem exdates_again (L : H.Lawful) (hstart : Known H ev.tzid start) {ps : List DateProp}
    (h : exdateProps H ev.tzid start ev.exdate = .ok ps) :
    exdateProps H tzid' (reread start) (ps.filterMap (excluded H)) = .ok ps ↔
    ExdatesKept H ev start := by
  rw [exdateProps_eq_ok, forall₂_filterMap, ExdatesKept]
  rw [exdateProps_eq_ok] at h
  generalize ev.exdate = xs at h
  induction h with
  | nil => simp
  | cons hp _ ih =>
    obtain ⟨w, hw, hkind, rfl⟩ := exdateProp_eq_ok hp
    rw [List.forall_mem_cons, List.forall_mem_cons]
    refine and_congr ((excludedAgain_iff L hstart (parseWhen_known hw) hkind).trans ?_) ih
    constructor
    · intro hk w₁ hw₁
      rw [hw] at hw₁
      cases hw₁
      exact hk
    · intro hk
      exact hk w hw

end Exdates

section Objects

/-- The object is parsed to an event that renders to it. -/
def RoundTrips (H : Host R) (now : Now) (cal : Object) : Prop :=
  ∃ ev' facts, parseObject H cal = .ok (ev', facts) ∧ render H now ev' = .ok cal

/-- The times of the event are told by years of four digits and keep their order to the second, its
end is in a zone only when its start is, an all-day event excludes no date, and the rule and the URL
kept are in the form they are kept in. -/
structure Stable (H : Host R) (ev : Event) (start : When) : Prop where
  legible : Legible start
  end_ : EndKept H ev start
  exdate : ExdatesKept H ev start
  rrule : RuleKept H ev
  url : UrlKept H ev

/-- The stages of the event told of an object, when its fields are read as before. -/
def Stages.again (s : Stages H ev) (L : H.Lawful) (hlegible : Legible s.start)
    {y : Text × Text × Text} (hone : ¬(y.1 ≠ [] ∧ y.2.1 ≠ []))
    (hends : endProps H (told H (s.object now).event (reread s.start) y) (reread s.start) =
      .ok s.ends)
    (hurl : urlProp H (told H (s.object now).event (reread s.start) y) = .ok s.url)
    (hrule : rruleProp H (told H (s.object now).event (reread s.start) y) = .ok s.rule)
    (hexdates : exdateProps H (formatWhen (reread s.start)).2 (reread s.start)
      (s.exdates.filterMap (excluded H)) = .ok s.exdates) :
    Stages H (told H (s.object now).event (reread s.start) y) where
  start := reread s.start
  status := s.status
  url := s.url
  ends := s.ends
  rule := s.rule
  exdates := s.exdates
  uid_ne := (trimSpace_trimSpace ev.uid).symm ▸ s.uid_ne
  start_ne := (trimSpace_formatWhen (reread s.start)).symm ▸ formatWhen_ne_nil (reread s.start)
  start_eq := parseWhen_formatWhen L s.known hlegible fun hzone => formatWhen_tzid L s.known hzone
  one_end := hone
  sequence := s.sequence.trans_eq (congrArg Int64.toInt (sequenceOf_formatInt s.sequence)).symm
  status_eq := statusProp_again L s.status_eq rfl
  url_eq := hurl
  ends_eq := hends
  rule_eq := hrule
  exdates_eq := hexdates

theorem Stages.object_of_fields (s : Stages H ev) (L : H.Lawful) {y : Text × Text × Text}
    (s' : Stages H (told H (s.object now).event (reread s.start) y))
    (hstart : s'.start = reread s.start) (hstatus : s'.status = s.status) (hurl : s'.url = s.url)
    (hends : s'.ends = s.ends) (hrule : s'.rule = s.rule) (hexdates : s'.exdates = s.exdates) :
      s'.object now = s.object now := by
  have hsequence := sequenceOf_formatInt s.sequence
  rw [Stages.object, hstart, hstatus, hurl, hends, hrule, hexdates]
  simp only [objectOf, told, Stages.object, reread_zone, trimSpace_trimSpace, hsequence,
    textProp_getD,
    setWhen_reread L s.known]

theorem Stages.roundTrips_fields (L : H.Lawful) (s : Stages H ev) :
    RoundTrips H now (s.object now) ↔ Legible s.start ∧
      ∃ y, endOf H (s.object now).event (reread s.start) = .ok y ∧
        endProps H (told H (s.object now).event (reread s.start) y) (reread s.start) = .ok s.ends ∧
        urlProp H (told H (s.object now).event (reread s.start) y) = .ok s.url ∧
        rruleProp H (told H (s.object now).event (reread s.start) y) = .ok s.rule ∧
        exdateProps H (formatWhen (reread s.start)).2 (reread s.start)
          (s.exdates.filterMap (excluded H)) =
          .ok s.exdates := by
  constructor
  · rintro ⟨ev', facts, hparsed, hrender⟩
    obtain ⟨-, start, y, hstart, hy, rfl⟩ := parseObject_eq_ok.mp ⟨facts, hparsed⟩
    have hlegible : Legible s.start := by
      by_contra hill
      have hnone : whenOf H (s.object now).event.dtstart = none := whenOf_setWhen_none L hill
      cases hnone.symm.trans hstart
    have hread : whenOf H (s.object now).event.dtstart = some (reread s.start) :=
      whenOf_setWhen L s.known hlegible
    cases hread.symm.trans hstart
    obtain ⟨s', hs'⟩ := render_eq_ok.mp hrender
    have hparse : parseWhen H (formatWhen (reread s.start)).1 (formatWhen (reread s.start)).2 =
        .ok (reread s.start) :=
      parseWhen_formatWhen L s.known hlegible fun hzone => formatWhen_tzid L s.known hzone
    have hsame : s'.start = reread s.start := Except.ok.inj (s'.start_eq.symm.trans hparse)
    have hevent := congrArg Object.event hs'
    have hends' : s'.ends = s.ends :=
      Prod.ext (congrArg Vevent.dtend hevent) (congrArg Vevent.duration hevent)
    have hends := s'.ends_eq
    have hexdates := s'.exdates_eq
    rw [hsame, hends'] at hends
    rw [hsame, show s'.exdates = s.exdates from congrArg Vevent.exdates hevent] at hexdates
    refine ⟨hlegible, y, hy, hends, ?_, ?_, hexdates⟩
    · exact s'.url_eq.trans (congrArg Except.ok (congrArg Vevent.url hevent))
    · exact s'.rule_eq.trans (congrArg Except.ok (congrArg Vevent.rrule hevent))
  · rintro ⟨hlegible, y, hy, hends, hurl, hrule, hexdates⟩
    obtain ⟨facts, hfacts⟩ := parseObject_eq_ok.mpr
      ⟨s.uid_ne, reread s.start, y, whenOf_setWhen L s.known hlegible, hy, rfl⟩
    refine ⟨_, facts, hfacts,
      render_eq_ok.mpr ⟨s.again L hlegible (endOf_one_end hy) hends hurl hrule hexdates, ?_⟩⟩
    exact s.object_of_fields L _ rfl rfl rfl rfl rfl rfl

theorem Stages.roundTrips_iff_stable (L : H.Lawful) (s : Stages H ev) :
    RoundTrips H now (s.object now) ↔ Stable H ev s.start := by
  have hends : EndsAgain H (s.object now).event s.start s.ends ↔ EndKept H ev s.start :=
    endsAgain_iff L s.known s.ends_eq rfl rfl
  have hurl : ∀ y, urlProp H (told H (s.object now).event (reread s.start) y) = .ok s.url ↔
    UrlKept H ev :=
    fun y => urlProp_again s.url_eq rfl
  have hrule : ∀ y, rruleProp H (told H (s.object now).event (reread s.start) y) = .ok s.rule ↔
    RuleKept H ev :=
    fun y => rruleProp_again L s.rule_eq rfl
  rw [s.roundTrips_fields L]
  constructor
  · rintro ⟨hlegible, y, hy, hagain, hurl', hrule', hexdates⟩
    exact ⟨hlegible, hends.mp ⟨y, hy, hagain⟩, (exdates_again L s.known s.exdates_eq).mp hexdates,
      (hrule y).mp hrule', (hurl y).mp hurl'⟩
  · intro hstable
    obtain ⟨y, hy, hagain⟩ := hends.mpr hstable.end_
    exact ⟨hstable.legible, y, hy, hagain, (hurl y).mpr hstable.url, (hrule y).mpr hstable.rrule,
      (exdates_again L s.known s.exdates_eq).mpr hstable.exdate⟩

/-- The object of an event is parsed to an event that renders to it exactly when the event is
stable. -/
theorem roundTrips_iff (L : H.Lawful) (h : render H now ev = .ok cal) :
    RoundTrips H now cal ↔ ∃ start, parseWhen H ev.start ev.tzid = .ok start ∧
      Stable H ev start := by
  obtain ⟨s, rfl⟩ := render_eq_ok.mp h
  rw [s.roundTrips_iff_stable L]
  constructor
  · intro hstable
    exact ⟨s.start, s.start_eq, hstable⟩
  · rintro ⟨start, hstart, hstable⟩
    cases s.start_eq.symm.trans hstart
    exact hstable

/-- The functions of other packages, on what the events below hold. -/
def plainHost : Host Unit where
  quoted v := "\"" ++ String.ofList v ++ "\""
  upper := Char.toUpper
  loadLocation name := if name = [] ∨ name = "UTC".toList then some .utc else none
  setDate t := ⟨true, none, formatUtc dateLayout t⟩
  setDateTime
    | none, t => ⟨false, none, formatUtc utcLayout t⟩
    | some z, t => ⟨false, some z.name, write localLayout (z.clock (t / second))⟩
  dateTime p :=
    let layout :=
      if p.isDate then dateLayout else if byteLen p.value = 15 then localLayout else utcLayout
    (parseTime layout p.value).map (.utc, ·)
  duration v := if v = "PT1H".toList then some (3600 * second) else none
  parseUrl _ := none
  rrule v := if v = "FREQ=DAILY".toList then .ok () else .error "wrong format"
  dateError _ := "wrong format"
  durationError _ := "wrong format"

theorem toUpper_letter (c : Char) :
    c.toUpper.toUpper = c.toUpper ∧ isSpace c.toUpper = isSpace c := by
  by_cases h : 'a'.val ≤ c.val ∧ c.val ≤ 'z'.val
  · have hletter : ∀ n ∈ List.range' 97 26, (Char.ofNat n).toUpper.toUpper =
      (Char.ofNat n).toUpper ∧
        isSpace (Char.ofNat n).toUpper = isSpace (Char.ofNat n) := by
      decide
    have hlow : 97 ≤ c.toNat := UInt32.le_iff_toNat_le.mp h.1
    have hhigh : c.toNat ≤ 122 := UInt32.le_iff_toNat_le.mp h.2
    have hc := hletter c.toNat (List.mem_range'_1.mpr ⟨hlow, by omega⟩)
    rwa [Char.ofNat_toNat] at hc
  · have hself : c.toUpper = c := dif_neg h
    rw [hself]
    exact ⟨hself, rfl⟩

theorem plainHost_lawful : plainHost.Lawful where
  upper_ascii _ _ := rfl
  upper_upper c := (toUpper_letter c).1
  upper_space c := (toUpper_letter c).2
  zone_name name z h := by
    simp only [plainHost] at h
    split at h
    · cases h
    · cases h
  zone_clock name z h := by
    simp only [plainHost] at h
    split at h
    · cases h
    · cases h
  setDate_eq _ := rfl
  setDateTime_utc _ := rfl
  setDateTime_zone _ _ := rfl
  dateTime_date p h := by simp only [plainHost, if_pos h]
  dateTime_utc p h hlong := by simp only [plainHost, h, if_neg hlong, Bool.false_eq_true, if_false]
  dateTime_zone tzid z v _ h := by
    simp only [plainHost] at h
    split at h
    · cases h
    · cases h
  duration_nil := rfl
  duration_hour := rfl
  rrule_nil r h := by cases h

/-- Every day, but for an excluded one. -/
def daily (start excluded : String) : Event where
  uid := "daily".toList
  summary := []
  description := []
  location := []
  status := []
  url := []
  start := start.toList
  end_ := []
  duration := []
  tzid := []
  rrule := "FREQ=DAILY".toList
  exdate := [excluded.toList]
  sequence := 0

def august : Now := ⟨1785542400000000000, 2026⟩

theorem roundTrips_daily :
    ∃ cal, render plainHost august (daily "2026-08-01T09:00:00Z" "2026-08-03T09:00:00Z") = .ok cal ∧
      RoundTrips plainHost august cal := by
  have hexdate : parseWhen plainHost "2026-08-03T09:00:00Z".toList [] =
    .ok (.utc 1785747600000000000) := rfl
  have hstable : Stable plainHost (daily "2026-08-01T09:00:00Z" "2026-08-03T09:00:00Z")
      (.utc 1785574800000000000) := by
    refine ⟨⟨by decide, by decide⟩, ⟨fun h => absurd rfl h, ?_⟩, ?_, fun _ => by decide,
      fun _ _ h => absurd rfl h⟩
    · rintro - - t heq
      cases heq
    · intro x hx w hw
      rw [List.mem_singleton.mp hx] at hw
      cases hexdate.symm.trans hw
      exact ⟨by decide, by decide⟩
  exact ⟨_, rfl, (roundTrips_iff plainHost_lawful rfl).mpr ⟨_, rfl, hstable⟩⟩

/-- An all-day event with an excluded date is told as one that is not rendered. -/
theorem not_roundTrips_daily :
    ∃ cal, render plainHost august (daily "2026-08-01" "2026-08-03") = .ok cal ∧
      ¬RoundTrips plainHost august cal := by
  have hrender : ∃ cal, render plainHost august (daily "2026-08-01" "2026-08-03") = .ok cal :=
    ⟨_, rfl⟩
  obtain ⟨cal, hcal⟩ := hrender
  refine ⟨cal, hcal, fun hround => ?_⟩
  obtain ⟨s, rfl⟩ := render_eq_ok.mp hcal
  have hstart : s.start = .allDay 1785542400000000000 := Except.ok.inj (s.start_eq.symm.trans rfl)
  have hkept := ((s.roundTrips_iff_stable plainHost_lawful).mp hround).exdate
  rw [hstart] at hkept
  exact hkept _ List.mem_cons_self (.allDay 1785715200000000000) rfl

end Objects

end ThanksComputer.Calendar
