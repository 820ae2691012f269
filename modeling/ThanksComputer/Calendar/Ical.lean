import ThanksComputer.Calendar.VTimezone
import ThanksComputer.Guard.Paths
import ThanksComputer.Lib.Checks

/-! `calendar/ical.go`: an event as a calendar object and back.  An object is taken as its
properties; the text they are encoded in loses nothing. -/

namespace ThanksComputer.Calendar

open Lib (second byteLen)
open Lib.Civil Lib.Layout
open Guard (trimSpace)
open scoped Lib.Checks

abbrev Text := List Char

/-- What `time.LoadLocation` finds: `time.UTC` itself or another zone. -/
inductive Location
  | utc
  | zone (z : Zone)

/-- A property with a date or a time: whether it says `VALUE=DATE`, its `TZID` and its value. -/
structure DateProp where
  isDate : Bool
  tzid : Option String
  value : Text
  deriving DecidableEq

/-- What the package takes from others: `%q`, `unicode.ToUpper`, `time.LoadLocation`; the setters
and the readers of a property with a date or a time, the first of a time in a zone or in UTC and the
last with the zone it read; the parser of durations in nanoseconds, `url.Parse` with the scheme and
the text of the URL, and `rrule.StrToROption`; and the texts of errors. -/
structure Host (R : Type) where
  quoted : Text → String
  upper : Char → Char
  loadLocation : Text → Option Location
  setDate : Int → DateProp
  setDateTime : Option Zone → Int → DateProp
  dateTime : DateProp → Option (Location × Int)
  duration : Text → Option Int
  parseUrl : Text → Option (Text × Text)
  rrule : Text → Except String R
  dateError : DateProp → String
  durationError : Text → String

/-- `strings.ToUpper`. -/
def Host.toUpper {R : Type} (H : Host R) (v : Text) : Text :=
  v.map H.upper

section Times

/-- A start, an end or an exception date.  A date is the midnight in UTC it starts at. -/
inductive When
  | allDay (t : Int)
  | utc (t : Int)
  | zoned (z : Zone) (t : Int)

def When.isAllDay : When → Bool
  | allDay _ => true
  | _ => false

def When.at_ : When → Int
  | allDay t => t
  | utc t => t
  | zoned _ t => t

/-- `2006-01-02`. -/
def dateForm : List Field :=
  [.year, .lit '-', .month, .lit '-', .day]

/-- `2006-01-02T15:04:05`. -/
def localForm : List Field :=
  [.year, .lit '-', .month, .lit '-', .day, .lit 'T', .hour, .lit ':', .minute, .lit ':', .second]

/-- `2006-01-02T15:04`. -/
def localFormNoSS : List Field :=
  [.year, .lit '-', .month, .lit '-', .day, .lit 'T', .hour, .lit ':', .minute]

/-- `strings.EqualFold` with `UTC`, letters that no other character folds to. -/
def isUtcName (tzid : Text) : Bool :=
  tzid.map Char.toLower == "utc".toList

variable {R : Type} (H : Host R)

def parseLocal (form : List Field) (v tzid : Text) : Except String When :=
  if tzid = [] then
    .error (H.quoted v ++ " is a floating time; give tzid (an IANA zone) or a Z/offset suffix")
  else
    match H.loadLocation tzid with
    | none => .error ("unknown tzid " ++ H.quoted tzid)
    | some loc =>
      if tzid = "Local".toList then .error ("unknown tzid " ++ H.quoted tzid)
      else
        match loc with
        | .utc =>
          match parseTime form v with
          | none => .error (H.quoted v ++ " is not a local time (YYYY-MM-DDTHH:MM:SS)")
          | some t => .ok (.utc t)
        | .zone z =>
          match parseIn z form v with
          | none => .error (H.quoted v ++ " is not a local time (YYYY-MM-DDTHH:MM:SS)")
          | some t => if isUtcName tzid then .ok (.utc t) else .ok (.zoned z t)

def parseWhen (text tzid : Text) : Except String When :=
  let v := trimSpace text
  if v = [] then .error "empty time"
  else if byteLen v = 10 then
    match parseTime dateForm v with
    | none => .error (H.quoted v ++ " is not a date (YYYY-MM-DD)")
    | some t => .ok (.allDay t)
  else
    match parseTime rfc3339 v with
    | some t => .ok (.utc t)
    | none =>
      if byteLen v = 19 then parseLocal H localForm v tzid
      else if byteLen v = 16 then parseLocal H localFormNoSS v tzid
      else .error (H.quoted v ++ " is not a date, an RFC3339 time, or a local time")

def setWhen : When → DateProp
  | .allDay t => H.setDate t
  | .utc t => H.setDateTime none t
  | .zoned z t => H.setDateTime (some z) t

def whenOf (p : DateProp) : Option When :=
  (H.dateTime p).map fun y =>
    if p.isDate then .allDay (second * (86400 * (y.2 / (86400 * second))))
    else
      match p.tzid, y.1 with
      | some _, .zone z => .zoned z y.2
      | _, _ => .utc y.2

/-- The text of a time and its `tzid`. -/
def formatWhen : When → Text × Text
  | .allDay t => (formatUtc dateForm t, [])
  | .utc t => (formatUtc rfc3339 t, [])
  | .zoned z t => (write localForm (z.clock (t / second)), z.name.toList)

end Times

section Objects

/-- The event of a rule.  `end_` or `duration` is empty, or both are. -/
structure Event where
  uid : Text
  summary : Text
  description : Text
  location : Text
  status : Text
  url : Text
  start : Text
  end_ : Text
  duration : Text
  tzid : Text
  rrule : Text
  exdate : List Text
  sequence : Int64

/-- What is told of an event beside its fields. -/
structure Facts (R : Type) where
  component : String
  allDay : Bool
  startUtc : Text
  endUtc : Text
  recurs : Bool
  recur : Option R
  dtstamp : Text

/-- A `VEVENT`. -/
structure Vevent where
  uid : Text
  dtstamp : DateProp
  sequence : Text
  summary : Option Text
  description : Option Text
  location : Option Text
  status : Option Text
  url : Option Text
  dtstart : DateProp
  dtend : Option DateProp
  duration : Option Text
  rrule : Option Text
  exdates : List DateProp

/-- A `VCALENDAR` with one event, and the `VTIMEZONE` of its zone. -/
structure Object where
  zone : Option Component
  event : Vevent

/-- The current time, and the year of it in the zone it is told in. -/
structure Now where
  instant : Int
  year : Int

variable {R : Type} (H : Host R)

def textProp (v : Text) : Option Text :=
  if v = [] then none else some v

def statuses : List Text :=
  ["CONFIRMED".toList, "TENTATIVE".toList, "CANCELLED".toList]

def statusProp (ev : Event) : Except String (Option Text) :=
  if ev.status = [] then .ok none
  else
    let st := H.toUpper (trimSpace ev.status)
    if st ∈ statuses then .ok (some st)
    else .error
      ("event.status: " ++ H.quoted ev.status ++ " is not CONFIRMED, TENTATIVE or CANCELLED")

def urlProp (ev : Event) : Except String (Option Text) :=
  if ev.url = [] then .ok none
  else
    match H.parseUrl (trimSpace ev.url) with
    | none => .error ("event.url: " ++ H.quoted ev.url ++ " is not an absolute URL")
    | some (scheme, text) =>
      if scheme = [] then .error ("event.url: " ++ H.quoted ev.url ++ " is not an absolute URL")
      else .ok (some text)

def oneDay : Int := 86400 * second

/-- `DTEND` or `DURATION`. -/
def endProps (ev : Event) (start : When) : Except String (Option DateProp × Option Text) :=
  if ev.end_ ≠ [] then
    match parseWhen H ev.end_ ev.tzid with
    | .error err => .error ("event.end: " ++ err)
    | .ok w =>
      if w.isAllDay ≠ start.isAllDay then
        .error "event: start and end must both be dates or both be times"
      else if start.at_ < w.at_ then .ok (some (setWhen H w), none)
      else .error "event: end must be after start"
  else if ev.duration ≠ [] then
    let d := H.toUpper (trimSpace ev.duration)
    if (H.duration d).isSome then .ok (none, some d)
    else .error
      ("event.duration: " ++ H.quoted ev.duration ++ " is not an RFC 5545 duration (PT30M, P1D)")
  else
    match start with
    | .allDay t => .ok (some (H.setDate (t + oneDay)), none)
    | _ => .ok (none, some "PT1H".toList)

def ruleMark : Text := "RRULE:".toList

def ruleForm (v : Text) : Text :=
  let v := trimSpace v
  H.toUpper (trimSpace (if ruleMark.isPrefixOf v then v.drop ruleMark.length else v))

def rruleProp (ev : Event) : Except String (Option Text) :=
  if ev.rrule = [] then .ok none
  else
    match H.rrule (ruleForm H ev.rrule) with
    | .error err => .error ("event.rrule: " ++ H.quoted ev.rrule ++ ": " ++ err)
    | .ok _ => .ok (some (ruleForm H ev.rrule))

def When.zone : When → Option Zone
  | zoned z _ => some z
  | _ => none

def exdateProp (tzid : Text) (start : When) (x : Text) : Except String DateProp :=
  match parseWhen H x tzid with
  | .error err => .error ("event.exdate: " ++ err)
  | .ok w =>
    if w.isAllDay ≠ start.isAllDay then
      .error ("event.exdate: " ++ H.quoted x ++ " must be the same kind as start")
    else if w.isAllDay then .ok (H.setDate w.at_)
    else .ok (H.setDateTime start.zone w.at_)

def exdateProps (tzid : Text) (start : When) : List Text → Except String (List DateProp)
  | [] => .ok []
  | x :: xs =>
    (exdateProp H tzid start x).bind fun p => (exdateProps tzid start xs).bind fun ps =>
      .ok (p :: ps)

def formatInt (n : Int) : Text :=
  padInt 0 n

def objectOf (now : Now) (ev : Event) (start : When) (status url : Option Text)
    (ends : Option DateProp × Option Text) (rule : Option Text) (exdates : List DateProp) :
      Object where
  zone := start.zone.map fun z => vtimezone z now.year
  event :=
    { uid := trimSpace ev.uid
      dtstamp := H.setDateTime none (now.instant - now.instant % second)
      sequence := formatInt ev.sequence.toInt
      summary := textProp ev.summary
      description := textProp ev.description
      location := textProp ev.location
      status := status
      url := url
      dtstart := setWhen H start
      dtend := ends.1
      duration := ends.2
      rrule := rule
      exdates := exdates }

/-- `Render`, with the object for the text it is encoded in. -/
def render (now : Now) (ev : Event) : Except String Object :=
  if trimSpace ev.uid = [] then .error "event: uid is required"
  else if trimSpace ev.start = [] then .error "event: start is required"
  else
    match parseWhen H ev.start ev.tzid with
    | .error err => .error ("event.start: " ++ err)
    | .ok start =>
      if ev.end_ ≠ [] ∧ ev.duration ≠ [] then .error "event: give end or duration, not both"
      else if ev.sequence.toInt < 0 then .error "event: sequence must be >= 0"
      else
        (statusProp H ev).bind fun status =>
        (urlProp H ev).bind fun url =>
        (endProps H ev start).bind fun ends =>
        (rruleProp H ev).bind fun rule =>
        (exdateProps H ev.tzid start ev.exdate).bind fun exdates =>
        .ok (objectOf H now ev start status url ends rule exdates)

end Objects

section Parse

variable {R : Type} (H : Host R)

/-- `strconv.ParseInt` with base 10 and 64 bits. -/
def parseInt64 (s : Text) : Option Int :=
  let digits := if s.head? = some '-' ∨ s.head? = some '+' then s.tail else s
  if digits ≠ [] ∧ digits.all Char.isDigit then
    let n : Int := Nat.ofDigitChars 10 digits 0
    let n := if s.head? = some '-' then -n else n
    if -9223372036854775808 ≤ n ∧ n ≤ 9223372036854775807 then some n else none
  else none

def sequenceOf (v : Text) : Int64 :=
  match parseInt64 (trimSpace v) with
  | some n => if 0 ≤ n then Int64.ofInt n else 0
  | none => 0

/-- The end of an event as it is told: `end_` or `duration`, and the instant in UTC. -/
def endOf (cal : Vevent) (start : When) : Except String (Text × Text × Text) :=
  match cal.dtend with
  | some p =>
    match whenOf H p with
    | none => .error ("ical: DTEND: " ++ H.dateError p)
    | some w => .ok ((formatWhen w).1, [], formatUtc rfc3339 w.at_)
  | none =>
    match cal.duration with
    | some v =>
      match H.duration v with
      | none => .error ("ical: DURATION: " ++ H.durationError v)
      | some d => .ok ([], H.toUpper v, formatUtc rfc3339 (start.at_ + d))
    | none =>
      match start with
      | .allDay t => .ok ([], [], formatUtc rfc3339 (t + oneDay))
      | _ => .ok ([], [], formatUtc rfc3339 start.at_)

/-- `Parse` of an object with one event. -/
def parseObject (cal : Object) : Except String (Event × Facts R) :=
  let c := cal.event
  if c.uid = [] then .error "ical: the component has no UID"
  else
    match whenOf H c.dtstart with
    | none => .error ("ical: DTSTART: " ++ H.dateError c.dtstart)
    | some start =>
      (endOf H c start).bind fun ends =>
      .ok
        ({ uid := c.uid
           summary := c.summary.getD []
           description := c.description.getD []
           location := c.location.getD []
           status := H.toUpper (c.status.getD [])
           url := c.url.getD []
           start := (formatWhen start).1
           end_ := ends.1
           duration := ends.2.1
           tzid := (formatWhen start).2
           rrule := (c.rrule.map H.toUpper).getD []
           exdate := c.exdates.filterMap fun p => (H.dateTime p).map fun y => formatUtc rfc3339 y.2
           sequence := sequenceOf c.sequence },
         { component := "VEVENT"
           allDay := start.isAllDay
           startUtc := formatUtc rfc3339 start.at_
           endUtc := ends.2.2
           recurs := c.rrule.isSome
           recur := c.rrule.bind fun v => (H.rrule v).toOption
           dtstamp := ((H.dateTime c.dtstamp).map fun y => formatUtc rfc3339 y.2).getD [] })

end Parse

end ThanksComputer.Calendar
