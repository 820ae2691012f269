import ThanksComputer.Control.Applier
import ThanksComputer.Lib.Checks
import ThanksComputer.Lib.Cursor
import ThanksComputer.Lib.Runs

/-! Exactly once: behind the stored cursor, the runtime tables are what the events of the feed make
of them, each applied once and in order, wherever a pass was halted or lost. -/

namespace ThanksComputer.Control

open Lib.Checks Lib.Cursor Lib.Runs

variable {T A : Type} {node : Node T A} {ev : Event}

def EventType.isRows : EventType → Bool
  | .stackActivated | .systemOpstack | .runAbort => false
  | _ => true

/-- What an event does to the runtime tables.  An activation and the rows of a runtime table change
them; every other event is defined to do nothing there. -/
inductive Effect (node : Node T A) (ev : Event) : Tables T → Tables T → Prop
  | stackActivated {d data art t t'} (htype : ev.type = .stackActivated)
      (hfetch : fetch node ev d = .ok data) (hdecode : node.decodeStack data = .ok art)
      (happly : activateTables node art d t = .ok t') : Effect node ev t t'
  | rows {d data art t t'} (htype : ev.type.isRows = true) (hfetch : fetch node ev d = .ok data)
      (hdecode : node.decodeRows data = .ok art) (hallowed : tableAllowed art.db art.table = true)
      (hdb : art.db = "runtime") (htable : node.hasTable t.rest art.table = true)
      (happly : rowsTables node art t = .ok t') : Effect node ev t t'
  | absent {d data art t} (htype : ev.type.isRows = true) (hfetch : fetch node ev d = .ok data)
      (hdecode : node.decodeRows data = .ok art) (hallowed : tableAllowed art.db art.table = true)
      (hdb : art.db = "runtime") (htable : node.hasTable t.rest art.table = false) :
        Effect node ev t t
  | auth {d data art t} (htype : ev.type.isRows = true) (hfetch : fetch node ev d = .ok data)
      (hdecode : node.decodeRows data = .ok art) (hallowed : tableAllowed art.db art.table = true)
      (hdb : art.db ≠ "runtime") : Effect node ev t t
  | systemOpstack {t} (htype : ev.type = .systemOpstack) : Effect node ev t t
  | runAbort {d data t} (htype : ev.type = .runAbort) (hfetch : fetch node ev d = .ok data)
      (hdecode : node.decodeAbort data = .ok ()) : Effect node ev t t

/-- The events of a list one after the other, each at its first delivery; `seen` have been
before. -/
def Replay (node : Node T A) : List String → List Event → Tables T → Tables T → Prop
  | _, [], t, t' => t' = t
  | seen, ev :: evs, t, t' =>
    if ev.eventID ∈ seen then Replay node seen evs t t'
    else ∃ u, Effect node ev t u ∧ Replay node (ev.eventID :: seen) evs u t'

theorem replay_concat {seen : List String} {evs : List Event} {t t' : Tables T} :
    Replay node seen (evs ++ [ev]) t t' ↔ ∃ u, Replay node seen evs t u ∧
      if ev.eventID ∈ seen ∨
      ∃ e ∈ evs, e.eventID = ev.eventID then t' = u else Effect node ev u t' := by
  induction evs generalizing seen t with
  | nil => simp [Replay]
  | cons e evs ih =>
    rw [List.cons_append, Replay]
    by_cases he : e.eventID ∈ seen
    · have hsame : (ev.eventID ∈ seen ∨ ∃ x ∈ e :: evs, x.eventID = ev.eventID) ↔
          (ev.eventID ∈ seen ∨ ∃ x ∈ evs, x.eventID = ev.eventID) := by
        simp only [List.exists_mem_cons_iff]
        constructor
        · rintro (h | h | h)
          · exact .inl h
          · exact .inl (h ▸ he)
          · exact .inr h
        · exact fun h => h.imp_right .inr
      simp only [if_pos he, ih, Replay, hsame]
    · have hsame : (ev.eventID ∈ e.eventID :: seen ∨ ∃ x ∈ evs, x.eventID = ev.eventID) ↔
          (ev.eventID ∈ seen ∨ ∃ x ∈ e :: evs, x.eventID = ev.eventID) := by
        rw [List.exists_mem_cons_iff, List.mem_cons, eq_comm, or_assoc, or_left_comm]
      simp only [if_neg he, ih, Replay, hsame]
      constructor
      · rintro ⟨u, hu, v, hv, h⟩
        exact ⟨v, ⟨u, hu, hv⟩, h⟩
      · rintro ⟨v, ⟨u, hu, hv⟩, h⟩
        exact ⟨u, hu, v, hv, h⟩

def Runtime.Records (rt : Runtime T) (eventID : String) : Prop :=
  ∃ r ∈ rt.applied, r.eventID = eventID

/-- What the commit of an event leaves: its place as the cursor, its id on record, and its effect on
the tables unless it was on record before. -/
structure Settles (node : Node T A) (ev : Event) (rt rt' : Runtime T) : Prop where
  cursor : rt'.cursor = some ev.controlVersion
  records : ∀ id, rt'.Records id ↔ rt.Records id ∨ ev.eventID = id
  known : rt.Records ev.eventID → rt'.tables = rt.tables
  new : ¬rt.Records ev.eventID → Effect node ev rt.tables rt'.tables

theorem markApplied_ok {rt rt' : Runtime T} {now : String} (h : markApplied rt ev now = .ok rt') :
    rt'.cursor = rt.cursor ∧ rt'.tables = rt.tables ∧
      ∀ id, rt'.Records id ↔ rt.Records id ∨ ev.eventID = id := by
  rw [markApplied, check_eq_ok] at h
  obtain ⟨-, h⟩ := h
  split at h
  · next hany =>
    cases h
    refine ⟨rfl, rfl, fun id => ⟨.inl, fun hid => hid.elim (fun hrec => hrec) ?_⟩⟩
    rintro rfl
    obtain ⟨r, hr, heq⟩ := List.any_eq_true.mp hany
    exact ⟨r, hr, beq_iff_eq.mp heq⟩
  · cases h
    refine ⟨rfl, rfl, fun id => ?_⟩
    simp [Runtime.Records, or_and_right, exists_or]

theorem commit_ok {failed : Option String} {rt rt' : Runtime T} (h : commit failed rt = .ok rt') :
    rt' = rt := by
  cases failed with
  | some err => cases h
  | none => exact (Except.ok.inj h).symm

theorem settles_tx {rt rt' : Runtime T} {t : Tables T} {now : String} {tx : Option String}
    (h : (markApplied (writeCursor { rt with tables := t } ev.controlVersion) ev now).bind
      (commit tx) =
      .ok rt')
    (hknown : rt.Records ev.eventID → t = rt.tables)
    (hnew : ¬rt.Records ev.eventID → Effect node ev rt.tables t) : Settles node ev rt rt' := by
  obtain ⟨u, hmark, hcommit⟩ := bind_eq_ok.mp h
  obtain rfl := commit_ok hcommit
  obtain ⟨hcursor, htables, hrecords⟩ := markApplied_ok hmark
  rw [writeCursor] at hcursor htables hrecords
  refine ⟨hcursor, hrecords, fun hrec => htables.trans (hknown hrec), fun hrec => ?_⟩
  rw [htables]
  exact hnew hrec

theorem settles_advance {rt rt' : Runtime T} {now : String} {tx : Option String}
    (h : advanceCursorAndMark rt ev now tx = .ok rt')
    (hnew : ¬rt.Records ev.eventID → Effect node ev rt.tables rt.tables) : Settles node ev rt rt' :=
  settles_tx (t := rt.tables) h (fun _ => rfl) hnew

theorem alreadyApplied_records {rt : Runtime T} {id : String} (h : rt.alreadyApplied id = true) :
    rt.Records id := by
  rw [Runtime.alreadyApplied, Bool.and_eq_true] at h
  obtain ⟨r, hr, heq⟩ := List.any_eq_true.mp h.2
  exact ⟨r, hr, beq_iff_eq.mp heq⟩

theorem records_alreadyApplied {rt : Runtime T} {id : String} (hid : id ≠ "") (h : rt.Records id) :
    rt.alreadyApplied id = true := by
  obtain ⟨r, hr, heq⟩ := h
  rw [Runtime.alreadyApplied, Bool.and_eq_true]
  exact ⟨bne_iff_ne.mpr hid, List.any_eq_true.mpr ⟨r, hr, beq_iff_eq.mpr heq⟩⟩

theorem validate_eventID (h : ev.validate = .ok ()) : ev.eventID ≠ "" := by
  rw [Event.validate, check_eq_ok] at h
  exact h.1

/-- What `applyOne` comes to, if it is not halted. -/
inductive ComesTo (node : Node T A) (ev : Event) (rt : Runtime T) (cursor : Nat) :
    Outcome T A → Prop
  | skipped (hold : ev.controlVersion ≤ cursor) : ComesTo node ev rt cursor .skipped
  | runtime {rt'} (hahead : cursor < ev.controlVersion) (hsettles : Settles node ev rt rt') :
      ComesTo node ev rt cursor (.runtime rt')
  | auth {a} (hahead : cursor < ev.controlVersion) (heffect : ∀ t, Effect node ev t t) :
      ComesTo node ev rt cursor (.auth a)

section Outcomes

variable {rt : Runtime T} {cursor : Nat} {a : A} {d : Draw} {out : Outcome T A}

theorem comesTo_advance (hahead : cursor < ev.controlVersion)
    (h : (advanceCursorAndMark rt ev d.now d.tx).map Outcome.runtime = .ok out)
    (hnew : ¬rt.Records ev.eventID → Effect node ev rt.tables rt.tables) :
    ComesTo node ev rt cursor out := by
  obtain ⟨rt', hadvance, rfl⟩ := map_eq_ok.mp h
  exact .runtime hahead (settles_advance hadvance hnew)

theorem comesTo_applyRows {data : Bytes} {art : RowsArtifact} (hahead : cursor < ev.controlVersion)
    (hrec : ¬rt.Records ev.eventID) (htype : ev.type.isRows = true)
    (hfetch : fetch node ev d = .ok data) (hdecode : node.decodeRows data = .ok art)
    (h : applyRows node rt a ev art d = .ok out) :
    ComesTo node ev rt cursor out := by
  rw [applyRows, check_eq_ok, check_eq_ok] at h
  obtain ⟨hallowed, -, h⟩ := h
  rw [Bool.not_eq_true', Bool.not_eq_false] at hallowed
  split at h
  · next hdb =>
    split at h
    · cases h
    split at h
    · next habsent =>
      rw [Bool.not_eq_true'] at habsent
      exact comesTo_advance hahead h fun _ => .absent htype hfetch hdecode hallowed hdb habsent
    · next hpresent =>
      rw [Bool.not_eq_true', Bool.not_eq_false] at hpresent
      obtain ⟨t, hrows, h⟩ := bind_eq_ok.mp h
      obtain ⟨u, hmark, h⟩ := bind_eq_ok.mp h
      obtain ⟨rt', hcommit, rfl⟩ := map_eq_ok.mp h
      refine .runtime hahead (settles_tx (bind_eq_ok.mpr ⟨u, hmark, hcommit⟩) ?_ ?_)
      · exact fun hknown => absurd hknown hrec
      · exact fun _ => .rows htype hfetch hdecode hallowed hdb hpresent hrows
  · next hdb =>
    have heffect : ∀ t, Effect node ev t t := fun t => .auth htype hfetch hdecode hallowed hdb
    split at h
    · exact comesTo_advance hahead h fun _ => heffect rt.tables
    rw [check_eq_ok] at h
    obtain ⟨-, h⟩ := h
    split at h
    · cases h
    split at h
    · exact comesTo_advance hahead h fun _ => heffect rt.tables
    · obtain ⟨a', -, h⟩ := bind_eq_ok.mp h
      split at h
      · cases h
      · cases h
        exact .auth hahead heffect

theorem comesTo_applyOne (h : applyOne node rt a ev cursor d = .ok out) :
    ComesTo node ev rt cursor out := by
  rw [applyOne] at h
  split at h
  · next hold =>
    cases h
    exact .skipped hold
  next hahead =>
  have hahead := Nat.not_le.mp hahead
  obtain ⟨⟨⟩, hvalid, h⟩ := bind_eq_ok.mp h
  split at h
  · cases h
  split at h
  · next hknown =>
    exact comesTo_advance hahead h fun hnew => absurd (alreadyApplied_records hknown) hnew
  next hnew =>
  have hrec : ¬rt.Records ev.eventID :=
    fun hrec => hnew (records_alreadyApplied (validate_eventID hvalid) hrec)
  obtain ⟨data, hfetch, h⟩ := bind_eq_ok.mp h
  split at h
  · next htype =>
    split at h
    · cases h
    · next hdecode =>
      obtain ⟨rt', happly, rfl⟩ := map_eq_ok.mp h
      obtain ⟨t, htables, htx⟩ := bind_eq_ok.mp happly
      refine .runtime hahead (settles_tx htx (fun hknown => absurd hknown hrec) fun _ => ?_)
      exact .stackActivated htype hfetch hdecode htables
  · next htype => exact comesTo_advance hahead h fun _ => .systemOpstack htype
  · next htype =>
    split at h
    · cases h
    · next hdecode => exact comesTo_advance hahead h fun _ => .runAbort htype hfetch hdecode
  · next hstack hopstack habort =>
    split at h
    · cases h
    · next hdecode =>
      refine comesTo_applyRows hahead hrec ?_ hfetch hdecode h
      cases htype : ev.type with
      | stackActivated => exact absurd htype hstack
      | systemOpstack => exact absurd htype hopstack
      | runAbort => exact absurd htype habort
      | _ => rfl

end Outcomes

section Runs

variable {log : List Event} {base : Tables T} {rt rt' : Runtime T} {sys sys' : System T A}

def Runtime.stored (rt : Runtime T) : Nat :=
  rt.cursor.getD 0

/-- The runtime tables are what the events up to the stored cursor make of `base`, all of them are
on record, and whatever was acknowledged is one of them. -/
structure ExactlyOnce (node : Node T A) (log : List Event) (base : Tables T) (sys : System T A) :
    Prop where
  tables : Replay node [] (upTo Event.controlVersion sys.runtime.stored log) base sys.runtime.tables
  recorded : ∀ e ∈ log, e.controlVersion ≤ sys.runtime.stored → sys.runtime.Records e.eventID
  acked : ∀ e ∈ sys.acked, e ∈ log ∧ e.controlVersion ≤ sys.runtime.stored

/-- The feed keeps its contract: a poll offers events of the log in ascending order, and all of them
between the place it was asked from and the last it offers. -/
def Offered (log : List Event) (sys : System T A) : Step → Prop
  | .poll failed (.ok events) =>
    Offers Event.controlVersion log (readCursor sys.runtime failed) events
  | _ => True

def CursorRead (sys : System T A) : Step → Prop
  | .poll (some _) _ => sys.runtime.cursor = none
  | _ => True

structure Behind (node : Node T A) (log : List Event) (base : Tables T) (rt : Runtime T) :
    Prop where
  tables : Replay node [] (upTo Event.controlVersion rt.stored log) base rt.tables
  records : ∀ id, rt.Records id ↔ ∃ e ∈ upTo Event.controlVersion rt.stored log, e.eventID = id

theorem Settles.stored (h : Settles node ev rt rt') : rt'.stored = ev.controlVersion := by
  rw [Runtime.stored, h.cursor, Option.getD_some]

theorem Behind.settles (h : Behind node log base rt) (hlog : Ascending Event.controlVersion log)
    {rest : List Event} (hoffers : Offers Event.controlVersion log rt.stored (ev :: rest))
    (hahead : rt.stored < ev.controlVersion) (hsettles : Settles node ev rt rt') :
    Behind node log base rt' := by
  have hnext := upTo_next hlog (hoffers.mem ev List.mem_cons_self) hahead fun y hy =>
    hoffers.next hy
  have hknown : (∃ e ∈ upTo Event.controlVersion rt.stored log, e.eventID = ev.eventID) ↔
      rt.Records ev.eventID := (h.records ev.eventID).symm
  refine ⟨?_, fun id => ?_⟩
  · rw [hsettles.stored, hnext, replay_concat]
    refine ⟨rt.tables, h.tables, ?_⟩
    split
    · next hin => exact hsettles.known (hknown.mp (hin.resolve_left List.not_mem_nil))
    · next hnot => exact hsettles.new fun hrec => hnot (.inr (hknown.mpr hrec))
  · rw [hsettles.records, h.records, hsettles.stored, hnext]
    simp [or_and_right, exists_or]

def HeadOk (node : Node T A) (rt : Runtime T) (ev : Event) : Stage → Prop
  | .apply => True
  | .advance => rt.stored < ev.controlVersion ∧ ∀ t, Effect node ev t t
  | .ack => ev.controlVersion ≤ rt.stored

structure PassOk (node : Node T A) (log : List Event) (rt : Runtime T) (p : Pass) : Prop where
  cursor : p.cursor = rt.stored
  offers : Offers Event.controlVersion log rt.stored p.rest
  head : ∀ ev rest, p.rest = ev :: rest → HeadOk node rt ev p.stage

structure Inv (node : Node T A) (log : List Event) (base : Tables T) (sys : System T A) : Prop where
  behind : Behind node log base sys.runtime
  pass : ∀ p, sys.pass = some p → PassOk node log sys.runtime p
  acked : ∀ e ∈ sys.acked, e ∈ log ∧ e.controlVersion ≤ sys.runtime.stored

theorem Inv.exactlyOnce (h : Inv node log base sys) : ExactlyOnce node log base sys where
  tables := h.behind.tables
  recorded e he hle := (h.behind.records _).mpr ⟨e, mem_upTo.mpr ⟨he, hle⟩, rfl⟩
  acked := h.acked

theorem Inv.lose (h : Inv node log base sys) : Inv node log base { sys with pass := none } where
  behind := h.behind
  pass := fun p hp => by cases hp
  acked := h.acked

theorem Inv.take (h : Inv node log base sys) {p : Pass} (hp : PassOk node log sys.runtime p)
    (a : A) :
    Inv node log base { sys with auth := a, pass := some p } where
  behind := h.behind
  pass := fun q hq => by
    cases hq
    exact hp
  acked := h.acked

theorem PassOk.head_of {cursor : Nat} {rest : List Event} {stage : Stage}
    (hp : PassOk node log rt ⟨cursor, ev :: rest, stage⟩) (stage' : Stage)
    (hhead : HeadOk node rt ev stage') :
    PassOk node log rt ⟨cursor, ev :: rest, stage'⟩ where
  cursor := hp.cursor
  offers := hp.offers
  head := by
    rintro e es ⟨⟩
    exact hhead

theorem Inv.settle (h : Inv node log base sys) (hlog : Ascending Event.controlVersion log)
    {rest : List Event} (hoffers : Offers Event.controlVersion log sys.runtime.stored (ev :: rest))
    (hahead : sys.runtime.stored < ev.controlVersion) (hsettles : Settles node ev sys.runtime rt') :
    Inv node log base
      { sys with runtime := rt', pass := some ⟨ev.controlVersion, ev :: rest, .ack⟩ } where
  behind := h.behind.settles hlog hoffers hahead hsettles
  pass p hp := by
    cases hp
    refine ⟨hsettles.stored.symm, ?_, ?_⟩
    · rw [hsettles.stored]
      exact hoffers.mono (Nat.le_of_lt hahead)
    · rintro e es ⟨⟩
      exact Nat.le_of_eq hsettles.stored.symm
  acked e he := by
    rw [hsettles.stored]
    exact (h.acked e he).imp_right fun hle => Nat.le_of_lt (Nat.lt_of_le_of_lt hle hahead)

theorem inv_apply (h : Inv node log base sys) (hlog : Ascending Event.controlVersion log)
    {cursor : Nat} {rest : List Event}
    (hpass : PassOk node log sys.runtime ⟨cursor, ev :: rest, .apply⟩) (d : Draw) :
    Inv node log base
      (sys.applied cursor ev rest (applyOne node sys.runtime sys.auth ev cursor d)) := by
  have hcursor : cursor = sys.runtime.stored := hpass.cursor
  cases hout : applyOne node sys.runtime sys.auth ev cursor d with
  | error err => exact h.lose
  | ok out =>
    cases comesTo_applyOne hout with
    | skipped hold =>
      rw [hcursor] at hold
      exact h.take (hpass.head_of .ack hold) _
    | runtime hahead hsettles => exact h.settle hlog hpass.offers (hcursor ▸ hahead) hsettles
    | auth hahead heffect =>
      exact h.take (hpass.head_of .advance ⟨hcursor ▸ hahead, heffect⟩) _

theorem inv_advance (h : Inv node log base sys) (hlog : Ascending Event.controlVersion log)
    {cursor : Nat} {rest : List Event}
    (hpass : PassOk node log sys.runtime ⟨cursor, ev :: rest, .advance⟩) (now : String)
    (tx : Option String) :
    Inv node log base (sys.applied cursor ev rest
      ((advanceCursorAndMark sys.runtime ev now tx).map Outcome.runtime)) := by
  obtain ⟨hahead, heffect⟩ := hpass.head ev rest rfl
  cases hout : advanceCursorAndMark sys.runtime ev now tx with
  | error err => exact h.lose
  | ok rt' => exact h.settle hlog hpass.offers hahead (settles_advance hout fun _ => heffect _)

theorem inv_next {step : Step} (h : Inv node log base sys)
    (hlog : Ascending Event.controlVersion log) (hoffered : Offered log sys step)
    (hread : CursorRead sys step) (hnext : sys.next node step = some sys') :
      Inv node log base sys' := by
  cases step with
  | poll failed polled =>
    cases hpass : sys.pass with
    | some p => simp [System.next, hpass] at hnext
    | none =>
      cases polled with
      | error err =>
        simp only [System.next, hpass, Option.some.injEq] at hnext
        exact hnext ▸ h
      | ok events =>
        simp only [System.next, hpass, Option.some.injEq] at hnext
        subst hnext
        have hcursor : readCursor sys.runtime failed = sys.runtime.stored := by
          cases failed with
          | some err => rw [readCursor, Runtime.stored, hread, Option.getD_none]
          | none => rfl
        refine h.take (p := ⟨_, events, .apply⟩) ⟨hcursor, ?_, fun _ _ _ => trivial⟩ _
        rw [← hcursor]
        exact hoffered
  | apply d =>
    rw [System.next] at hnext
    split at hnext
    · cases hnext
      exact h.lose
    · next hpass =>
      cases hnext
      exact inv_apply h hlog (h.pass _ hpass) d
    · cases hnext
  | advance now tx =>
    rw [System.next] at hnext
    split at hnext
    · next hpass =>
      cases hnext
      exact inv_advance h hlog (h.pass _ hpass) now tx
    · cases hnext
  | ack failed =>
    rw [System.next] at hnext
    split at hnext
    · next cursor ev rest hpass =>
      cases hnext
      have hold := h.pass _ hpass
      have hhead : ev.controlVersion ≤ sys.runtime.stored := hold.head ev rest rfl
      have htaken := h.take (p := ⟨cursor, rest, .apply⟩)
        ⟨hold.cursor, hold.offers.tail hhead, fun _ _ _ => trivial⟩ sys.auth
      refine ⟨htaken.behind, htaken.pass, fun e he => ?_⟩
      split at he
      · rcases List.mem_append.mp he with he | he
        · exact h.acked e he
        · rw [List.mem_singleton.mp he]
          exact ⟨hold.offers.mem ev List.mem_cons_self, hhead⟩
      · exact h.acked e he
    · cases hnext
  | crash =>
    cases hnext
    exact h.lose

/-- A node that has applied nothing yet. -/
def System.fresh (base : Tables T) (a : A) : System T A :=
  ⟨⟨none, [], base⟩, a, none, []⟩

theorem inv_fresh (hlog : ∀ e ∈ log, 0 < e.controlVersion) (a : A) :
    Inv node log base (System.fresh base a) where
  behind := by
    have hnone : upTo Event.controlVersion 0 log = [] := upTo_before hlog
    refine ⟨?_, fun id => ?_⟩
    · change Replay node [] (upTo Event.controlVersion 0 log) base base
      rw [hnone]
      exact rfl
    · change Runtime.Records _ id ↔ ∃ e ∈ upTo Event.controlVersion 0 log, e.eventID = id
      rw [hnone]
      simp [System.fresh, Runtime.Records]
  pass p hp := by cases hp
  acked e he := by cases he

/-- As long as no poll fails to read a cursor that is there, every commit of every run leaves the
events up to the cursor applied, in order and once each. -/
theorem exactlyOnce_along (node : Node T A) {log : List Event} (base : Tables T) (a : A)
    (hlog : Ascending Event.controlVersion log) (hpos : ∀ e ∈ log, 0 < e.controlVersion)
    {steps : List Step}
    (hsteps : Along (System.next node) (fun sys step => Offered log sys step ∧ CursorRead sys step)
      (System.fresh base a) steps) :
    Along (System.next node) (fun sys step => ∀ sys', sys.next node step = some sys' →
      ExactlyOnce node log base sys') (System.fresh base a) steps := by
  refine Along.of_invariant (I := Inv node log base) ?_ ?_ (inv_fresh hpos a) hsteps
  · exact fun sys step sys' h hstep hnext => inv_next h hlog hstep.1 hstep.2 hnext
  · exact fun sys step h hstep sys' hnext => (inv_next h hlog hstep.1 hstep.2 hnext).exactlyOnce

end Runs

section Tenants

/-- The artifact of a new tenant, its meaning and its hash. -/
def tenantBytes (id : String) : Bytes :=
  ("\x7b\"db\":\"runtime\",\"table\":\"tenants\",\"op\":\"upsert\",\"pk\":[\"tenant_id\"],\"rows\":[\x7b\"tenant_id\":\"" ++
    id ++ "\"\x7d]\x7d").toUTF8.toList

def tenantRows (id : String) : RowsArtifact :=
  ⟨"runtime", "tenants", "upsert", ["tenant_id"], [[("tenant_id", .text id)]]⟩

def tenantHash : String → String
  | "t1" => "2960f154a4fc614f20477d48da333808a7cf5705315b2598652f4730a3f2c350"
  | _ => "73a750c2eaead01e70e0631771c8ad585fc9f433630390cf4259b5b2d6f1c883"

/-- A node with the one table `tenants`, keyed by its first column. -/
def tenantNode : Node (List Row) Unit where
  sha256Hex b := if b = tenantBytes "t1" then tenantHash "t1"
    else if b = tenantBytes "t2" then tenantHash "t2" else ""
  decodeStack _ := .error "unexpected end of JSON input"
  decodeRows b := if b = tenantBytes "t1" then .ok (tenantRows "t1")
    else if b = tenantBytes "t2" then .ok (tenantRows "t2")
      else .error "unexpected end of JSON input"
  decodeAbort _ := .error "unexpected end of JSON input"
  decodeB64 _ := none
  hasTable _ table := table == "tenants"
  exec stmt rows := match stmt with
    | .replace _ row => .ok (rows.filter (fun r => r.head? != row.head?) ++ [row])
    | .delete _ conds => .ok (rows.filter fun r => !conds.all r.contains)
  authHasTable _ _ := false
  authExec := none
  authPostgres := false
  applyStackVersion _ _ _ _ t := .ok t
  ackable := true

def tenantEvent (id : String) (cv : Nat) : Event :=
  ⟨"evt_" ++ id, .tenantCreated, id, "", 0, "artifacts/" ++ id, "sha256:" ++ tenantHash id, cv⟩

def tenantLog : List Event := [tenantEvent "t1" 1, tenantEvent "t2" 2]

def noTables : Tables (List Row) := ⟨[], [], [], []⟩

def tenantDraw (artifact : Except String Bytes) : Draw :=
  ⟨none, artifact, none, "2026-01-01T00:00:00.000Z", "stk_1", 1, none⟩

/-- A pass lost after its first commit, one halted at the second event, and one that gets
through. -/
def threePasses : List Step :=
  [.poll none (.ok tenantLog), .apply (tenantDraw (.ok (tenantBytes "t1"))), .crash,
    .poll none (.ok tenantLog), .apply (tenantDraw (.error "timeout")), .ack false,
    .apply (tenantDraw (.error "timeout")), .poll none (.ok [tenantEvent "t2" 2]),
    .apply (tenantDraw (.ok (tenantBytes "t2"))), .ack false]

instance (log : List Event) (sys : System T A) (step : Step) : Decidable (Offered log sys step) :=
  match step with
  | .poll _ (.ok _) => inferInstanceAs (Decidable (Offers _ _ _ _))
  | .poll _ (.error _) | .apply _ | .advance _ _ | .ack _ | .crash => .isTrue trivial

instance [DecidableEq T] (sys : System T A) (step : Step) : Decidable (CursorRead sys step) :=
  match step with
  | .poll (some _) _ => inferInstanceAs (Decidable (_ = none))
  | .poll none _ | .apply _ | .advance _ _ | .ack _ | .crash => .isTrue trivial

theorem exactlyOnce_threePasses :
    Along (System.next tenantNode) (fun sys step => ∀ sys', sys.next tenantNode step = some sys' →
      ExactlyOnce tenantNode tenantLog noTables sys') (System.fresh noTables ()) threePasses :=
  exactlyOnce_along tenantNode noTables () (by decide +kernel) (by decide +kernel)
    (by decide +kernel)

/-- Two events applied in one pass, and a pass that fails to read where it stands. -/
def failedRead : List Step :=
  [.poll none (.ok tenantLog), .apply (tenantDraw (.ok (tenantBytes "t1"))), .ack false,
    .apply (tenantDraw (.ok (tenantBytes "t2"))), .ack false, .crash,
    .poll (some "database is locked") (.ok tenantLog), .apply (tenantDraw (.ok (tenantBytes "t1")))]

theorem fetch_t1 {d : Draw} {data : Bytes}
    (h : fetch tenantNode (tenantEvent "t1" 1) d = .ok data) : data = tenantBytes "t1" := by
  rw [fetch, if_neg (by decide)] at h
  split at h
  · cases h
  split at h
  · next b _ hseal =>
    cases h
    by_contra hb
    revert hseal
    simp only [tenantNode, if_neg hb]
    split
    · decide
    · decide
  · cases h

theorem decodeRows_t1 : tenantNode.decodeRows (tenantBytes "t1") = .ok (tenantRows "t1") :=
  if_pos rfl

theorem effect_t1 {u : Tables (List Row)} (h : Effect tenantNode (tenantEvent "t1" 1) noTables u) :
    u = { noTables with rest := [[("tenant_id", .text "t1")]] } := by
  cases h with
  | stackActivated htype => cases htype
  | systemOpstack htype => cases htype
  | runAbort htype => cases htype
  | rows htype hfetch hdecode hallowed hdb htable happly =>
    rw [fetch_t1 hfetch, decodeRows_t1] at hdecode
    cases hdecode
    cases happly
    rfl
  | absent htype hfetch hdecode hallowed hdb htable =>
    rw [fetch_t1 hfetch, decodeRows_t1] at hdecode
    cases hdecode
    cases htable
  | auth htype hfetch hdecode hallowed hdb =>
    rw [fetch_t1 hfetch, decodeRows_t1] at hdecode
    cases hdecode
    exact absurd rfl hdb

/-- The pass that takes the cursor for 0 is offered the log from the start and moves the stored
cursor back to the first event, under the tables of both. -/
theorem not_exactlyOnce_failedRead :
    Along (System.next tenantNode) (fun sys step => Offered tenantLog sys step)
      (System.fresh noTables ()) failedRead ∧
    ¬ Along (System.next tenantNode) (fun sys step => ∀ sys', sys.next tenantNode step = some sys' →
      ExactlyOnce tenantNode tenantLog noTables sys') (System.fresh noTables ()) failedRead := by
  refine ⟨by decide +kernel, fun h => ?_⟩
  have hend :
    ((failedRead.foldlM (System.next tenantNode) (System.fresh noTables ())).any fun sys =>
      sys.runtime.stored == 1 && sys.runtime.tables.rest.length == 2) = true := by decide +kernel
  obtain ⟨sys, hsys, hend⟩ := (Option.any_eq_true _ _).mp hend
  rw [Bool.and_eq_true, beq_iff_eq, beq_iff_eq] at hend
  obtain ⟨hcursor, hrest⟩ := hend
  change Along _ _ _ (failedRead.dropLast ++ [_]) at h
  obtain ⟨before, -, hnext, hlast⟩ := h.last hsys
  have hlast := (hlast sys hnext).tables
  rw [hcursor] at hlast
  obtain ⟨u, hu, heq⟩ := hlast
  rw [heq, effect_t1 hu] at hrest
  cases hrest

end Tenants

end ThanksComputer.Control
