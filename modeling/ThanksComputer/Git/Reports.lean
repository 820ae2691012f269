import ThanksComputer.Git.Refs
import ThanksComputer.Lib.Checks

/-! What a push reports.  The texts of the head never read "ok"; a stack's own text may. -/

namespace ThanksComputer.Git

open Net Guard Lib Lib.Runs
open Lib.Checks (mapM_error)

section Lines

def Telling (ch : Char) : Prop :=
  0x21 ≤ ch.toNat ∧ ch.toNat < 0x7f ∧ ch ≠ 'o' ∧ ch ≠ 'k'

instance (ch : Char) : Decidable (Telling ch) :=
  inferInstanceAs (Decidable (_ ∧ _ ∧ _ ∧ _))

theorem utf8EncodeChar_of_lt {ch : Char} (h : ch.toNat < 0x7f) :
    String.utf8EncodeChar ch = [ch.val.toUInt8] := by
  have hval : ch.val ≤ 0x7f := UInt32.le_iff_toNat_le.mpr (Nat.le_of_lt h)
  exact String.utf8EncodeChar_eq_singleton (if_pos hval)

theorem eq_of_toUInt8 {ch ch' : Char} (h : ch.toNat < 0x7f) (h' : ch'.toNat < 0x7f)
    (heq : ch.val.toUInt8 = ch'.val.toUInt8) : ch = ch' := by
  have hnat := congrArg UInt8.toNat heq
  rw [UInt32.toNat_toUInt8, UInt32.toNat_toUInt8, Char.toNat_val, Char.toNat_val] at hnat
  exact Char.toNat_inj.mp (by omega)

theorem oneLine_ne_ok {s : Str} {ch : Char} (hmem : ch ∈ s) (h : Telling ch) :
    oneLine s ≠ utf8 okText := by
  obtain ⟨hlow, hhigh, ho, hk⟩ := h
  intro heq
  have hspace : isSpace ch = false := by
    rw [Bool.eq_false_iff]
    intro hs
    have hrange := isSpace_range hs
    omega
  have hmapped : ch ∈ s.map fun c => if c.toNat < 0x20 ∨ c.toNat = 0x7f then ' ' else c :=
    List.mem_map.mpr ⟨ch, hmem, if_neg (by omega)⟩
  have hbyte : ch.val.toUInt8 ∈ utf8 (trimSpace
      (s.map fun c => if c.toNat < 0x20 ∨ c.toNat = 0x7f then ' ' else c)) := by
    refine List.mem_flatMap.mpr ⟨ch, mem_trimSpace hmapped hspace, ?_⟩
    rw [utf8EncodeChar_of_lt hhigh]
    exact List.mem_singleton_self _
  rw [oneLine] at heq
  split at heq
  · exact absurd heq (by decide)
  -- the line is two bytes long, so nothing of it was cut off
  have hlength := congrArg List.length heq
  have htwo : (utf8 okText).length = 2 := rfl
  rw [htwo, List.length_take] at hlength
  rw [List.take_of_length_le (by omega)] at heq
  rw [heq] at hbyte
  have hok : utf8 okText = ['o'.val.toUInt8, 'k'.val.toUInt8] := rfl
  rw [hok, List.mem_cons, List.mem_singleton] at hbyte
  rcases hbyte with hbyte | hbyte
  · exact ho (eq_of_toUInt8 hhigh (by decide) hbyte)
  · exact hk (eq_of_toUInt8 hhigh (by decide) hbyte)

theorem mem_toList {ch : Char} {s : List Char} (h : ch ∈ s) : ch ∈ (String.ofList s).toList := by
  rwa [String.toList_ofList]

theorem Refusal.oneLine_text_ne (why : Refusal) (h : ∀ msg, why ≠ .declined msg) :
    oneLine why.text ≠ utf8 okText := by
  have htelling : ∃ ch ∈ why.text, Telling ch := by
    cases why with
    | invalidCommand => exact ⟨'i', mem_toList (by decide), by decide⟩
    | applicationRef => exact ⟨'r', mem_toList (by decide), by decide⟩
    | notABranch => exact ⟨'n', mem_toList (by decide), by decide⟩
    | nameTooLong => exact ⟨'r', mem_toList (by decide), by decide⟩
    | notPrintable => exact ⟨'r', mem_toList (by decide), by decide⟩
    | invalidName => exact ⟨'i', mem_toList (by decide), by decide⟩
    | defaultBranch => exact ⟨'t', mem_toList (by decide), by decide⟩
    | missingObjects => exact ⟨'m', mem_toList (by decide), by decide⟩
    | notACommit short => exact ⟨'m', List.mem_append_right _ (mem_toList (by decide)), by decide⟩
    | unreadableTree => exact ⟨'u', mem_toList (by decide), by decide⟩
    | noDiff => exact ⟨'c', mem_toList (by decide), by decide⟩
    | symlink path => exact ⟨'i', List.mem_append_right _ (mem_toList (by decide)), by decide⟩
    | executable path => exact ⟨'i', List.mem_append_right _ (mem_toList (by decide)), by decide⟩
    | submodule path => exact ⟨'i', List.mem_append_right _ (mem_toList (by decide)), by decide⟩
    | tooLarge path size cap =>
      exact ⟨'b',
        List.mem_append_left _ (List.mem_append_right _ (mem_toList (by decide))), by decide⟩
    | unreadable path => exact ⟨'c', List.mem_append_right _ (mem_toList (by decide)), by decide⟩
    | notText path => exact ⟨'i', List.mem_append_right _ (mem_toList (by decide)), by decide⟩
    | unpackFailed => exact ⟨'u', mem_toList (by decide), by decide⟩
    | atomic => exact ⟨'a', mem_toList (by decide), by decide⟩
    | refMoved expected current =>
      have hmem : 'r' ∈ "ref moved: expected ".toList := mem_toList (by decide)
      exact ⟨'r',
        List.mem_append_left _ (List.mem_append_left _ (List.mem_append_left _ hmem)), by decide⟩
    | declined msg => exact absurd rfl (h msg)
  obtain ⟨ch, hmem, hch⟩ := htelling
  exact oneLine_ne_ok hmem hch

end Lines

section Fair

variable {G : GoGit} {L : Limits} {db : Db} {p : Push} {input : Input} {e : Effect}

def Fair (p : Push) : Prop :=
  ∀ r ∈ p.refused, oneLine r.2.text ≠ utf8 okText

theorem Fair.refuse (h : Fair p) (name : Str) {why : Refusal}
    (hwhy : oneLine why.text ≠ utf8 okText) :
    Fair (p.refuse name why) := by
  rw [Push.refuse]
  split
  · exact h
  · intro r hr
    rcases List.mem_append.mp hr with hr | hr
    · exact h r hr
    · rw [List.mem_singleton.mp hr]
      exact hwhy

theorem fair_foldl {f : Push → Command → Push} (hf : ∀ p cmd, Fair p → Fair (f p cmd))
    (cmds : List Command) (h : Fair p) : Fair (cmds.foldl f p) := by
  induction cmds generalizing p with
  | nil => exact h
  | cons cmd cmds ih => exact ih (hf p cmd h)

theorem Fair.refuseRest (h : Fair p) {why : Refusal} (hwhy : oneLine why.text ≠ utf8 okText) :
    Fair (p.refuseRest why) :=
  fair_foldl (fun _ cmd hp => hp.refuse cmd.name hwhy) p.commands h

theorem checkCommand_ne {repo : Repo} {cmd : Command} {why : Refusal}
    (h : checkCommand G repo cmd = some why) (msg : Str) : why ≠ .declined msg := by
  rintro rfl
  rw [checkCommand] at h
  repeat' split at h
  all_goals cases h

theorem checkFile_ne {policy : ContentPolicy} {has : Oid → Bool} {op : Op} {f : File}
    {why : Refusal} (h : checkFile G L policy has op f = .error why) (msg : Str) :
      why ≠ .declined msg := by
  rintro rfl
  rw [checkFile] at h
  repeat' split at h
  all_goals cases h

theorem changeOf_ne {policy : ContentPolicy} {has : Oid → Bool} {d : TreeChange} {why : Refusal}
    (h : changeOf G L policy has d = .error why) (msg : Str) : why ≠ .declined msg := by
  rw [changeOf] at h
  split at h
  · cases h
    exact nofun
  · cases h
  · exact checkFile_ne h msg
  · exact checkFile_ne h msg

theorem newTree_ne {has : Oid → Bool} {cmd : Command} {why : Refusal}
    (h : newTree G has cmd = .error why) (msg : Str) : why ≠ .declined msg := by
  rintro rfl
  rw [newTree] at h
  repeat' split at h
  all_goals cases h

inductive Inspection (G : GoGit) (L : Limits) (policy : ContentPolicy) (has : Oid → Bool)
    (cmd : Command) :
    Except Refusal Inspected → Prop
  | noTree (why : Refusal) :
    newTree G has cmd = .error why → Inspection G L policy has cmd (.error why)
  | noDiff : Inspection G L policy has cmd (.error .noDiff)
  | refused (ds : List TreeChange) (why : Refusal) : ds.mapM (changeOf G L policy has) =
    .error why →
      Inspection G L policy has cmd (.error why)
  | clean (new : Oid) (ds : List TreeChange) (changes : List Change) : newTree G has cmd = .ok new →
      G.diffTree has (oldTree G has cmd) new = some ds →
      ds.mapM (changeOf G L policy has) = .ok changes →
      Inspection G L policy has cmd (.ok ⟨oldTree G has cmd, changes⟩)

theorem inspection (policy : ContentPolicy) (has : Oid → Bool) (cmd : Command) :
    Inspection G L policy has cmd (inspect G L policy has cmd) := by
  rw [inspect]
  cases hnew : newTree G has cmd with
  | error why => exact .noTree why hnew
  | ok new =>
    cases hdiff : G.diffTree has (oldTree G has cmd) new with
    | none =>
      simp only [bind, Except.bind, hdiff]
      exact .noDiff
    | some ds =>
      cases hmap : ds.mapM (changeOf G L policy has) with
      | error why =>
        simp only [bind, Except.bind, hdiff, hmap]
        exact .refused ds why hmap
      | ok changes =>
        simp only [bind, Except.bind, hdiff, hmap]
        exact .clean new ds changes hnew hdiff hmap

theorem inspect_ne {policy : ContentPolicy} {has : Oid → Bool} {cmd : Command} {why : Refusal}
    (h : inspect G L policy has cmd = .error why) (msg : Str) : why ≠ .declined msg := by
  cases h ▸ inspection (L := L) policy has cmd with
  | noTree _ hnew => exact newTree_ne hnew msg
  | noDiff =>
    intro heq
    cases heq
  | refused ds _ hds =>
    obtain ⟨d, -, hd⟩ := mapM_error hds
    exact changeOf_ne hd msg

theorem oneLine_unpackFailed : oneLine Refusal.unpackFailed.text ≠ utf8 okText :=
  Refusal.oneLine_text_ne .unpackFailed fun _ => Refusal.noConfusion

theorem oneLine_atomic : oneLine Refusal.atomic.text ≠ utf8 okText :=
  Refusal.oneLine_text_ne .atomic fun _ => Refusal.noConfusion

theorem oneLine_refMoved (expected current : Str) :
    oneLine (Refusal.refMoved expected current).text ≠ utf8 okText :=
  Refusal.oneLine_text_ne (.refMoved expected current) fun _ => Refusal.noConfusion

theorem oneLine_missingObjects : oneLine Refusal.missingObjects.text ≠ utf8 okText :=
  Refusal.oneLine_text_ne .missingObjects fun _ => Refusal.noConfusion

theorem Fair.checkCommands (h : Fair p) : Fair (p.checkCommands G) := by
  refine fair_foldl (fun p cmd hp => ?_) p.commands h
  split
  · exact hp
  · next why hwhy => exact hp.refuse cmd.name (why.oneLine_text_ne (checkCommand_ne hwhy))

theorem Fair.walk (h : Fair p) (has : Oid → Bool) (todo : List Command) :
    Fair (p.walk G has todo) := by
  cases todo with
  | nil =>
    rw [Push.walk]
    dsimp only
    split
    · exact Fair.refuseRest (p := { p with phase := .walked }) h oneLine_unpackFailed
    split
    · exact Fair.refuseRest (p := { p with phase := .walked }) h oneLine_atomic
    · exact h
  | cons cmd todo =>
    rw [Push.walk]
    split
    · exact h
    split
    · exact h.refuse cmd.name oneLine_missingObjects
    · exact h

theorem Fair.step (h : Fair p) (hstep : Stepped G L db p input e)
    (hheard : ∀ a, input = .ask a → p.asks = true → a.answer.ok = false →
      oneLine a.answer.msg ≠ utf8 okText) : Fair e.push := by
  cases hstep with
  | refs => exact h.checkCommands
  | receive pack => exact h
  | walk lost todo => exact h.walk _ _
  | inspect lost cmd todo =>
    dsimp only
    rw [Push.look]
    split
    · next why hwhy => exact h.refuse cmd.name (why.oneLine_text_ne (inspect_ne hwhy))
    · exact h
  | keep fault =>
    dsimp only
    rw [Push.keep]
    split
    · split
      · exact h
      · next text _ => exact Fair.refuseRest (p := { p with unpack := text }) h oneLine_unpackFailed
    · exact h
  | ask a =>
    dsimp only
    rw [Push.hear]
    split
    · next hasks =>
      rw [Bool.and_eq_true, Bool.not_eq_true'] at hasks
      exact h.refuseRest (hheard a rfl hasks.1 hasks.2)
    · exact h
  | update fault =>
    rw [Push.update]
    split
    · exact h
    split
    · exact h.refuseRest oneLine_atomic
    split
    · exact h
    · next err _ =>
      exact (h.refuse err.name (oneLine_refMoved _ _)).refuseRest oneLine_atomic

end Fair

section Exact

variable {G : GoGit} {L : Limits} {w w' : World}

def World.MovedAll (w : World) (i : Nat) (p : Push) : Prop :=
  ∀ cmd ∈ p.commands, (i, cmd) ∈ w.history

/-- A report says ok for a command exactly if the push moved all its refs. -/
def ReportsExact (w : World) : Prop :=
  ∀ i p, w.pushes[i]? = some p → ∀ report ∈ p.report, ∀ s ∈ report.commandStatuses,
    s.status = utf8 okText ↔ w.MovedAll i p

/-- No stack that is asked refuses a push with a text that reads "ok". -/
def HeardPlainly (w : World) : Event → Prop
  | .step i (.ask a) => ∀ p ∈ w.pushes[i]?, p.asks = true → a.answer.ok = false →
    oneLine a.answer.msg ≠ utf8 okText
  | _ => True

theorem fair_next (h : ∀ p ∈ w.pushes, Fair p) {event : Event} (hheard : HeardPlainly w event)
    (hnext : w.next G L event = some w') : ∀ p ∈ w'.pushes, Fair p := by
  cases event with
  | create r =>
    cases hnext
    exact h
  | remove id =>
    obtain ⟨db, -, rfl⟩ := Option.map_eq_some_iff.mp hnext
    exact h
  | openPush tenant name principal credential commands reportStatus =>
    obtain ⟨repo, -, rfl⟩ := Option.map_eq_some_iff.mp hnext
    intro p hp
    rcases List.mem_append.mp hp with hp | hp
    · exact h p hp
    · rw [List.mem_singleton.mp hp]
      exact fun r hr => absurd hr List.not_mem_nil
  | step i input =>
    obtain ⟨p, hi, hnext⟩ := Option.bind_eq_some_iff.mp hnext
    obtain ⟨e, he, hnext⟩ := Option.bind_eq_some_iff.mp hnext
    cases hnext
    intro q hq
    rcases List.mem_or_eq_of_mem_set hq with hq | rfl
    · exact h q hq
    · refine (h p (List.mem_of_getElem? hi)).step (stepped_of_step he) fun a ha => ?_
      subst ha
      exact hheard p hi

theorem exists_refused {p : Push} {name : Str} (h : p.isRefused name = true) :
    ∃ why, (name, why) ∈ p.refused ∧ p.refused.lookup name = some why := by
  rw [Push.isRefused, Option.isSome_iff_exists] at h
  obtain ⟨why, hwhy⟩ := h
  exact ⟨why, Assoc.mem_of_lookup hwhy, hwhy⟩

theorem Push.status_of_lookup {p : Push} {name : Str} {why : Refusal}
    (h : p.refused.lookup name = some why) :
    p.status name = oneLine why.text := by
  rw [Push.status, h]

theorem WorldOk.reportsExact (h : WorldOk G w) (hfair : ∀ p ∈ w.pushes, Fair p) :
    ReportsExact w := by
  intro i p hi report hreport s hs
  have hdecided := (h.pushes p (List.mem_of_getElem? hi)).decided
  have hmoves := h.history.moves i p hi
  rw [Push.report] at hreport
  split at hreport
  swap
  · cases hreport
  next moved hphase _ =>
  cases hreport
  obtain ⟨cmd, hcmd, rfl⟩ := List.mem_map.mp hs
  rw [Decided, hphase] at hdecided
  rw [hphase] at hmoves
  cases moved with
  | true =>
    rw [if_pos rfl] at hmoves
    have hstatus : p.status cmd.name = utf8 okText := by
      rw [Push.status, hdecided]
      rfl
    refine iff_of_true hstatus fun c hc => ?_
    rw [← hmoves] at hc
    obtain ⟨m, hm, rfl⟩ := List.mem_map.mp hc
    obtain ⟨hm, hpush⟩ := List.mem_filter.mp hm
    rw [← beq_iff_eq.mp hpush]
    exact hm
  | false =>
    have hundone : Phase.done false ≠ .done true := by
      intro heq
      cases heq
    rw [if_neg hundone] at hmoves
    obtain ⟨why, hmem, hlookup⟩ := exists_refused (hdecided cmd hcmd)
    have hstatus : p.status cmd.name ≠ utf8 okText := by
      rw [Push.status_of_lookup hlookup]
      exact hfair p (List.mem_of_getElem? hi) (cmd.name, why) hmem
    refine iff_of_false hstatus fun hall => ?_
    have hmoved : cmd ∈ w.movesOf i := List.mem_map.mpr
      ⟨(i, cmd), List.mem_filter.mpr ⟨hall cmd hcmd, beq_self_eq_true i⟩, rfl⟩
    rw [hmoves] at hmoved
    exact List.not_mem_nil hmoved

/-- In every order of the steps of pushes, refs are chained and complete; and reports are exact, as
long as no stack refuses with a text that reads "ok". -/
theorem pushesSound_along (G : GoGit) (L : Limits) {events : List Event}
    (hheard : Along (World.next G L) HeardPlainly .start events) :
    Along (World.next G L) (fun w event => ∀ w' ∈ w.next G L event,
      RefsChained w'.db ∧ RefsComplete G w'.db ∧ ReportsExact w') .start events := by
  refine Along.of_invariant (I := fun w => WorldOk G w ∧ ∀ p ∈ w.pushes, Fair p) ?_ ?_
    ⟨worldOk_start, fun p hp => absurd hp List.not_mem_nil⟩ hheard
  · exact fun w event w' hw hevent hnext => ⟨hw.1.next hnext, fair_next hw.2 hevent hnext⟩
  · intro w event hw hevent w' hnext
    have hok := hw.1.next hnext
    exact ⟨fun repo _ name => hok.db.chained repo.id name, hok.db.complete,
      hok.reportsExact (fair_next hw.2 hevent hnext)⟩

instance (w : World) (event : Event) : Decidable (HeardPlainly w event) :=
  match event with
  | .step i (.ask a) => inferInstanceAs (Decidable (∀ p ∈ w.pushes[i]?, p.asks = true →
      a.answer.ok = false → oneLine a.answer.msg ≠ utf8 okText))
  | .create _ | .remove _ | .openPush _ _ _ _ _ _ | .step _ .refs | .step _ (.receive _)
  | .step _ (.walk _) | .step _ (.inspect _) | .step _ (.keep _) | .step _ (.update _) =>
    .isTrue trivial

instance (w : World) (i : Nat) (p : Push) : Decidable (w.MovedAll i p) :=
  inferInstanceAs (Decidable (∀ cmd ∈ p.commands, (i, cmd) ∈ w.history))

/-- No caps, and text only. -/
def sampleLimits : Limits :=
  ⟨0, 0, 0, 0, true⟩

def createSite : Event :=
  .create ⟨"acme".toList, "site".toList, none, none, none, ⟨0, 0, 0⟩⟩

def mainRef : Str :=
  "refs/heads/main".toList

def pushMain (old new : Oid) : Event :=
  .openPush "acme".toList "site".toList "p1" "c1" [⟨mainRef, old, new⟩] true

/-- A push from its refs to the lane. -/
def deliver (i : Nat) (objects : List Oid) : List Event :=
  [.step i .refs, .step i (.receive (.pack 2 objects.length objects .whole)), .step i (.walk []),
    .step i (.inspect []), .step i (.walk []), .step i (.keep none)]

def acceptedSteps : List Event :=
  [createSite, pushMain 0 3] ++ deliver 0 [1, 2, 3] ++
    [.step 0 (.ask (.response (.res true []))), .step 0 (.update false)]

/-- The stack takes one push and refuses the next, and says so. -/
theorem pushesSound_declined :
    Along (World.next sampleGit sampleLimits)
      (fun w event => ∀ w' ∈ w.next sampleGit sampleLimits event,
      RefsChained w'.db ∧ RefsComplete sampleGit w'.db ∧ ReportsExact w') .start
      (acceptedSteps ++ [pushMain 3 6] ++ deliver 1 [4, 5, 6] ++
        [.step 1 (.ask (.response (.res false "not today".toList))), .step 1 (.update false)]) :=
  pushesSound_along sampleGit sampleLimits (by decide +kernel)

def endOf (events : List Event) : World :=
  (events.foldlM (World.next sampleGit sampleLimits) .start).getD .start

def declinedOk : List Event :=
  [createSite, pushMain 0 3] ++ deliver 0 [1, 2, 3] ++
    [.step 0 (.ask (.response (.res false okText)))]

/-- The stack refuses a push with the message "ok". -/
theorem not_reportsExact_declinedOk :
    ¬ Along (World.next sampleGit sampleLimits) (fun w event =>
      ∀ w' ∈ w.next sampleGit sampleLimits event,
        RefsChained w'.db ∧ RefsComplete sampleGit w'.db ∧ ReportsExact w') .start
      (declinedOk ++ [.step 0 (.update false)]) := by
  intro h
  have hends : (declinedOk ++ [Event.step 0 (.update false)]).foldlM
    (World.next sampleGit sampleLimits)
      .start = some (endOf (declinedOk ++ [.step 0 (.update false)])) := by decide +kernel
  obtain ⟨w, -, hw, hP⟩ := h.last hends
  have hexact := (hP _ hw).2.2
  have hsays : ∃ p ∈ (endOf (declinedOk ++ [.step 0 (.update false)])).pushes[0]?,
    ∃ report ∈ p.report,
      ∃ s ∈ report.commandStatuses, s.status = utf8 okText ∧
        ¬ (endOf (declinedOk ++ [.step 0 (.update false)])).MovedAll 0 p := by decide +kernel
  obtain ⟨p, hp, report, hreport, s, hs, hok, hnot⟩ := hsays
  exact hnot ((hexact 0 p hp report hreport s hs).mp hok)

end Exact

end ThanksComputer.Git
