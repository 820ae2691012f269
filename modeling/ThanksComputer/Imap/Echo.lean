import Mathlib.Data.List.Pairwise
import ThanksComputer.Imap.Generations
import ThanksComputer.Lib.Assoc

/-! Flag writes and their echoes.  A sync reports the flags it finds changed to every session but
the one that is on record as their writer; as long as that one did write them, no session is left
behind. -/

namespace ThanksComputer.Imap

open Lib.Checks Lib.Runs Lib.Table

section Diff

def flagsOf (uid : Nat) : Update → Option (List Name)
  | .flags _ u flags => if u = uid then some flags else none
  | .expunge _ | .numMessages _ => none

def UidsAscend (heads : List MessageHead) : Prop :=
  heads.Pairwise fun a b => a.uid < b.uid

theorem diffLoop_reports {i j : Nat} {old new : List MessageHead} {expunged : List Nat}
    {flags : List Update} (h : diffLoop i j old new = some (expunged, flags)) :
    ∀ u ∈ flags, ∃ seq, ∃ o ∈ old, ∃ fs, u = .flags seq o.uid fs := by
  induction old generalizing i j new expunged flags with
  | nil =>
    cases h
    exact fun u hu => absurd hu List.not_mem_nil
  | cons o old ih =>
    have hlater : ∀ {u}, (∃ seq, ∃ o ∈ old, ∃ fs, u = Update.flags seq o.uid fs) →
        ∃ seq, ∃ o' ∈ o :: old, ∃ fs, u = Update.flags seq o'.uid fs := by
      rintro u ⟨seq, o', ho', fs, rfl⟩
      exact ⟨seq, o', List.mem_cons_of_mem o ho', fs, rfl⟩
    cases new with
    | nil =>
      obtain ⟨⟨e, fs⟩, hrest, heq⟩ := Option.map_eq_some_iff.mp h
      cases heq
      exact fun u hu => hlater (ih hrest u hu)
    | cons n new =>
      rw [diffLoop] at h
      split at h
      · obtain ⟨⟨e, fs⟩, hrest, heq⟩ := Option.map_eq_some_iff.mp h
        cases heq
        exact fun u hu => hlater (ih hrest u hu)
      split at h
      · cases h
      next hlt hgt =>
      have huid : n.uid = o.uid := Nat.le_antisymm (Nat.not_lt.mp hlt) (Nat.not_lt.mp hgt)
      obtain ⟨⟨e, fs⟩, hrest, heq⟩ := Option.map_eq_some_iff.mp h
      cases heq
      intro u hu
      split at hu
      · exact hlater (ih hrest u hu)
      · rcases List.mem_cons.mp hu with rfl | hu
        · exact ⟨j + 1, o, List.mem_cons_self, n.flags, by rw [huid]⟩
        · exact hlater (ih hrest u hu)

theorem diffLoop_silent {i j : Nat} {old new : List MessageHead} {expunged : List Nat}
    {flags : List Update} (h : diffLoop i j old new = some (expunged, flags)) (uid : Nat)
    (hnone : ∀ o ∈ old, o.uid ≠ uid) : flags.filterMap (flagsOf uid) = [] := by
  rw [List.filterMap_eq_nil_iff]
  intro u hu
  obtain ⟨seq, o, ho, fs, rfl⟩ := diffLoop_reports h u hu
  exact if_neg (hnone o ho)

theorem diffLoop_flags {i j : Nat} {old new : List MessageHead} {expunged : List Nat}
    {flags : List Update} (h : diffLoop i j old new = some (expunged, flags))
    (hold : UidsAscend old) (hnew : UidsAscend new) {o n : MessageHead} (ho : o ∈ old)
    (hn : n ∈ new) (huid : o.uid = n.uid) :
    flags.filterMap (flagsOf n.uid) = if n.modseq = o.modseq then [] else [n.flags] := by
  induction old generalizing i j new expunged flags with
  | nil => cases ho
  | cons a old ih =>
    obtain ⟨ha, hold⟩ := List.pairwise_cons.mp hold
    cases new with
    | nil => cases hn
    | cons b new =>
      obtain ⟨hb, hnew'⟩ := List.pairwise_cons.mp hnew
      rw [diffLoop] at h
      split at h
      · next hlt =>
        obtain ⟨⟨e, fs⟩, hrest, heq⟩ := Option.map_eq_some_iff.mp h
        cases heq
        refine ih hrest hold hnew ?_ hn
        rcases List.mem_cons.mp ho with rfl | ho
        · -- The first message of `old` is below all of `new`.
          rcases List.mem_cons.mp hn with rfl | hn
          · omega
          · have := hb n hn
            omega
        · exact ho
      split at h
      · cases h
      next hlt hgt =>
      have hsame : a.uid = b.uid := Nat.le_antisymm (Nat.not_lt.mp hgt) (Nat.not_lt.mp hlt)
      obtain ⟨⟨e, fs⟩, hrest, heq⟩ := Option.map_eq_some_iff.mp h
      cases heq
      rcases List.mem_cons.mp ho with rfl | ho
      · have hnb : n = b := by
          rcases List.mem_cons.mp hn with rfl | hn
          · rfl
          · have := hb n hn
            omega
        subst hnb
        have hsilent := diffLoop_silent hrest n.uid fun o' ho' => by
          have := ha o' ho'
          omega
        by_cases hmod : n.modseq = o.modseq
        · rw [if_pos hmod, if_pos hmod, hsilent]
        · rw [if_neg hmod, if_neg hmod, List.filterMap_cons, hsilent, flagsOf, if_pos rfl]
      · have hn : n ∈ new := by
          rcases List.mem_cons.mp hn with rfl | hn
          · have := ha o ho
            omega
          · exact hn
        have hne : b.uid ≠ n.uid := Nat.ne_of_lt (hb n hn)
        rw [← ih hrest hold hnew' ho hn]
        split
        · rfl
        · rw [List.filterMap_cons, flagsOf, if_neg hne]

theorem diff_flags {old new : List MessageHead} {ups : List Update} (h : diff old new = some ups)
    (hold : UidsAscend old) (hnew : UidsAscend new) {o n : MessageHead} (ho : o ∈ old)
    (hn : n ∈ new) (huid : o.uid = n.uid) :
    ups.filterMap (flagsOf n.uid) = if n.modseq = o.modseq then [] else [n.flags] := by
  obtain ⟨⟨expunged, flags⟩, hloop, rfl⟩ := Option.map_eq_some_iff.mp h
  have hother : ∀ l : List Update, (∀ u ∈ l, flagsOf n.uid u = none) →
      l.filterMap (flagsOf n.uid) = [] := fun l hl => List.filterMap_eq_nil_iff.mpr hl
  rw [List.filterMap_append, List.filterMap_append, hother, hother, List.nil_append,
    List.nil_append]
  · exact diffLoop_flags hloop hold hnew ho hn huid
  · intro u hu
    obtain ⟨_, _, rfl⟩ := List.mem_map.mp hu
    rfl
  · intro u hu
    obtain ⟨_, _, rfl⟩ := List.mem_map.mp hu
    rfl

end Diff

section Queues

/-- What `apply` queues for one session. -/
def delivered (session : Nat) : List (Nat × Nat) → List Update → List Update
  | _, [] => []
  | suppress, .flags seq uid flags :: ups =>
    let rest := delivered session (suppress.filter fun e => e.1 != uid) ups
    if suppress.lookup uid = some session then rest else .flags seq uid flags :: rest
  | suppress, u :: ups => u :: delivered session suppress ups

theorem sessions_apply (st : MailboxState) (ups : List Update) :
    (st.apply ups).sessions =
      st.sessions.map fun s => { s with queue := s.queue ++ delivered s.id st.suppress ups } := by
  induction ups generalizing st with
  | nil =>
    simp [MailboxState.apply, delivered]
  | cons u ups ih =>
    change ((st.queue u).apply ups).sessions = _
    rw [ih]
    cases u with
    | expunge seq => simp [MailboxState.queue, delivered, List.append_assoc]
    | numMessages n => simp [MailboxState.queue, delivered, List.append_assoc]
    | flags seq uid flags =>
      simp only [MailboxState.queue, List.map_map]
      apply List.map_congr_left
      intro s _
      simp only [Function.comp, delivered]
      split
      · rfl
      · simp [List.append_assoc]

theorem delivered_sublist (session : Nat) (suppress : List (Nat × Nat)) (ups : List Update) :
    (delivered session suppress ups).Sublist ups := by
  induction ups generalizing suppress with
  | nil => exact .slnil
  | cons u ups ih =>
    cases u with
    | expunge seq => exact (ih suppress).cons_cons _
    | numMessages n => exact (ih suppress).cons_cons _
    | flags seq uid flags =>
      rw [delivered]
      split
      · exact (ih _).cons _
      · exact (ih _).cons_cons _

theorem delivered_none {session uid : Nat} {suppress : List (Nat × Nat)} {ups : List Update}
    (h : ups.filterMap (flagsOf uid) = []) :
    (delivered session suppress ups).filterMap (flagsOf uid) = [] :=
  List.sublist_nil.mp (h ▸ (delivered_sublist session suppress ups).filterMap _)

theorem delivered_flags {session uid : Nat} {suppress : List (Nat × Nat)} {ups : List Update}
    {flags : List Name} (h : ups.filterMap (flagsOf uid) = [flags])
    (hsrc : suppress.lookup uid ≠ some session) :
    (delivered session suppress ups).filterMap (flagsOf uid) = [flags] := by
  induction ups generalizing suppress with
  | nil => cases h
  | cons u ups ih =>
    cases u with
    | expunge seq => exact ih h hsrc
    | numMessages n => exact ih h hsrc
    | flags seq u fs =>
      rw [delivered]
      by_cases hu : u = uid
      · subst hu
        rw [List.filterMap_cons, flagsOf, if_pos rfl] at h
        obtain ⟨rfl, hrest⟩ := List.cons.inj h
        rw [if_neg hsrc, List.filterMap_cons, flagsOf, if_pos rfl, delivered_none hrest]
      · rw [List.filterMap_cons, flagsOf, if_neg hu] at h
        have hrest := ih h ((Lib.Assoc.lookup_filter_of_ne (Ne.symm hu) suppress).symm ▸ hsrc)
        split
        · exact hrest
        · rw [List.filterMap_cons, flagsOf, if_neg hu]
          exact hrest

end Queues

section Writes

variable {store store' : Store} {lower : Name → Name}

/-- What a commit writes: nothing, or one row, under a modseq its mailbox has not had. -/
inductive Wrote (store store' : Store) : Option Row → Prop
  | none (hrows : ∀ r ∈ store'.messages, r ∈ store.messages) : Wrote store store' none
  | one {mb r} (hmb : mb ∈ store.mailboxes) (hid : mb.id = r.mailboxID)
    (hmod : r.modseq = mb.modseq + 1)
      (hmem : r ∈ store'.messages) (hothers : ∀ r' ∈ store'.messages, r' = r ∨ r' ∈ store.messages ∧
        ¬(r'.mailboxID = r.mailboxID ∧ r'.uid = r.uid)) : Wrote store store' (some r)

theorem insertMessage_row {st : Store} {mb : Mailbox} {m : Message}
    (hok : st.insertMessage lower mb m = .ok store') :
    ∃ r, store'.messages = st.messages ++ [r] ∧ r.mailboxID = mb.id ∧ r.uid = mb.uidnext ∧
      r.modseq = mb.modseq + 1 ∧
      ∀ r' ∈ st.messages, ¬(r'.mailboxID = mb.id ∧ r'.uid = mb.uidnext) := by
  rw [Store.insertMessage, check_eq_ok, check_eq_ok] at hok
  obtain ⟨-, hfree, hok⟩ := hok
  cases hok
  refine ⟨_, rfl, rfl, rfl, rfl, fun r' hr' hkey => hfree (List.any_eq_true.mpr ⟨r', hr', ?_⟩)⟩
  simp [hkey.1, hkey.2]

theorem wrote_insertMessage {st : Store} {mb : Mailbox} {m : Message} (hmb : mb ∈ store.mailboxes)
    (hsub : ∀ r ∈ st.messages, r ∈ store.messages)
    (hok : st.insertMessage lower mb m = .ok store') :
    Wrote store store' (store'.getMessage mb.id mb.uidnext) := by
  obtain ⟨r, hmessages, hid, huid, hmod, hfree⟩ := insertMessage_row hok
  have hfind : store'.getMessage mb.id mb.uidnext = some r := by
    rw [Store.getMessage, hmessages, List.find?_append, List.find?_eq_none.mpr, Option.none_or]
    · simp [hid, huid]
    · intro r' hr'
      simpa using fun h => not_and.mp (hfree r' hr') h
  rw [hfind]
  refine .one hmb hid.symm hmod ?_ ?_
  · rw [hmessages]
    exact List.mem_append_right _ (List.mem_singleton_self r)
  · intro r' hr'
    rw [hmessages] at hr'
    rcases List.mem_append.mp hr' with hr' | hr'
    · exact .inr ⟨hsub r' hr', hid ▸ huid ▸ hfree r' hr'⟩
    · exact .inl (List.mem_singleton.mp hr')

theorem wrote_append {id : String} {m : Message} {res : AppendResult}
    (hok : store.appendMessage lower id m = .ok (res, store')) :
    Wrote store store' (writtenRow lower store store' (.append id m)) := by
  rw [writtenRow, hok]
  rw [Store.appendMessage, check_eq_ok, check_eq_ok, Store.appendOnce] at hok
  obtain ⟨-, -, hok⟩ := hok
  split at hok
  · cases hok
  next mb hbox =>
  obtain ⟨hmb, rfl⟩ := getMailboxByID_mem hbox
  split at hok
  · obtain ⟨st, hinsert, heq⟩ := map_eq_ok.mp hok
    cases heq
    exact wrote_insertMessage hmb (fun r hr => hr) hinsert
  split at hok
  · cases hok
    exact .none fun r hr => hr
  · obtain ⟨st, hinsert, heq⟩ := map_eq_ok.mp hok
    cases heq
    exact wrote_insertMessage hmb (fun r hr => (List.mem_filter.mp hr).1) hinsert

theorem wrote_setFlags (h : StoreOk store) {id : String} {uid : Nat} {flags : List Name}
    (hok : store.setFlags lower id uid flags = .ok store') :
    Wrote store store' (store'.getMessage id uid) := by
  have hkeys := (advances_setFlags h hok).ok.keys
  rw [Store.setFlags] at hok
  split at hok
  · cases hok
  next mb hbox =>
  rw [check_eq_ok, Bool.not_eq_true', Bool.not_eq_false] at hok
  obtain ⟨hany, hok⟩ := hok
  have hmb := List.mem_of_find?_eq_some hbox
  have hmbid := List.find?_some hbox
  rw [beq_iff_eq] at hmbid
  obtain ⟨r₀, hr₀, hkey⟩ := List.any_eq_true.mp hany
  cases hok
  have hmem : { r₀ with flags := normalizeFlags lower flags, modseq := mb.modseq + 1 } ∈
      update (fun r => r.mailboxID == id && r.uid == uid)
        (fun r => { r with flags := normalizeFlags lower flags, modseq := mb.modseq + 1 })
        store.messages := mem_update.mpr ⟨r₀, hr₀, if_pos hkey⟩
  rw [Bool.and_eq_true, beq_iff_eq, beq_iff_eq] at hkey
  cases hfind : Store.getMessage _ id uid with
  | none =>
    rw [Store.getMessage, List.find?_eq_none] at hfind
    exact absurd (by simp [hkey.1, hkey.2]) (hfind _ hmem)
  | some r =>
    have hr := List.mem_of_find?_eq_some hfind
    have hrkey := List.find?_some hfind
    rw [Bool.and_eq_true, beq_iff_eq, beq_iff_eq] at hrkey
    have hsame :=
      eq_of_key hkeys hr hmem (Prod.ext (hrkey.1.trans hkey.1.symm) (hrkey.2.trans hkey.2.symm))
    refine .one hmb (hmbid.trans hrkey.1.symm) ?_ hr fun r' hr' => ?_
    · rw [hsame]
    · obtain ⟨q, hq, rfl⟩ := mem_update.mp hr'
      by_cases hcond : (q.mailboxID == id && q.uid == uid) = true
      · left
        apply eq_of_key hkeys hr' hr
        rw [if_pos hcond]
        rw [Bool.and_eq_true, beq_iff_eq, beq_iff_eq] at hcond
        exact Prod.ext (hcond.1.trans hrkey.1.symm) (hcond.2.trans hrkey.2.symm)
      · right
        rw [if_neg hcond]
        refine ⟨hq, fun hsame' => hcond ?_⟩
        rw [hsame'.1, hsame'.2, hrkey.1, hrkey.2, beq_self_eq_true, beq_self_eq_true, Bool.and_true]

theorem wrote_commit (h : StoreOk store) {c : Commit} (hok : store.commit lower c = .ok store') :
    Wrote store store' (writtenRow lower store store' c) := by
  cases c with
  | insert tenant username name id now =>
    refine .none fun r hr => ?_
    rw [Store.commit, Store.insertMailbox, check_eq_ok] at hok
    obtain ⟨-, hok⟩ := hok
    cases hok
    exact hr
  | delete id now =>
    cases hok
    exact .none fun r hr => hr
  | reset id uidv =>
    cases hok
    exact .none fun r hr => (List.mem_filter.mp hr).1
  | append id m =>
    obtain ⟨⟨res, st⟩, happend, rfl⟩ := map_eq_ok.mp hok
    exact wrote_append happend
  | remove id uids onlyDeleted =>
    refine .none fun r hr => ?_
    rw [Store.commit, Store.removeRows, check_eq_ok] at hok
    obtain ⟨-, hok⟩ := hok
    split at hok
    · cases hok
      exact hr
    · cases hok
      exact (List.mem_filter.mp hr).1
  | setFlags id uid flags => exact wrote_setFlags h hok

end Writes

section Versions

variable {store store' : Store} {versions : List Version} {id : String}

def Known (versions : List Version) (id : String) (h : MessageHead) : Prop :=
  ∃ v ∈ versions, v.mailboxID = id ∧ v.uid = h.uid ∧ v.modseq = h.modseq ∧ v.flags = h.flags

structure VersionsOk (store : Store) (versions : List Version) : Prop where
  ascend : versions.Pairwise fun a b => a.mailboxID = b.mailboxID → a.modseq < b.modseq
  bounded : ∀ v ∈ versions, ∃ mb ∈ store.mailboxes, mb.id = v.mailboxID ∧ v.modseq ≤ mb.modseq
  rows : ∀ r ∈ store.messages, Known versions r.mailboxID (Store.Row.head r)
  newest : ∀ v ∈ versions, ∀ r ∈ store.messages, r.mailboxID = v.mailboxID → r.uid = v.uid →
    v.modseq ≤ r.modseq

def Row.version (writer : Option Nat) (r : Row) : Version :=
  ⟨r.mailboxID, r.uid, r.modseq, r.flags, writer⟩

theorem VersionsOk.below (h : VersionsOk store versions) (hok : StoreOk store) {v : Version}
    (hv : v ∈ versions) {mb : Mailbox} (hmb : mb ∈ store.mailboxes) (hid : mb.id = v.mailboxID) :
    v.modseq ≤ mb.modseq := by
  obtain ⟨q, hq, hqid, hle⟩ := h.bounded v hv
  rw [eq_of_key hok.ids hmb hq (hid.trans hqid.symm)]
  exact hle

theorem Known.mono {h : MessageHead} (hk : Known versions id h) {more : List Version} :
    Known (versions ++ more) id h := by
  obtain ⟨v, hv, hrest⟩ := hk
  exact ⟨v, List.mem_append_left _ hv, hrest⟩

theorem versionsOk_commit (h : VersionsOk store versions) (hok : StoreOk store) {c : String}
    (hadv : Advances c store store') {row : Option Row} (hw : Wrote store store' row)
    (writer : Option Nat) :
    VersionsOk store' (versions ++ row.toList.map (Row.version writer)) := by
  have hbounded : ∀ v ∈ versions, ∃ mb ∈ store'.mailboxes, mb.id = v.mailboxID ∧
    v.modseq ≤ mb.modseq := by
    intro v hv
    obtain ⟨mb, hmb, hid, hle⟩ := h.bounded v hv
    obtain ⟨mb', hmb', hid', hcase⟩ := hadv.boxes mb hmb
    refine ⟨mb', hmb', hid'.trans hid, ?_⟩
    rcases hcase with ⟨hmod, -, -⟩ | ⟨-, hlt⟩
    · exact hmod.symm ▸ hle
    · exact Nat.le_of_lt (Nat.lt_of_le_of_lt hle hlt)
  cases hw with
  | none hrows =>
    rw [Option.toList_none, List.map_nil, List.append_nil]
    exact ⟨h.ascend, hbounded, fun r hr => h.rows r (hrows r hr),
      fun v hv r hr => h.newest v hv r (hrows r hr)⟩
  | @one mb r hmb hid hmod hmem hothers =>
    have hpast : ∀ v ∈ versions, v.mailboxID = r.mailboxID → v.modseq < r.modseq := by
      intro v hv hvid
      have hle := h.below hok hv hmb (hid.trans hvid.symm)
      omega
    rw [Option.toList_some, List.map_singleton]
    refine ⟨?_, fun v hv => ?_, fun r' hr' => ?_, fun v hv r' hr' hrid huid => ?_⟩
    · rw [List.pairwise_append]
      refine ⟨h.ascend, List.pairwise_singleton _ _, fun a ha b hb hsame => ?_⟩
      cases List.mem_singleton.mp hb
      exact hpast a ha hsame
    · rcases List.mem_append.mp hv with hv | hv
      · exact hbounded v hv
      · cases List.mem_singleton.mp hv
        obtain ⟨q, hq, hqid, hle, -⟩ := hadv.ok.rows r hmem
        exact ⟨q, hq, hqid, hle⟩
    · rcases hothers r' hr' with rfl | ⟨hold, -⟩
      · exact ⟨_, List.mem_append_right _ (List.mem_singleton_self _), rfl, rfl, rfl, rfl⟩
      · exact (h.rows r' hold).mono
    · rcases hothers r' hr' with rfl | ⟨hold, hne⟩
      · rcases List.mem_append.mp hv with hv | hv
        · exact Nat.le_of_lt (hpast v hv hrid.symm)
        · cases List.mem_singleton.mp hv
          exact Nat.le_refl _
      · rcases List.mem_append.mp hv with hv | hv
        · exact h.newest v hv r' hold hrid huid
        · cases List.mem_singleton.mp hv
          exact absurd ⟨hrid, huid⟩ hne

theorem VersionsOk.eq_of_modseq (h : VersionsOk store versions) {v w : Version} (hv : v ∈ versions)
    (hw : w ∈ versions) (hid : v.mailboxID = w.mailboxID) (hmod : v.modseq = w.modseq) : v = w := by
  by_contra hne
  have hpair := h.ascend.imp (S := fun a b => a.mailboxID = b.mailboxID → a.modseq ≠ b.modseq)
    fun hlt hsame => Nat.ne_of_lt (hlt hsame)
  have : Std.Symm fun a b : Version => a.mailboxID = b.mailboxID → a.modseq ≠ b.modseq :=
    ⟨fun _ _ hab hba => (hab hba.symm).symm⟩
  exact hpair.forall hv hw hne hid hmod

theorem Known.flags_eq {h h' : MessageHead} (hv : VersionsOk store versions)
    (hk : Known versions id h) (hk' : Known versions id h') (hmod : h.modseq = h'.modseq) :
    h.flags = h'.flags := by
  obtain ⟨v, hvm, hid, -, hvmod, hflags⟩ := hk
  obtain ⟨w, hwm, hid', -, hwmod, hflags'⟩ := hk'
  rw [← hflags, ← hflags',
    hv.eq_of_modseq hvm hwm (hid.trans hid'.symm) (hvmod.trans (hmod.trans hwmod.symm))]

end Versions

section Views

variable {store store' : Store} {versions : List Version} {id : String}

def lastQueued (s : Session) (uid : Nat) : Option (List Name) :=
  (s.queue.filterMap (flagsOf uid)).getLast?

def ownVersions (versions : List Version) (id : String) (session uid : Nat) : List Version :=
  versions.filter fun v => v.mailboxID == id && v.uid == uid && v.writer == some session

def ownLast (versions : List Version) (id : String) (session uid : Nat) : Option (List Name) :=
  (ownVersions versions id session uid).getLast?.map Version.flags

theorem mem_ownVersions {session uid : Nat} {v : Version} :
    v ∈ ownVersions versions id session uid ↔
      v ∈ versions ∧ v.mailboxID = id ∧ v.uid = uid ∧ v.writer = some session := by
  rw [ownVersions, List.mem_filter, Bool.and_eq_true, Bool.and_eq_true, beq_iff_eq, beq_iff_eq,
    beq_iff_eq, and_assoc]

/-- The session was queued the flags, or wrote them last itself, or has them from the time the
message came to its view. -/
def Informed (versions : List Version) (id : String) (s : Session) (h : MessageHead) : Prop :=
  lastQueued s h.uid = some h.flags ∨ ownLast versions id s.id h.uid = some h.flags ∨
    (h.uid, h.modseq) ∈ s.entered

def Stale (store : Store) (id : String) (h : MessageHead) : Prop :=
  ∀ r ∈ store.rowsOf id, r.uid = h.uid → r.modseq ≠ h.modseq

theorem Known.below (hv : VersionsOk store versions) (hok : StoreOk store) {h : MessageHead}
    (hk : Known versions id h) {mb : Mailbox} (hmb : mb ∈ store.mailboxes) (hid : mb.id = id) :
    h.modseq ≤ mb.modseq := by
  obtain ⟨v, hvm, hvid, -, hmod, -⟩ := hk
  exact hmod ▸ hv.below hok hvm hmb (hid.trans hvid.symm)

theorem Stale.commit (hv : VersionsOk store versions) (hok : StoreOk store) {h : MessageHead}
    (hk : Known versions id h) (hstale : Stale store id h) {row : Option Row}
    (hw : Wrote store store' row) : Stale store' id h := by
  intro r hr huid
  obtain ⟨hmem, hrid⟩ := mem_rowsOf.mp hr
  cases hw with
  | none hrows => exact hstale r (mem_rowsOf.mpr ⟨hrows r hmem, hrid⟩) huid
  | @one mb new hmb hid hmod _ hothers =>
    rcases hothers r hmem with rfl | ⟨hold, -⟩
    · have hle := hk.below hv hok hmb (hid.trans hrid)
      omega
    · exact hstale r (mem_rowsOf.mpr ⟨hold, hrid⟩) huid

theorem Informed.commit (hv : VersionsOk store versions) (hok : StoreOk store) {h : MessageHead}
    (hk : Known versions id h) {s : Session} (hin : Informed versions id s h) {row : Option Row}
    (hw : Wrote store store' row) (writer : Option Nat) :
    Informed (versions ++ row.toList.map (Row.version writer)) id s h ∨ Stale store' id h := by
  rcases hin with hqueued | hown | hentered
  · exact .inl (.inl hqueued)
  · cases hw with
    | none hrows =>
      left
      rw [Option.toList_none, List.map_nil, List.append_nil]
      exact .inr (.inl hown)
    | @one mb r hmb hid hmod hmem hothers =>
      by_cases hthis : r.mailboxID = id ∧ r.uid = h.uid
      · -- The write is one to this message.
        right
        intro r' hr' huid
        obtain ⟨hr', hrid'⟩ := mem_rowsOf.mp hr'
        have hle := hk.below hv hok hmb (hid.trans hthis.1)
        rcases hothers r' hr' with rfl | ⟨-, hne⟩
        · omega
        · exact absurd ⟨hrid'.trans hthis.1.symm, huid.trans hthis.2.symm⟩ hne
      · left
        right
        left
        have hskip : ownVersions [Row.version writer r] id s.id h.uid = [] := by
          rw [List.eq_nil_iff_forall_not_mem]
          intro v hv'
          obtain ⟨hvm, hvid, hvuid, -⟩ := mem_ownVersions.mp hv'
          cases List.mem_singleton.mp hvm
          exact hthis ⟨hvid, hvuid⟩
        rw [ownVersions] at hskip
        rw [ownLast, ownVersions, Option.toList_some, List.map_singleton, List.filter_append, hskip,
          List.append_nil]
        exact hown
  · exact .inl (.inr (.inr hentered))

theorem own_or_stale (hv : VersionsOk store versions) {session : Nat} {v : Version}
    (hvm : v ∈ versions) (hid : v.mailboxID = id) (hwriter : v.writer = some session)
    {h : MessageHead} (huid : v.uid = h.uid) (hmod : v.modseq = h.modseq)
    (hflags : v.flags = h.flags) :
    ownLast versions id session h.uid = some h.flags ∨ Stale store id h := by
  have hmem := mem_ownVersions.mpr ⟨hvm, hid, huid, hwriter⟩
  obtain ⟨w, hlast⟩ : ∃ w, (ownVersions versions id session h.uid).getLast? = some w :=
    ⟨_, List.getLast?_eq_some_getLast (List.ne_nil_of_mem hmem)⟩
  obtain ⟨hwm, hwid, hwuid, -⟩ := mem_ownVersions.mp (List.mem_of_getLast? hlast)
  by_cases hvw : v = w
  · left
    rw [ownLast, hlast, ← hflags, hvw]
    rfl
  · right
    have hlt : v.modseq < w.modseq := by
      obtain ⟨front, hfront⟩ := List.getLast?_eq_some_iff.mp hlast
      have hasc : (ownVersions versions id session h.uid).Pairwise
          fun a b => a.mailboxID = b.mailboxID → a.modseq < b.modseq := hv.ascend.filter _
      rw [hfront] at hasc hmem
      rcases List.mem_append.mp hmem with hmem | hmem
      · exact (List.pairwise_append.mp hasc).2.2 v hmem w (List.mem_singleton_self w)
          (hid.trans hwid.symm)
      · exact absurd (List.mem_singleton.mp hmem) hvw
    intro r hr hruid
    obtain ⟨hr, hrid⟩ := mem_rowsOf.mp hr
    have hle := hv.newest w hwm r hr (hrid.trans hwid.symm) (hruid.trans hwuid.symm)
    omega

end Views

section Heads

variable {store store' : Store} {versions : List Version} {st st' : MailboxState}

structure HeadsOk (versions : List Version) (id : String) (heads : List MessageHead) : Prop where
  ascend : UidsAscend heads
  known : ∀ h ∈ heads, Known versions id h

theorem HeadsOk.mono {id : String} {heads : List MessageHead} (h : HeadsOk versions id heads)
    (more : List Version) : HeadsOk (versions ++ more) id heads :=
  ⟨h.ascend, fun x hx => (h.known x hx).mono⟩

theorem ascend_listHeads (hok : StoreOk store) (id : String) : UidsAscend (store.listHeads id) := by
  have hsorted : (store.listHeads id).Pairwise fun a b => a.uid ≤ b.uid :=
    List.pairwise_insertionSort _ _
  have hnodup : ((store.listHeads id).map MessageHead.uid).Nodup := by
    have hperm : (store.listHeads id).Perm ((store.rowsOf id).map Store.Row.head) :=
      List.perm_insertionSort _ _
    rw [(hperm.map MessageHead.uid).nodup_iff, List.map_map, List.nodup_map_iff_inj_on]
    · intro a ha b hb huid
      obtain ⟨ha, haid⟩ := mem_rowsOf.mp ha
      obtain ⟨hb, hbid⟩ := mem_rowsOf.mp hb
      exact eq_of_key hok.keys ha hb (Prod.ext (haid.trans hbid.symm) huid)
    · exact hok.keys.of_map.filter _
  rw [List.Nodup, List.pairwise_map] at hnodup
  exact (hsorted.and hnodup).imp fun hab => Nat.lt_of_le_of_ne hab.1 hab.2

theorem headsOk_listHeads (hok : StoreOk store) (hv : VersionsOk store versions) (id : String) :
    HeadsOk versions id (store.listHeads id) := by
  refine ⟨ascend_listHeads hok id, fun h hh => ?_⟩
  obtain ⟨r, hr, rfl⟩ := mem_listHeads.mp hh
  obtain ⟨hr, hrid⟩ := mem_rowsOf.mp hr
  exact hrid ▸ hv.rows r hr

/-- A state whose sessions know of the flags in its heads, as far as they still stand. -/
structure EchoOk (store : Store) (versions : List Version) (st : MailboxState) : Prop where
  heads : HeadsOk versions st.id st.heads
  syncHeads : ∀ p, st.sync = some p → ∀ heads, p.heads = some heads → HeadsOk versions st.id heads
  unopened : st.initialised = false → st.sessions = []
  informed : ∀ s ∈ st.sessions, ∀ h ∈ st.heads, Informed versions st.id s h ∨ Stale store st.id h

theorem EchoOk.commit (h : EchoOk store versions st) (hv : VersionsOk store versions)
    (hok : StoreOk store) {row : Option Row} (hw : Wrote store store' row) (writer : Option Nat) :
    EchoOk store' (versions ++ row.toList.map (Row.version writer)) st where
  heads := h.heads.mono _
  syncHeads p hp heads hheads := (h.syncHeads p hp heads hheads).mono _
  unopened := h.unopened
  informed s hs x hx := by
    have hk := h.heads.known x hx
    rcases h.informed s hs x hx with hin | hstale
    · exact hin.commit hv hok hk hw writer
    · exact .inr (hstale.commit hv hok hk hw)

theorem EchoOk.congr (h : EchoOk store versions st) (hsame : SameSnapshot st st')
    (hsessions : st'.sessions.Sublist st.sessions) : EchoOk store versions st' where
  heads := by
    rw [hsame.id, hsame.heads]
    exact h.heads
  syncHeads p hp := by
    rw [hsame.id]
    exact h.syncHeads p (hsame.sync p hp)
  unopened hinit := by
    rw [hsame.initialised] at hinit
    exact List.sublist_nil.mp (h.unopened hinit ▸ hsessions)
  informed s hs := by
    rw [hsame.id, hsame.heads]
    exact h.informed s (hsessions.subset hs)

theorem echoOk_fresh (store : Store) (versions : List Version) (id : String) :
    EchoOk store versions (.fresh id) where
  heads := ⟨List.Pairwise.nil, fun _ hx => absurd hx List.not_mem_nil⟩
  syncHeads _ hp := by cases hp
  unopened _ := rfl
  informed _ hs := absurd hs List.not_mem_nil

theorem sessions_onChange (st : MailboxState) (c : Change) :
    (st.onChange c).sessions = st.sessions := by
  rw [MailboxState.onChange]
  split
  · split
    · rfl
    · rfl
  · rfl

theorem EchoOk.finish (hheads : HeadsOk versions st.id st.heads) (hinit : st.initialised = true)
    (hin : ∀ s ∈ st.sessions, ∀ h ∈ st.heads, Informed versions st.id s h ∨ Stale store st.id h)
    (session : Nat) (p : Sync) : EchoOk store versions (st.finish session p) where
  heads := hheads
  syncHeads _ hq := by cases hq
  unopened hnew := absurd (hinit.symm.trans hnew) Bool.noConfusion
  informed s hs h hh := by
    rw [MailboxState.finish] at hs
    dsimp only at hs
    split at hs
    · rcases List.mem_append.mp hs with hs | hs
      · exact hin s hs h hh
      · cases List.mem_singleton.mp hs
        exact .inl (.inr (.inr (List.mem_map_of_mem hh)))
    · exact hin s hs h hh

theorem EchoOk.read {n session : Nat} (h : EchoOk store versions st)
    (hread : Reads store n session st st') : EchoOk store versions st' := by
  cases hread with
  | stays hsame hsessions => exact h.congr hsame (hsessions ▸ .refl _)
  | upToDate opens hinit hbox hmod => exact .finish h.heads hinit h.informed session _
  | goesOn opens hbox huidv =>
    refine ⟨h.heads, ?_, h.unopened, h.informed⟩
    rintro p ⟨⟩ heads ⟨⟩

theorem EchoOk.readHeads (h : EchoOk store versions st) (hok : StoreOk store)
    (hv : VersionsOk store versions) {p : Sync} :
    EchoOk store versions { st with
      sync := some ⟨p.opens, p.mb, p.commits, some (store.listHeads st.id)⟩ } where
  heads := h.heads
  syncHeads := by
    rintro q ⟨⟩ heads ⟨⟩
    exact headsOk_listHeads hok hv st.id
  unopened := h.unopened
  informed := h.informed

/-- A session on record as the writer of flags that these heads report did write them. -/
def SourcesWrote (versions : List Version) (st : MailboxState) (heads : List MessageHead) : Prop :=
  ∀ h ∈ heads, (∃ o ∈ st.heads, o.uid = h.uid ∧ o.modseq ≠ h.modseq) →
    ∀ s ∈ st.sessions, st.suppress.lookup h.uid = some s.id →
      ∃ v ∈ versions, v.mailboxID = st.id ∧ v.uid = h.uid ∧ v.modseq = h.modseq ∧
        v.writer = some s.id

theorem Known.written {id : String} {session : Nat} {h : MessageHead} (hk : Known versions id h)
    (hv : VersionsOk store versions) (hsrc : ∃ v ∈ versions, v.mailboxID = id ∧ v.uid = h.uid ∧
      v.modseq = h.modseq ∧ v.writer = some session) :
    ownLast versions id session h.uid = some h.flags ∨ Stale store id h := by
  obtain ⟨w, hwm, hwid, hwuid, hwmod, hwriter⟩ := hsrc
  obtain ⟨v, hvm, hvid, -, hvmod, hflags⟩ := hk
  cases hv.eq_of_modseq hvm hwm (hvid.trans hwid.symm) (hvmod.trans hwmod.symm)
  exact own_or_stale hv hvm hvid hwriter hwuid hvmod hflags

theorem informed_moves (h : EchoOk store versions st) (hv : VersionsOk store versions)
    {heads : List MessageHead} (hheads : HeadsOk versions st.id heads)
    (hsrc : SourcesWrote versions st heads) {ups : List Update}
    (hdiff : diff st.heads heads = some ups) {s : Session} (hs : s ∈ st.sessions) {n : MessageHead}
    (hn : n ∈ heads) :
    Informed versions st.id (MailboxState.enter st.heads heads
      { s with queue := s.queue ++ delivered s.id st.suppress ups }) n ∨ Stale store st.id n := by
  by_cases hold : ∃ o ∈ st.heads, o.uid = n.uid
  · obtain ⟨o, ho, huid⟩ := hold
    have hups := diff_flags hdiff h.heads.ascend hheads.ascend ho hn huid
    by_cases hmod : n.modseq = o.modseq
    · -- Nothing is reported, and what the session knew of the old head is true of the new one.
      rw [if_pos hmod] at hups
      have hflags := (hheads.known n hn).flags_eq hv (h.heads.known o ho) hmod
      have hquiet : lastQueued (MailboxState.enter st.heads heads
          { s with queue := s.queue ++ delivered s.id st.suppress ups }) n.uid =
          lastQueued s n.uid := by
        rw [lastQueued, lastQueued, MailboxState.enter, List.filterMap_append, delivered_none hups,
          List.append_nil]
      have hin := h.informed s hs o ho
      rw [Informed, Stale, huid, ← hmod, ← hflags] at hin
      rw [Informed, hquiet]
      rcases hin with (hqueued | hown | hentered) | hstale
      · exact .inl (.inl hqueued)
      · exact .inl (.inr (.inl hown))
      · exact .inl (.inr (.inr (List.mem_append_left _ hentered)))
      · exact .inr hstale
    · rw [if_neg hmod] at hups
      by_cases hself : st.suppress.lookup n.uid = some s.id
      · rcases (hheads.known n hn).written hv
          (hsrc n hn ⟨o, ho, huid, fun heq => hmod heq.symm⟩ s hs hself) with hown | hstale
        · exact .inl (.inr (.inl hown))
        · exact .inr hstale
      · left
        left
        rw [lastQueued, MailboxState.enter, List.filterMap_append, delivered_flags hups hself,
          List.getLast?_concat]
  · left
    right
    right
    refine List.mem_append_right _ (List.mem_map.mpr ⟨n, List.mem_filter.mpr ⟨hn, ?_⟩, rfl⟩)
    rw [Bool.not_eq_true', List.any_eq_false]
    exact fun o ho heq => hold ⟨o, ho, beq_iff_eq.mp heq⟩

theorem EchoOk.take (h : EchoOk store versions st) (hv : VersionsOk store versions) {p : Sync}
    {heads : List MessageHead} {session : Nat}
    (hp : st.sync = some ⟨p.opens, p.mb, p.commits, some heads⟩)
    (hsrc : SourcesWrote versions st heads) (htakes : Takes session p heads st st') :
    EchoOk store versions st' := by
  have hheads := h.syncHeads _ hp heads rfl
  cases htakes with
  | stays hsame hsessions => exact h.congr hsame (hsessions ▸ .refl _)
  | initialises hnew =>
    refine .finish hheads rfl (fun s hs => ?_) session p
    dsimp only at hs
    rw [h.unopened hnew] at hs
    cases hs
  | @moves ups hold hdiff =>
    obtain ⟨hid, -, hinit⟩ := apply_snapshot st ups
    refine .finish ?_ ?_ (fun s hs n hn => ?_) session p
    · exact hid ▸ hheads
    · exact hinit.trans hold
    dsimp only at hs hn ⊢
    rw [sessions_apply, List.map_map] at hs
    obtain ⟨s₀, hs₀, rfl⟩ := List.mem_map.mp hs
    rw [hid]
    exact informed_moves h hv hheads hsrc hdiff hs₀ hn

end Heads

section EchoRuns

variable {lower : Name → Name} {sys sys' : System}

/-- When all changes have been told, every session of a live state that a sync has brought up to the
last commit knows the flags of every message: it was queued them last, or they are those of its own
last write, or they have not been written since the message came to its view. -/
def NoneLeftBehind (sys : System) : Prop :=
  sys.changes = [] → ∀ st ∈ sys.states, st.initialised = true → st.gone = false →
    st.synced = some (sys.commits.count st.id) → ∀ s ∈ st.sessions, ∀ r ∈ sys.store.rowsOf st.id,
      Informed sys.versions st.id s (Store.Row.head r)

/-- When a sync reports flags, the session on record as their writer, if it is still open, did write
them. -/
def EchoesOwn (sys : System) : Step → Prop
  | .finish i => ∀ st ∈ sys.states[i]?, ∀ p ∈ st.sync, ∀ heads ∈ p.heads,
    SourcesWrote sys.versions st heads
  | _ => True

structure EchoInv (sys : System) : Prop where
  ok : SystemOk sys
  versions : VersionsOk sys.store sys.versions
  states : ∀ st ∈ sys.states, EchoOk sys.store sys.versions st

theorem EchoInv.next (h : EchoInv sys) {step : Step} (hown : EchoesOwn sys step)
    (hnext : sys.next lower step = some sys') : EchoInv sys' := by
  have hok' := systemOk_next h.ok hnext
  cases does_next hnext with
  | fails => exact h
  | @commits c store origin here hok =>
    have hadv := advances_commit h.ok.store hok
    have hw := wrote_commit h.ok.store hok
    exact ⟨hok', versionsOk_commit h.versions h.ok.store hadv hw (c.writer origin here),
      fun st hst => (h.states st hst).commit h.versions h.ok.store hw (c.writer origin here)⟩
  | notifies k c =>
    refine ⟨hok', h.versions, fun st' hst' => ?_⟩
    obtain ⟨st, hst, rfl⟩ := List.mem_map.mp hst'
    exact (h.states st hst).congr (sameSnapshot_onChange st c) (sessions_onChange st c ▸ .refl _)
  | adds id =>
    refine ⟨hok', h.versions, fun st hst => ?_⟩
    rcases List.mem_append.mp hst with hst | hst
    · exact h.states st hst
    · rw [List.mem_singleton.mp hst]
      exact echoOk_fresh _ _ id
  | hub opened hst hstep =>
    have hecho := h.states _ (List.mem_of_getElem? hst)
    refine ⟨hok', h.versions, fun q hq => ?_⟩
    rcases List.mem_or_eq_of_mem_set hq with hq | rfl
    · exact h.states q hq
    cases hstep with
    | keeps hsame hsessions => exact hecho.congr hsame hsessions
    | reads hread => exact hecho.read hread
    | readsHeads hp => exact hecho.readHeads h.ok.store h.versions
    | takes hp htakes => exact hecho.take h.versions hp (hown _ hst _ hp _ rfl) htakes

theorem EchoInv.noneLeftBehind (h : EchoInv sys) : NoneLeftBehind sys := by
  intro _ st hst hinit _ hsynced s hs r hr
  have hecho := h.states st hst
  have hcurrent := h.ok.current hst hinit hsynced
  have hhead : Store.Row.head r ∈ st.heads := by
    rw [hcurrent]
    exact mem_listHeads.mpr ⟨r, hr, rfl⟩
  rcases hecho.informed s hs _ hhead with hin | hstale
  · exact hin
  · exact absurd rfl (hstale r hr rfl)

theorem echoInv_start : EchoInv .start where
  ok := systemOk_start
  versions := ⟨List.Pairwise.nil, fun _ hv => absurd hv List.not_mem_nil,
    fun _ hr => absurd hr List.not_mem_nil, fun _ hv => absurd hv List.not_mem_nil⟩
  states _ hst := absurd hst List.not_mem_nil

/-- As long as a session on record as the writer of reported flags did write them, no session is
left with flags another writer has replaced. -/
theorem noneLeftBehind_along (lower : Name → Name) {steps : List Step}
    (hown : Along (System.next lower) EchoesOwn .start steps) :
    Along (System.next lower) (fun sys step => ∀ sys' ∈ sys.next lower step, NoneLeftBehind sys')
      .start steps := by
  refine Along.of_invariant (I := EchoInv) ?_ ?_ echoInv_start hown
  · exact fun sys step sys' h hstep hnext => h.next hstep hnext
  · exact fun sys step h hstep sys' hnext => (h.next hstep hnext).noneLeftBehind

instance (versions : List Version) (id : String) (s : Session) (h : MessageHead) :
    Decidable (Informed versions id s h) :=
  inferInstanceAs (Decidable (_ = _ ∨ _ = _ ∨ _ ∈ _))

instance (sys : System) : Decidable (NoneLeftBehind sys) :=
  inferInstanceAs (Decidable (_ → ∀ st ∈ sys.states, _ → _ → _ → ∀ s ∈ st.sessions,
    ∀ r ∈ sys.store.rowsOf st.id, Informed _ _ _ _))

instance (versions : List Version) (st : MailboxState) (heads : List MessageHead) :
    Decidable (SourcesWrote versions st heads) :=
  inferInstanceAs (Decidable (∀ h ∈ heads, _ → ∀ s ∈ st.sessions, _ → ∃ v ∈ versions, _))

instance (sys : System) (step : Step) : Decidable (EchoesOwn sys step) :=
  match step with
  | .finish i =>
    inferInstanceAs (Decidable (∀ st ∈ sys.states[i]?, ∀ p ∈ st.sync, ∀ heads ∈ p.heads,
      SourcesWrote _ st heads))
  | .commit _ _ _ | .notify _ | .select _ | .read _ _ _ | .readHeads _ | .abandon _ | .close _ _ =>
    .isTrue trivial

/-- Two sessions select a mailbox with a letter; their numbers are 1 and 2. -/
def twoSessions : List Step :=
  [.commit (.insert "acme" "paris@acme".toList "Reports".toList "mbox_1" 1700000000) none true,
    .commit (.append "mbox_1" (letter "sha-1")) none true, .notify 0, .select "mbox_1",
    .read 0 true true, .readHeads 0, .finish 0, .select "mbox_1", .read 0 true false]

/-- The first session sets `\Seen`. -/
def markSeen : Step :=
  .commit (.setFlags "mbox_1" 1 ["\\Seen".toList]) (some 1) true

/-- Another node sets `\Flagged`. -/
def flagElsewhere : Step :=
  .commit (.setFlags "mbox_1" 1 ["\\Flagged".toList]) none false

def syncs : List Step :=
  [.read 0 false false, .readHeads 0, .finish 0]

theorem noneLeftBehind_toldFirst :
    Along (System.next lowerAscii)
      (fun sys step => ∀ sys' ∈ sys.next lowerAscii step, NoneLeftBehind sys')
      .start (twoSessions ++ [markSeen, .notify 0] ++ syncs ++ [flagElsewhere] ++ syncs) :=
  noneLeftBehind_along lowerAscii (by decide)

/-- The sync that shows the write comes before the hub is told of it; the next one, with the flags
set elsewhere, passes the session over. -/
theorem not_noneLeftBehind_toldLate :
    ¬ Along (System.next lowerAscii)
      (fun sys step => ∀ sys' ∈ sys.next lowerAscii step, NoneLeftBehind sys')
      .start (twoSessions ++ [markSeen] ++ syncs ++ [.notify 0, flagElsewhere] ++ syncs) := by
  decide

end EchoRuns

end ThanksComputer.Imap
