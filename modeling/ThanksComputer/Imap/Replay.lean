import Mathlib.Algebra.Ring.Nat
import ThanksComputer.Imap.Echo

/-! The updates of a sync, replayed by a client on the view it had (`diff` of
`server/personality/imap/hub.go`).  Expunges count in the numbers before the change and come last
first; the reports of flags count in the numbers behind it. -/

namespace ThanksComputer.Imap

open Lib.Checks Lib.Runs Lib.Table

/-- A message as a client sees it: its UID and flags. -/
abbrev Shown := Nat × List Name

def MessageHead.shown (h : MessageHead) : Shown :=
  (h.uid, h.flags)

section Code

/-- The numbers of an update are `uint32`. -/
def Update.uint32 : Update → Update
  | .expunge seq => .expunge (seq % 2 ^ 32)
  | .numMessages n => .numMessages (n % 2 ^ 32)
  | .flags seq uid fs => .flags (seq % 2 ^ 32) uid fs

/-- `diff` with its numbers in 32 bits. -/
def diff32 (old new : List MessageHead) : Option (List Update) :=
  (diff old new).map fun ups => ups.map Update.uint32

end Code

section Spec

/-- A client takes an update on the way to the messages `new`.  No result: the number is outside the
list, or the count is not the next one. -/
def take (new : List MessageHead) (view : List Shown) : Update → Option (List Shown)
  | .expunge seq => if 0 < seq ∧ seq ≤ view.length then some (view.eraseIdx (seq - 1)) else none
  | .numMessages n => if n = view.length + 1 then new[n - 1]?.map fun m =>
    view ++ [m.shown] else none
  | .flags seq _ fs =>
    if 0 < seq ∧ seq ≤ view.length then some (view.modify (seq - 1) fun m => (m.1, fs)) else none

def replay (new : List MessageHead) (view : List Shown) (ups : List Update) : Option (List Shown) :=
  ups.foldlM (take new) view

/-- A message that stays has its new flags if its modseq has changed. -/
def MessageHead.after (old : List MessageHead) (n : MessageHead) : Shown :=
  match old.find? fun o => o.uid == n.uid with
  | some o => (n.uid, if n.modseq = o.modseq then o.flags else n.flags)
  | none => n.shown

instance (heads : List MessageHead) : Decidable (UidsAscend heads) :=
  inferInstanceAs (Decidable (heads.Pairwise fun a b => a.uid < b.uid))

/-- The heads of a mailbox: the UIDs ascend from 1 on, in 32 bits. -/
structure Snapshot (heads : List MessageHead) : Prop where
  ascend : UidsAscend heads
  pos : ∀ h ∈ heads, 0 < h.uid
  fits : ∀ h ∈ heads, h.uid < 2 ^ 32

end Spec

section Walk

/-- The walk of `diff` over two lists in UID order: a message of the old one is gone or stays. -/
inductive Walk : Nat → Nat → List MessageHead → List MessageHead → List Nat → List Update → Prop
  | done (i j : Nat) (new : List MessageHead) : Walk i j [] new [] []
  | gone {i j : Nat} {o : MessageHead} {old new : List MessageHead} {expunged : List Nat}
    {flags : List Update}
      (hgone : ∀ n ∈ new, o.uid < n.uid) (hrest : Walk (i + 1) j old new expunged flags) :
      Walk i j (o :: old) new ((i + 1) :: expunged) flags
  | stays {i j : Nat} {o n : MessageHead} {old new : List MessageHead} {expunged : List Nat}
    {flags : List Update}
      (huid : o.uid = n.uid) (hold : ∀ o' ∈ old, o.uid < o'.uid) (hnew : ∀ n' ∈ new, n.uid < n'.uid)
      (hrest : Walk (i + 1) (j + 1) old new expunged flags) :
      Walk i j (o :: old) (n :: new) expunged
        (if n.modseq = o.modseq then flags else .flags (j + 1) n.uid n.flags :: flags)

variable {i j : Nat} {old new : List MessageHead} {expunged : List Nat} {flags : List Update}

theorem diffLoop_walk (hold : UidsAscend old) (hnew : UidsAscend new)
    (h : diffLoop i j old new = some (expunged, flags)) : Walk i j old new expunged flags := by
  induction old generalizing i j new expunged flags with
  | nil =>
    cases h
    exact .done i j new
  | cons o old ih =>
    obtain ⟨ho, hold⟩ := List.pairwise_cons.mp hold
    cases new with
    | nil =>
      obtain ⟨⟨e, fs⟩, hrest, heq⟩ := Option.map_eq_some_iff.mp h
      cases heq
      exact .gone (by simp) (ih hold hnew hrest)
    | cons n new =>
      obtain ⟨hn, hnew'⟩ := List.pairwise_cons.mp hnew
      rw [diffLoop] at h
      split at h
      · next hlt =>
        obtain ⟨⟨e, fs⟩, hrest, heq⟩ := Option.map_eq_some_iff.mp h
        cases heq
        refine .gone ?_ (ih hold hnew hrest)
        rw [List.forall_mem_cons]
        exact ⟨hlt, fun n' hn' => Nat.lt_trans hlt (hn n' hn')⟩
      split at h
      · cases h
      next hlt hgt =>
      obtain ⟨⟨e, fs⟩, hrest, heq⟩ := Option.map_eq_some_iff.mp h
      cases heq
      exact .stays (Nat.le_antisymm (Nat.not_lt.mp hgt) (Nat.not_lt.mp hlt)) ho hn
        (ih hold hnew' hrest)

def kept (old new : List MessageHead) : List MessageHead :=
  old.filter fun o => new.any fun n => n.uid == o.uid

theorem kept_gone {o : MessageHead} (hgone : ∀ n ∈ new, o.uid < n.uid) :
    kept (o :: old) new = kept old new := by
  refine List.filter_cons_of_neg ?_
  simp only [List.any_eq_true, beq_iff_eq, not_exists, not_and]
  intro n hn heq
  have := hgone n hn
  omega

theorem kept_stays {o n : MessageHead} (huid : o.uid = n.uid) (hold : ∀ o' ∈ old, o.uid < o'.uid) :
    kept (o :: old) (n :: new) = o :: kept old new := by
  have hrest : kept old (n :: new) = kept old new := by
    refine List.filter_congr fun o' ho' => ?_
    have hne : (n.uid == o'.uid) = false := by
      have := hold o' ho'
      simp only [beq_eq_false_iff_ne]
      omega
    rw [List.any_cons, hne, Bool.false_or]
  rw [← hrest]
  refine List.filter_cons_of_pos ?_
  simp [huid]

theorem Walk.kept_eq (h : Walk i j old new expunged flags) :
    expunged.length + (kept old new).length = old.length ∧
      (kept old new).map MessageHead.uid =
        (new.take (kept old new).length).map MessageHead.uid := by
  induction h with
  | done => exact ⟨rfl, rfl⟩
  | gone hgone hrest ih =>
    rw [kept_gone hgone, List.length_cons, List.length_cons]
    exact ⟨by omega, ih.2⟩
  | stays huid hold hnew hrest ih =>
    rw [kept_stays huid hold, List.length_cons, List.length_cons, List.take_succ_cons,
      List.map_cons, List.map_cons,
      huid, ih.2]
    exact ⟨by omega, rfl⟩

end Walk

section Expunges

variable {i j : Nat} {old new : List MessageHead} {expunged : List Nat} {flags : List Update}

theorem replay_append (new : List MessageHead) (view : List Shown) (a b : List Update) :
    replay new view (a ++ b) = (replay new view a).bind fun view' => replay new view' b := by
  rw [replay, List.foldlM_append]
  rfl

theorem Walk.replay_expunges (h : Walk i j old new expunged flags) (goal : List MessageHead)
    (front : List Shown) (hfront : front.length = i) :
    replay goal (front ++ old.map MessageHead.shown) (expunged.reverse.map Update.expunge) =
      some (front ++ (kept old new).map MessageHead.shown) := by
  induction h generalizing front with
  | done => rfl
  | @gone i j o old new expunged flags hgone hrest ih =>
    rw [List.reverse_cons, List.map_append, replay_append, List.map_cons, List.append_cons,
      ih (front ++ [o.shown]) (by simp [hfront]), Option.bind_some, kept_gone hgone]
    have hrange : 0 < i + 1 ∧
      i + 1 ≤ (front ++ [o.shown] ++ (kept old new).map MessageHead.shown).length := by
      simp [hfront]
    have herase : (front ++ [o.shown] ++ (kept old new).map MessageHead.shown).eraseIdx i =
        front ++ (kept old new).map MessageHead.shown := by
      rw [← hfront, List.append_assoc, List.eraseIdx_append_of_length_le (Nat.le_refl _),
        Nat.sub_self]
      rfl
    simp only [List.map_cons, List.map_nil, replay, List.foldlM_cons, List.foldlM_nil, take,
      if_pos hrange,
      Nat.add_sub_cancel, herase]
    rfl
  | @stays i j o n old new expunged flags huid hold hnew hrest ih =>
    rw [kept_stays huid hold, List.map_cons, List.map_cons, List.append_cons,
      ih (front ++ [o.shown]) (by simp [hfront]), List.append_assoc, List.singleton_append]

end Expunges

section Arrivals

theorem replay_numMessages (new : List MessageHead) (d : Nat) (view : List Shown)
    (hlen : view.length + d = new.length) :
    replay new view ((List.range' (view.length + 1) d).map Update.numMessages) =
      some (view ++ (new.drop view.length).map MessageHead.shown) := by
  induction d generalizing view with
  | zero =>
    have hdrop : new.drop view.length = [] := List.drop_eq_nil_of_le (by omega)
    simp [replay, hdrop]
  | succ d ih =>
    have hlt : view.length < new.length := by omega
    have htake : take new view (.numMessages (view.length + 1)) =
      some (view ++ [new[view.length].shown]) := by
      simp [take, hlt]
    rw [List.range'_succ, List.map_cons, replay, List.foldlM_cons, htake]
    have hrest := ih (view ++ [new[view.length].shown]) (by simp; omega)
    rw [List.length_append, List.length_singleton] at hrest
    change replay new _ _ = _
    rw [hrest, List.drop_eq_getElem_cons hlt, List.map_cons, List.append_assoc,
      List.singleton_append]

end Arrivals

section Flags

variable {i j : Nat} {old new : List MessageHead} {expunged : List Nat} {flags : List Update}

theorem after_cons_of_ne {o n : MessageHead} (h : o.uid ≠ n.uid) :
    n.after (o :: old) = n.after old := by
  rw [MessageHead.after, MessageHead.after, List.find?_cons_of_neg (by simpa using h)]

theorem after_cons_self {o n : MessageHead} (h : o.uid = n.uid) :
    n.after (o :: old) = (n.uid, if n.modseq = o.modseq then o.flags else n.flags) := by
  rw [MessageHead.after, List.find?_cons_of_pos (by simpa using h)]

theorem Walk.replay_flags (h : Walk i j old new expunged flags) (goal : List MessageHead)
    (front : List Shown) (hfront : front.length = j) :
    replay goal (front ++ ((kept old new).map MessageHead.shown ++
        (new.drop (kept old new).length).map MessageHead.shown)) flags =
      some (front ++ new.map fun n => n.after old) := by
  induction h generalizing front with
  | done => rfl
  | @gone i j o old new expunged flags hgone hrest ih =>
    have hafter : (new.map fun n => n.after (o :: old)) = new.map fun n => n.after old :=
      List.map_congr_left fun n hn => after_cons_of_ne (Nat.ne_of_lt (hgone n hn))
    rw [kept_gone hgone, ih front hfront, hafter]
  | @stays i j o n old new expunged flags huid hold hnew hrest ih =>
    have hafter : (new.map fun n => n.after (o :: old)) = new.map fun n => n.after old :=
      List.map_congr_left fun n' hn' => after_cons_of_ne (huid ▸ Nat.ne_of_lt (hnew n' hn'))
    rw [kept_stays huid hold, List.length_cons, List.drop_succ_cons, List.map_cons, List.map_cons,
      hafter,
      after_cons_self huid, List.cons_append]
    split
    · rw [List.append_cons, ih (front ++ [o.shown]) (by simp [hfront]), MessageHead.shown, huid,
        List.append_assoc,
        List.singleton_append]
    · have hrange : 0 < j + 1 ∧
        j + 1 ≤ (front ++ o.shown :: ((kept old new).map MessageHead.shown ++
          (new.drop (kept old new).length).map MessageHead.shown)).length := by
        simp [hfront]
      have hset : (front ++ o.shown :: ((kept old new).map MessageHead.shown ++
          (new.drop (kept old new).length).map MessageHead.shown)).modify j
            (fun m => (m.1, n.flags)) =
          front ++ [(n.uid, n.flags)] ++ ((kept old new).map MessageHead.shown ++
            (new.drop (kept old new).length).map MessageHead.shown) := by
        rw [← hfront, List.modify_eq_take_drop, List.take_left, List.drop_left, List.append_assoc]
        simp [MessageHead.shown, huid]
      rw [replay, List.foldlM_cons, take, if_pos hrange, Nat.add_sub_cancel, hset]
      change replay goal _ flags = _
      rw [ih (front ++ [(n.uid, n.flags)]) (by simp [hfront]), List.append_assoc,
        List.singleton_append]

end Flags

section Bounds

variable {i j : Nat} {old new : List MessageHead} {expunged : List Nat} {flags : List Update}

theorem length_of_ascend {b : Nat} {heads : List MessageHead} (hasc : UidsAscend heads) (a : Nat)
    (hab : a < b) (hlow : ∀ h ∈ heads, a < h.uid) (hhigh : ∀ h ∈ heads, h.uid < b) :
      a + heads.length < b := by
  induction heads generalizing a with
  | nil => exact hab
  | cons h heads ih =>
    obtain ⟨hmore, hasc⟩ := List.pairwise_cons.mp hasc
    have hrest := ih hasc h.uid (hhigh h List.mem_cons_self) hmore fun h' hh' =>
      hhigh h' (List.mem_cons_of_mem h hh')
    have hbelow := hlow h List.mem_cons_self
    rw [List.length_cons]
    omega

theorem Snapshot.length_lt {heads : List MessageHead} (h : Snapshot heads) :
    heads.length < 2 ^ 32 := by
  have := length_of_ascend h.ascend 0 (by decide) h.pos h.fits
  omega

theorem Walk.expunged_le (h : Walk i j old new expunged flags) :
    ∀ seq ∈ expunged, seq ≤ i + old.length := by
  induction h with
  | done => simp
  | gone hgone hrest ih =>
    rw [List.forall_mem_cons, List.length_cons]
    refine ⟨by omega, fun seq hseq => ?_⟩
    have := ih seq hseq
    omega
  | stays huid hold hnew hrest ih =>
    intro seq hseq
    have := ih seq hseq
    rw [List.length_cons]
    omega

theorem Walk.mem_flags (h : Walk i j old new expunged flags) (u : Update) :
    u ∈ flags ↔ ∃ k n o, new[k]? = some n ∧ o ∈ old ∧ o.uid = n.uid ∧ n.modseq ≠ o.modseq ∧
      u = .flags (j + k + 1) n.uid n.flags := by
  induction h with
  | done => simp
  | gone hgone hrest ih =>
    rw [ih]
    constructor
    · rintro ⟨k, n, o', hk, ho', hrow⟩
      exact ⟨k, n, o', hk, List.mem_cons_of_mem _ ho', hrow⟩
    · rintro ⟨k, n, o', hk, ho', huid, hrow⟩
      rcases List.mem_cons.mp ho' with rfl | ho'
      · exact absurd huid (Nat.ne_of_lt (hgone n (List.mem_of_getElem? hk)))
      · exact ⟨k, n, o', hk, ho', huid, hrow⟩
  | @stays i j o n old new expunged flags huid hold hnew hrest ih =>
    have hlater : u ∈ flags ↔ ∃ k n' o', (n :: new)[k + 1]? = some n' ∧ o' ∈ o :: old ∧
      o'.uid = n'.uid ∧
        n'.modseq ≠ o'.modseq ∧ u = .flags (j + (k + 1) + 1) n'.uid n'.flags := by
      rw [ih]
      constructor
      · rintro ⟨k, n', o', hk, ho', huid', hmod, rfl⟩
        exact ⟨k, n', o', hk, List.mem_cons_of_mem _ ho', huid',
          hmod, by rw [Nat.add_right_comm j 1 k, Nat.add_assoc j k 1]⟩
      · rintro ⟨k, n', o', hk, ho', huid', hmod, rfl⟩
        rw [List.getElem?_cons_succ] at hk
        rcases List.mem_cons.mp ho' with rfl | ho'
        · have := hnew n' (List.mem_of_getElem? hk)
          omega
        · exact ⟨k, n', o', hk, ho', huid',
            hmod, by rw [Nat.add_right_comm j 1 k, Nat.add_assoc j k 1]⟩
    have hfirst : (∃ n' o', (n :: new)[0]? = some n' ∧ o' ∈ o :: old ∧ o'.uid = n'.uid ∧
      n'.modseq ≠ o'.modseq ∧
        u = .flags (j + 0 + 1) n'.uid n'.flags) ↔ n.modseq ≠ o.modseq ∧
        u = .flags (j + 1) n.uid n.flags := by
      constructor
      · rintro ⟨n', o', hn', ho', huid', hmod, rfl⟩
        cases hn'
        rcases List.mem_cons.mp ho' with rfl | ho'
        · exact ⟨hmod, rfl⟩
        · have := hold o' ho'
          omega
      · rintro ⟨hmod, rfl⟩
        exact ⟨n, o, rfl, List.mem_cons_self, huid, hmod, rfl⟩
    rw [← Nat.or_exists_add_one, hfirst, ← hlater]
    split
    · next heq => simp [heq]
    · next hne => simp [hne]

end Bounds

section Numbers

variable {store store' : Store} {lower : Name → Name}

structure Numbered (store : Store) : Prop where
  boxes : ∀ mb ∈ store.mailboxes, 0 < mb.uidnext
  rows : ∀ r ∈ store.messages, 0 < r.uid ∧ r.uid < 2 ^ 32

theorem Numbered.update {cond : Mailbox → Bool} {set : Mailbox → Mailbox} (h : Numbered store)
    (hset : ∀ mb, 0 < mb.uidnext → 0 < (set mb).uidnext) :
    ∀ mb ∈ update cond set store.mailboxes, 0 < mb.uidnext := by
  intro mb hmb
  obtain ⟨mb₀, hmb₀, rfl⟩ := mem_update.mp hmb
  split
  · exact hset mb₀ (h.boxes mb₀ hmb₀)
  · exact h.boxes mb₀ hmb₀

theorem Numbered.insertMessage {mb : Mailbox} {m : Message} (h : Numbered store)
    (hmb : 0 < mb.uidnext) (hok : store.insertMessage lower mb m = .ok store') :
      Numbered store' := by
  rw [Store.insertMessage, check_eq_ok, check_eq_ok] at hok
  obtain ⟨hfits, -, hok⟩ := hok
  cases hok
  refine ⟨h.update fun q hq => Nat.succ_pos _, fun r hr => ?_⟩
  rcases List.mem_append.mp hr with hr | hr
  · exact h.rows r hr
  · rw [List.mem_singleton.mp hr]
    exact ⟨hmb, Nat.not_le.mp hfits⟩

theorem Numbered.appendMessage {id : String} {m : Message} {res : AppendResult} (h : Numbered store)
    (hok : store.appendMessage lower id m = .ok (res, store')) : Numbered store' := by
  rw [Store.appendMessage, check_eq_ok, check_eq_ok, Store.appendOnce] at hok
  obtain ⟨-, -, hok⟩ := hok
  split at hok
  · cases hok
  next mb hbox =>
  have hmb := h.boxes mb (getMailboxByID_mem hbox).1
  split at hok
  · obtain ⟨st, hinsert, heq⟩ := map_eq_ok.mp hok
    cases heq
    exact h.insertMessage hmb hinsert
  split at hok
  · cases hok
    exact h
  · obtain ⟨st, hinsert, heq⟩ := map_eq_ok.mp hok
    cases heq
    have hdrop : ∀ uid, Numbered (store.dropMessage id uid) := fun uid =>
      ⟨h.boxes, fun r hr => h.rows r (List.mem_filter.mp hr).1⟩
    exact (hdrop _).insertMessage hmb hinsert

theorem Numbered.commit (h : Numbered store) {c : Commit}
    (hok : store.commit lower c = .ok store') :
    Numbered store' := by
  cases c with
  | insert tenant username name id now =>
    rw [Store.commit, Store.insertMailbox, check_eq_ok] at hok
    obtain ⟨-, hok⟩ := hok
    cases hok
    refine ⟨fun mb hmb => ?_, h.rows⟩
    rcases List.mem_append.mp hmb with hmb | hmb
    · exact h.boxes mb hmb
    · rw [List.mem_singleton.mp hmb]
      exact Nat.one_pos
  | delete id now =>
    cases hok
    exact ⟨h.update fun q hq => hq, h.rows⟩
  | reset id uidv =>
    cases hok
    exact ⟨h.update fun q hq => Nat.one_pos, fun r hr => h.rows r (List.mem_filter.mp hr).1⟩
  | append id m =>
    obtain ⟨⟨res, st⟩, happend, rfl⟩ := map_eq_ok.mp hok
    exact h.appendMessage happend
  | remove id uids onlyDeleted =>
    rw [Store.commit, Store.removeRows, check_eq_ok] at hok
    obtain ⟨-, hok⟩ := hok
    split at hok
    · cases hok
      exact h
    · cases hok
      exact ⟨h.update fun q hq => hq, fun r hr => h.rows r (List.mem_filter.mp hr).1⟩
  | setFlags id uid flags =>
    rw [Store.commit, Store.setFlags] at hok
    split at hok
    · cases hok
    next mb hbox =>
    rw [check_eq_ok] at hok
    obtain ⟨-, hok⟩ := hok
    cases hok
    refine ⟨h.update fun q hq => hq, fun r hr => ?_⟩
    obtain ⟨r₀, hr₀, rfl⟩ := mem_update.mp hr
    split
    · exact h.rows r₀ hr₀
    · exact h.rows r₀ hr₀

theorem Numbered.next {sys sys' : System} {step : Step} (h : Numbered sys.store)
    (hnext : sys.next lower step = some sys') : Numbered sys'.store := by
  cases does_next hnext with
  | commits origin here hok => exact h.commit hok
  | fails => exact h
  | notifies => exact h
  | adds => exact h
  | hub => exact h

theorem Numbered.snapshot (hok : StoreOk store) (h : Numbered store) (id : String) :
    Snapshot (store.listHeads id) := by
  have hrows : ∀ x ∈ store.listHeads id, 0 < x.uid ∧ x.uid < 2 ^ 32 := by
    intro x hx
    obtain ⟨r, hr, rfl⟩ := mem_listHeads.mp hx
    exact h.rows r (mem_rowsOf.mp hr).1
  exact ⟨ascend_listHeads hok id, fun x hx => (hrows x hx).1, fun x hx => (hrows x hx).2⟩

theorem snapshot_along (lower : Name → Name) (steps : List Step) :
    Along (System.next lower)
      (fun sys _ => ∀ id, Snapshot (sys.store.listHeads id)) .start steps := by
  refine Along.of_invariant (I := fun sys => SystemOk sys ∧ Numbered sys.store) ?_ ?_
    ⟨systemOk_start, fun _ hmb => absurd hmb List.not_mem_nil, fun _ hr =>
      absurd hr List.not_mem_nil⟩
    (Along.true _ _)
  · exact fun sys step sys' h _ hnext => ⟨systemOk_next h.1 hnext, h.2.next hnext⟩
  · exact fun sys step h _ id => h.2.snapshot h.1.store id

end Numbers

section Diff

variable {old new : List MessageHead} {ups : List Update}

theorem diff_eq_some (hold : UidsAscend old) (hnew : UidsAscend new) (h : diff old new = some ups) :
    ∃ expunged flags, Walk 0 0 old new expunged flags ∧
      ups = expunged.reverse.map Update.expunge ++
        (List.range' ((kept old new).length + 1) (new.length - (kept old new).length)).map
          Update.numMessages ++
        flags := by
  obtain ⟨⟨expunged, flags⟩, hloop, rfl⟩ := Option.map_eq_some_iff.mp h
  have hwalk := diffLoop_walk hold hnew hloop
  have hkept : old.length - expunged.length = (kept old new).length := by
    have := hwalk.kept_eq.1
    omega
  exact ⟨expunged, flags, hwalk, by simp only [hkept]⟩

theorem Walk.kept_length_le {i j : Nat} {expunged : List Nat} {flags : List Update}
    (h : Walk i j old new expunged flags) : (kept old new).length ≤ new.length := by
  have hlen := congrArg List.length h.kept_eq.2
  rw [List.length_map, List.length_map, List.length_take] at hlen
  omega

theorem uint32_of_mem_diff (hold : Snapshot old) (hnew : Snapshot new)
    (h : diff old new = some ups) :
    ∀ u ∈ ups, u.uint32 = u := by
  obtain ⟨expunged, flags, hwalk, rfl⟩ := diff_eq_some hold.ascend hnew.ascend h
  have hlold := hold.length_lt
  have hlnew := hnew.length_lt
  intro u hu
  rcases List.mem_append.mp hu with hu | hu
  · rcases List.mem_append.mp hu with hu | hu
    · obtain ⟨seq, hseq, rfl⟩ := List.mem_map.mp hu
      have hle := hwalk.expunged_le seq (List.mem_reverse.mp hseq)
      rw [Update.uint32, Nat.mod_eq_of_lt (by omega)]
    · obtain ⟨n, hn, rfl⟩ := List.mem_map.mp hu
      have hlt := (List.mem_range'_1.mp hn).2
      have hkept := hwalk.kept_length_le
      rw [Update.uint32, Nat.mod_eq_of_lt (by omega)]
  · obtain ⟨k, n, o, hk, -, -, -, rfl⟩ := (hwalk.mem_flags u).mp hu
    have hlt := (List.getElem?_eq_some_iff.mp hk).1
    rw [Update.uint32, Nat.mod_eq_of_lt (by omega)]

theorem diff32_eq (hold : Snapshot old) (hnew : Snapshot new) : diff32 old new = diff old new := by
  rw [diff32]
  cases h : diff old new with
  | none => rfl
  | some ups =>
    rw [Option.map_some, List.map_congr_left (uint32_of_mem_diff hold hnew h), List.map_id']

theorem replay_diff (hold : UidsAscend old) (hnew : UidsAscend new) (h : diff old new = some ups) :
    replay new (old.map MessageHead.shown) ups = some (new.map fun n => n.after old) := by
  obtain ⟨expunged, flags, hwalk, rfl⟩ := diff_eq_some hold hnew h
  have hlen : ((kept old new).map MessageHead.shown).length = (kept old new).length :=
    List.length_map _
  have hexpunge := hwalk.replay_expunges new [] rfl
  have hcount :=
    replay_numMessages new (new.length - (kept old new).length)
      ((kept old new).map MessageHead.shown)
    (by rw [hlen]; exact Nat.add_sub_of_le hwalk.kept_length_le)
  have hflags := hwalk.replay_flags new [] rfl
  simp only [List.nil_append] at hexpunge hflags
  rw [hlen] at hcount
  rw [replay_append, replay_append, hexpunge, Option.bind_some, hcount, Option.bind_some, hflags]

theorem mem_diff_flags (hold : UidsAscend old) (hnew : UidsAscend new) (h : diff old new = some ups)
    (seq uid : Nat) (fs : List Name) :
    .flags seq uid fs ∈ ups ↔ 0 < seq ∧ ∃ n o, new[seq - 1]? = some n ∧ o ∈ old ∧ o.uid = n.uid ∧
      n.modseq ≠ o.modseq ∧ uid = n.uid ∧ fs = n.flags := by
  obtain ⟨expunged, flags, hwalk, rfl⟩ := diff_eq_some hold hnew h
  have hmem : .flags seq uid fs ∈ expunged.reverse.map Update.expunge ++
      (List.range' ((kept old new).length + 1) (new.length - (kept old new).length)).map
        Update.numMessages ++ flags ↔
      .flags seq uid fs ∈ flags := by
    simp
  rw [hmem, hwalk.mem_flags]
  constructor
  · rintro ⟨k, n, o, hk, ho, huid, hmod, heq⟩
    cases heq
    exact ⟨by omega, n, o, by simpa using hk, ho, huid, hmod, rfl, rfl⟩
  · rintro ⟨hpos, n, o, hk, ho, huid, hmod, rfl, rfl⟩
    exact ⟨seq - 1, n, o, hk, ho, huid, hmod, by rw [Nat.zero_add, Nat.sub_add_cancel hpos]⟩

theorem diffLoop_ne_none {i j : Nat} (hold : UidsAscend old) (hnew : UidsAscend new)
    (htail : ∀ n ∈ new, (∀ o ∈ old, o.uid ≠ n.uid) → ∀ o ∈ old, o.uid < n.uid) :
      diffLoop i j old new ≠ none := by
  induction old generalizing i j new with
  | nil => simp [diffLoop]
  | cons o old ih =>
    obtain ⟨ho, hold⟩ := List.pairwise_cons.mp hold
    cases new with
    | nil =>
      rw [diffLoop, Ne, Option.map_eq_none_iff]
      exact ih hold hnew (by simp)
    | cons n new =>
      obtain ⟨hn, hnew'⟩ := List.pairwise_cons.mp hnew
      rw [diffLoop]
      split
      · next hlt =>
        rw [Ne, Option.map_eq_none_iff]
        refine ih hold hnew fun n' hn' hother o' ho' => ?_
        refine htail n' hn' ?_ o' (List.mem_cons_of_mem o ho')
        have hge : n.uid ≤ n'.uid := by
          rcases List.mem_cons.mp hn' with rfl | hn'
          · exact Nat.le_refl _
          · exact Nat.le_of_lt (hn n' hn')
        exact List.forall_mem_cons.mpr ⟨by omega, hother⟩
      · next hge =>
        split
        · next hlt =>
          -- Below the first old message there is none to be equal to.
          have hother : ∀ o' ∈ o :: old, o'.uid ≠ n.uid := by
            refine List.forall_mem_cons.mpr ⟨Nat.ne_of_gt hlt, fun o' ho' => ?_⟩
            have := ho o' ho'
            omega
          have := htail n List.mem_cons_self hother o List.mem_cons_self
          omega
        · next hle =>
          rw [Ne, Option.map_eq_none_iff]
          refine ih hold hnew' fun n' hn' hother o' ho' => ?_
          refine htail n' (List.mem_cons_of_mem n hn') ?_ o' (List.mem_cons_of_mem o ho')
          have := hn n' hn'
          exact List.forall_mem_cons.mpr ⟨by omega, hother⟩

end Diff

/-- What the updates of a sync do to the view of a client: it becomes that of the new list, with the
flags set of just the messages that stay under another modseq. -/
structure Replays (old new : List MessageHead) (ups : List Update) : Prop where
  view : ∃ view, replay new (old.map MessageHead.shown) ups = some view ∧ view.length = new.length ∧
    view.map Prod.fst = new.map MessageHead.uid ∧ view = new.map fun n => n.after old
  reports : ∀ seq uid fs, .flags seq uid fs ∈ ups ↔ 0 < seq ∧ ∃ n o, new[seq - 1]? = some n ∧
    o ∈ old ∧
    o.uid = n.uid ∧ n.modseq ≠ o.modseq ∧ uid = n.uid ∧ fs = n.flags

theorem after_uid (old : List MessageHead) (n : MessageHead) : (n.after old).1 = n.uid := by
  rw [MessageHead.after]
  split
  · rfl
  · rfl

/-- A difference that is found replays, and one is found whenever new messages come behind the
old. -/
theorem diff32_replays {old new : List MessageHead} (hold : Snapshot old) (hnew : Snapshot new) :
    (∀ ups, diff32 old new = some ups → Replays old new ups) ∧
      ((∀ n ∈ new, (∀ o ∈ old, o.uid ≠ n.uid) → ∀ o ∈ old, o.uid < n.uid) →
      ∃ ups, diff32 old new = some ups) := by
  rw [diff32_eq hold hnew]
  constructor
  · intro ups h
    refine ⟨⟨_, replay_diff hold.ascend hnew.ascend h, List.length_map _, ?_, rfl⟩,
      mem_diff_flags hold.ascend hnew.ascend h⟩
    rw [List.map_map]
    exact List.map_congr_left fun n _ => after_uid old n
  · intro htail
    obtain ⟨walked, hwalked⟩ :=
      Option.ne_none_iff_exists'.mp
        (diffLoop_ne_none (i := 0) (j := 0) hold.ascend hnew.ascend htail)
    exact ⟨_, by rw [diff, hwalked, Option.map_some]⟩

/-- Of four messages two are gone and one is flagged; two more have come. -/
theorem diff32_replays_interleaved :
    Replays [⟨1, [], 0, 0, 1, 0⟩, ⟨2, [], 0, 0, 2, 1⟩, ⟨3, [], 0, 0, 3, 2⟩, ⟨4, [], 0, 0, 4, 3⟩]
      [⟨2, [], 0, 0, 2, 1⟩, ⟨4, ["\\Seen".toList], 0, 0, 9, 3⟩, ⟨5, [], 0, 0, 5, 4⟩,
        ⟨6, [], 0, 0, 6, 5⟩]
      [.expunge 3, .expunge 1, .numMessages 3, .numMessages 4, .flags 2 4 ["\\Seen".toList]] :=
  (diff32_replays ⟨by decide, by decide, by decide⟩ ⟨by decide, by decide, by decide⟩).1 _
    (by decide)

end ThanksComputer.Imap
