import ThanksComputer.Imap.Hub
import ThanksComputer.Lib.Checks
import ThanksComputer.Lib.Runs

/-! What the hub's two reads see.  Every commit to a mailbox counts up its modseq, so a snapshot
that shows the mailbox's modseq shows its messages; and it shows those of one UIDVALIDITY, unless a
reset comes between the reads. -/

namespace ThanksComputer.Imap

open Lib.Checks Lib.Runs Lib.Table

section Commits

variable {store store' : Store}

def Store.rowsOf (store : Store) (id : String) : List Row :=
  store.messages.filter fun r => r.mailboxID == id

theorem mem_rowsOf {id : String} {r : Row} :
    r ∈ store.rowsOf id ↔ r ∈ store.messages ∧ r.mailboxID = id := by
  rw [Store.rowsOf, List.mem_filter, beq_iff_eq]

theorem listHeads_congr {id : String} (h : store'.rowsOf id = store.rowsOf id) :
    store'.listHeads id = store.listHeads id := by
  rw [Store.rowsOf, Store.rowsOf] at h
  rw [Store.listHeads, Store.listHeads, h]

structure StoreOk (store : Store) : Prop where
  ids : (store.mailboxes.map Mailbox.id).Nodup
  keys : (store.messages.map fun r => (r.mailboxID, r.uid)).Nodup
  rows : ∀ r ∈ store.messages, ∃ mb ∈ store.mailboxes, mb.id = r.mailboxID ∧ r.modseq ≤ mb.modseq ∧
    store.births[r.serial]? = some mb.uidvalidity

/-- What a commit to the mailbox `id` does: it counts up the modseq there, or leaves the messages as
they were. -/
structure Advances (id : String) (store store' : Store) : Prop where
  ok : StoreOk store'
  births : ∀ (n v : Nat), store.births[n]? = some v → store'.births[n]? = some v
  boxes : ∀ mb ∈ store.mailboxes, ∃ mb' ∈ store'.mailboxes, mb'.id = mb.id ∧
    (mb'.modseq = mb.modseq ∧ mb'.uidvalidity = mb.uidvalidity ∧
        store'.rowsOf mb.id = store.rowsOf mb.id ∨
      mb.id = id ∧ mb.modseq < mb'.modseq)

theorem advances_map (h : StoreOk store) {id : String} {f : Mailbox → Mailbox} {messages : List Row}
    {births : List Nat} (hid : ∀ mb, (f mb).id = mb.id) (hother : ∀ mb, mb.id ≠ id → f mb = mb)
    (hkeys : (messages.map fun r => (r.mailboxID, r.uid)).Nodup)
    (hbirths : ∀ (n v : Nat), store.births[n]? = some v → births[n]? = some v)
    (hrest : ∀ j ≠ id, (messages.filter fun r => r.mailboxID == j) = store.rowsOf j)
    (hthis : ∀ mb ∈ store.mailboxes, mb.id = id →
      (∀ r ∈ messages, r.mailboxID = id → r.modseq ≤ (f mb).modseq ∧
        births[r.serial]? = some (f mb).uidvalidity) ∧
      ((f mb).modseq = mb.modseq ∧ (f mb).uidvalidity = mb.uidvalidity ∧
          (messages.filter fun r => r.mailboxID == id) = store.rowsOf id ∨
        mb.modseq < (f mb).modseq))
    (hex : ∀ r ∈ messages, r.mailboxID = id → ∃ mb ∈ store.mailboxes, mb.id = id) :
    Advances id store ⟨store.mailboxes.map f, messages, births⟩ where
  ok := by
    refine ⟨?_, hkeys, fun r hr => ?_⟩
    · have hsame : (store.mailboxes.map f).map Mailbox.id = store.mailboxes.map Mailbox.id := by
        rw [List.map_map]
        exact List.map_congr_left fun mb _ => hid mb
      exact hsame ▸ h.ids
    · by_cases hrid : r.mailboxID = id
      · obtain ⟨mb, hmb, hmbid⟩ := hex r hr hrid
        have hrow := (hthis mb hmb hmbid).1 r hr hrid
        exact ⟨f mb, List.mem_map_of_mem hmb, (hid mb).trans (hmbid.trans hrid.symm), hrow⟩
      · have hmem : r ∈ store.rowsOf r.mailboxID := by
          rw [← hrest _ hrid, List.mem_filter, beq_self_eq_true]
          exact ⟨hr, rfl⟩
        obtain ⟨mb, hmb, hmbid, hle, hborn⟩ := h.rows r (mem_rowsOf.mp hmem).1
        have hfixed : f mb = mb := hother mb fun heq => hrid (hmbid.symm.trans heq)
        exact ⟨mb, List.mem_map.mpr ⟨mb, hmb, hfixed⟩, hmbid, hle, hbirths _ _ hborn⟩
  births := hbirths
  boxes mb hmb := by
    refine ⟨f mb, List.mem_map_of_mem hmb, hid mb, ?_⟩
    by_cases hmbid : mb.id = id
    · rcases (hthis mb hmb hmbid).2 with ⟨hmod, huidv, hrows⟩ | hlt
      · exact .inl ⟨hmod, huidv, hmbid ▸ hrows⟩
      · exact .inr ⟨hmbid, hlt⟩
    · rw [hother mb hmbid]
      exact .inl ⟨rfl, rfl, hrest mb.id hmbid⟩

theorem StoreOk.row (h : StoreOk store) {r : Row} (hr : r ∈ store.messages) {mb : Mailbox}
    (hmb : mb ∈ store.mailboxes) (hid : r.mailboxID = mb.id) :
    r.modseq ≤ mb.modseq ∧ store.births[r.serial]? = some mb.uidvalidity := by
  obtain ⟨q, hq, hqid, hrow⟩ := h.rows r hr
  rw [eq_of_key h.ids hmb hq (hid.symm.trans hqid.symm)]
  exact hrow

theorem filter_rowsOf {p : Row → Bool} {j : String} (h : ∀ r ∈ store.rowsOf j, p r = true) :
    ((store.messages.filter p).filter fun r => r.mailboxID == j) = store.rowsOf j := by
  rw [Store.rowsOf, List.filter_filter]
  apply List.filter_congr
  intro r hr
  cases hrid : r.mailboxID == j with
  | false => rw [Bool.false_and]
  | true => rw [h r (mem_rowsOf.mpr ⟨hr, beq_iff_eq.mp hrid⟩), Bool.and_true]

theorem advances_refl (h : StoreOk store) (id : String) : Advances id store store where
  ok := h
  births _ _ hv := hv
  boxes mb hmb := ⟨mb, hmb, rfl, .inl ⟨rfl, rfl, rfl⟩⟩

theorem advances_insertMailbox (h : StoreOk store) {tenant : String} {username name : Name}
    {id : String} {now : Int} (hok : store.insertMailbox tenant username name id now = .ok store') :
    Advances id store store' := by
  rw [Store.insertMailbox, check_eq_ok, not_or] at hok
  obtain ⟨⟨hfresh, -⟩, hok⟩ := hok
  cases hok
  rw [Bool.not_eq_true, List.any_eq_false] at hfresh
  refine ⟨⟨nodup_insert h.ids fun mb hmb heq => hfresh mb hmb (beq_iff_eq.mpr heq), h.keys, ?_⟩,
    fun _ _ hv => hv, fun mb hmb => ⟨mb, List.mem_append_left _ hmb, rfl, .inl ⟨rfl, rfl, rfl⟩⟩⟩
  intro r hr
  obtain ⟨mb, hmb, hrow⟩ := h.rows r hr
  exact ⟨mb, List.mem_append_left _ hmb, hrow⟩

theorem advances_deleteByID (h : StoreOk store) (id : String) (now : Int) :
    Advances id store (store.deleteByID id now) := by
  have hdeleted : ∀ mb : Mailbox,
      (if (mb.id == id && mb.live) = true then { mb with deletedAt := some now } else mb).id =
        mb.id ∧
      (if (mb.id == id && mb.live) = true then { mb with deletedAt := some now } else mb).modseq =
        mb.modseq ∧
      (if (mb.id == id && mb.live) = true then { mb with deletedAt := some now }
        else mb).uidvalidity =
        mb.uidvalidity := by
    intro mb
    split
    · exact ⟨rfl, rfl, rfl⟩
    · exact ⟨rfl, rfl, rfl⟩
  refine advances_map h (fun mb => (hdeleted mb).1) ?_ h.keys (fun _ _ hv => hv)
    (fun _ _ => rfl) ?_ ?_
  · intro mb hne
    rw [if_neg (by simp [hne])]
  · intro mb hmb hmbid
    obtain ⟨-, hmod, huidv⟩ := hdeleted mb
    refine ⟨fun r hr hrid => ?_, .inl ⟨hmod, huidv, rfl⟩⟩
    rw [hmod, huidv]
    exact h.row hr hmb (hrid.trans hmbid.symm)
  · intro r hr hrid
    obtain ⟨mb, hmb, hmbid, -⟩ := h.rows r hr
    exact ⟨mb, hmb, hmbid.trans hrid⟩

theorem advances_resetTo (h : StoreOk store) (id : String) (uidv : Nat) :
    Advances id store (store.resetTo id uidv) := by
  have hnone : ∀ r ∈ store.messages.filter (fun r => r.mailboxID != id), r.mailboxID ≠ id :=
    fun r hr => bne_iff_ne.mp (List.mem_filter.mp hr).2
  refine advances_map h ?_ ?_ (h.keys.sublist (List.filter_sublist.map _))
    (fun _ _ hv => hv) ?_ ?_ ?_
  · intro mb
    split
    · rfl
    · rfl
  · intro mb hne
    rw [if_neg fun heq => hne (beq_iff_eq.mp heq)]
  · exact fun j hj => filter_rowsOf fun r hr => bne_iff_ne.mpr ((mem_rowsOf.mp hr).2 ▸ hj)
  · intro mb hmb hmbid
    refine ⟨fun r hr hrid => absurd hrid (hnone r hr), .inr ?_⟩
    rw [if_pos (beq_iff_eq.mpr hmbid)]
    exact Nat.lt_succ_self _
  · exact fun r hr hrid => absurd hrid (hnone r hr)

theorem advances_bump (h : StoreOk store) {id : String} {messages : List Row}
    (hkeys : (messages.map fun r => (r.mailboxID, r.uid)).Nodup)
    (hrest : ∀ j ≠ id, (messages.filter fun r => r.mailboxID == j) = store.rowsOf j)
    (hrows : ∀ r ∈ messages, r.mailboxID = id → ∃ r₀ ∈ store.messages, r₀.mailboxID = id ∧
      r₀.serial = r.serial ∧ ∀ mb ∈ store.mailboxes, mb.id = id → r.modseq ≤ mb.modseq + 1) :
    Advances id store { store.bump id with messages := messages } := by
  refine advances_map h ?_ ?_ hkeys (fun _ _ hv => hv) hrest ?_ ?_
  · intro mb
    split
    · rfl
    · rfl
  · intro mb hne
    rw [if_neg fun heq => hne (beq_iff_eq.mp heq)]
  · intro mb hmb hmbid
    rw [if_pos (beq_iff_eq.mpr hmbid)]
    refine ⟨fun r hr hrid => ?_, .inr (Nat.lt_succ_self _)⟩
    obtain ⟨r₀, hr₀, hid₀, hserial, hmod⟩ := hrows r hr hrid
    rw [← hserial]
    exact ⟨hmod mb hmb hmbid, (h.row hr₀ hmb (hid₀.trans hmbid.symm)).2⟩
  · intro r hr hrid
    obtain ⟨r₀, hr₀, hid₀, -⟩ := hrows r hr hrid
    obtain ⟨mb, hmb, hmbid, -⟩ := h.rows r₀ hr₀
    exact ⟨mb, hmb, hmbid.trans hid₀⟩

theorem advances_removeRows (h : StoreOk store) {id : String} {uids : List Nat} {onlyDeleted : Bool}
    (hok : store.removeRows id uids onlyDeleted = .ok store') : Advances id store store' := by
  rw [Store.removeRows, check_eq_ok] at hok
  obtain ⟨-, hok⟩ := hok
  split at hok
  · cases hok
    exact advances_refl h id
  · cases hok
    refine advances_bump h (h.keys.sublist (List.filter_sublist.map _)) ?_ ?_
    · intro j hj
      apply filter_rowsOf
      intro r hr
      have hne : r.mailboxID ≠ id := (mem_rowsOf.mp hr).2 ▸ hj
      simp [hne]
    · intro r hr hrid
      have hmem := (List.mem_filter.mp hr).1
      refine ⟨r, hmem, hrid, rfl, fun mb hmb hmbid => ?_⟩
      exact Nat.le_succ_of_le (h.row hmem hmb (hrid.trans hmbid.symm)).1

theorem advances_setFlags (h : StoreOk store) {lower : Name → Name} {id : String} {uid : Nat}
    {flags : List Name} (hok : store.setFlags lower id uid flags = .ok store') :
    Advances id store store' := by
  rw [Store.setFlags] at hok
  split at hok
  · cases hok
  next mb hbox =>
  rw [check_eq_ok] at hok
  obtain ⟨-, hok⟩ := hok
  cases hok
  have hmb := List.mem_of_find?_eq_some hbox
  have hmbid := List.find?_some hbox
  rw [beq_iff_eq] at hmbid
  refine advances_bump h ?_ ?_ ?_
  · rw [map_update]
    · exact h.keys
    · exact fun _ => rfl
  · intro j hj
    apply filter_update
    intro r _ hr
    rw [Bool.and_eq_true, beq_iff_eq] at hr
    have hne : (r.mailboxID == j) = false := beq_eq_false_iff_ne.mpr fun heq =>
      hj (heq.symm.trans hr.1)
    exact ⟨hne, hne⟩
  · intro r hr hrid
    obtain ⟨r₀, hr₀, rfl⟩ := mem_update.mp hr
    have hkept : ∀ q ∈ store.mailboxes, q.id = id → r₀.mailboxID = id → r₀.modseq ≤ q.modseq :=
      fun q hq hqid hid₀ => (h.row hr₀ hq (hid₀.trans hqid.symm)).1
    split at hrid
    · next hcond =>
      rw [if_pos hcond]
      refine ⟨r₀, hr₀, hrid, rfl, fun q hq hqid => ?_⟩
      rw [eq_of_key h.ids hq hmb (hqid.trans hmbid.symm)]
    · next hcond =>
      rw [if_neg hcond]
      exact ⟨r₀, hr₀, hrid, rfl, fun q hq hqid => Nat.le_succ_of_le (hkept q hq hqid hrid)⟩

theorem getMailboxByID_mem {id : String} {mb : Mailbox} (h : store.getMailboxByID id = some mb) :
    mb ∈ store.mailboxes ∧ mb.id = id := by
  have hcond := List.find?_some h
  rw [Bool.and_eq_true, beq_iff_eq] at hcond
  exact ⟨List.mem_of_find?_eq_some h, hcond.2⟩

theorem advances_insertMessage (h : StoreOk store) {lower : Name → Name} {mb : Mailbox}
    {m : Message} {st : Store} (hboxes : st.mailboxes = store.mailboxes)
    (hbirths : st.births = store.births) (hsub : st.messages.Sublist store.messages)
    (hrest : ∀ j ≠ mb.id, st.rowsOf j = store.rowsOf j) (hmb : mb ∈ store.mailboxes)
    (hok : st.insertMessage lower mb m = .ok store') : Advances mb.id store store' := by
  rw [Store.insertMessage, check_eq_ok, check_eq_ok] at hok
  obtain ⟨-, hfree, hok⟩ := hok
  cases hok
  rw [hboxes, hbirths]
  have hgrow : ∀ (n v : Nat), store.births[n]? = some v →
      (store.births ++ [mb.uidvalidity])[n]? = some v := by
    intro n v hv
    rw [List.getElem?_append_left (List.getElem?_eq_some_iff.mp hv).1]
    exact hv
  refine advances_map h ?_ ?_ ?_ hgrow ?_ ?_ ?_
  · intro q
    split
    · rfl
    · rfl
  · intro q hne
    rw [if_neg fun heq => hne (beq_iff_eq.mp heq)]
  · refine nodup_insert (h.keys.sublist (hsub.map _)) fun r hr heq => ?_
    obtain ⟨hid, huid⟩ := Prod.ext_iff.mp heq
    refine hfree (List.any_eq_true.mpr ⟨r, hr, ?_⟩)
    simp only at hid huid
    simp [hid, huid]
  · intro j hj
    rw [List.filter_append, ← hrest j hj, Store.rowsOf, List.append_right_eq_self]
    exact List.filter_eq_nil_iff.mpr fun r hr => by
      rw [List.mem_singleton.mp hr, beq_iff_eq]
      exact fun heq => hj heq.symm
  · intro q hq hqid
    have hsame : q = mb := eq_of_key h.ids hq hmb hqid
    subst hsame
    rw [if_pos (beq_self_eq_true _)]
    refine ⟨fun r hr hrid => ?_, .inr (Nat.lt_succ_self _)⟩
    rcases List.mem_append.mp hr with hr | hr
    · obtain ⟨hle, hborn⟩ := h.row (hsub.subset hr) hq hrid
      exact ⟨Nat.le_succ_of_le hle, hgrow _ _ hborn⟩
    · rw [List.mem_singleton.mp hr]
      exact ⟨Nat.le_refl _, by rw [List.getElem?_append_right (Nat.le_refl _), Nat.sub_self]; rfl⟩
  · exact fun r hr hrid => ⟨mb, hmb, rfl⟩

theorem advances_appendMessage (h : StoreOk store) {lower : Name → Name} {id : String} {m : Message}
    {res : AppendResult} (hok : store.appendMessage lower id m = .ok (res, store')) :
    Advances id store store' := by
  rw [Store.appendMessage, check_eq_ok, check_eq_ok, Store.appendOnce] at hok
  obtain ⟨-, -, hok⟩ := hok
  split at hok
  · cases hok
  next mb hbox =>
  obtain ⟨hmb, rfl⟩ := getMailboxByID_mem hbox
  split at hok
  · obtain ⟨st, hinsert, heq⟩ := map_eq_ok.mp hok
    cases heq
    exact advances_insertMessage h rfl rfl (List.Sublist.refl _) (fun _ _ => rfl) hmb hinsert
  split at hok
  · cases hok
    exact advances_refl h mb.id
  · obtain ⟨st, hinsert, heq⟩ := map_eq_ok.mp hok
    cases heq
    refine advances_insertMessage h ?_ ?_ ?_ ?_ hmb hinsert
    · rfl
    · rfl
    · exact List.filter_sublist
    · intro j hj
      apply filter_rowsOf
      intro r hr
      have hne : r.mailboxID ≠ mb.id := (mem_rowsOf.mp hr).2 ▸ hj
      simp [hne]

theorem advances_commit (h : StoreOk store) {lower : Name → Name} {c : Commit}
    (hok : store.commit lower c = .ok store') : Advances c.mailboxID store store' := by
  cases c with
  | insert tenant username name id now => exact advances_insertMailbox h hok
  | delete id now =>
    cases hok
    exact advances_deleteByID h id now
  | reset id uidv =>
    cases hok
    exact advances_resetTo h id uidv
  | append id m =>
    obtain ⟨⟨res, st⟩, happend, rfl⟩ := map_eq_ok.mp hok
    exact advances_appendMessage h happend
  | remove id uids onlyDeleted => exact advances_removeRows h hok
  | setFlags id uid flags => exact advances_setFlags h hok

end Commits

section States

variable {store store' : Store} {commits commits' : List String} {id : String}

def Seen (store : Store) (commits : List String) (id : String) (modseq n : Nat) : Prop :=
  ∃ mb ∈ store.mailboxes, mb.id = id ∧ modseq ≤ mb.modseq ∧ n ≤ commits.count id ∧
    (n = commits.count id → modseq = mb.modseq)

/-- Heads that are those of the mailbox as long as it shows this modseq. -/
def Copied (store : Store) (id : String) (modseq : Nat) (heads : List MessageHead) : Prop :=
  ∀ mb ∈ store.mailboxes, mb.id = id → modseq = mb.modseq → heads = store.listHeads id

def Born (store : Store) (uidvalidity : Nat) (heads : List MessageHead) : Prop :=
  ∀ h ∈ heads, store.births[h.serial]? = some uidvalidity

theorem Seen.commit {modseq n : Nat} (h : Seen store commits id modseq n) {c : String}
    (hadv : Advances c store store') : Seen store' (commits ++ [c]) id modseq n := by
  obtain ⟨mb, hmb, rfl, hle, hn, hnow⟩ := h
  obtain ⟨mb', hmb', hid, hcase⟩ := hadv.boxes mb hmb
  refine ⟨mb', hmb', hid, ?_⟩
  rw [List.count_append]
  rcases hcase with ⟨hmod, -, -⟩ | ⟨rfl, hlt⟩
  · rw [hmod]
    refine ⟨hle, Nat.le_add_right_of_le hn, fun heq => hnow ?_⟩
    omega
  · rw [List.count_singleton_self]
    exact ⟨Nat.le_of_lt (Nat.lt_of_le_of_lt hle hlt), Nat.le_succ_of_le hn, fun heq => by omega⟩

theorem Copied.commit {modseq n : Nat} {heads : List MessageHead} (h : Copied store id modseq heads)
    (hseen : Seen store commits id modseq n) {c : String} (hadv : Advances c store store') :
    Copied store' id modseq heads := by
  intro mb' hmb' hid' hmod
  obtain ⟨mb, hmb, rfl, hle, -⟩ := hseen
  obtain ⟨q, hq, hqid, hcase⟩ := hadv.boxes mb hmb
  rw [eq_of_key hadv.ok.ids hmb' hq (hid'.trans hqid.symm)] at hmod
  rcases hcase with ⟨hsame, -, hrows⟩ | ⟨-, hlt⟩
  · rw [listHeads_congr hrows]
    exact h mb hmb rfl (hmod.trans hsame)
  · omega

theorem Born.commit {uidvalidity : Nat} {heads : List MessageHead}
    (h : Born store uidvalidity heads) {c : String} (hadv : Advances c store store') :
      Born store' uidvalidity heads :=
  fun x hx => hadv.births _ _ (h x hx)

theorem mem_listHeads {h : MessageHead} :
    h ∈ store.listHeads id ↔ ∃ r ∈ store.rowsOf id, Store.Row.head r = h := by
  rw [Store.listHeads, List.mem_insertionSort, List.mem_map]
  rfl

theorem StoreOk.born (h : StoreOk store) {mb : Mailbox} (hmb : mb ∈ store.mailboxes) :
    Born store mb.uidvalidity (store.listHeads mb.id) := by
  intro x hx
  obtain ⟨r, hr, rfl⟩ := mem_listHeads.mp hx
  obtain ⟨hmem, hrid⟩ := mem_rowsOf.mp hr
  exact (h.row hmem hmb hrid).2

/-- What a state holds, and what a sync under way has read of it: heads that belong to a modseq of
the mailbox. -/
structure StateOk (store : Store) (commits : List String) (st : MailboxState) : Prop where
  seen : st.initialised = true → ∃ n, st.synced = some n ∧ Seen store commits st.id st.modseq n
  copied : st.initialised = true → Copied store st.id st.modseq st.heads
  syncSeen : ∀ p, st.sync = some p → Seen store commits st.id p.mb.modseq p.commits
  syncCopied : ∀ p, st.sync = some p → ∀ heads, p.heads = some heads →
    Copied store st.id p.mb.modseq heads

/-- The heads of a state are of its UIDVALIDITY, and so are those a sync has read for it. -/
structure BornOk (store : Store) (st : MailboxState) : Prop where
  born : st.initialised = true → Born store st.uidvalidity st.heads
  uidvalidity : ∀ p, st.sync = some p → st.initialised = true → p.mb.uidvalidity = st.uidvalidity
  syncBorn : ∀ p, st.sync = some p → ∀ heads, p.heads = some heads →
    Born store p.mb.uidvalidity heads

variable {st st' : MailboxState}

theorem StateOk.idle (hsync : st.sync = none)
    (hseen : st.initialised = true → ∃ n, st.synced = some n ∧ Seen store commits st.id st.modseq n)
    (hcopied : st.initialised = true → Copied store st.id st.modseq st.heads) :
    StateOk store commits st where
  seen := hseen
  copied := hcopied
  syncSeen p hp := by rw [hsync] at hp; cases hp
  syncCopied p hp := by rw [hsync] at hp; cases hp

theorem BornOk.idle (hsync : st.sync = none)
    (hborn : st.initialised = true → Born store st.uidvalidity st.heads) : BornOk store st where
  born := hborn
  uidvalidity p hp := by rw [hsync] at hp; cases hp
  syncBorn p hp := by rw [hsync] at hp; cases hp

theorem StateOk.commit (h : StateOk store commits st) {c : String}
    (hadv : Advances c store store') :
    StateOk store' (commits ++ [c]) st where
  seen hinit := by
    obtain ⟨n, hn, hseen⟩ := h.seen hinit
    exact ⟨n, hn, hseen.commit hadv⟩
  copied hinit := by
    obtain ⟨n, hn, hseen⟩ := h.seen hinit
    exact (h.copied hinit).commit hseen hadv
  syncSeen p hp := (h.syncSeen p hp).commit hadv
  syncCopied p hp heads hheads := (h.syncCopied p hp heads hheads).commit (h.syncSeen p hp) hadv

theorem BornOk.commit (h : BornOk store st) {c : String} (hadv : Advances c store store') :
    BornOk store' st where
  born hinit := (h.born hinit).commit hadv
  uidvalidity := h.uidvalidity
  syncBorn p hp heads hheads := (h.syncBorn p hp heads hheads).commit hadv

/-- Two states with one snapshot, where no sync is under way but one that was. -/
structure SameSnapshot (st st' : MailboxState) : Prop where
  id : st'.id = st.id
  initialised : st'.initialised = st.initialised
  uidvalidity : st'.uidvalidity = st.uidvalidity
  modseq : st'.modseq = st.modseq
  heads : st'.heads = st.heads
  synced : st'.synced = st.synced
  sync : ∀ p, st'.sync = some p → st.sync = some p

theorem StateOk.congr (h : StateOk store commits st) (hsame : SameSnapshot st st') :
    StateOk store commits st' where
  seen := by
    rw [hsame.initialised, hsame.id, hsame.modseq, hsame.synced]
    exact h.seen
  copied := by
    rw [hsame.initialised, hsame.id, hsame.modseq, hsame.heads]
    exact h.copied
  syncSeen p hp := by
    rw [hsame.id]
    exact h.syncSeen p (hsame.sync p hp)
  syncCopied p hp := by
    rw [hsame.id]
    exact h.syncCopied p (hsame.sync p hp)

theorem BornOk.congr (h : BornOk store st) (hsame : SameSnapshot st st') : BornOk store st' where
  born := by
    rw [hsame.initialised, hsame.uidvalidity, hsame.heads]
    exact h.born
  uidvalidity p hp := by
    rw [hsame.initialised, hsame.uidvalidity]
    exact h.uidvalidity p (hsame.sync p hp)
  syncBorn p hp := h.syncBorn p (hsame.sync p hp)

theorem SameSnapshot.trans {st'' : MailboxState} (h : SameSnapshot st st')
    (h' : SameSnapshot st' st'') :
    SameSnapshot st st'' where
  id := h'.id.trans h.id
  initialised := h'.initialised.trans h.initialised
  uidvalidity := h'.uidvalidity.trans h.uidvalidity
  modseq := h'.modseq.trans h.modseq
  heads := h'.heads.trans h.heads
  synced := h'.synced.trans h.synced
  sync p hp := h.sync p (h'.sync p hp)

theorem sameSnapshot_close (st : MailboxState) : SameSnapshot st st.close :=
  ⟨rfl, rfl, rfl, rfl, rfl, rfl, fun _ hp => hp⟩

theorem sameSnapshot_markGone (st : MailboxState) : SameSnapshot st st.markGone :=
  ⟨rfl, rfl, rfl, rfl, rfl, rfl, fun _ hp => by cases hp⟩

theorem sameSnapshot_abandon (st : MailboxState) (opens : Bool) :
    SameSnapshot st (st.abandon opens) := by
  have hleft : SameSnapshot st
    (if st.initialised then { st with sync := none } else st.markGone) := by
    split
    · exact ⟨rfl, rfl, rfl, rfl, rfl, rfl, fun _ hp => by cases hp⟩
    · exact sameSnapshot_markGone st
  unfold MailboxState.abandon
  dsimp only
  split
  · exact hleft.trans (sameSnapshot_close _)
  · exact hleft

theorem sameSnapshot_onChange (st : MailboxState) (c : Change) :
    SameSnapshot st (st.onChange c) := by
  rw [MailboxState.onChange]
  split
  · split
    · exact ⟨rfl, rfl, rfl, rfl, rfl, rfl, fun _ hp => hp⟩
    · exact ⟨rfl, rfl, rfl, rfl, rfl, rfl, fun _ hp => hp⟩
  · exact ⟨rfl, rfl, rfl, rfl, rfl, rfl, fun _ hp => hp⟩

/-- What the read of the mailbox comes to. -/
inductive Reads (store : Store) (n session : Nat) (st : MailboxState) : MailboxState → Prop
  | stays {st' : MailboxState} (hsame : SameSnapshot st st')
    (hsessions : st'.sessions = st.sessions) :
      Reads store n session st st'
  | upToDate {mb} (opens : Bool) (hinit : st.initialised = true)
      (hbox : store.getMailboxByID st.id = some mb) (hmod : mb.modseq = st.modseq) :
      Reads store n session st (st.finish session ⟨opens, mb, n, none⟩)
  | goesOn {mb} (opens : Bool) (hbox : store.getMailboxByID st.id = some mb)
      (huidv : st.initialised = true → mb.uidvalidity = st.uidvalidity) :
      Reads store n session st { st with sync := some ⟨opens, mb, n, none⟩ }

theorem sessions_abandon (st : MailboxState) (opens : Bool) :
    (st.abandon opens).sessions = st.sessions := by
  unfold MailboxState.abandon
  dsimp only
  split
  · split
    · rfl
    · rfl
  · split
    · rfl
    · rfl

theorem reads_readMailbox (store : Store) (n session : Nat) (st : MailboxState)
    (opens inits : Bool) :
    Reads store n session st (st.readMailbox store n session opens inits) := by
  have hgone : Reads store n session st (st.markGone.abandon opens) :=
    .stays ((sameSnapshot_markGone st).trans (sameSnapshot_abandon _ opens))
      (sessions_abandon _ opens)
  rw [MailboxState.readMailbox]
  split
  · exact .stays (sameSnapshot_abandon st opens) (sessions_abandon st opens)
  split
  · split
    · exact .stays (sameSnapshot_close st) rfl
    · exact .stays ⟨rfl, rfl, rfl, rfl, rfl, rfl, fun _ hp => hp⟩ rfl
  split
  · exact hgone
  next mb hbox =>
  split
  · next hnew =>
    rw [Bool.not_eq_true'] at hnew
    exact .goesOn opens hbox fun hinit => absurd hinit (hnew ▸ Bool.false_ne_true)
  next hold =>
  rw [Bool.not_eq_true', Bool.not_eq_false] at hold
  split
  · exact hgone
  next huidv =>
  split
  · next hmod => exact .upToDate opens hold hbox hmod
  · exact .goesOn opens hbox fun _ => not_not.mp huidv

theorem seen_now {mb : Mailbox} (hbox : store.getMailboxByID id = some mb) :
    Seen store commits id mb.modseq (commits.count id) := by
  obtain ⟨hmb, hid⟩ := getMailboxByID_mem hbox
  exact ⟨mb, hmb, hid, Nat.le_refl _, Nat.le_refl _, fun _ => rfl⟩

theorem StateOk.read {session : Nat} (h : StateOk store commits st)
    (hread : Reads store (commits.count st.id) session st st') : StateOk store commits st' := by
  cases hread with
  | stays hsame => exact h.congr hsame
  | upToDate opens hinit hbox hmod =>
    refine .idle rfl (fun _ => ⟨_, rfl, ?_⟩) h.copied
    change Seen store commits st.id st.modseq (commits.count st.id)
    rw [← hmod]
    exact seen_now hbox
  | goesOn opens hbox huidv =>
    refine ⟨h.seen, h.copied, ?_, ?_⟩
    · rintro p ⟨⟩
      exact seen_now hbox
    · rintro p ⟨⟩ heads ⟨⟩

theorem BornOk.read {n session : Nat} (h : BornOk store st) (hread : Reads store n session st st') :
    BornOk store st' := by
  cases hread with
  | stays hsame => exact h.congr hsame
  | upToDate opens hinit hbox hmod =>
    exact .idle rfl h.born
  | goesOn opens hbox huidv =>
    refine ⟨h.born, ?_, ?_⟩
    · rintro p ⟨⟩
      exact huidv
    · rintro p ⟨⟩ heads ⟨⟩

theorem StateOk.readHeads (h : StateOk store commits st) {p : Sync} (hp : st.sync = some p) :
    StateOk store commits { st with
      sync := some ⟨p.opens, p.mb, p.commits, some (store.listHeads st.id)⟩ } where
  seen := h.seen
  copied := h.copied
  syncSeen := by
    rintro q ⟨⟩
    exact h.syncSeen p hp
  syncCopied := by
    rintro q ⟨⟩ heads ⟨⟩
    exact fun _ _ _ _ => rfl

theorem BornOk.readHeads (h : BornOk store st) (hok : StateOk store commits st)
    (hstore : StoreOk store) {p : Sync} (hp : st.sync = some p)
    (hsame : ∀ mb ∈ store.mailboxes, mb.id = st.id → mb.uidvalidity = p.mb.uidvalidity) :
    BornOk store { st with
      sync := some ⟨p.opens, p.mb, p.commits, some (store.listHeads st.id)⟩ } where
  born := h.born
  uidvalidity := by
    rintro q ⟨⟩
    exact h.uidvalidity p hp
  syncBorn := by
    rintro q ⟨⟩ heads ⟨⟩
    obtain ⟨mb, hmb, hid, -⟩ := hok.syncSeen p hp
    have hborn := hstore.born hmb
    rwa [hid, hsame mb hmb hid] at hborn

theorem queue_snapshot (st : MailboxState) (u : Update) :
    (st.queue u).id = st.id ∧ (st.queue u).uidvalidity = st.uidvalidity ∧
      (st.queue u).initialised = st.initialised := by
  cases u with
  | expunge seq => exact ⟨rfl, rfl, rfl⟩
  | numMessages n => exact ⟨rfl, rfl, rfl⟩
  | flags seq uid flags => exact ⟨rfl, rfl, rfl⟩

theorem apply_snapshot (st : MailboxState) (ups : List Update) :
    (st.apply ups).id = st.id ∧ (st.apply ups).uidvalidity = st.uidvalidity ∧
      (st.apply ups).initialised = st.initialised := by
  induction ups generalizing st with
  | nil => exact ⟨rfl, rfl, rfl⟩
  | cons u ups ih =>
    obtain ⟨hid, huidv, hinit⟩ := ih (st.queue u)
    obtain ⟨hid', huidv', hinit'⟩ := queue_snapshot st u
    exact ⟨hid.trans hid', huidv.trans huidv', hinit.trans hinit'⟩

inductive Takes (session : Nat) (p : Sync) (heads : List MessageHead) (st : MailboxState) :
    MailboxState → Prop
  | stays {st' : MailboxState} (hsame : SameSnapshot st st')
    (hsessions : st'.sessions = st.sessions) :
      Takes session p heads st st'
  | initialises (hnew : st.initialised = false) : Takes session p heads st
      ({ st with
        initialised := true, uidvalidity := p.mb.uidvalidity, modseq := p.mb.modseq
        heads := heads : MailboxState }.finish session p)
  | moves {ups} (hold : st.initialised = true) (hdiff : diff st.heads heads = some ups) :
      Takes session p heads st
        ({ st.apply ups with
          heads := heads, modseq := p.mb.modseq
          sessions := (st.apply ups).sessions.map (MailboxState.enter st.heads heads)
            : MailboxState }.finish session p)

theorem takes_takeHeads (session : Nat) (p : Sync) (heads : List MessageHead) (st : MailboxState) :
    Takes session p heads st (st.takeHeads session p heads) := by
  rw [MailboxState.takeHeads]
  split
  · next hnew =>
    rw [Bool.not_eq_true'] at hnew
    exact .initialises hnew
  next hold =>
  rw [Bool.not_eq_true', Bool.not_eq_false] at hold
  split
  · exact .stays ((sameSnapshot_markGone st).trans (sameSnapshot_abandon _ p.opens))
      (sessions_abandon _ p.opens)
  · next ups hdiff => exact .moves hold hdiff

theorem StateOk.take (h : StateOk store commits st) {p : Sync} {heads : List MessageHead}
    {session : Nat} (hp : st.sync = some ⟨p.opens, p.mb, p.commits, some heads⟩)
    (htakes : Takes session p heads st st') : StateOk store commits st' := by
  have hseen := h.syncSeen _ hp
  have hcopied := h.syncCopied _ hp heads rfl
  cases htakes with
  | stays hsame => exact h.congr hsame
  | initialises =>
    exact .idle rfl (fun _ => ⟨_, rfl, hseen⟩) fun _ => hcopied
  | @moves ups _ _ =>
    obtain ⟨hid, -, -⟩ := apply_snapshot st ups
    refine .idle rfl (fun _ => ⟨_, rfl, ?_⟩) fun _ => ?_
    · exact hid ▸ hseen
    · exact hid ▸ hcopied

theorem BornOk.take (h : BornOk store st) {p : Sync} {heads : List MessageHead} {session : Nat}
    (hp : st.sync = some ⟨p.opens, p.mb, p.commits, some heads⟩)
    (htakes : Takes session p heads st st') : BornOk store st' := by
  have hborn := h.syncBorn _ hp heads rfl
  cases htakes with
  | stays hsame => exact h.congr hsame
  | initialises => exact .idle rfl fun _ => hborn
  | @moves ups hold _ =>
    obtain ⟨-, huidv, -⟩ := apply_snapshot st ups
    refine .idle rfl fun _ => ?_
    change Born store (st.apply ups).uidvalidity heads
    rw [huidv, ← h.uidvalidity _ hp hold]
    exact hborn

end States

section Steps

variable {lower : Name → Name} {sys sys' : System}

inductive HubStep (sys : System) (st : MailboxState) (i : Nat) : Step → MailboxState → Prop
  | keeps {step st'} (hsame : SameSnapshot st st') (hsessions : st'.sessions.Sublist st.sessions) :
      HubStep sys st i step st'
  | reads {step st'} (hread : Reads sys.store (sys.commits.count st.id) sys.opened st st') :
      HubStep sys st i step st'
  | readsHeads {p} (hp : st.sync = some p) : HubStep sys st i (.readHeads i)
      { st with sync := some ⟨p.opens, p.mb, p.commits, some (sys.store.listHeads st.id)⟩ }
  | takes {p heads st'} (hp : st.sync = some ⟨p.opens, p.mb, p.commits, some heads⟩)
      (htakes : Takes sys.opened p heads st st') : HubStep sys st i (.finish i) st'

inductive Does (lower : Name → Name) (sys : System) : Step → System → Prop
  | fails (c : Commit) (origin : Option Nat) (here : Bool) :
    Does lower sys (.commit c origin here) sys
  | commits {c store} (origin : Option Nat) (here : Bool)
    (hok : sys.store.commit lower c = .ok store) :
      Does lower sys (.commit c origin here) { sys with
        store := store
        changes := sys.changes ++ if here then changesOf lower sys.store origin c else []
        commits := sys.commits ++ [c.mailboxID]
        versions := sys.versions ++ newVersions lower sys.store store (c.writer origin here) c }
  | notifies (k : Nat) (c : Change) : Does lower sys (.notify k) { sys with
      changes := sys.changes.eraseIdx k, states := sys.states.map (MailboxState.onChange · c) }
  | adds (id : String) : Does lower sys
    (.select id) { sys with states := sys.states ++ [.fresh id] }
  | hub {step i st st'} (opened : Nat) (hst : sys.states[i]? = some st)
    (hstep : HubStep sys st i step st') :
      Does lower sys step { sys.setState i st' with opened := opened }

theorem does_next {step : Step} (hnext : sys.next lower step = some sys') :
    Does lower sys step sys' := by
  cases step with
  | commit c origin here =>
    rw [System.next] at hnext
    split at hnext
    · cases hnext
      exact .fails c origin here
    · next hok =>
      cases hnext
      exact .commits origin here hok
  | notify k =>
    rw [System.next] at hnext
    split at hnext
    · cases hnext
    · cases hnext
      exact .notifies k _
  | select id =>
    rw [System.next] at hnext
    split at hnext
    · obtain ⟨st, hst, rfl⟩ := Option.map_eq_some_iff.mp hnext
      exact .hub sys.opened hst (.keeps ⟨rfl, rfl, rfl, rfl, rfl, rfl, fun _ hp => hp⟩ (.refl _))
    · cases hnext
      exact .adds id
  | read i opens inits =>
    rw [System.next] at hnext
    split at hnext
    · cases hnext
    next st hst =>
    split at hnext
    · cases hnext
    cases hnext
    exact .hub _ hst (.reads (reads_readMailbox _ _ _ st opens inits))
  | readHeads i =>
    rw [System.next] at hnext
    split at hnext
    · cases hnext
    next st hst =>
    split at hnext
    · next hsync =>
      cases hnext
      exact .hub sys.opened hst (.readsHeads hsync)
    · cases hnext
  | finish i =>
    rw [System.next] at hnext
    split at hnext
    · cases hnext
    next st hst =>
    split at hnext
    · next opens mb commits heads hsync =>
      cases hnext
      exact .hub _ hst
        (.takes (p := ⟨opens, mb, commits, none⟩) hsync (takes_takeHeads _ _ heads st))
    · cases hnext
  | abandon i =>
    rw [System.next] at hnext
    split at hnext
    · cases hnext
    next st hst =>
    split at hnext
    · cases hnext
      exact .hub sys.opened hst (.keeps (sameSnapshot_abandon st _) (by rw [sessions_abandon]))
    · cases hnext
  | close i session =>
    rw [System.next] at hnext
    split at hnext
    · cases hnext
    next st hst =>
    cases hnext
    refine .hub sys.opened hst (.keeps ?_ List.filter_sublist)
    exact ⟨rfl, rfl, rfl, rfl, rfl, rfl, fun _ hp => hp⟩

end Steps

section Runs

variable {lower : Name → Name} {sys sys' : System}

structure SystemOk (sys : System) : Prop where
  store : StoreOk sys.store
  states : ∀ st ∈ sys.states, StateOk sys.store sys.commits st

theorem stateOk_fresh (store : Store) (commits : List String) (id : String) :
    StateOk store commits (.fresh id) :=
  .idle rfl (fun h => by cases h) fun h => by cases h

theorem systemOk_next (h : SystemOk sys) {step : Step} (hnext : sys.next lower step = some sys') :
    SystemOk sys' := by
  cases does_next hnext with
  | fails => exact h
  | commits origin here hok =>
    have hadv := advances_commit h.store hok
    exact ⟨hadv.ok, fun st hst => (h.states st hst).commit hadv⟩
  | notifies k c =>
    refine ⟨h.store, fun st' hst' => ?_⟩
    obtain ⟨st, hst, rfl⟩ := List.mem_map.mp hst'
    exact (h.states st hst).congr (sameSnapshot_onChange st c)
  | adds id =>
    refine ⟨h.store, fun st hst => ?_⟩
    rcases List.mem_append.mp hst with hst | hst
    · exact h.states st hst
    · rw [List.mem_singleton.mp hst]
      exact stateOk_fresh _ _ id
  | hub opened hst hstep =>
    have hok := h.states _ (List.mem_of_getElem? hst)
    refine ⟨h.store, fun q hq => ?_⟩
    rcases List.mem_or_eq_of_mem_set hq with hq | rfl
    · exact h.states q hq
    cases hstep with
    | keeps hsame => exact hok.congr hsame
    | reads hread => exact hok.read hread
    | readsHeads hp => exact hok.readHeads hp
    | takes hp htakes => exact hok.take hp htakes

/-- The head list of a live state holds only messages appended under the UIDVALIDITY it was opened
with; and what the last sync left, unless there was a commit to the mailbox since it began, is what
is stored. -/
def OneGeneration (sys : System) : Prop :=
  ∀ st ∈ sys.states, st.initialised = true →
    (st.gone = false → Born sys.store st.uidvalidity st.heads) ∧
    (st.synced = some (sys.commits.count st.id) →
      st.gone = true ∨ st.heads = sys.store.listHeads st.id)

/-- No reset has come between the mailbox read and the head read of one sync. -/
def NoResetBetween (sys : System) : Step → Prop
  | .readHeads i => ∀ st ∈ sys.states[i]?, ∀ p ∈ st.sync, ∀ mb ∈ sys.store.mailboxes,
    mb.id = st.id → mb.uidvalidity = p.mb.uidvalidity
  | _ => True

theorem SystemOk.current (h : SystemOk sys) {st : MailboxState} (hst : st ∈ sys.states)
    (hinit : st.initialised = true) (hsynced : st.synced = some (sys.commits.count st.id)) :
    st.heads = sys.store.listHeads st.id := by
  have hok := h.states st hst
  obtain ⟨n, hn, mb, hmb, hid, -, -, hnow⟩ := hok.seen hinit
  cases hn.symm.trans hsynced
  exact hok.copied hinit mb hmb hid (hnow rfl)

theorem bornOk_next (hok : SystemOk sys) (h : ∀ st ∈ sys.states, BornOk sys.store st) {step : Step}
    (hno : NoResetBetween sys step) (hnext : sys.next lower step = some sys') :
    ∀ st ∈ sys'.states, BornOk sys'.store st := by
  cases does_next hnext with
  | fails => exact h
  | commits origin here hcommit =>
    exact fun st hst => (h st hst).commit (advances_commit hok.store hcommit)
  | notifies k c =>
    intro st' hst'
    obtain ⟨st, hst, rfl⟩ := List.mem_map.mp hst'
    exact (h st hst).congr (sameSnapshot_onChange st c)
  | adds id =>
    intro st hst
    rcases List.mem_append.mp hst with hst | hst
    · exact h st hst
    · rw [List.mem_singleton.mp hst]
      exact .idle rfl fun hinit => by cases hinit
  | hub opened hst hstep =>
    have hborn := h _ (List.mem_of_getElem? hst)
    intro q hq
    rcases List.mem_or_eq_of_mem_set hq with hq | rfl
    · exact h q hq
    cases hstep with
    | keeps hsame => exact hborn.congr hsame
    | reads hread => exact hborn.read hread
    | readsHeads hp =>
      exact hborn.readHeads (hok.states _ (List.mem_of_getElem? hst)) hok.store hp (hno _ hst _ hp)
    | takes hp htakes => exact hborn.take hp htakes

structure GenerationInv (sys : System) : Prop where
  ok : SystemOk sys
  born : ∀ st ∈ sys.states, BornOk sys.store st

theorem GenerationInv.next (h : GenerationInv sys) {step : Step} (hno : NoResetBetween sys step)
    (hnext : sys.next lower step = some sys') : GenerationInv sys' :=
  ⟨systemOk_next h.ok hnext, bornOk_next h.ok h.born hno hnext⟩

theorem GenerationInv.oneGeneration (h : GenerationInv sys) : OneGeneration sys := by
  intro st hst hinit
  exact ⟨fun _ => (h.born st hst).born hinit, fun hsynced => .inr (h.ok.current hst hinit hsynced)⟩

theorem systemOk_start : SystemOk .start where
  store := ⟨List.nodup_nil, List.nodup_nil, fun _ hr => absurd hr List.not_mem_nil⟩
  states _ hst := absurd hst List.not_mem_nil

/-- As long as no reset comes between the two reads of a sync, every state holds one generation, and
what a sync leaves is what is stored. -/
theorem oneGeneration_along (lower : Name → Name) {steps : List Step}
    (hno : Along (System.next lower) NoResetBetween .start steps) :
    Along (System.next lower) (fun sys step => ∀ sys' ∈ sys.next lower step, OneGeneration sys')
      .start steps := by
  refine Along.of_invariant (I := GenerationInv) ?_ ?_
    ⟨systemOk_start, fun _ hst => absurd hst List.not_mem_nil⟩ hno
  · exact fun sys step sys' h hstep hnext => h.next hstep hnext
  · exact fun sys step h hstep sys' hnext => (h.next hstep hnext).oneGeneration

instance (store : Store) (uidvalidity : Nat) (heads : List MessageHead) :
    Decidable (Born store uidvalidity heads) :=
  inferInstanceAs (Decidable (∀ h ∈ heads, _))

instance (sys : System) : Decidable (OneGeneration sys) :=
  inferInstanceAs (Decidable (∀ st ∈ sys.states, _ → (_ → Born _ _ _) ∧ _))

instance (sys : System) (step : Step) : Decidable (NoResetBetween sys step) :=
  match step with
  | .readHeads i => inferInstanceAs (Decidable (∀ st ∈ sys.states[i]?, ∀ p ∈ st.sync,
      ∀ mb ∈ sys.store.mailboxes, _ → _))
  | .commit _ _ _ | .notify _ | .select _ | .read _ _ _ | .finish _ | .abandon _ | .close _ _ =>
    .isTrue trivial

/-- A mailbox with a letter is selected; after another letter a sync has read the mailbox. -/
def readOnce : List Step :=
  [.commit (.insert "acme" "paris@acme".toList "Reports".toList "mbox_1" 1700000000) none true,
    .commit (.append "mbox_1" (letter "sha-1")) none true, .select "mbox_1", .read 0 true true,
    .readHeads 0, .finish 0, .commit (.append "mbox_1" (letter "sha-2")) none false,
    .read 0 false false]

/-- The mailbox is reset, and its first letter comes. -/
def resetMailbox1 : List Step :=
  [.commit (.reset "mbox_1" 1700000001) none false,
    .commit (.append "mbox_1" (letter "sha-3")) none false]

theorem oneGeneration_readOnce :
    Along (System.next lowerAscii)
      (fun sys step => ∀ sys' ∈ sys.next lowerAscii step, OneGeneration sys')
      .start (readOnce ++
        [.commit (.append "mbox_1" (letter "sha-4")) none true, .readHeads 0, .finish 0,
        .notify 0, .read 0 false false, .readHeads 0, .finish 0] ++ resetMailbox1 ++
        [.read 0 false false]) :=
  oneGeneration_along lowerAscii (by decide +kernel)

/-- With the reset between the two reads, the state takes the new letter for the old one. -/
theorem not_oneGeneration_resetBetween :
    ¬ Along (System.next lowerAscii)
      (fun sys step => ∀ sys' ∈ sys.next lowerAscii step, OneGeneration sys')
      .start (readOnce ++ resetMailbox1 ++ [.readHeads 0, .finish 0]) := by
  decide

end Runs

end ThanksComputer.Imap
