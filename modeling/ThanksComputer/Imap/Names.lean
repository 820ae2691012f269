import ThanksComputer.Imap.Store
import ThanksComputer.Lib.Checks
import ThanksComputer.Lib.Runs

/-! What account, mailbox name, UIDVALIDITY and UID name over the whole history of an index: one
message, as long as every mailbox that comes to a name has a UIDVALIDITY above those of the name's
earlier mailboxes. -/

namespace ThanksComputer.Imap

open Lib.Checks Lib.Runs Lib.Table

structure Label where
  tenant : String
  username : Name
  name : Name
  uidvalidity : Nat
  deriving DecidableEq

def Mailbox.label (mb : Mailbox) : Label :=
  ⟨mb.tenant, mb.username, mb.name, mb.uidvalidity⟩

def Label.account (l : Label) : String × Name :=
  (l.tenant, l.username)

structure Holding where
  label : Label
  mailboxID : String
  deriving DecidableEq

/-- A label and a UID, and the message they stood for. -/
structure Naming extends Holding where
  uid : Nat
  serial : Nat
  deriving DecidableEq

def Store.holdings (st : Store) : List Holding :=
  (st.mailboxes.filter Mailbox.live).map fun mb => ⟨mb.label, mb.id⟩

def Store.names (st : Store) : List Naming :=
  (st.mailboxes.filter Mailbox.live).flatMap fun mb =>
    (st.messages.filter fun r => r.mailboxID == mb.id).map fun r =>
      ⟨⟨mb.label, mb.id⟩, r.uid, r.serial⟩

/-- The index, the clock, and whatever was named and held before. -/
structure History where
  store : Store
  clock : Int
  named : List Naming
  held : List Holding

def History.start (clock : Int) : History :=
  ⟨.empty, clock, [], []⟩

def History.commit (h : History) (st : Store) : History :=
  { h with store := st, named := h.named ++ st.names, held := h.held ++ st.holdings }

/-- The operations; `id` is the new mailbox's.  Any of them may fail in the database instead. -/
inductive Op
  | ensure (tenant : String) (username name : Name) (id : String)
  | create (tenant : String) (username name : Name) (id : String)
  | delete (tenant : String) (username name : Name)
  | rename (tenant : String) (username old new : Name)
  | reset (id : String)
  | append (id : String) (m : Message)
  | copy (srcID : String) (uid : Nat) (destID : String)
  | move (srcID : String) (uids : List Nat) (destID : String)
  | expunge (id : String) (uids : List Nat)
  | setFlags (id : String) (uid : Nat) (flags : List Name)

def Store.exec (lower : Name → Name) (st : Store) (now : Int) : Op → Except Error Store
  | .ensure tenant username name id => st.ensureMailbox lower tenant username name id now
  | .create tenant username name id => st.createMailbox lower tenant username name id now
  | .delete tenant username name => st.deleteMailbox lower tenant username name now
  | .rename tenant username old new => st.renameMailbox lower tenant username old new
  | .reset id => st.resetMailbox id now
  | .append id m => (st.appendMessage lower id m).map Prod.snd
  | .copy srcID uid destID => (st.copyMessage lower srcID uid destID).map Prod.snd
  | .move srcID uids _ => st.removeRows srcID uids false
  | .expunge id uids => st.removeRows id uids true
  | .setFlags id uid flags => st.setFlags lower id uid flags

def History.after (h : History) : Except Error Store → History
  | .error _ => h
  | .ok st => h.commit st

/-- `MoveMessages`: every message is copied, each in its own transaction, then all are removed. -/
def History.move (lower : Name → Name) (h : History) (srcID destID : String) (all : List Nat) :
    List Nat → History
  | [] => if all = [] then h else h.after (h.store.exec lower h.clock (.move srcID all destID))
  | uid :: uids =>
    match h.store.exec lower h.clock (.copy srcID uid destID) with
    | .error _ => h
    | .ok st => (h.commit st).move lower srcID destID all uids

/-- One operation, with the clock `later` seconds on. -/
structure Event where
  op : Op
  later : Nat
  failed : Bool

def History.step (lower : Name → Name) (h : History) (e : Event) : History :=
  let h := { h with clock := h.clock + e.later }
  if e.failed then h
  else match e.op with
    | .move srcID uids destID => h.move lower srcID destID uids uids
    | op => h.after (h.store.exec lower h.clock op)

/-- A quadruple of account, name, UIDVALIDITY and UID names one message. -/
def NamesOne (named : List Naming) : Prop :=
  ∀ a ∈ named, ∀ b ∈ named, a.label = b.label → a.uid = b.uid → a.serial = b.serial

section Invariant

variable {held : List Holding} {st st' : Store} {hist : History}

structure WellFormed (st : Store) : Prop where
  ids : (st.mailboxes.map Mailbox.id).Nodup
  names : Store.NamesApart st.mailboxes
  keys : (st.messages.map fun r => (r.mailboxID, r.uid)).Nodup
  owned : ∀ r ∈ st.messages, ∃ mb ∈ st.mailboxes, mb.id = r.mailboxID
  uids : ∀ r ∈ st.messages, ∀ mb ∈ st.mailboxes, mb.id = r.mailboxID → r.uid < mb.uidnext

def RowKept (st : Store) (r' : Row) : Prop :=
  ∃ r ∈ st.messages, r.mailboxID = r'.mailboxID ∧ r.uid = r'.uid ∧ r.serial = r'.serial

/-- A mailbox that goes on counting its uids where it was. -/
def Continues (st st' : Store) (mb' : Mailbox) : Prop :=
  ∃ mb ∈ st.mailboxes, mb.id = mb'.id ∧ mb.uidvalidity = mb'.uidvalidity ∧
    mb.uidnext ≤ mb'.uidnext ∧
    ∀ r' ∈ st'.messages, r'.mailboxID = mb'.id → mb.uidnext ≤ r'.uid ∨ RowKept st r'

def TopsName (held : List Holding) (id : String) (account : String × Name) (name : Name)
    (uidvalidity : Nat) : Prop :=
  ∀ x ∈ held, x.label.account = account → x.label.name = name →
    x.mailboxID = id ∨ x.label.uidvalidity < uidvalidity

/-- What a transaction may do after the history `held`. -/
structure Evolves (held : List Holding) (st st' : Store) : Prop where
  wellFormed : WellFormed st'
  ids : ∀ mb ∈ st.mailboxes, ∃ mb' ∈ st'.mailboxes, mb'.id = mb.id
  boxes : ∀ mb' ∈ st'.mailboxes, Continues st st' mb' ∨
    ∀ x ∈ held, x.mailboxID = mb'.id → x.label.uidvalidity < mb'.uidvalidity
  names : ∀ mb' ∈ st'.mailboxes, mb'.live = true →
    TopsName held mb'.id mb'.label.account mb'.name mb'.uidvalidity

structure NameInv (h : History) : Prop where
  wellFormed : WellFormed h.store
  one : NamesOne h.named
  namedHeld : ∀ n ∈ h.named, n.toHolding ∈ h.held
  heldIDs : ∀ x ∈ h.held, ∃ mb ∈ h.store.mailboxes, mb.id = x.mailboxID
  own : ∀ mb ∈ h.store.mailboxes, ∀ x ∈ h.held, x.mailboxID = mb.id →
    x.label.uidvalidity ≤ mb.uidvalidity
  holder : ∀ mb ∈ h.store.mailboxes, mb.live = true →
    TopsName h.held mb.id mb.label.account mb.name mb.uidvalidity
  current : ∀ n ∈ h.named, ∀ mb ∈ h.store.mailboxes, n.mailboxID = mb.id →
    n.label.uidvalidity = mb.uidvalidity → n.uid < mb.uidnext ∧
      ∀ r ∈ h.store.messages, r.mailboxID = mb.id → r.uid = n.uid → r.serial = n.serial

theorem mem_names {n : Naming} : n ∈ st.names ↔ ∃ mb ∈ st.mailboxes, mb.live = true ∧
    ∃ r ∈ st.messages, r.mailboxID = mb.id ∧ n = ⟨⟨mb.label, mb.id⟩, r.uid, r.serial⟩ := by
  simp only [Store.names, List.mem_flatMap, List.mem_filter, List.mem_map, beq_iff_eq, and_assoc,
    eq_comm (a := n)]

theorem mem_holdings {x : Holding} :
    x ∈ st.holdings ↔ ∃ mb ∈ st.mailboxes, mb.live = true ∧ x = ⟨mb.label, mb.id⟩ := by
  simp only [Store.holdings, List.mem_filter, List.mem_map, and_assoc, eq_comm (a := x)]

theorem WellFormed.eq_of_name (hst : WellFormed st) {a b : Mailbox} (ha : a ∈ st.mailboxes)
    (hb : b ∈ st.mailboxes) (hlive : a.live = true) (hlive' : b.live = true)
    (haccount : a.label.account = b.label.account) (hname : a.name = b.name) : a.id = b.id := by
  obtain ⟨htenant, husername⟩ := Prod.mk.inj haccount
  exact hst.names a ha b hb ⟨hlive, hlive', htenant, husername, hname⟩

theorem WellFormed.serial_eq (hst : WellFormed st) {r r' : Row} (hr : r ∈ st.messages)
    (hr' : r' ∈ st.messages) (hid : r.mailboxID = r'.mailboxID) (huid : r.uid = r'.uid) :
    r.serial = r'.serial := by
  rw [eq_of_key hst.keys hr hr' (Prod.ext hid huid)]

theorem NameInv.agree (h : NameInv hist) (hev : Evolves hist.held hist.store st') {n : Naming}
    (hn : n ∈ hist.named) {mb : Mailbox} (hmb : mb ∈ st'.mailboxes) (hid : n.mailboxID = mb.id)
    (huidv : n.label.uidvalidity = mb.uidvalidity) : n.uid < mb.uidnext ∧
      ∀ r ∈ st'.messages, r.mailboxID = mb.id → r.uid = n.uid → r.serial = n.serial := by
  rcases hev.boxes mb hmb with ⟨q, hq, hqid, hquidv, hle, hrows⟩ | hnew
  · obtain ⟨hlt, hserial⟩ := h.current n hn q hq (hid.trans hqid.symm) (huidv.trans hquidv.symm)
    refine ⟨Nat.lt_of_lt_of_le hlt hle, fun r hr hrid hruid => ?_⟩
    rcases hrows r hr hrid with hpast | ⟨r₀, hr₀, hid₀, huid₀, hserial₀⟩
    · exact absurd (hruid ▸ hpast) (Nat.not_le.mpr hlt)
    · rw [← hserial₀]
      exact hserial r₀ hr₀ (hid₀.trans (hrid.trans hqid.symm)) (huid₀.trans hruid)
  · exact absurd huidv (hnew _ (h.namedHeld n hn) hid).ne

theorem NameInv.commit (h : NameInv hist) (hev : Evolves hist.held hist.store st') :
    NameInv (hist.commit st') where
  wellFormed := hev.wellFormed
  one := by
    have hcurrent : ∀ a ∈ hist.named, ∀ b ∈ st'.names, a.label = b.label → a.uid = b.uid →
        a.serial = b.serial := by
      intro a ha b hb hlabel huid
      obtain ⟨mb, hmb, hlive, r, hr, hrid, rfl⟩ := mem_names.mp hb
      have hvalid : a.label.uidvalidity = mb.uidvalidity := congrArg Label.uidvalidity hlabel
      rcases hev.names mb hmb hlive _ (h.namedHeld a ha) (congrArg Label.account hlabel)
        (congrArg Label.name hlabel) with hid | hlt
      · exact ((h.agree hev ha hmb hid hvalid).2 r hr hrid huid.symm).symm
      · exact absurd hvalid hlt.ne
    intro a ha b hb hlabel huid
    rcases List.mem_append.mp ha with ha | ha
    · rcases List.mem_append.mp hb with hb | hb
      · exact h.one a ha b hb hlabel huid
      · exact hcurrent a ha b hb hlabel huid
    · rcases List.mem_append.mp hb with hb | hb
      · exact (hcurrent b hb a ha hlabel.symm huid.symm).symm
      · obtain ⟨mb, hmb, hlive, r, hr, hrid, rfl⟩ := mem_names.mp ha
        obtain ⟨mb', hmb', hlive', r', hr', hrid', rfl⟩ := mem_names.mp hb
        have hid := hev.wellFormed.eq_of_name hmb hmb' hlive hlive' (congrArg Label.account hlabel)
          (congrArg Label.name hlabel)
        exact hev.wellFormed.serial_eq hr hr' (hrid.trans (hid.trans hrid'.symm)) huid
  namedHeld n hn := by
    rcases List.mem_append.mp hn with hn | hn
    · exact List.mem_append_left _ (h.namedHeld n hn)
    · obtain ⟨mb, hmb, hlive, r, hr, hrid, rfl⟩ := mem_names.mp hn
      exact List.mem_append_right _ (mem_holdings.mpr ⟨mb, hmb, hlive, rfl⟩)
  heldIDs x hx := by
    rcases List.mem_append.mp hx with hx | hx
    · obtain ⟨mb, hmb, hid⟩ := h.heldIDs x hx
      obtain ⟨mb', hmb', hid'⟩ := hev.ids mb hmb
      exact ⟨mb', hmb', hid'.trans hid⟩
    · obtain ⟨mb, hmb, -, rfl⟩ := mem_holdings.mp hx
      exact ⟨mb, hmb, rfl⟩
  own mb hmb x hx hid := by
    rcases List.mem_append.mp hx with hx | hx
    · rcases hev.boxes mb hmb with ⟨q, hq, hqid, huidv, -⟩ | hnew
      · exact huidv ▸ h.own q hq x hx (hid.trans hqid.symm)
      · exact (hnew x hx hid).le
    · obtain ⟨q, hq, -, rfl⟩ := mem_holdings.mp hx
      rw [eq_of_key hev.wellFormed.ids hq hmb hid]
      exact Nat.le_refl _
  holder mb hmb hlive x hx haccount hname := by
    rcases List.mem_append.mp hx with hx | hx
    · exact hev.names mb hmb hlive x hx haccount hname
    · obtain ⟨q, hq, hqlive, rfl⟩ := mem_holdings.mp hx
      exact .inl (hev.wellFormed.eq_of_name hq hmb hqlive hlive haccount hname)
  current n hn mb hmb hid huidv := by
    rcases List.mem_append.mp hn with hn | hn
    · exact h.agree hev hn hmb hid huidv
    · obtain ⟨q, hq, hqlive, r, hr, hrid, rfl⟩ := mem_names.mp hn
      have hsame : mb = q := eq_of_key hev.wellFormed.ids hmb hq hid.symm
      subst hsame
      refine ⟨hev.wellFormed.uids r hr mb hmb hrid.symm, fun r' hr' hrid' huid => ?_⟩
      exact hev.wellFormed.serial_eq hr' hr (hrid'.trans hrid.symm) huid

theorem nameInv_start (clock : Int) : NameInv (History.start clock) where
  wellFormed := ⟨List.nodup_nil, fun _ ha => absurd ha List.not_mem_nil, List.nodup_nil,
    fun _ hr => absurd hr List.not_mem_nil, fun _ hr => absurd hr List.not_mem_nil⟩
  one _ ha := absurd ha List.not_mem_nil
  namedHeld _ hn := absurd hn List.not_mem_nil
  heldIDs _ hx := absurd hx List.not_mem_nil
  own _ hmb := absurd hmb List.not_mem_nil
  holder _ hmb := absurd hmb List.not_mem_nil
  current _ hn := absurd hn List.not_mem_nil

end Invariant

section Transactions

variable {hist : History} {f : Mailbox → Mailbox} {messages : List Row} {births : List Nat}

theorem namesApart_map {mailboxes : List Mailbox} (h : Store.NamesApart mailboxes)
    (hid : ∀ mb, (f mb).id = mb.id)
    (hf : ∀ mb, (f mb).live = true → mb.live = true ∧ (f mb).tenant = mb.tenant ∧
      (f mb).username = mb.username ∧ (f mb).name = mb.name) : Store.NamesApart
        (mailboxes.map f) := by
  intro a' ha' b' hb' hsame
  obtain ⟨a, ha, rfl⟩ := List.mem_map.mp ha'
  obtain ⟨b, hb, rfl⟩ := List.mem_map.mp hb'
  obtain ⟨halive, hblive, htenant, husername, hname⟩ := hsame
  obtain ⟨ha₁, ha₂, ha₃, ha₄⟩ := hf a halive
  obtain ⟨hb₁, hb₂, hb₃, hb₄⟩ := hf b hblive
  rw [ha₂, hb₂] at htenant
  rw [ha₃, hb₃] at husername
  rw [ha₄, hb₄] at hname
  rw [hid, hid]
  exact h a ha b hb ⟨ha₁, hb₁, htenant, husername, hname⟩

/-- A transaction that changes mailboxes in place.  Each goes on counting or has a higher
UIDVALIDITY; each live one keeps its name, or tops the earlier ones at its new name. -/
theorem evolves_map (h : NameInv hist) (hid : ∀ mb, (f mb).id = mb.id)
    (hnames : Store.NamesApart (hist.store.mailboxes.map f))
    (hkeys : (messages.map fun r => (r.mailboxID, r.uid)).Nodup)
    (hrows : ∀ r ∈ messages, ∃ mb ∈ hist.store.mailboxes, mb.id = r.mailboxID ∧
      r.uid < (f mb).uidnext ∧ (mb.uidnext ≤ r.uid ∨ RowKept hist.store r))
    (hboxes : ∀ mb ∈ hist.store.mailboxes,
      (f mb).uidvalidity = mb.uidvalidity ∧ mb.uidnext ≤ (f mb).uidnext ∨
        mb.uidvalidity < (f mb).uidvalidity)
    (htops : ∀ mb ∈ hist.store.mailboxes, (f mb).live = true →
      mb.live = true ∧ (f mb).label.account = mb.label.account ∧ (f mb).name = mb.name ∨
        TopsName hist.held mb.id (f mb).label.account (f mb).name (f mb).uidvalidity) :
    Evolves hist.held hist.store ⟨hist.store.mailboxes.map f, messages, births⟩ where
  wellFormed := by
    refine ⟨?_, hnames, hkeys, fun r hr => ?_, fun r hr mb' hmb' hrid => ?_⟩
    · have hsame : (hist.store.mailboxes.map f).map Mailbox.id =
        hist.store.mailboxes.map Mailbox.id := by
        rw [List.map_map]
        exact List.map_congr_left fun mb _ => hid mb
      exact hsame ▸ h.wellFormed.ids
    · obtain ⟨mb, hmb, hmbid, -⟩ := hrows r hr
      exact ⟨f mb, List.mem_map_of_mem hmb, (hid mb).trans hmbid⟩
    · obtain ⟨mb, hmb, rfl⟩ := List.mem_map.mp hmb'
      obtain ⟨q, hq, hqid, hlt, -⟩ := hrows r hr
      rw [eq_of_key h.wellFormed.ids hmb hq ((hid mb).symm.trans (hrid.trans hqid.symm))]
      exact hlt
  ids mb hmb := ⟨f mb, List.mem_map_of_mem hmb, hid mb⟩
  boxes mb' hmb' := by
    obtain ⟨mb, hmb, rfl⟩ := List.mem_map.mp hmb'
    rw [hid]
    rcases hboxes mb hmb with ⟨huidv, hle⟩ | hnew
    · refine .inl ⟨mb, hmb, (hid mb).symm, huidv.symm, hle, fun r hr hrid => ?_⟩
      obtain ⟨q, hq, hqid, -, hrow⟩ := hrows r hr
      rw [eq_of_key h.wellFormed.ids hmb hq ((hid mb).symm.trans (hrid.symm.trans hqid.symm))]
      exact hrow
    · exact .inr fun x hx hxid => Nat.lt_of_le_of_lt (h.own mb hmb x hx hxid) hnew
  names mb' hmb' hlive x hx haccount hname := by
    obtain ⟨mb, hmb, rfl⟩ := List.mem_map.mp hmb'
    rw [hid]
    rcases htops mb hmb hlive with ⟨hmblive, hsame, hsamename⟩ | hnew
    · refine (h.holder mb hmb hmblive x hx (haccount.trans hsame) (hname.trans hsamename)).imp_right
        fun hlt => ?_
      rcases hboxes mb hmb with ⟨huidv, -⟩ | hhigher
      · exact huidv ▸ hlt
      · exact Nat.lt_trans hlt hhigher
    · exact hnew x hx haccount hname

theorem NameInv.rows_kept (h : NameInv hist)
    (hle : ∀ mb ∈ hist.store.mailboxes, mb.uidnext ≤ (f mb).uidnext) {r : Row}
    (hr : RowKept hist.store r) : ∃ mb ∈ hist.store.mailboxes, mb.id = r.mailboxID ∧
      r.uid < (f mb).uidnext ∧ (mb.uidnext ≤ r.uid ∨ RowKept hist.store r) := by
  obtain ⟨r₀, hr₀, hid₀, huid₀, hserial₀⟩ := hr
  obtain ⟨mb, hmb, hmbid⟩ := h.wellFormed.owned r₀ hr₀
  refine ⟨mb, hmb, hmbid.trans hid₀, ?_, .inr ⟨r₀, hr₀, hid₀, huid₀, hserial₀⟩⟩
  rw [← huid₀]
  exact Nat.lt_of_lt_of_le (h.wellFormed.uids r₀ hr₀ mb hmb hmbid) (hle mb hmb)

structure Steady (f : Mailbox → Mailbox) : Prop where
  id : ∀ mb, (f mb).id = mb.id
  label : ∀ mb, (f mb).label = mb.label
  live : ∀ mb, (f mb).live = true → mb.live = true
  uidnext : ∀ mb, mb.uidnext ≤ (f mb).uidnext

theorem Steady.of_update {cond : Mailbox → Bool} {set : Mailbox → Mailbox} (h : Steady set) :
    Steady fun mb => if cond mb then set mb else mb where
  id mb := by
    split
    · exact h.id mb
    · rfl
  label mb := by
    split
    · exact h.label mb
    · rfl
  live mb := by
    split
    · exact h.live mb
    · exact fun hlive => hlive
  uidnext mb := by
    split
    · exact h.uidnext mb
    · exact Nat.le_refl _

theorem evolves_steady (h : NameInv hist) (hf : Steady f)
    (hkeys : (messages.map fun r => (r.mailboxID, r.uid)).Nodup)
    (hrows : ∀ r ∈ messages, RowKept hist.store r ∨
      ∃ mb ∈ hist.store.mailboxes, mb.id = r.mailboxID ∧ r.uid < (f mb).uidnext ∧
        mb.uidnext ≤ r.uid) :
    Evolves hist.held hist.store ⟨hist.store.mailboxes.map f, messages, births⟩ := by
  refine evolves_map h hf.id ?_ hkeys ?_ ?_ ?_
  · refine namesApart_map h.wellFormed.names hf.id fun mb hlive => ⟨hf.live mb hlive, ?_⟩
    have hlabel := hf.label mb
    injection hlabel with htenant husername hname
    exact ⟨htenant, husername, hname⟩
  · intro r hr
    rcases hrows r hr with hkept | ⟨mb, hmb, hid, hlt, hle⟩
    · exact h.rows_kept (fun mb _ => hf.uidnext mb) hkept
    · exact ⟨mb, hmb, hid, hlt, .inl hle⟩
  · exact fun mb _ => .inl ⟨congrArg Label.uidvalidity (hf.label mb), hf.uidnext mb⟩
  · exact fun mb _ hlive => .inl ⟨hf.live mb hlive, congrArg Label.account (hf.label mb),
      congrArg Label.name (hf.label mb)⟩

theorem evolves_self (h : NameInv hist) : Evolves hist.held hist.store hist.store := by
  have hself : Evolves hist.held hist.store
      ⟨hist.store.mailboxes.map fun mb => mb, hist.store.messages, hist.store.births⟩ :=
    evolves_steady h ⟨fun _ => rfl, fun _ => rfl, fun _ hlive => hlive, fun _ => Nat.le_refl _⟩
      h.wellFormed.keys fun r hr => .inl ⟨r, hr, rfl, rfl, rfl⟩
  rwa [List.map_id'] at hself

theorem getMailbox_none {st : Store} {tenant : String} {username name : Name}
    (h : ¬(st.getMailbox tenant username name).isSome = true) {mb : Mailbox}
    (hmb : mb ∈ st.mailboxes) (hlive : mb.live = true) :
      ¬(mb.tenant = tenant ∧ mb.username = username ∧ mb.name = name) := by
  rintro ⟨rfl, rfl, rfl⟩
  rw [Bool.not_eq_true, Option.isSome_eq_false_iff, Option.isNone_iff_eq_none, Store.getMailbox,
    List.find?_eq_none] at h
  exact h mb hmb (by simp [hlive])

theorem evolves_insertMailbox (h : NameInv hist) {tenant : String} {username name : Name}
    {id : String} {now : Int} {st' : Store}
    (hnew : TopsName hist.held id (tenant, username) name (Store.uidvalidityAt now))
    (hok : hist.store.insertMailbox tenant username name id now = .ok st') :
    Evolves hist.held hist.store st' := by
  rw [Store.insertMailbox, check_eq_ok, not_or] at hok
  obtain ⟨⟨hid, hname⟩, hok⟩ := hok
  cases hok
  rw [Bool.not_eq_true, List.any_eq_false] at hid
  have hfresh : ∀ mb ∈ hist.store.mailboxes, mb.id ≠ id := fun mb hmb heq =>
    hid mb hmb (beq_iff_eq.mpr heq)
  have hold := evolves_self h
  have hnone : ∀ x ∈ hist.held, x.mailboxID ≠ id := by
    intro x hx heq
    obtain ⟨mb, hmb, hmbid⟩ := h.heldIDs x hx
    exact hfresh mb hmb (hmbid.trans heq)
  refine ⟨⟨nodup_insert h.wellFormed.ids hfresh, ?_, h.wellFormed.keys, ?_, ?_⟩, ?_, ?_, ?_⟩
  · rintro a ha b hb ⟨halive, hblive, htenant, husername, hnames⟩
    rcases List.mem_append.mp ha with ha | ha
    · rcases List.mem_append.mp hb with hb | hb
      · exact h.wellFormed.names a ha b hb ⟨halive, hblive, htenant, husername, hnames⟩
      · cases List.mem_singleton.mp hb
        exact absurd ⟨htenant, husername, hnames⟩ (getMailbox_none hname ha halive)
    · cases List.mem_singleton.mp ha
      rcases List.mem_append.mp hb with hb | hb
      · exact absurd ⟨htenant.symm, husername.symm, hnames.symm⟩ (getMailbox_none hname hb hblive)
      · cases List.mem_singleton.mp hb
        rfl
  · intro r hr
    obtain ⟨mb, hmb, hmbid⟩ := h.wellFormed.owned r hr
    exact ⟨mb, List.mem_append_left _ hmb, hmbid⟩
  · intro r hr mb hmb hmbid
    rcases List.mem_append.mp hmb with hmb | hmb
    · exact h.wellFormed.uids r hr mb hmb hmbid
    · cases List.mem_singleton.mp hmb
      obtain ⟨q, hq, hqid⟩ := h.wellFormed.owned r hr
      exact absurd (hqid.trans hmbid.symm) (hfresh q hq)
  · exact fun mb hmb => ⟨mb, List.mem_append_left _ hmb, rfl⟩
  · intro mb hmb
    rcases List.mem_append.mp hmb with hmb | hmb
    · exact hold.boxes mb hmb
    · cases List.mem_singleton.mp hmb
      exact .inr fun x hx heq => absurd heq (hnone x hx)
  · intro mb hmb hlive
    rcases List.mem_append.mp hmb with hmb | hmb
    · exact hold.names mb hmb hlive
    · cases List.mem_singleton.mp hmb
      exact hnew

theorem evolves_deleteMailbox (h : NameInv hist) {lower : Name → Name} {tenant : String}
    {username name : Name} {now : Int} {st' : Store}
    (hok : hist.store.deleteMailbox lower tenant username name now = .ok st') :
    Evolves hist.held hist.store st' := by
  simp only [Store.deleteMailbox, check_eq_ok] at hok
  obtain ⟨-, hok⟩ := hok
  split at hok
  · cases hok
  · cases hok
    apply evolves_steady h (Steady.of_update _) h.wellFormed.keys
    · exact fun r hr => .inl ⟨r, hr, rfl, rfl, rfl⟩
    · exact ⟨fun _ => rfl, fun _ => rfl, fun _ hlive => (by cases hlive), fun _ => Nat.le_refl _⟩

theorem evolves_removeRows (h : NameInv hist) {id : String} {uids : List Nat} {onlyDeleted : Bool}
    {st' : Store} (hok : hist.store.removeRows id uids onlyDeleted = .ok st') :
    Evolves hist.held hist.store st' := by
  rw [Store.removeRows, check_eq_ok] at hok
  obtain ⟨-, hok⟩ := hok
  split at hok
  · cases hok
    exact evolves_self h
  · cases hok
    apply evolves_steady h (Steady.of_update _)
    · exact h.wellFormed.keys.sublist (List.filter_sublist.map _)
    · exact fun r hr => .inl ⟨r, (List.mem_filter.mp hr).1, rfl, rfl, rfl⟩
    · exact ⟨fun _ => rfl, fun _ => rfl, fun _ hlive => hlive, fun _ => Nat.le_refl _⟩

theorem evolves_setFlags (h : NameInv hist) {lower : Name → Name} {id : String} {uid : Nat}
    {flags : List Name} {st' : Store} (hok : hist.store.setFlags lower id uid flags = .ok st') :
    Evolves hist.held hist.store st' := by
  rw [Store.setFlags] at hok
  split at hok
  · cases hok
  rw [check_eq_ok] at hok
  obtain ⟨-, hok⟩ := hok
  cases hok
  apply evolves_steady h (Steady.of_update _)
  · rw [map_update]
    · exact h.wellFormed.keys
    · exact fun _ => rfl
  · intro r hr
    obtain ⟨r₀, hr₀, rfl⟩ := mem_update.mp hr
    refine .inl ⟨r₀, hr₀, ?_⟩
    split
    · exact ⟨rfl, rfl, rfl⟩
    · exact ⟨rfl, rfl, rfl⟩
  · exact ⟨fun _ => rfl, fun _ => rfl, fun _ hlive => hlive, fun _ => Nat.le_refl _⟩

theorem getMailboxByID_some {st : Store} {id : String} {mb : Mailbox}
    (h : st.getMailboxByID id = some mb) : mb ∈ st.mailboxes ∧ mb.live = true ∧ mb.id = id := by
  have hcond := List.find?_some h
  rw [Bool.and_eq_true, beq_iff_eq] at hcond
  exact ⟨List.mem_of_find?_eq_some h, hcond⟩

theorem evolves_insertMessage (h : NameInv hist) {lower : Name → Name} {mb : Mailbox} {m : Message}
    {st st' : Store} (hboxes : st.mailboxes = hist.store.mailboxes)
    (hrows : st.messages.Sublist hist.store.messages) (hmb : mb ∈ hist.store.mailboxes)
    (hok : st.insertMessage lower mb m = .ok st') : Evolves hist.held hist.store st' := by
  rw [Store.insertMessage, check_eq_ok, check_eq_ok] at hok
  obtain ⟨-, hfree, hok⟩ := hok
  cases hok
  rw [hboxes]
  have hkeys := h.wellFormed.keys.sublist (hrows.map fun r => (r.mailboxID, r.uid))
  apply evolves_steady h (Steady.of_update _)
  · refine nodup_insert hkeys fun r hr heq => hfree (List.any_eq_true.mpr ⟨r, hr, ?_⟩)
    obtain ⟨hid, huid⟩ := Prod.ext_iff.mp heq
    simp only at hid huid
    simp [hid, huid]
  · intro r hr
    rcases List.mem_append.mp hr with hr | hr
    · exact .inl ⟨r, hrows.subset hr, rfl, rfl, rfl⟩
    · cases List.mem_singleton.mp hr
      refine .inr ⟨mb, hmb, rfl, ?_, Nat.le_refl _⟩
      rw [if_pos (beq_self_eq_true _)]
      exact Nat.lt_succ_self _
  · exact ⟨fun _ => rfl, fun _ => rfl, fun _ hlive => hlive, fun mb => Nat.le_succ _⟩

theorem evolves_appendMessage (h : NameInv hist) {lower : Name → Name} {id : String} {m : Message}
    {res : AppendResult} {st' : Store}
    (hok : hist.store.appendMessage lower id m = .ok (res, st')) :
    Evolves hist.held hist.store st' := by
  rw [Store.appendMessage, check_eq_ok, check_eq_ok, Store.appendOnce] at hok
  obtain ⟨-, -, hok⟩ := hok
  split at hok
  · cases hok
  next mb hbox =>
  have hmb := (getMailboxByID_some hbox).1
  split at hok
  · obtain ⟨st, hinsert, heq⟩ := map_eq_ok.mp hok
    cases heq
    exact evolves_insertMessage h rfl (List.Sublist.refl _) hmb hinsert
  split at hok
  · cases hok
    exact evolves_self h
  · obtain ⟨st, hinsert, heq⟩ := map_eq_ok.mp hok
    cases heq
    refine evolves_insertMessage h ?_ ?_ hmb hinsert
    · rfl
    · exact List.filter_sublist

theorem evolves_copyMessage (h : NameInv hist) {lower : Name → Name} {srcID destID : String}
    {uid : Nat} {res : AppendResult} {st' : Store}
    (hok : hist.store.copyMessage lower srcID uid destID = .ok (res, st')) :
    Evolves hist.held hist.store st' := by
  rw [Store.copyMessage] at hok
  split at hok
  · cases hok
  · exact evolves_appendMessage h hok

/-- The mailboxes that a rename names anew top the earlier ones at their new names. -/
def RenamesAbove (h : History) (tenant : String) (username old new : Name) : Prop :=
  ∀ mb ∈ h.store.getMailbox tenant username old, ∀ q ∈ h.store.mailboxes,
    Store.renames mb q = true →
      TopsName h.held q.id q.label.account (Store.renamed old new q.name) q.uidvalidity

theorem evolves_renameMailbox (h : NameInv hist) {lower : Name → Name} {tenant : String}
    {username old new : Name} {st' : Store}
    (hnew : normalizeMailboxName new ≠ normalizeMailboxName old → RenamesAbove hist tenant
      (normalizeUsername lower username) (normalizeMailboxName old) (normalizeMailboxName new))
    (hok : hist.store.renameMailbox lower tenant username old new = .ok st') :
    Evolves hist.held hist.store st' := by
  simp only [Store.renameMailbox, check_eq_ok] at hok
  obtain ⟨-, -, hok⟩ := hok
  split at hok
  · split at hok
    · cases hok
      exact evolves_self h
    · cases hok
  next hne =>
  rw [check_eq_ok] at hok
  obtain ⟨-, hok⟩ := hok
  split at hok
  · cases hok
  next mb hmb =>
  rw [check_eq_ok] at hok
  obtain ⟨-, hok⟩ := hok
  split at hok
  · next hapart =>
    cases hok
    refine evolves_map h ?_ hapart h.wellFormed.keys ?_ ?_ ?_
    · intro q
      split
      · rfl
      · rfl
    · refine fun r hr => h.rows_kept (fun q _ => ?_) ⟨r, hr, rfl, rfl, rfl⟩
      split
      · exact Nat.le_refl _
      · exact Nat.le_refl _
    · intro q _
      left
      split
      · exact ⟨rfl, Nat.le_refl _⟩
      · exact ⟨rfl, Nat.le_refl _⟩
    · intro q hq hlive
      split at hlive
      · next hcond =>
        rw [if_pos hcond]
        exact .inr (hnew hne mb hmb q hq hcond)
      · next hcond =>
        rw [if_neg hcond]
        exact .inl ⟨hlive, rfl, rfl⟩
  · cases hok

theorem lt_resetValidity {uidvalidity : Nat} (h : uidvalidity + 1 < 2 ^ 32) (now : Int) :
    uidvalidity < Store.resetValidity uidvalidity now := by
  rw [Store.resetValidity]
  split
  · rw [Nat.mod_eq_of_lt h]
    exact Nat.lt_succ_self _
  · next hlt => exact Nat.not_le.mp hlt

theorem evolves_resetMailbox (h : NameInv hist) {id : String} {now : Int} {st' : Store}
    (hwrap : ∀ mb ∈ hist.store.getMailboxByID id, mb.uidvalidity + 1 < 2 ^ 32)
    (hok : hist.store.resetMailbox id now = .ok st') :
    Evolves hist.held hist.store st' := by
  rw [Store.resetMailbox] at hok
  split at hok
  · cases hok
  next mb hbox =>
  cases hok
  have hhigher := lt_resetValidity (hwrap mb hbox) now
  obtain ⟨hmb, hlive, rfl⟩ := getMailboxByID_some hbox
  have hsame : ∀ q ∈ hist.store.mailboxes, (q.id == mb.id) = true → q = mb :=
    fun q hq heq => eq_of_key h.wellFormed.ids hq hmb (beq_iff_eq.mp heq)
  refine evolves_map h ?_ ?_ (h.wellFormed.keys.sublist (List.filter_sublist.map _)) ?_ ?_ ?_
  · intro q
    split
    · rfl
    · rfl
  · apply namesApart_map h.wellFormed.names
    · intro q
      split
      · rfl
      · rfl
    · intro q hq
      split at hq
      · next hcond =>
        rw [if_pos hcond]
        exact ⟨hq, rfl, rfl, rfl⟩
      · next hcond =>
        rw [if_neg hcond]
        exact ⟨hq, rfl, rfl, rfl⟩
  · intro r hr
    rw [List.mem_filter, bne_iff_ne] at hr
    obtain ⟨q, hq, hqid⟩ := h.wellFormed.owned r hr.1
    refine ⟨q, hq, hqid, ?_, .inr ⟨r, hr.1, rfl, rfl, rfl⟩⟩
    rw [if_neg fun heq => hr.2 (hqid.symm.trans (beq_iff_eq.mp heq))]
    exact h.wellFormed.uids r hr.1 q hq hqid
  · intro q hq
    split
    · next hcond =>
      rw [hsame q hq hcond]
      exact .inr hhigher
    · exact .inl ⟨rfl, Nat.le_refl _⟩
  · intro q hq hqlive
    split
    · next hcond =>
      rw [if_pos hcond] at hqlive
      exact .inl ⟨hqlive, rfl, rfl⟩
    · next hcond =>
      rw [if_neg hcond] at hqlive
      exact .inl ⟨hqlive, rfl, rfl⟩

end Transactions

section Runs

variable {lower : Name → Name} {hist : History}

def ClockPast (h : History) (account : String × Name) (name : Name) (now : Int) : Prop :=
  0 < now ∧ now < 2 ^ 32 ∧ ∀ x ∈ h.held, x.label.account = account → x.label.name = name →
    (x.label.uidvalidity : Int) < now

/-- A name's UIDVALIDITY only goes up: it is free again by the clock when a mailbox is made, a
renamed mailbox has a higher one, and a reset does not wrap. -/
def Ascends (lower : Name → Name) (h : History) (e : Event) : Prop :=
  match e.op with
  | .ensure tenant username name _ | .create tenant username name _ =>
    let username := normalizeUsername lower username
    let name := normalizeMailboxName name
    ¬(h.store.getMailbox tenant username name).isSome →
      ClockPast h (tenant, username) name (h.clock + e.later)
  | .rename tenant username old new =>
    normalizeMailboxName new ≠ normalizeMailboxName old → RenamesAbove h tenant
      (normalizeUsername lower username) (normalizeMailboxName old) (normalizeMailboxName new)
  | .reset id => ∀ mb ∈ h.store.getMailboxByID id, mb.uidvalidity + 1 < 2 ^ 32
  | _ => True

theorem ClockPast.topsName {account : String × Name} {name : Name} {now : Int}
    (h : ClockPast hist account name now) (id : String) :
    TopsName hist.held id account name (Store.uidvalidityAt now) := by
  obtain ⟨hpos, hlt, hpast⟩ := h
  intro x hx haccount hname
  right
  have hbelow := hpast x hx haccount hname
  have hmod : now % 2 ^ 32 = now := Int.emod_eq_of_lt hpos.le hlt
  rw [Store.uidvalidityAt, hmod]
  split <;> omega

theorem NameInv.after (h : NameInv hist) {res : Except Error Store}
    (hev : ∀ st', res = .ok st' → Evolves hist.held hist.store st') : NameInv (hist.after res) := by
  cases res with
  | error err => exact h
  | ok st' => exact h.commit (hev st' rfl)

theorem NameInv.tick (h : NameInv hist) (clock : Int) : NameInv { hist with clock := clock } :=
  ⟨h.wellFormed, h.one, h.namedHeld, h.heldIDs, h.own, h.holder, h.current⟩

theorem NameInv.copy (h : NameInv hist) {srcID destID : String} {uid : Nat} {st' : Store}
    (hok : hist.store.exec lower hist.clock (.copy srcID uid destID) = .ok st') :
    NameInv (hist.commit st') := by
  obtain ⟨⟨res, st⟩, hcopy, rfl⟩ := map_eq_ok.mp hok
  exact h.commit (evolves_copyMessage h hcopy)

theorem NameInv.move (h : NameInv hist) (srcID destID : String) (all uids : List Nat) :
    NameInv (hist.move lower srcID destID all uids) := by
  induction uids generalizing hist with
  | nil =>
    rw [History.move]
    split
    · exact h
    · exact h.after fun st' hok => evolves_removeRows h hok
  | cons uid uids ih =>
    rw [History.move]
    split
    · exact h
    · next hok => exact ih (h.copy hok)

theorem nameInv_step (h : NameInv hist) {e : Event} (hnew : Ascends lower hist e) :
    NameInv (hist.step lower e) := by
  have htick := h.tick (hist.clock + e.later)
  unfold History.step
  dsimp only
  split
  · exact htick
  obtain ⟨op, later, failed⟩ := e
  cases op with
  | ensure tenant username name id =>
    refine htick.after fun st' hok => ?_
    simp only [Store.exec, Store.ensureMailbox, check_eq_ok] at hok
    obtain ⟨-, hok⟩ := hok
    split at hok
    · cases hok
      exact evolves_self htick
    · next hnone => exact evolves_insertMailbox htick ((hnew hnone).topsName id) hok
  | create tenant username name id =>
    refine htick.after fun st' hok => ?_
    simp only [Store.exec, Store.createMailbox, check_eq_ok] at hok
    obtain ⟨-, hnone, hok⟩ := hok
    exact evolves_insertMailbox htick ((hnew hnone).topsName id) hok
  | delete tenant username name => exact htick.after fun st' hok => evolves_deleteMailbox htick hok
  | rename tenant username old new =>
    exact htick.after fun st' hok => evolves_renameMailbox htick hnew hok
  | reset id => exact htick.after fun st' hok => evolves_resetMailbox htick hnew hok
  | append id m =>
    refine htick.after fun st' hok => ?_
    obtain ⟨⟨res, st⟩, happend, rfl⟩ := map_eq_ok.mp hok
    exact evolves_appendMessage htick happend
  | copy srcID uid destID =>
    refine htick.after fun st' hok => ?_
    obtain ⟨⟨res, st⟩, hcopy, rfl⟩ := map_eq_ok.mp hok
    exact evolves_copyMessage htick hcopy
  | move srcID uids destID => exact htick.move srcID destID uids uids
  | expunge id uids => exact htick.after fun st' hok => evolves_removeRows htick hok
  | setFlags id uid flags => exact htick.after fun st' hok => evolves_setFlags htick hok

def History.next (lower : Name → Name) (h : History) (e : Event) : Option History :=
  some (h.step lower e)

instance (named : List Naming) : Decidable (NamesOne named) :=
  inferInstanceAs (Decidable (∀ a ∈ named, ∀ b ∈ named, _ → _ → _))

instance (held : List Holding) (id : String) (account : String × Name) (name : Name)
    (uidvalidity : Nat) : Decidable (TopsName held id account name uidvalidity) :=
  inferInstanceAs (Decidable (∀ x ∈ held, _ → _ → _))

instance (h : History) (account : String × Name) (name : Name) (now : Int) :
    Decidable (ClockPast h account name now) :=
  inferInstanceAs (Decidable (_ ∧ _ ∧ ∀ x ∈ h.held, _ → _ → _))

instance (h : History) (tenant : String) (username old new : Name) :
    Decidable (RenamesAbove h tenant username old new) :=
  inferInstanceAs (Decidable (∀ mb ∈ h.store.getMailbox tenant username old,
    ∀ q ∈ h.store.mailboxes, _ → _))

instance (lower : Name → Name) (h : History) (e : Event) : Decidable (Ascends lower h e) :=
  match e with
  | ⟨.ensure _ _ _ _, _, _⟩ | ⟨.create _ _ _ _, _, _⟩ =>
    inferInstanceAs (Decidable (¬_ → ClockPast h _ _ _))
  | ⟨.rename _ _ _ _, _, _⟩ => inferInstanceAs (Decidable (_ ≠ _ → RenamesAbove h _ _ _ _))
  | ⟨.reset id, _, _⟩ => inferInstanceAs (Decidable (∀ mb ∈ h.store.getMailboxByID id, _))
  | ⟨.delete _ _ _, _, _⟩ | ⟨.append _ _, _, _⟩ | ⟨.copy _ _ _, _, _⟩ | ⟨.move _ _ _, _, _⟩
  | ⟨.expunge _ _, _, _⟩ | ⟨.setFlags _ _ _, _, _⟩ => .isTrue trivial

/-- A mailbox with a letter is deleted and made again, `later` seconds on, for another letter. -/
def madeAgain (later : Nat) : List Event :=
  [⟨.create "acme" "paris@acme".toList "Reports".toList "mbox_1", 0, false⟩,
    ⟨.append "mbox_1" (letter "sha-1"), 0, false⟩,
    ⟨.delete "acme" "paris@acme".toList "Reports".toList, 0, false⟩,
    ⟨.create "acme" "paris@acme".toList "Reports".toList "mbox_2", later, false⟩,
    ⟨.append "mbox_2" (letter "sha-2"), 0, false⟩]

/-- A mailbox is reset in its first second, which counts its UIDVALIDITY ahead of the clock; a
second later it is deleted and made again. -/
def aheadOfClock : List Event :=
  [⟨.create "acme" "paris@acme".toList "Reports".toList "mbox_1", 0, false⟩,
    ⟨.reset "mbox_1", 0, false⟩, ⟨.append "mbox_1" (letter "sha-1"), 0, false⟩,
    ⟨.delete "acme" "paris@acme".toList "Reports".toList, 0, false⟩,
    ⟨.create "acme" "paris@acme".toList "Reports".toList "mbox_2", 1, false⟩,
    ⟨.append "mbox_2" (letter "sha-2"), 0, false⟩]

/-- Of two mailboxes made in one second one leaves its name to the other. -/
def nameHandedOn : List Event :=
  [⟨.create "acme" "paris@acme".toList "Reports".toList "mbox_1", 0, false⟩,
    ⟨.create "acme" "paris@acme".toList "Drafts".toList "mbox_2", 0, false⟩,
    ⟨.append "mbox_1" (letter "sha-1"), 0, false⟩, ⟨.append "mbox_2" (letter "sha-2"), 0, false⟩,
    ⟨.rename "acme" "paris@acme".toList "Reports".toList "Old".toList, 0, false⟩,
    ⟨.rename "acme" "paris@acme".toList "Drafts".toList "Reports".toList, 0, false⟩]

end Runs

end ThanksComputer.Imap
