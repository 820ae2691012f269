import Mathlib.Data.List.Perm.Basic
import Mathlib.Logic.Function.Basic
import ThanksComputer.Lib.Runs
import ThanksComputer.State.Store

/-! The history of a state record: its events lead from the state it was created in to the state it
is in, one for each version, in every interleaving of calls. -/

namespace ThanksComputer.State

open Lib.Checks Lib.Runs Lib.Table

section Systems

structure Creating where
  key : Key
  inserted : Bool

/-- The tables, with the creates in flight; `created` and `purged` keep what the tables do not: the
rows as they were inserted, and the events that a purge deleted. -/
structure System where
  store : Store
  creates : Nat → Option Creating
  created : List Record
  purged : List Event

/-- One statement or transaction of a call; `fault` is a failure of the database. -/
inductive Step
  | create (i : Nat) (req : CreateReq) (now : Int) (fault : Bool)
  | readBack (i : Nat) (fault : Bool)
  | transition (req : TransitionReq) (eventID : String) (now : Int) (fault : Option Stage)
  | claimDue (node : String) (limit : Int) (locked : Event → Bool) (now : Int)
  | markDone (eventID rid : String) (now : Int)
  | markSkipped (eventID reason : String) (now : Int)
  | retry (eventID : String) (backoff : Int) (reason : String) (consumeAttempt : Bool)
      (maxAttempts now : Int)
  | reclaimStale (staleAfter maxAttempts now : Int)
  | purge (retention now : Int)

def System.insert (sys : System) (i : Nat) (r : Record) : System :=
  { sys with
    store := (sys.store.insertRecord r).1
    creates := Function.update sys.creates i (some ⟨r.key, (sys.store.insertRecord r).2⟩)
    created := if (sys.store.insertRecord r).2 then sys.created ++ [r] else sys.created }

def System.next (cfg : Config) (sys : System) : Step → Option System
  | .create i req now fault =>
    match sys.creates i, req.check cfg now with
    | some _, _ => none
    | none, .error _ => some sys
    | none, .ok r => some (if fault then sys else sys.insert i r)
  | .readBack i _ =>
    (sys.creates i).map fun _ => { sys with creates := Function.update sys.creates i none }
  | .transition req eventID now fault =>
    some { sys with store := (sys.store.transition cfg req eventID now fault).2 }
  | .claimDue node limit locked now =>
    some { sys with store := sys.store.claimDue node limit locked now }
  | .markDone eventID rid now => some { sys with store := sys.store.markDone eventID rid now }
  | .markSkipped eventID reason now =>
    some { sys with store := sys.store.markSkipped eventID reason now }
  | .retry eventID backoff reason consumeAttempt maxAttempts now =>
    some { sys with store := sys.store.retry eventID backoff reason consumeAttempt maxAttempts now }
  | .reclaimStale staleAfter maxAttempts now =>
    some { sys with store := sys.store.reclaimStale staleAfter maxAttempts now }
  | .purge retention now =>
    some
      { sys with
        store := sys.store.purge retention now
        purged := sys.purged ++ sys.store.events.filter (Event.expired retention now) }

def System.init : System :=
  ⟨⟨[], []⟩, fun _ => none, [], []⟩

def System.report (cfg : Config) (sys : System) : Step → Option (Except StateError Unit)
  | .create i req now fault =>
    match sys.creates i, req.check cfg now with
    | some _, _ => none
    | none, .error e => some (.error e)
    | none, .ok _ => if fault then some (.error (.store "create")) else none
  | .readBack i fault =>
    (sys.creates i).map fun c =>
      if fault then .error (.store "get")
      else (sys.store.get c.key >>= createResult c.inserted).map fun _ => ()
  | .transition req eventID now fault =>
    some ((sys.store.transition cfg req eventID now fault).1.map fun _ => ())
  | _ => none

/-- Whether the call that takes the step has changed a table, then or before. -/
def System.changed (cfg : Config) (sys : System) : Step → Bool
  | .readBack i _ => (sys.creates i).any Creating.inserted
  | step => (sys.next cfg step).any fun sys' => sys'.store != sys.store

end Systems

section Histories

structure Mark where
  key : Key
  version : Nat
  fromState : String
  toState : String

def Event.mark (e : Event) : Mark :=
  ⟨e.key, e.version, e.fromState, e.toState⟩

def System.marks (sys : System) : List Mark :=
  (sys.store.events ++ sys.purged).map Event.mark

/-- One event for each version from 2 to the record's, from the state it was created in to the state
it is in. -/
structure History (created : String) (r : Record) (marks : List Mark) : Prop where
  once : ∀ v, 2 ≤ v → v ≤ r.version →
    (marks.filter fun m => m.key == r.key && m.version == v).length = 1
  bounds : ∀ m ∈ marks, m.key = r.key → 2 ≤ m.version ∧ m.version ≤ r.version
  first : ∀ m ∈ marks, m.key = r.key → m.version = 2 → m.fromState = created
  later : ∀ m ∈ marks, ∀ m' ∈ marks, m.key = r.key → m'.key = r.key → m'.version = m.version + 1 →
    m'.fromState = m.toState
  last : ∀ m ∈ marks, m.key = r.key → m.version = r.version → m.toState = r.state
  fresh : r.version = 1 → r.state = created
  positive : 1 ≤ r.version

variable {created : String} {r r' : Record} {marks marks' : List Mark} {m : Mark}

theorem History.perm (h : History created r marks) (hperm : marks.Perm marks') :
    History created r marks' where
  once v hv hv' := by
    rw [← (hperm.filter _).length_eq]
    exact h.once v hv hv'
  bounds m hm := h.bounds m (hperm.mem_iff.mpr hm)
  first m hm := h.first m (hperm.mem_iff.mpr hm)
  later m hm m' hm' := h.later m (hperm.mem_iff.mpr hm) m' (hperm.mem_iff.mpr hm')
  last m hm := h.last m (hperm.mem_iff.mpr hm)
  fresh := h.fresh
  positive := h.positive

theorem History.other (h : History created r marks) (hm : m.key ≠ r.key) :
    History created r (marks ++ [m]) := by
  have hmem : ∀ m' ∈ marks ++ [m], m'.key = r.key → m' ∈ marks := by
    intro m' hm' hkey
    rcases List.mem_append.mp hm' with hm' | hm'
    · exact hm'
    · rw [List.mem_singleton.mp hm'] at hkey
      exact absurd hkey hm
  refine ⟨?_, ?_, ?_, ?_, ?_, h.fresh, h.positive⟩
  · intro v hv hv'
    rw [List.filter_append, List.length_append, h.once v hv hv']
    simp [hm]
  · exact fun m' hm' hkey => h.bounds m' (hmem m' hm' hkey) hkey
  · exact fun m' hm' hkey => h.first m' (hmem m' hm' hkey) hkey
  · exact fun m₁ h₁ m₂ h₂ k₁ k₂ => h.later m₁ (hmem m₁ h₁ k₁) m₂ (hmem m₂ h₂ k₂) k₁ k₂
  · exact fun m' hm' hkey => h.last m' (hmem m' hm' hkey) hkey

theorem History.extend (h : History created r marks) (hkey : m.key = r.key)
    (hversion : m.version = r.version + 1) (hfrom : m.fromState = r.state) (hkey' : r'.key = r.key)
    (hversion' : r'.version = r.version + 1) (hstate' : r'.state = m.toState) :
    History created r' (marks ++ [m]) := by
  have hpos := h.positive
  refine ⟨?_, ?_, ?_, ?_, ?_, ?_, ?_⟩
  · intro v hv hv'
    rw [List.filter_append, List.length_append, hkey']
    by_cases hlast : v = r.version + 1
    · have hnone : marks.filter (fun m' => m'.key == r.key && m'.version == v) = [] := by
        apply List.filter_eq_nil_iff.mpr
        intro m' hm' hmatch
        rw [Bool.and_eq_true, beq_iff_eq, beq_iff_eq] at hmatch
        have hle := (h.bounds m' hm' hmatch.1).2
        omega
      rw [hnone]
      simp [hkey, hversion, hlast]
    · rw [h.once v hv (by omega)]
      have hne : m.version ≠ v := by omega
      simp [hne]
  · intro m' hm' hk
    rcases List.mem_append.mp hm' with hm' | hm'
    · have hb := h.bounds m' hm' (hk.trans hkey')
      omega
    · rw [List.mem_singleton.mp hm']
      omega
  · intro m' hm' hk hv
    rcases List.mem_append.mp hm' with hm' | hm'
    · exact h.first m' hm' (hk.trans hkey') hv
    · rw [List.mem_singleton.mp hm'] at hv ⊢
      rw [hfrom]
      exact h.fresh (by omega)
  · intro m₁ h₁ m₂ h₂ k₁ k₂ hv
    rw [hkey'] at k₁ k₂
    rcases List.mem_append.mp h₁ with h₁ | h₁
    · rcases List.mem_append.mp h₂ with h₂ | h₂
      · exact h.later m₁ h₁ m₂ h₂ k₁ k₂ hv
      · rw [List.mem_singleton.mp h₂] at hv ⊢
        rw [hfrom]
        exact (h.last m₁ h₁ k₁ (by omega)).symm
    · rw [List.mem_singleton.mp h₁] at hv
      rcases List.mem_append.mp h₂ with h₂ | h₂
      · have hb := h.bounds m₂ h₂ k₂
        omega
      · rw [List.mem_singleton.mp h₂] at hv
        omega
  · intro m' hm' hk hv
    rcases List.mem_append.mp hm' with hm' | hm'
    · have hb := h.bounds m' hm' (hk.trans hkey')
      omega
    · rw [List.mem_singleton.mp hm', hstate']
  · omega
  · omega

theorem history_created (hversion : r.version = 1) (hnone : ∀ m ∈ marks, m.key ≠ r.key) :
    History r.state r marks where
  once v hv hv' := by omega
  bounds m hm hkey := absurd hkey (hnone m hm)
  first m hm hkey := absurd hkey (hnone m hm)
  later m hm m' _ hkey := absurd hkey (hnone m hm)
  last m hm hkey := absurd hkey (hnone m hm)
  fresh _ := rfl
  positive := by omega

end Histories

section Effects

variable {cfg : Config} {db : Store}

theorem matching_some {m : Move} {r : Record} (h : db.matching m = some r) :
    r ∈ db.records ∧ r.key = m.key ∧ r.state = m.source ∧ r.version = m.expected := by
  have hmatch := List.find?_some h
  rw [Bool.and_eq_true, Bool.and_eq_true, beq_iff_eq, beq_iff_eq, beq_iff_eq] at hmatch
  exact ⟨List.mem_of_find?_eq_some h, hmatch.1.1, hmatch.1.2, hmatch.2⟩

theorem insertEvent_some {e : Event} {db' : Store} (h : db.insertEvent e = some db') :
    db' = { db with events := db.events ++ [e] } ∧ ∀ q ∈ db.events, q.id ≠ e.id := by
  unfold Store.insertEvent at h
  split at h
  · cases h
  · next hany =>
    cases h
    refine ⟨rfl, fun q hq hid => hany (List.any_eq_true.mpr ⟨q, hq, ?_⟩)⟩
    rw [hid, beq_self_eq_true, Bool.true_or]

theorem transition_cases (cfg : Config) (db : Store) (req : TransitionReq) (eventID : String)
    (now : Int) (fault : Option Stage) :
    (∃ e, db.transition cfg req eventID now fault = (.error e, db)) ∨
      ∃ m r, db.matching m = some r ∧ (∀ q ∈ db.events, q.id ≠ eventID) ∧
        db.transition cfg req eventID now fault =
          (.ok (m.apply now r, m.event eventID (r.version + 1) req.cause now),
            { records := update
                (fun q => q.key == m.key && q.state == m.source && q.version == m.expected)
                (m.apply now) db.records
              events := db.events ++ [m.event eventID (r.version + 1) req.cause now] }) := by
  unfold Store.transition
  split
  · exact .inl ⟨_, rfl⟩
  next m hm =>
  split
  · exact .inl ⟨_, rfl⟩
  split
  · exact .inl ⟨_, rfl⟩
  split
  · split
    · exact .inl ⟨_, rfl⟩
    · exact .inl ⟨_, rfl⟩
  next r hr =>
  dsimp only
  split
  · exact .inl ⟨_, rfl⟩
  split
  · exact .inl ⟨_, rfl⟩
  next db' hinsert =>
  split
  · exact .inl ⟨_, rfl⟩
  · obtain ⟨rfl, hid⟩ := insertEvent_some hinsert
    exact .inr ⟨m, r, hr, hid, rfl⟩

theorem insertRecord_cases (db : Store) (r : Record) :
    db.insertRecord r = (db, false) ∧ (∃ q ∈ db.records, q.key = r.key) ∨
      db.insertRecord r = ({ db with records := db.records ++ [r] }, true) ∧
        ∀ q ∈ db.records, q.key ≠ r.key := by
  unfold Store.insertRecord
  split
  · next hany =>
    obtain ⟨q, hq, hkey⟩ := List.any_eq_true.mp hany
    exact .inl ⟨rfl, q, hq, beq_iff_eq.mp hkey⟩
  · next hany =>
    refine .inr ⟨rfl, fun q hq hkey => hany ?_⟩
    exact List.any_eq_true.mpr ⟨q, hq, beq_iff_eq.mpr hkey⟩

theorem get_ok {key : Key} (h : ∃ r ∈ db.records, r.key = key) : ∃ r, db.get key = .ok r := by
  obtain ⟨r, hr, hkey⟩ := h
  unfold Store.get
  split
  · next r' _ => exact ⟨r', rfl⟩
  · next hnone =>
    have hno := List.find?_eq_none.mp hnone r hr
    exact absurd (beq_iff_eq.mpr hkey) hno

/-- What any step of a dispatcher leaves: the records, and the marks of the events. -/
def SameMarks (db db' : Store) : Prop :=
  db'.records = db.records ∧ db'.events.map Event.mark = db.events.map Event.mark

theorem sameMarks_claimDue (node : String) (limit : Int) (locked : Event → Bool) (now : Int) :
    SameMarks db (db.claimDue node limit locked now) := by
  refine ⟨rfl, map_update ?_ _⟩
  exact fun e => rfl

theorem sameMarks_settle (eventID : String) {set : Event → Event}
    (hset : ∀ e, (set e).mark = e.mark) : SameMarks db (db.settle eventID set) :=
  ⟨rfl, map_update hset _⟩

theorem sameMarks_retry (eventID : String) (backoff : Int) (reason : String) (consumeAttempt : Bool)
    (maxAttempts now : Int) :
    SameMarks db (db.retry eventID backoff reason consumeAttempt maxAttempts now) := by
  apply sameMarks_settle
  intro e
  cases consumeAttempt with
  | true => rfl
  | false => rfl

theorem sameMarks_reclaimStale (staleAfter maxAttempts now : Int) :
    SameMarks db (db.reclaimStale staleAfter maxAttempts now) := by
  refine ⟨rfl, map_update ?_ _⟩
  exact fun e => rfl

end Effects

section Invariants

variable {cfg : Config} {sys sys' : System}

def Chained (sys : System) : Prop :=
  ∀ r ∈ sys.store.records, ∃ r₀ ∈ sys.created, r₀.key = r.key ∧ History r₀.state r sys.marks

structure Inv (sys : System) : Prop where
  chained : Chained sys
  keys : (sys.store.records.map Record.key).Nodup
  known : ∀ m ∈ sys.marks, ∃ r ∈ sys.store.records, r.key = m.key
  creating : ∀ i c, sys.creates i = some c → ∃ r ∈ sys.store.records, r.key = c.key

theorem Inv.of_marks (h : Inv sys) (hrecords : sys'.store.records = sys.store.records)
    (hcreates : sys'.creates = sys.creates) (hcreated : sys'.created = sys.created)
    (hmarks : sys.marks.Perm sys'.marks) : Inv sys' where
  chained r hr := by
    rw [hrecords] at hr
    obtain ⟨r₀, hr₀, hkey, hhistory⟩ := h.chained r hr
    exact ⟨r₀, hcreated ▸ hr₀, hkey, hhistory.perm hmarks⟩
  keys := hrecords ▸ h.keys
  known m hm := hrecords ▸ h.known m (hmarks.mem_iff.mpr hm)
  creating i c hc := hrecords ▸ h.creating i c (hcreates ▸ hc)

theorem Inv.of_sameMarks (h : Inv sys) {db : Store} (hdb : SameMarks sys.store db) :
    Inv { sys with store := db } := by
  apply h.of_marks
  · exact hdb.1
  · rfl
  · rfl
  · rw [System.marks, System.marks, List.map_append, List.map_append, hdb.2]

theorem inv_purge (h : Inv sys) (retention now : Int) :
    Inv
      { sys with
        store := sys.store.purge retention now
        purged := sys.purged ++ sys.store.events.filter (Event.expired retention now) } := by
  apply h.of_marks
  · rfl
  · rfl
  · rfl
  apply List.Perm.map
  let p := Event.expired retention now
  calc sys.store.events ++ sys.purged
    _ |>.Perm (sys.store.events.filter p ++ sys.store.events.filter (!p ·) ++ sys.purged) :=
        (List.filter_append_perm p _).symm.append_right _
    _ |>.Perm (sys.store.events.filter (!p ·) ++ sys.store.events.filter p ++ sys.purged) :=
        List.perm_append_comm.append_right _
    _ = sys.store.events.filter (!p ·) ++ (sys.store.events.filter p ++ sys.purged) :=
        List.append_assoc _ _ _
    _ |>.Perm (sys.store.events.filter (!p ·) ++ (sys.purged ++ sys.store.events.filter p)) :=
        List.perm_append_comm.append_left _

theorem creating_update {creates : Nat → Option Creating} {records : List Record}
    (h : ∀ i c, creates i = some c → ∃ r ∈ records, r.key = c.key) {i : Nat} {new : Option Creating}
    (hnew : ∀ c, new = some c → ∃ r ∈ records, r.key = c.key) :
    ∀ j c, Function.update creates i new j = some c → ∃ r ∈ records, r.key = c.key := by
  intro j c hc
  by_cases hj : j = i
  · subst hj
    rw [Function.update_self] at hc
    exact hnew c hc
  · rw [Function.update_of_ne hj] at hc
    exact h j c hc

theorem inv_insert (h : Inv sys) (i : Nat) {r : Record} (hversion : r.version = 1) :
    Inv (sys.insert i r) := by
  rcases insertRecord_cases sys.store r with ⟨heq, q, hq, hkey⟩ | ⟨heq, hfree⟩
  · rw [System.insert, heq]
    refine ⟨h.chained, h.keys, h.known, creating_update h.creating ?_⟩
    intro c hc
    cases hc
    exact ⟨q, hq, hkey⟩
  · rw [System.insert, heq]
    have hself : r ∈ sys.store.records ++ [r] := List.mem_append_right _ (List.mem_singleton_self _)
    refine ⟨?_, ?_, ?_, creating_update ?_ ?_⟩
    · intro r' hr'
      rcases List.mem_append.mp hr' with hr' | hr'
      · obtain ⟨r₀, hr₀, hkey, hhistory⟩ := h.chained r' hr'
        exact ⟨r₀, List.mem_append_left _ hr₀, hkey, hhistory⟩
      · rw [List.mem_singleton.mp hr']
        refine ⟨r, List.mem_append_right _ (List.mem_singleton_self _), rfl,
          history_created hversion ?_⟩
        intro m hm hkey
        obtain ⟨q, hq, hkey'⟩ := h.known m hm
        exact hfree q hq (hkey'.trans hkey)
    · exact nodup_insert h.keys hfree
    · intro m hm
      obtain ⟨q, hq, hkey⟩ := h.known m hm
      exact ⟨q, List.mem_append_left _ hq, hkey⟩
    · intro j c hc
      obtain ⟨q, hq, hkey⟩ := h.creating j c hc
      exact ⟨q, List.mem_append_left _ hq, hkey⟩
    · intro c hc
      cases hc
      exact ⟨r, hself, rfl⟩

theorem mem_key_iff {key : Key} {records : List Record} :
    (∃ r ∈ records, r.key = key) ↔ key ∈ records.map Record.key :=
  List.mem_map.symm

theorem inv_transition (h : Inv sys) (req : TransitionReq) (eventID : String) (now : Int)
    (fault : Option Stage) :
    Inv { sys with store := (sys.store.transition cfg req eventID now fault).2 } := by
  rcases transition_cases cfg sys.store req eventID now fault with ⟨e, heq⟩ | ⟨m, r, hr, -, heq⟩
  · rw [heq]
    exact h
  rw [heq]
  obtain ⟨hmem, hkey, hsource, hexpected⟩ := matching_some hr
  let e := m.event eventID (r.version + 1) req.cause now
  have hmarks : (sys.marks ++ [e.mark]).Perm
      ((sys.store.events ++ [e] ++ sys.purged).map Event.mark) := by
    have hperm : (sys.store.events ++ sys.purged ++ [e]).Perm
        (sys.store.events ++ [e] ++ sys.purged) := by
      rw [List.append_assoc, List.append_assoc]
      exact List.perm_append_comm.append_left _
    have hmap := hperm.map Event.mark
    rw [List.map_append] at hmap
    exact hmap
  have hsame : ∀ key, (∃ q ∈ sys.store.records, q.key = key) →
      ∃ q ∈ update (fun q => q.key == m.key && q.state == m.source && q.version == m.expected)
        (m.apply now) sys.store.records, q.key = key := by
    intro key hq
    rw [mem_key_iff] at hq ⊢
    rw [map_update]
    · exact hq
    · exact fun r => rfl
  refine ⟨?_, ?_, ?_, fun i c hc => hsame c.key (h.creating i c hc)⟩
  · intro q' hq'
    obtain ⟨q, hq, rfl⟩ := mem_update.mp hq'
    obtain ⟨q₀, hq₀, hkey₀, hhistory⟩ := h.chained q hq
    split
    · next hmatch =>
      rw [Bool.and_eq_true, Bool.and_eq_true, beq_iff_eq, beq_iff_eq, beq_iff_eq] at hmatch
      have heq : q = r := eq_of_key h.keys hq hmem (hmatch.1.1.trans hkey.symm)
      subst heq
      refine ⟨q₀, hq₀, hkey₀, (hhistory.extend ?_ ?_ ?_ ?_ ?_ ?_).perm hmarks⟩
      · exact hkey.symm
      · rfl
      · exact hsource.symm
      · rfl
      · rfl
      · rfl
    · next hmatch =>
      have hne : e.mark.key ≠ q.key := by
        intro hkeys
        have heq : q = r := eq_of_key h.keys hq hmem (hkeys.symm.trans hkey.symm)
        rw [heq, hkey, hsource, hexpected] at hmatch
        simp at hmatch
      exact ⟨q₀, hq₀, hkey₀, (hhistory.other hne).perm hmarks⟩
  · rw [map_update]
    · exact h.keys
    · exact fun r => rfl
  · intro k hk
    apply hsame
    rcases List.mem_append.mp (hmarks.mem_iff.mpr hk) with hk | hk
    · exact h.known k hk
    · rw [List.mem_singleton.mp hk]
      exact ⟨r, hmem, hkey⟩

theorem check_version {req : CreateReq} {now : Int} {r : Record} (h : req.check cfg now = .ok r) :
    r.version = 1 := by
  unfold CreateReq.check at h
  obtain ⟨key, -, h⟩ := bind_eq_ok.mp h
  obtain ⟨state, -, h⟩ := bind_eq_ok.mp h
  obtain ⟨data, -, h⟩ := bind_eq_ok.mp h
  cases h
  rfl

theorem next_create {i : Nat} {req : CreateReq} {now : Int} {fault : Bool}
    (h : sys.next cfg (.create i req now fault) = some sys') :
    sys' = sys ∨ ∃ r, req.check cfg now = .ok r ∧ sys' = sys.insert i r := by
  unfold System.next at h
  dsimp only at h
  split at h
  · cases h
  · cases h
    exact .inl rfl
  · next r _ hcheck =>
    cases h
    split
    · exact .inl rfl
    · exact .inr ⟨r, hcheck, rfl⟩

theorem insert_events (sys : System) (i : Nat) (r : Record) :
    (sys.insert i r).store.events = sys.store.events := by
  rcases insertRecord_cases sys.store r with ⟨heq, -⟩ | ⟨heq, -⟩
  · rw [System.insert, heq]
  · rw [System.insert, heq]

theorem inv_next {step : Step} (h : Inv sys) (hnext : sys.next cfg step = some sys') :
    Inv sys' := by
  cases step with
  | create i req now fault =>
    rcases next_create hnext with rfl | ⟨r, hcheck, rfl⟩
    · exact h
    · exact inv_insert h i (check_version hcheck)
  | readBack i fault =>
    obtain ⟨c, -, rfl⟩ := Option.map_eq_some_iff.mp hnext
    exact ⟨h.chained, h.keys, h.known, creating_update h.creating fun c hc => by cases hc⟩
  | transition req eventID now fault =>
    cases hnext
    exact inv_transition h req eventID now fault
  | claimDue node limit locked now =>
    cases hnext
    exact h.of_sameMarks (sameMarks_claimDue node limit locked now)
  | markDone eventID rid now =>
    cases hnext
    exact h.of_sameMarks (sameMarks_settle eventID fun _ => rfl)
  | markSkipped eventID reason now =>
    cases hnext
    exact h.of_sameMarks (sameMarks_settle eventID fun _ => rfl)
  | retry eventID backoff reason consumeAttempt maxAttempts now =>
    cases hnext
    exact h.of_sameMarks (sameMarks_retry eventID backoff reason consumeAttempt maxAttempts now)
  | reclaimStale staleAfter maxAttempts now =>
    cases hnext
    exact h.of_sameMarks (sameMarks_reclaimStale staleAfter maxAttempts now)
  | purge retention now =>
    cases hnext
    exact inv_purge h retention now

theorem inv_init : Inv .init where
  chained _ hr := absurd hr List.not_mem_nil
  keys := List.nodup_nil
  known _ hm := absurd hm List.not_mem_nil
  creating _ _ hc := by cases hc

end Invariants

section Reports

variable {cfg : Config} {sys : System}

def ReadsBack (sys : System) : Step → Prop
  | .readBack i fault => ∀ c, sys.creates i = some c → c.inserted = true → fault = false
  | _ => True

/-- A call that reports an error has changed nothing. -/
def ErrorsClean (cfg : Config) (sys : System) (step : Step) : Prop :=
  ∀ e, sys.report cfg step = some (.error e) → sys.changed cfg step = false

/-- The histories hold after a step, and its error, if it reports one, is clean. -/
structure Sound (cfg : Config) (sys : System) (step : Step) : Prop where
  chained : ∀ sys', sys.next cfg step = some sys' → Chained sys'
  errors : ErrorsClean cfg sys step

theorem errorsClean_readBack (h : Inv sys) {i : Nat} {fault : Bool}
    (hback : ReadsBack sys (.readBack i fault)) : ErrorsClean cfg sys (.readBack i fault) := by
  intro e hreport
  obtain ⟨c, hc, herr⟩ := Option.map_eq_some_iff.mp hreport
  rw [System.changed, hc, Option.any_some]
  cases hinserted : c.inserted with
  | false => rfl
  | true =>
    obtain ⟨r, hr⟩ := get_ok (h.creating i c hc)
    rw [hback c hc hinserted, hr, hinserted] at herr
    cases herr

theorem errorsClean_transition {req : TransitionReq} {eventID : String} {now : Int}
    {fault : Option Stage} : ErrorsClean cfg sys (.transition req eventID now fault) := by
  intro e hreport
  rw [System.report, Option.some_inj] at hreport
  unfold System.changed System.next
  dsimp only
  rcases transition_cases cfg sys.store req eventID now fault with ⟨e', heq⟩ | ⟨m, r, -, -, heq⟩
  · rw [heq]
    simp
  · rw [heq] at hreport
    cases hreport

theorem errorsClean_create {i : Nat} {req : CreateReq} {now : Int} {fault : Bool} :
    ErrorsClean cfg sys (.create i req now fault) := by
  intro e hreport
  unfold System.report at hreport
  unfold System.changed System.next
  dsimp only at hreport ⊢
  split at hreport
  · cases hreport
  · simp
  · split at hreport
    · next hfault => simp [hfault]
    · cases hreport

theorem sound_step (h : Inv sys) {step : Step} (hback : ReadsBack sys step) :
    Sound cfg sys step where
  chained _ hnext := (inv_next h hnext).chained
  errors := by
    cases step with
    | create i req now fault => exact errorsClean_create
    | readBack i fault => exact errorsClean_readBack h hback
    | transition req eventID now fault => exact errorsClean_transition
    | _ => exact fun e he => by cases he

/-- In every run whose creates read back what they insert, every record has its history in every
state and every error is clean. -/
theorem sound_along (cfg : Config) (steps : List Step)
    (h : Along (System.next cfg) ReadsBack .init steps) :
    Along (System.next cfg) (Sound cfg) .init steps := by
  refine Along.of_invariant (I := Inv) ?_ ?_ inv_init h
  · exact fun sys step sys' hinv _ hnext => inv_next hinv hnext
  · exact fun sys step hinv hback => sound_step hinv hback

def capped : Config :=
  ⟨65536, fun _ => true⟩

def task (state : String) : CreateReq :=
  ⟨.text "acme", .text "onepony.task", .text "t1", .text state, none⟩

def toWaiting : TransitionReq :=
  ⟨.text "acme", .text "onepony.task", .text "t1", .text "working", .text "waiting", 1, none,
    ⟨"web", "web", "r1", ""⟩⟩

/-- A create and a transition, with a second create of the same record between them. -/
theorem sound_task :
    Along (System.next capped) (Sound capped) .init
      [.create 0 (task "working") 0 false, .create 1 (task "other") 1 false, .readBack 0 false,
        .transition toWaiting "stev_1" 2 none, .readBack 1 false] :=
  sound_along capped _ ⟨trivial, fun _ _ => ⟨trivial, fun _ _ => ⟨fun _ _ _ => rfl, fun _ _ =>
    ⟨trivial, fun _ _ => ⟨fun _ _ _ => rfl, fun _ _ => trivial⟩⟩⟩⟩⟩

/-- The database fails the read-back: the create reports an error, and the record is there. -/
theorem not_sound_task :
    ¬Along (System.next capped) (Sound capped) .init
      [.create 0 (task "working") 0 false, .readBack 0 true] := by
  intro h
  have hrun : ([.create 0 (task "working") 0 false].foldlM (System.next capped) .init).any
    (fun sys =>
      sys.changed capped (.readBack 0 true) &&
        sys.report capped (.readBack 0 true) == some (.error (.store "get"))) = true := by
    decide +kernel
  rw [Option.any_eq_true] at hrun
  obtain ⟨sys, hsys, hfailed⟩ := hrun
  rw [Bool.and_eq_true, beq_iff_eq] at hfailed
  have hsound := along_iff.mp h 1 _ sys rfl hsys
  rw [hsound.errors _ hfailed.2] at hfailed
  cases hfailed.1

end Reports

end ThanksComputer.State
