import Mathlib.Data.List.Induction
import ThanksComputer.Lib.Runs
import ThanksComputer.Notebook.Store

/-! Appends attempt by attempt, between the other writes of the store. -/

namespace ThanksComputer.Notebook

open Net Lib Lib.Runs

section Runs

/-- `newGeneration` of eight random bytes. -/
def newGeneration (bytes : BitVec 64) : Nat :=
  let g := bytes.toNat / 4
  if g = 0 then 1 else g

/-- Which attempt of a call is next: the one statement, or a transaction. -/
inductive Stage
  | fast
  | once
  | again
  deriving DecidableEq

/-- A call of `Append` in flight. -/
structure Call where
  id : Nat
  req : AppendReq
  stage : Stage
  deriving DecidableEq

/-- How the database fails an attempt.  A unique violation writes nothing; after another error the
attempt may have been committed. -/
inductive Fault
  | violated
  | failed (committed : Bool)
  deriving DecidableEq

inductive Mark
  | recorded (call : Nat) (e : EntryRow)
  | deleted (id : Str)
  deriving DecidableEq

structure World where
  db : Db
  calls : List Call
  begun : Nat
  log : List Mark
  deriving DecidableEq

def World.start : World := ⟨.empty, [], 0, []⟩

inductive Event
  | call (req : AppendReq)
  | attempt (call : Nat) (now : Int) (bytes : BitVec 64) (fault : Option Fault)
  | setTTL (ref : Ref) (ttl now : Int) (bytes : BitVec 64)
  | delete (ref : Ref)
  | sweep (now batch : Int) (picked : List EntryRow)
  deriving DecidableEq

variable (node : Node) (w : World)

def Call.attempt (db : Db) (c : Call) (now : Int) (gen : Nat) : Attempt :=
  match c.stage with
  | .fast => db.appendFast c.req now
  | .once | .again => db.appendOnce c.req now gen

/-- What the call does after an attempt that wrote nothing and may be followed by another. -/
def Call.retry (c : Call) : Option Call :=
  match c.stage with
  | .fast => some { c with stage := .once }
  | .once => some { c with stage := .again }
  | .again => none

def World.drop (c : Call) : World :=
  { w with calls := w.calls.filter (·.id != c.id) }

/-- The attempt reached the tables. -/
def World.commit (c : Call) : Attempt → World
  | .done db _ recorded => { w with db := db, log := w.log ++ recorded.toList.map (.recorded c.id) }
  | .violated => w

/-- The call goes on with another attempt, or gives up. -/
def World.retry (c : Call) : World × Option (Except Error AppendResult) :=
  match c.retry with
  | some c' => ({ w with calls := w.calls.map fun q => if q.id = c.id then c' else q }, none)
  | none => (w.drop c, some (.error (.store "append")))

def World.attempt (c : Call) (now : Int) (bytes : BitVec 64) (fault : Option Fault) :
    World × Option (Except Error AppendResult) :=
  let a := c.attempt w.db now (newGeneration bytes)
  match fault with
  | some .violated => w.retry c
  | some (.failed committed) =>
    ((if committed then w.commit c a else w).drop c, some (.error (.store "append")))
  | none =>
    match a with
    | .done _ res _ => ((w.commit c a).drop c, some (.ok res))
    | .violated => w.retry c

/-- A call whose arguments are refused never reaches the database. -/
def World.call (req : AppendReq) : World :=
  match node.validate req with
  | .error _ => w
  | .ok req =>
    { w with
      calls := w.calls ++ [⟨w.begun, req, if node.postgres then .fast else .once⟩]
      begun := w.begun + 1 }

def World.delete (ref : Ref) : World :=
  match w.db.delete ref with
  | (db, true) => { w with db := db, log := w.log ++ [.deleted ref.id] }
  | (_, false) => w

def World.next : Event → Option World
  | .call req => some (w.call node req)
  | .attempt id now bytes fault =>
    (w.calls.find? (·.id == id)).map fun c => (w.attempt c now bytes fault).1
  | .setTTL ref ttl now bytes =>
    if ref.validate.isSome then some w
    else some { w with db := w.db.setTTL node now (newGeneration bytes) ref ttl }
  | .delete ref => if ref.validate.isSome then some w else some (w.delete ref)
  | .sweep now batch picked => (w.db.sweep now batch picked).map fun db => { w with db := db }

end Runs

section Statement

/-- Between two deletions of a notebook its numbers increase in commit order, under one
generation. -/
def Increasing (log : List Mark) : Prop :=
  ∀ pre c e mid c' e' post, log = pre ++ .recorded c e :: (mid ++ .recorded c' e' :: post) →
    e.id = e'.id → .deleted e.id ∉ mid → e.seq < e'.seq ∧ e.generation = e'.generation

def recordedBy (c : Nat) (log : List Mark) : List EntryRow :=
  log.filterMap fun
    | .recorded c' e => if c' = c then some e else none
    | .deleted _ => none

/-- The key of the call is held by this entry, unexpired at the reading. -/
def Db.Held (db : Db) (req : AppendReq) (now : Int) (e : EntryRow) : Prop :=
  req.objectKey ≠ [] ∧ e ∈ db.entries ∧ e.id = req.ref.id ∧ e.objectKey = req.objectKey ∧
    e.expired (formatAt now) = false

/-- What an attempt may do, by what the tables hold at its reading. -/
structure Answers (w : World) (c : Call) (now : Int) (fault : Option Fault) (w' : World)
    (answer : Option (Except Error AppendResult)) : Prop where
  held : ∀ e, w.db.Held c.req now e → w'.db = w.db ∧ w'.log = w.log ∧
    ∀ res, answer = some (.ok res) → res = ⟨e.seq, e.stamp, true⟩
  unheld : (∀ e, ¬w.db.Held c.req now e) → ∀ res, answer = some (.ok res) →
    ∃ e ∈ w'.db.entries, recordedBy c.id w'.log = [e] ∧ res = ⟨e.seq, e.stamp, false⟩ ∧
      w'.log = w.log ++ [.recorded c.id e]
  once : ∀ res, answer = some (.ok res) →
    (recordedBy c.id w'.log).length = if res.existed then 0 else 1
  returns : fault = none → c.stage ≠ .fast → ∃ res, answer = some (.ok res)

structure Sound (w : World) (event : Event) : Prop where
  increasing : Increasing w.log
  oneHolder : ∀ id key, key ≠ [] →
    (w.db.entries.filter fun e => e.id == id && e.objectKey == key).length ≤ 1
  answers : ∀ id now bytes fault, event = .attempt id now bytes fault → ∀ c ∈ w.calls, c.id = id →
    Answers w c now fault (w.attempt c now bytes fault).1 (w.attempt c now bytes fault).2

end Statement

section History

variable {log : List Mark}

def since (id : Str) (log : List Mark) : List EntryRow :=
  log.foldl (fun es m =>
    match m with
    | .recorded _ e => if e.id = id then es ++ [e] else es
    | .deleted id' => if id' = id then [] else es) []

theorem since_recorded (id : Str) (log : List Mark) (c : Nat) (e : EntryRow) :
    since id (log ++ [.recorded c e]) = if e.id = id then since id log ++ [e]
      else since id log := by
  rw [since, List.foldl_append]
  rfl

theorem since_deleted (id : Str) (log : List Mark) (id' : Str) :
    since id (log ++ [.deleted id']) = if id' = id then [] else since id log := by
  rw [since, List.foldl_append]
  rfl

theorem mem_since_recorded {id : Str} {c : Nat} {e q : EntryRow} :
    q ∈ since id (log ++ [.recorded c e]) ↔ q ∈ since id log ∨ (e.id = id ∧ q = e) := by
  rw [since_recorded]
  by_cases hid : e.id = id
  · simp [hid]
  · simp [hid]

theorem mem_since {pre : List Mark} {c : Nat} {e : EntryRow} {mid : List Mark}
    (hmid : .deleted e.id ∉ mid) : e ∈ since e.id (pre ++ .recorded c e :: mid) := by
  induction mid using List.reverseRecOn with
  | nil => exact mem_since_recorded.mpr (.inr ⟨rfl, rfl⟩)
  | append_singleton mid m ih =>
    rw [List.mem_append, not_or] at hmid
    have hrest := ih hmid.1
    rw [← List.cons_append, ← List.append_assoc]
    cases m with
    | recorded c' e' => exact mem_since_recorded.mpr (.inl hrest)
    | deleted id =>
      rw [since_deleted, if_neg]
      · exact hrest
      · intro hid
        exact hmid.2 (hid ▸ List.mem_singleton_self _)

theorem Increasing.snoc (h : Increasing log) {m : Mark}
    (hm : ∀ c e, m = .recorded c e → ∀ q ∈ since e.id log, q.seq < e.seq ∧
      q.generation = e.generation) :
    Increasing (log ++ [m]) := by
  intro pre c e mid c' e' post hlog hid hmid
  rcases List.eq_nil_or_concat post with rfl | ⟨post, m', rfl⟩
  · -- The later entry is the new mark.
    rw [← List.cons_append, ← List.append_assoc] at hlog
    obtain ⟨rfl, hm'⟩ := List.append_inj' hlog rfl
    obtain rfl := List.singleton_inj.mp hm'
    exact hm c' e' rfl e (hid ▸ mem_since hmid)
  · rw [List.concat_eq_append, ← List.cons_append, ← List.append_assoc, ← List.cons_append,
      ← List.append_assoc] at hlog
    obtain ⟨rfl, -⟩ := List.append_inj' hlog rfl
    exact h pre c e mid c' e' post (by rw [List.append_assoc, List.cons_append]) hid hmid

theorem recordedBy_snoc (c : Nat) (log : List Mark) (c' : Nat) (e : EntryRow) :
    recordedBy c (log ++ [.recorded c' e]) =
      if c' = c then recordedBy c log ++ [e] else recordedBy c log := by
  rw [recordedBy, List.filterMap_append]
  by_cases hc : c' = c
  · simp [hc, recordedBy]
  · simp [hc, recordedBy]

theorem recordedBy_deleted (c : Nat) (log : List Mark) (id : Str) :
    recordedBy c (log ++ [.deleted id]) = recordedBy c log := by
  simp [recordedBy, List.filterMap_append]

end History

section Tables

variable {db : Db} {log : List Mark}

structure Kept (db : Db) (log : List Mark) : Prop where
  heads : (db.heads.map HeadRow.id).Nodup
  entries : (db.entries.map fun e => (e.id, e.seq)).Nodup
  keys : ∀ e ∈ db.entries, ∀ q ∈ db.entries, e.id = q.id → e.objectKey = q.objectKey →
    e.objectKey ≠ [] → e = q
  since : ∀ e ∈ db.entries, e ∈ since e.id log
  numbered : ∀ h ∈ db.heads, ∀ e ∈ Notebook.since h.id log,
    e.seq < h.nextSeq ∧ e.generation = h.generation
  headless : ∀ id, (∀ h ∈ db.heads, h.id ≠ id) → Notebook.since id log = []
  increasing : Increasing log
  headSeq : ∀ h ∈ db.heads, 0 < h.nextSeq
  entrySeq : ∀ e ∈ db.entries, 0 < e.seq

theorem headOf_eq_none {id : Str} : db.headOf id = none ↔ ∀ h ∈ db.heads, h.id ≠ id := by
  simp [Db.headOf]

theorem headOf_eq_some {id : Str} {head : HeadRow} (h : db.headOf id = some head) :
    head ∈ db.heads ∧ head.id = id :=
  ⟨List.mem_of_find?_eq_some h, by simpa using List.find?_some h⟩

theorem Kept.start : Kept .empty [] :=
  ⟨.nil, .nil, nofun, nofun, nofun, fun _ _ => rfl,
    fun pre _ _ _ _ _ _ h =>
      absurd h.symm (List.append_ne_nil_of_right_ne_nil pre (List.cons_ne_nil _ _)),
    nofun, nofun⟩

theorem Kept.filter (h : Kept db log) (p : EntryRow → Bool) :
    Kept { db with entries := db.entries.filter p } log where
  heads := h.heads
  entries := h.entries.sublist (List.Sublist.map _ List.filter_sublist)
  keys e he q hq := h.keys e (List.mem_of_mem_filter he) q (List.mem_of_mem_filter hq)
  since e he := h.since e (List.mem_of_mem_filter he)
  numbered := h.numbered
  headless := h.headless
  increasing := h.increasing
  headSeq := h.headSeq
  entrySeq e he := h.entrySeq e (List.mem_of_mem_filter he)

theorem Kept.addHead (h : Kept db log) {head : HeadRow} (hnew : db.headOf head.id = none)
    (hseq : 0 < head.nextSeq) :
    Kept { db with heads := db.heads ++ [head] } log where
  heads := Table.nodup_insert h.heads (headOf_eq_none.mp hnew)
  entries := h.entries
  keys := h.keys
  since := h.since
  numbered q hq e he := by
    rcases List.mem_append.mp hq with hq | hq
    · exact h.numbered q hq e he
    · obtain rfl := List.mem_singleton.mp hq
      rw [h.headless q.id (headOf_eq_none.mp hnew)] at he
      cases he
  headless id hid := h.headless id fun q hq => hid q (List.mem_append_left _ hq)
  increasing := h.increasing
  headSeq q hq := by
    rcases List.mem_append.mp hq with hq | hq
    · exact h.headSeq q hq
    · rwa [List.mem_singleton.mp hq]
  entrySeq := h.entrySeq

theorem Kept.updateHeads (h : Kept db log) (cond : HeadRow → Bool) (set : HeadRow → HeadRow)
    (hset : ∀ q, (set q).id = q.id ∧ q.nextSeq ≤ (set q).nextSeq ∧
      (set q).generation = q.generation) :
    Kept { db with heads := Table.update cond set db.heads } log where
  heads := (Table.map_update (fun q => (hset q).1) db.heads).symm ▸ h.heads
  entries := h.entries
  keys := h.keys
  since := h.since
  numbered q hq e he := by
    obtain ⟨q₀, hq₀, rfl⟩ := Table.mem_update.mp hq
    split at he
    · next hcond =>
      rw [if_pos hcond, (hset q₀).2.2]
      rw [(hset q₀).1] at he
      exact ⟨Nat.lt_of_lt_of_le (h.numbered q₀ hq₀ e he).1 (hset q₀).2.1,
        (h.numbered q₀ hq₀ e he).2⟩
    · next hcond =>
      rw [if_neg hcond]
      exact h.numbered q₀ hq₀ e he
  headless id hid := by
    refine h.headless id fun q hq => ?_
    have hq' := hid _ (List.mem_map_of_mem hq)
    split at hq'
    · rwa [(hset q).1] at hq'
    · exact hq'
  increasing := h.increasing
  headSeq q hq := by
    obtain ⟨q₀, hq₀, rfl⟩ := Table.mem_update.mp hq
    split
    · exact Nat.lt_of_lt_of_le (h.headSeq q₀ hq₀) (hset q₀).2.1
    · exact h.headSeq q₀ hq₀
  entrySeq := h.entrySeq

theorem Kept.delete (h : Kept db log) (id : Str) :
    Kept { heads := db.heads.filter (·.id != id), entries := db.entries.filter (·.id != id) }
      (log ++ [.deleted id]) where
  heads := h.heads.sublist (List.Sublist.map _ List.filter_sublist)
  entries := h.entries.sublist (List.Sublist.map _ List.filter_sublist)
  keys e he q hq := h.keys e (List.mem_of_mem_filter he) q (List.mem_of_mem_filter hq)
  since e he := by
    obtain ⟨he, hid⟩ := List.mem_filter.mp he
    rw [since_deleted, if_neg fun heq => bne_iff_ne.mp hid heq.symm]
    exact h.since e he
  numbered q hq e he := by
    obtain ⟨hq, hid⟩ := List.mem_filter.mp hq
    rw [since_deleted, if_neg fun heq => bne_iff_ne.mp hid heq.symm] at he
    exact h.numbered q hq e he
  headless id' hid := by
    rw [since_deleted]
    split
    · rfl
    · next hne =>
      refine h.headless id' fun q hq heq => hid q (List.mem_filter.mpr ⟨hq, ?_⟩) heq
      rw [bne_iff_ne, heq]
      exact fun heq' => hne heq'.symm
  increasing := h.increasing.snoc nofun
  headSeq q hq := h.headSeq q (List.mem_of_mem_filter hq)
  entrySeq e he := h.entrySeq e (List.mem_of_mem_filter he)

variable {req : AppendReq} {now : Int} {head : HeadRow}

theorem Kept.collides_eq_false (h : Kept db log) (hhead : head ∈ db.heads) {e : EntryRow}
    (hid : e.id = head.id) (hseq : e.seq = head.nextSeq)
    (hkey : e.objectKey ≠ [] → ∀ q ∈ db.entries, q.id = head.id → q.objectKey ≠ e.objectKey) :
    db.collides e = false := by
  rw [Db.collides, List.any_eq_false]
  intro q hq
  rw [Bool.and_eq_true, beq_iff_eq, Bool.or_eq_true, beq_iff_eq, Bool.and_eq_true,
    Bool.not_eq_true',
    List.isEmpty_eq_false_iff, beq_iff_eq]
  rintro ⟨hq', hseq' | ⟨hne, hkey'⟩⟩
  · have hlt := (h.numbered head hhead q (hid ▸ hq' ▸ h.since q hq)).1
    exact absurd (hseq'.trans hseq) (Nat.ne_of_lt hlt)
  · exact hkey hne q hq (hq'.trans hid) hkey'

theorem Kept.record (h : Kept db log) (hhead : head ∈ db.heads) {expiresAt : Option Str} {db' : Db}
    {e : EntryRow} (hrec : db.record req now head expiresAt = some (db', e)) (c : Nat) :
    Kept db' (log ++ [.recorded c e]) ∧ e ∈ db'.entries := by
  rw [Db.record] at hrec
  split at hrec
  · cases hrec
  · next hcol =>
    rw [Option.some.injEq, Prod.mk.injEq] at hrec
    obtain ⟨rfl, rfl⟩ := hrec
    rw [Bool.not_eq_true, Db.collides, List.any_eq_false] at hcol
    have hup := h.updateHeads (·.id == head.id)
      (fun q => { q with nextSeq := q.nextSeq + 1, updatedAt := formatAt now })
      fun q => ⟨rfl, Nat.le_succ _, rfl⟩
    have hfree : ∀ q ∈ db.entries, q.id = head.id → q.objectKey = req.objectKey →
      req.objectKey = [] := by
      intro q hq hid hkey
      have hq' := hcol q hq
      simp only [hid, hkey, beq_self_eq_true, Bool.true_and, Bool.and_true, Bool.or_eq_true,
        not_or] at hq'
      simpa using hq'.2
    refine ⟨⟨hup.heads, ?_, ?_, ?_, ?_, ?_, ?_, hup.headSeq, ?_⟩,
      List.mem_append_right _ (List.mem_singleton_self _)⟩
    · refine Table.nodup_insert h.entries fun q hq heq => hcol q hq ?_
      rw [Prod.mk.injEq] at heq
      simp [heq.1, heq.2]
    · intro e he q hq hid hkey hne
      rcases List.mem_append.mp he with he | he <;> rcases List.mem_append.mp hq with hq | hq
      · exact h.keys e he q hq hid hkey hne
      · obtain rfl := List.mem_singleton.mp hq
        exact absurd (hkey.trans (hfree e he hid hkey)) hne
      · obtain rfl := List.mem_singleton.mp he
        exact absurd (hfree q hq hid.symm hkey.symm) hne
      · rw [List.mem_singleton.mp he, List.mem_singleton.mp hq]
    · intro e he
      rcases List.mem_append.mp he with he | he
      · exact mem_since_recorded.mpr (.inl (h.since e he))
      · obtain rfl := List.mem_singleton.mp he
        exact mem_since_recorded.mpr (.inr ⟨rfl, rfl⟩)
    · intro q hq e he
      rcases mem_since_recorded.mp he with he | ⟨hid, rfl⟩
      · exact hup.numbered q hq e he
      · obtain ⟨q₀, hq₀, rfl⟩ := Table.mem_update.mp hq
        split at hid
        · next hcond =>
          rw [if_pos hcond, Table.eq_of_key h.heads hhead hq₀ hid]
          exact ⟨Nat.lt_succ_self _, rfl⟩
        · next hcond => exact absurd (beq_iff_eq.mpr hid.symm) hcond
    · intro id hid
      rw [since_recorded, if_neg, hup.headless id hid]
      intro hid'
      have hset := hid _ (List.mem_map_of_mem hhead)
      rw [if_pos (beq_self_eq_true _)] at hset
      exact hset hid'
    · exact h.increasing.snoc fun c' e' heq q hq => by
        obtain ⟨-, rfl⟩ := Mark.recorded.inj heq
        exact h.numbered head hhead q hq
    · intro e he
      rcases List.mem_append.mp he with he | he
      · exact h.entrySeq e he
      · rw [List.mem_singleton.mp he]
        exact h.headSeq head hhead

theorem Kept.lockHead (h : Kept db log) (req : AppendReq) (now : Int) (gen : Nat) :
    Kept (db.lockHead req now gen).1 log ∧
      (db.lockHead req now gen).2 ∈ (db.lockHead req now gen).1.heads ∧
      (db.lockHead req now gen).2.id = req.ref.id ∧
      (db.lockHead req now gen).1.entries = db.entries := by
  rw [Db.lockHead]
  split
  · next hhead => exact ⟨h, (headOf_eq_some hhead).1, (headOf_eq_some hhead).2, rfl⟩
  · next hnone =>
      exact ⟨h.addHead hnone Nat.one_pos, List.mem_append_right _ (List.mem_singleton_self _), rfl,
        rfl⟩

theorem holder_eq_none {id key : Str} (h : db.holder id key = none) :
    ∀ q ∈ db.entries, q.id = id → q.objectKey ≠ key := by
  intro q hq hid hkey
  have hq' := List.find?_eq_none.mp h q hq
  simp [hid, hkey] at hq'

theorem holder_eq_some {id key : Str} {e : EntryRow} (h : db.holder id key = some e) :
    e ∈ db.entries ∧ e.id = id ∧ e.objectKey = key := by
  have he := List.find?_some h
  rw [Bool.and_eq_true, beq_iff_eq, beq_iff_eq] at he
  exact ⟨List.mem_of_find?_eq_some h, he⟩

def Attempt.Records (log : List Mark) (a : Attempt) : Prop :=
  ∃ db e, a = .done db ⟨e.seq, e.stamp, false⟩ (some e) ∧ e ∈ db.entries ∧
    ∀ c, Kept db (log ++ [.recorded c e])

theorem Kept.allocate (h : Kept db log) (hhead : head ∈ db.heads)
    (hfree : req.objectKey ≠ [] → ∀ q ∈ db.entries, q.id = head.id → q.objectKey ≠ req.objectKey)
    (expiresAt : Option Str) : (db.allocate req now head expiresAt).Records log := by
  let e : EntryRow :=
    ⟨head.id, head.nextSeq, formatAt now, req.type, req.data, req.objectKey, expiresAt,
    head.generation⟩
  have hcol : db.collides e = false := h.collides_eq_false hhead rfl rfl hfree
  rw [Db.allocate]
  split
  · next hnone =>
    rw [Db.record, if_neg (by rw [hcol]; exact Bool.false_ne_true)] at hnone
    cases hnone
  · next db' e' hrec =>
    refine ⟨db', e', ?_, (h.record hhead hrec 0).2, fun c => (h.record hhead hrec c).1⟩
    rw [Db.record, if_neg (by rw [hcol]; exact Bool.false_ne_true), Option.some.injEq,
      Prod.mk.injEq] at hrec
    rw [← hrec.2]

theorem Kept.appendOnce_cases (h : Kept db log) (gen : Nat) :
    (∃ e, db.Held req now e ∧ db.appendOnce req now gen = .done db ⟨e.seq, e.stamp, true⟩ none) ∨
      (∀ e, ¬db.Held req now e) ∧ (db.appendOnce req now gen).Records log := by
  obtain ⟨hkept, hhead, hid, hentries⟩ := h.lockHead req now gen
  rw [Db.appendOnce]
  generalize db.lockHead req now gen = locked at hkept hhead hid hentries ⊢
  obtain ⟨db₁, head⟩ := locked
  simp only at hkept hhead hid hentries ⊢
  split
  · next hnone =>
    have hfree : req.objectKey ≠ [] → ∀ q ∈ db₁.entries, q.id = head.id →
        q.objectKey ≠ req.objectKey := by
      intro hne
      rw [if_neg (by rwa [List.isEmpty_iff])] at hnone
      exact holder_eq_none hnone
    refine .inr ⟨?_, hkept.allocate hhead hfree _⟩
    rintro e ⟨hne, he, hid', hkey, -⟩
    exact hfree hne e (hentries ▸ he) (hid'.trans hid.symm) hkey
  · next e hsome =>
    split at hsome
    · cases hsome
    · next hne =>
      rw [List.isEmpty_iff] at hne
      obtain ⟨he, hid', hkey⟩ := holder_eq_some hsome
      have honly : ∀ q ∈ db₁.entries, q.id = head.id → q.objectKey = req.objectKey → q = e :=
        fun q hq hq' hkey' => hkept.keys q hq e he (hq'.trans hid'.symm) (hkey'.trans hkey.symm)
          (hkey' ▸ hne)
      split
      · next hexp =>
        refine .inr ⟨?_, ?_⟩
        · rintro q ⟨-, hq, hq', hkey', hlive⟩
          rw [honly q (hentries ▸ hq) (hq'.trans hid.symm) hkey', hexp] at hlive
          cases hlive
        · refine (hkept.filter _).allocate hhead (fun _ q hq hq' hkey' => ?_) _
          obtain ⟨hq, hkeep⟩ := List.mem_filter.mp hq
          rw [honly q hq hq' hkey'] at hkeep
          simp [hid'] at hkeep
      · next hlive =>
        refine .inl ⟨e, ⟨hne, hentries ▸ he, hid'.trans hid, hkey, ?_⟩, rfl⟩
        rwa [Bool.not_eq_true] at hlive

theorem Kept.appendFast_cases (h : Kept db log) :
    db.appendFast req now = .violated ∨
      (∀ e, ¬db.Held req now e) ∧ (db.appendFast req now).Records log := by
  rw [Db.appendFast]
  split
  · exact .inl rfl
  · next head hhead =>
    obtain ⟨hmem, hid⟩ := headOf_eq_some hhead
    split
    · next hguard =>
      rw [Db.fastGuard, Bool.and_eq_true, Bool.or_eq_true, Bool.or_eq_true, List.isEmpty_iff,
        Option.isNone_iff_eq_none] at hguard
      have hfree : req.objectKey ≠ [] → ∀ q ∈ db.entries, q.id = head.id →
          q.objectKey ≠ req.objectKey := fun hne =>
        holder_eq_none (hguard.2.resolve_left hne)
      refine .inr ⟨?_, h.allocate hmem hfree _⟩
      rintro e ⟨hne, he, hid', hkey, -⟩
      exact hfree hne e he (hid'.trans hid.symm) hkey
    · exact .inl rfl

theorem Kept.attempt_cases (h : Kept db log) (c : Call) (now : Int) (gen : Nat) :
    (c.stage = .fast ∧ c.attempt db now gen = .violated) ∨
      (∃ e, db.Held c.req now e ∧ c.attempt db now gen = .done db ⟨e.seq, e.stamp, true⟩ none) ∨
      (∀ e, ¬db.Held c.req now e) ∧ (c.attempt db now gen).Records log := by
  rw [Call.attempt]
  split
  · next hstage =>
    rcases h.appendFast_cases with hnone | hrec
    · exact .inl ⟨hstage, hnone⟩
    · exact .inr (.inr hrec)
  all_goals exact .inr (h.appendOnce_cases gen)

end Tables

section Steps

variable {node : Node} {w : World} {c : Call}

structure World.Inv (w : World) : Prop where
  kept : Kept w.db w.log
  ids : (w.calls.map Call.id).Nodup
  begun : ∀ c ∈ w.calls, c.id < w.begun
  silent : ∀ c ∈ w.calls, recordedBy c.id w.log = []
  unborn : ∀ id, w.begun ≤ id → recordedBy id w.log = []

theorem World.Inv.start : World.start.Inv :=
  ⟨.start, .nil, nofun, nofun, fun _ _ => rfl⟩

theorem World.Inv.tables (h : w.Inv) {db : Db} (hdb : Kept db w.log) :
    World.Inv { w with db := db } :=
  ⟨hdb, h.ids, h.begun, h.silent, h.unborn⟩

theorem World.Inv.drop (h : w.Inv) (c : Call) : (w.drop c).Inv where
  kept := h.kept
  ids := h.ids.sublist (List.Sublist.map _ List.filter_sublist)
  begun q hq := h.begun q (List.mem_of_mem_filter hq)
  silent q hq := h.silent q (List.mem_of_mem_filter hq)
  unborn := h.unborn

theorem World.Inv.retry (h : w.Inv) (c : Call) : (w.retry c).1.Inv := by
  rw [World.retry]
  split
  · next c' hretry =>
    have hid : c'.id = c.id := by
      rw [Call.retry] at hretry
      split at hretry <;> cases hretry <;> rfl
    have hids : ∀ q, (if q.id = c.id then c' else q).id = q.id := by
      intro q
      split
      · next hq => rw [hid, hq]
      · rfl
    refine ⟨h.kept, ?_, ?_, ?_, h.unborn⟩
    · rw [List.map_map]
      exact (List.map_congr_left fun q _ => hids q) ▸ h.ids
    · intro q' hq'
      obtain ⟨q, hq, rfl⟩ := List.mem_map.mp hq'
      exact (hids q).symm ▸ h.begun q hq
    · intro q' hq'
      obtain ⟨q, hq, rfl⟩ := List.mem_map.mp hq'
      exact (hids q).symm ▸ h.silent q hq
  · exact h.drop c

theorem retry_db (w : World) (c : Call) : (w.retry c).1.db = w.db ∧ (w.retry c).1.log = w.log := by
  rw [World.retry]
  split <;> exact ⟨rfl, rfl⟩

theorem World.Inv.recorded (h : w.Inv) (hc : c ∈ w.calls) {db : Db} {e : EntryRow}
    (hkept : Kept db (w.log ++ [.recorded c.id e])) :
    (World.drop { w with db := db, log := w.log ++ [.recorded c.id e] } c).Inv where
  kept := hkept
  ids := (h.drop c).ids
  begun := (h.drop c).begun
  silent q hq := by
    obtain ⟨hq, hne⟩ := List.mem_filter.mp hq
    rw [World.drop, recordedBy_snoc, if_neg fun heq => bne_iff_ne.mp hne heq.symm]
    exact h.silent q hq
  unborn id hid := by
    rw [World.drop, recordedBy_snoc, if_neg (Nat.ne_of_lt (Nat.lt_of_lt_of_le (h.begun c hc) hid))]
    exact h.unborn id hid

theorem Answers.unanswered {now : Int} {fault : Option Fault} {w' : World}
    {answer : Option (Except Error AppendResult)} (hdb : w'.db = w.db) (hlog : w'.log = w.log)
    (hanswer : ∀ res, answer ≠ some (.ok res)) (hfault : fault = none → c.stage = .fast) :
    Answers w c now fault w' answer where
  held _ _ := ⟨hdb, hlog, fun res h => absurd h (hanswer res)⟩
  unheld _ res h := absurd h (hanswer res)
  once res h := absurd h (hanswer res)
  returns h hstage := absurd (hfault h) hstage

theorem retry_unanswered (w : World) (c : Call) (res : AppendResult) :
    (w.retry c).2 ≠ some (.ok res) := by
  rw [World.retry]
  split <;> nofun

theorem World.Inv.held_unique (h : w.Inv) {now : Int} {e q : EntryRow} (he : w.db.Held c.req now e)
    (hq : w.db.Held c.req now q) : q = e :=
  h.kept.keys q hq.2.1 e he.2.1 (hq.2.2.1.trans he.2.2.1.symm) (hq.2.2.2.1.trans he.2.2.2.1.symm)
    (hq.2.2.2.1 ▸ hq.1)

theorem World.Inv.attempt (h : w.Inv) (hc : c ∈ w.calls) (now : Int) (bytes : BitVec 64)
    (fault : Option Fault) :
    (w.attempt c now bytes fault).1.Inv ∧
      Answers w c now fault (w.attempt c now bytes fault).1 (w.attempt c now bytes fault).2 := by
  have hretry : (fault = none → c.stage = .fast) → (w.retry c).1.Inv ∧
      Answers w c now fault (w.retry c).1 (w.retry c).2 := fun hfault =>
    ⟨h.retry c, .unanswered (retry_db w c).1 (retry_db w c).2 (retry_unanswered w c) hfault⟩
  have hcases := h.kept.attempt_cases c now (newGeneration bytes)
  unfold World.attempt
  generalize c.attempt w.db now (newGeneration bytes) = a at hcases ⊢
  rcases fault with _ | _ | committed
  · rcases hcases with ⟨hstage, rfl⟩ | ⟨e, hheld, rfl⟩ | ⟨hfree, db, e, rfl, he, hkept⟩
    · exact hretry fun _ => hstage
    · have hlog : (w.commit c (.done w.db ⟨e.seq, e.stamp, true⟩ none)) = w := by
        rw [World.commit, Option.toList_none, List.map_nil, List.append_nil]
      simp only [hlog]
      refine ⟨h.drop c, ?_⟩
      refine ⟨fun q hq => ⟨rfl, rfl, ?_⟩, fun hnone => absurd hheld (hnone e), ?_, fun _ _ =>
        ⟨_, rfl⟩⟩
      · rintro res ⟨rfl⟩
        rw [h.held_unique hheld hq]
      · rintro res ⟨rfl⟩
        rw [World.drop, h.silent c hc]
        rfl
    · refine ⟨h.recorded hc (hkept c.id), fun q hq => absurd hq (hfree q), ?_, ?_, fun _ _ =>
        ⟨_, rfl⟩⟩
      · rintro - res ⟨rfl⟩
        refine ⟨e, he, ?_, rfl, rfl⟩
        exact (recordedBy_snoc ..).trans (by rw [if_pos rfl, h.silent c hc]; rfl)
      · rintro res ⟨rfl⟩
        exact congrArg List.length ((recordedBy_snoc ..).trans (by rw [if_pos rfl, h.silent c hc]))
  · exact hretry nofun
  · cases committed with
    | false => exact ⟨h.drop c, .unanswered rfl rfl nofun nofun⟩
    | true =>
      rcases hcases with ⟨-, rfl⟩ | ⟨e, hheld, rfl⟩ | ⟨hfree, db, e, rfl, he, hkept⟩
      · exact ⟨h.drop c, .unanswered rfl rfl nofun nofun⟩
      · have hlog : (w.commit c (.done w.db ⟨e.seq, e.stamp, true⟩ none)) = w := by
          rw [World.commit, Option.toList_none, List.map_nil, List.append_nil]
        refine ⟨?_, ?_⟩
        · simp only [if_true, hlog]
          exact h.drop c
        · simp only [if_true, hlog]
          exact .unanswered rfl rfl nofun nofun
      · exact ⟨h.recorded hc (hkept c.id), fun q hq => absurd hq (hfree q), nofun, nofun, nofun⟩

theorem World.Inv.call (h : w.Inv) (req : AppendReq) : (w.call node req).Inv := by
  rw [World.call]
  split
  · exact h
  · refine ⟨h.kept, ?_, ?_, ?_, fun id hid => h.unborn id (Nat.le_of_succ_le hid)⟩
    · exact Table.nodup_insert h.ids fun q hq => Nat.ne_of_lt (h.begun q hq)
    · intro q hq
      rcases List.mem_append.mp hq with hq | hq
      · exact Nat.lt_succ_of_lt (h.begun q hq)
      · obtain rfl := List.mem_singleton.mp hq
        exact Nat.lt_succ_self _
    · intro q hq
      rcases List.mem_append.mp hq with hq | hq
      · exact h.silent q hq
      · obtain rfl := List.mem_singleton.mp hq
        exact h.unborn _ (Nat.le_refl _)

theorem Kept.setTTL {db : Db} {log : List Mark} (h : Kept db log) (ref : Ref) (ttl now : Int)
    (gen : Nat) : Kept (db.setTTL node now gen ref ttl) log := by
  rw [Db.setTTL]
  split
  · exact h.updateHeads _ _ fun q => ⟨rfl, Nat.le_refl _, rfl⟩
  · next hnone => exact h.addHead hnone Nat.one_pos

theorem World.Inv.delete (h : w.Inv) (ref : Ref) : (w.delete ref).Inv := by
  rw [World.delete, Db.delete]
  split
  · next hdelete =>
    split at hdelete
    · cases hdelete
    · obtain ⟨rfl, -⟩ := Prod.mk.inj hdelete
      refine ⟨h.kept.delete ref.id, h.ids, h.begun, fun q hq => ?_, fun id hid => ?_⟩
      · exact (recordedBy_deleted ..).trans (h.silent q hq)
      · exact (recordedBy_deleted ..).trans (h.unborn id hid)
  · exact h

theorem World.Inv.next (h : w.Inv) {event : Event} {w' : World}
    (hnext : w.next node event = some w') :
    w'.Inv := by
  cases event with
  | call req =>
    cases hnext
    exact h.call req
  | attempt id now bytes fault =>
    obtain ⟨c, hc, rfl⟩ := Option.map_eq_some_iff.mp hnext
    exact (h.attempt (List.mem_of_find?_eq_some hc) now bytes fault).1
  | setTTL ref ttl now bytes =>
    rw [World.next] at hnext
    split at hnext
    · cases hnext
      exact h
    · cases hnext
      exact h.tables (h.kept.setTTL ref ttl now _)
  | delete ref =>
    rw [World.next] at hnext
    split at hnext
    · cases hnext
      exact h
    · cases hnext
      exact h.delete ref
  | sweep now batch picked =>
    obtain ⟨db, hdb, rfl⟩ := Option.map_eq_some_iff.mp hnext
    obtain ⟨-, hdb⟩ := Option.ite_none_right_eq_some.mp hdb
    cases hdb
    exact h.tables (h.kept.filter _)

theorem Kept.oneHolder {db : Db} {log : List Mark} (h : Kept db log) (id : Str) {key : Str}
    (hkey : key ≠ []) :
      (db.entries.filter fun e => e.id == id && e.objectKey == key).length ≤ 1 := by
  refine Table.length_le_one ((List.Nodup.of_map _ h.entries).sublist List.filter_sublist) ?_
  intro e he q hq
  simp only [List.mem_filter, Bool.and_eq_true, beq_iff_eq] at he hq
  obtain ⟨he, rfl, rfl⟩ := he
  exact h.keys e he q hq.1 hq.2.1.symm hq.2.2.symm hkey

end Steps

end ThanksComputer.Notebook
