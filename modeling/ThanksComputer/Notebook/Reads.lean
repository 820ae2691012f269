import ThanksComputer.Lib.Cursor
import ThanksComputer.Notebook.Append

/-! Reads and walks of a notebook, query by query, between its writes. -/

namespace ThanksComputer.Notebook

open Net Lib Lib.Runs

section Pages

structure Cursor where
  generation : Nat
  seq : Int
  deriving DecidableEq

def Cursor.zero : Cursor := ⟨0, 0⟩

def Cursor.isZero (c : Cursor) : Bool :=
  c.generation == 0 && c.seq == 0

structure ReadReq where
  ref : Ref
  after : Cursor
  upTo : Int
  sinceAt : Option Int
  untilAt : Option Int
  tail : Int
  type : Str
  limit : Int
  deriving DecidableEq

structure Head where
  name : Str
  generation : Nat
  highSeq : Int
  ttl : Int
  createdAt : Str
  updatedAt : Str
  deriving DecidableEq

structure ReadResult where
  entries : List EntryRow
  next : Cursor
  cursor : Cursor
  count : Nat
  truncated : Bool
  deriving DecidableEq

/-- `stat`: the head row of a notebook. -/
def Db.stat (db : Db) (ref : Ref) : Option Head :=
  (db.headOf ref.id).map fun h =>
    { name := ref.name
      generation := h.generation
      highSeq := h.nextSeq - 1
      ttl := match h.ttlSecs with
        | some secs => if 0 < secs then wrapInt (secs * second) else 0
        | none => 0
      createdAt := h.createdAt
      updatedAt := h.updatedAt }

def ReadReq.validate (req : ReadReq) : Option Error :=
  match req.ref.validate with
  | some err => some err
  | none =>
    if req.tail < 0 ∨ req.limit < 0 ∨ req.upTo < 0 ∨ req.after.seq < 0 then some .negativeWindow
    else
      match req.sinceAt, req.untilAt with
      | some a, some b =>
        if a < b then (if req.type.isEmpty then none else validType req.type) else some .emptyWindow
      | _, _ => if req.type.isEmpty then none else validType req.type

variable (node : Node) (db : Db) (req : ReadReq)

def Node.clampLimit (limit : Int) : Nat :=
  if limit ≤ 0 then node.limits.defaultReadLimit
  else if node.limits.maxReadLimit < limit then node.limits.maxReadLimit
  else limit.toNat

def ReadReq.matches (e : EntryRow) : Bool :=
  e.id == req.ref.id && req.sinceAt.all (fun t => decide (formatAt t ≤ e.stamp)) &&
    req.untilAt.all (fun t => decide (e.stamp < formatAt t)) &&
      (req.type.isEmpty || e.type == req.type)

/-- The `WHERE` of `readPage`. -/
def ReadReq.selects (now : Int) (e : EntryRow) : Bool :=
  req.matches e && !e.expired (formatAt now) &&
    (decide (req.after.seq ≤ 0) || decide (req.after.seq < e.seq)) &&
    (decide (req.upTo ≤ 0) || decide ((e.seq : Int) ≤ req.upTo))

def Db.selected (now : Int) : List EntryRow :=
  (db.entries.filter (req.selects now)).insertionSort fun a b => a.seq ≤ b.seq

def Node.tailLimit : Nat :=
  min req.tail.toNat (if 0 < req.limit then node.clampLimit req.limit else node.limits.maxReadLimit)

def lastCursor (gen : Nat) (entries : List EntryRow) : Cursor :=
  match entries.getLast? with
  | none => .zero
  | some e => ⟨gen, e.seq⟩

/-- `readPage`: one query, and the cursors under the generation it was given. -/
def Db.readPage (gen : Nat) (now : Int) : ReadResult :=
  if 0 < req.tail then
    let lim := node.tailLimit req
    let entries := ((db.selected req now).reverse.take lim).reverse
    { entries := entries
      next := .zero
      cursor := lastCursor gen entries
      count := entries.length
      truncated := entries.length == lim && lim < req.tail }
  else
    let n := node.clampLimit req.limit
    let rows := (db.selected req now).take (n + 1)
    let entries := rows.take n
    { entries := entries
      next := if n < rows.length then lastCursor gen entries else .zero
      cursor := lastCursor gen entries
      count := entries.length
      truncated := decide (n < rows.length) }

end Pages

section Runs

/-- A call that has read its head: the request as its loop has it, what it has given out, and the
entries that were stored at the head read and stored and unexpired at every page since. -/
structure Walk where
  gen : Nat
  req : ReadReq
  given : List EntryRow
  steady : List EntryRow
  deriving DecidableEq

/-- A `Read`, or a `ForEach`. -/
structure Reader where
  id : Nat
  each : Bool
  asked : ReadReq
  walk : Option Walk
  deriving DecidableEq

/-- The store, and the readers beside its writers. -/
structure Reads where
  store : World
  readers : List Reader
  begun : Nat
  deriving DecidableEq

def Reads.start : Reads := ⟨.start, [], 0⟩

/-- A page's `stop` is the entry at which the caller's function fails; `lost` is a query that
fails. -/
inductive ReadEvent
  | write (event : Event)
  | begin (each : Bool) (req : ReadReq)
  | head (reader : Nat)
  | page (reader : Nat) (now : Int) (stop : Option Nat)
  | lost (reader : Nat)
  deriving DecidableEq

variable (node : Node) (db : Db) (w : Reads)

/-- A `ForEach` over pages; with a tail it is one `Read`. -/
def Reader.walks (r : Reader) : Bool :=
  r.each && decide (r.asked.tail ≤ 0)

/-- The request of the pages: a walk stops at the number the head had given out. -/
def Reader.request (r : Reader) (head : Head) : ReadReq :=
  if r.walks then
    { r.asked with
      upTo := if r.asked.upTo = 0 ∨ head.highSeq < r.asked.upTo then head.highSeq else r.asked.upTo
      limit := node.limits.maxReadLimit }
  else r.asked

/-- The head read: `none` is the end of the call, of an empty or stale notebook. -/
def Reader.readHead (r : Reader) : Option Walk :=
  match db.stat r.asked.ref with
  | none => none
  | some head =>
    if !r.asked.after.isZero && r.asked.after.generation != head.generation then none
    else some ⟨head.generation, r.request node head, [], db.entries.filter (·.id == r.asked.ref.id)⟩

def Walk.page (k : Walk) (now : Int) : ReadResult :=
  db.readPage node k.req k.gen now

/-- Of the entries that had stayed so far, those that still do. -/
def Walk.still (k : Walk) (now : Int) : List EntryRow :=
  k.steady.filter fun e => db.entries.contains e && !e.expired (formatAt now)

def stops (res : ReadResult) (stop : Option Nat) : Bool :=
  stop.any (· < res.entries.length)

/-- One page; `none` is the end of the call. -/
def Reader.readPage (r : Reader) (k : Walk) (now : Int) (stop : Option Nat) : Option Walk :=
  let res := k.page node db now
  if !r.walks || stops res stop || res.next.isZero then none
  else some { k with
    req := { k.req with after := res.next }
    given := k.given ++ res.entries
    steady := k.still db now }

/-- The call goes on, or has ended. -/
def Reads.put (r : Reader) : Option Walk → Reads
  | none => { w with readers := w.readers.filter (·.id != r.id) }
  | some k =>
    { w with readers := w.readers.map fun q =>
      if q.id = r.id then { r with walk := some k } else q }

def Reads.reader (id : Nat) : Option Reader :=
  w.readers.find? (·.id == id)

def Reads.next : ReadEvent → Option Reads
  | .write event => (w.store.next node event).map fun store => { w with store := store }
  | .begin each req =>
    if req.validate.isSome then some w
    else some { w with readers := w.readers ++ [⟨w.begun, each, req, none⟩], begun := w.begun + 1 }
  | .head id =>
    match w.reader id with
    | some r => if r.walk.isNone then some (w.put r (r.readHead node w.store.db)) else none
    | none => none
  | .page id now stop =>
    match w.reader id with
    | some r => r.walk.map fun k => w.put r (r.readPage node w.store.db k now stop)
    | none => none
  | .lost id => (w.reader id).map fun r => w.put r none

end Runs

section Statement

variable (node : Node) (db : Db) (r : Reader) (k : Walk) (now : Int)

def Reader.wants (e : EntryRow) : Prop :=
  r.asked.matches e = true ∧ r.asked.after.seq < e.seq ∧
    (k.req.upTo ≤ 0 ∨ (e.seq : Int) ≤ k.req.upTo)

structure PageExact (stop : Option Nat) : Prop where
  generation : ∀ e ∈ (k.page node db now).entries, e.generation = k.gen
  once : (k.given ++ (k.page node db now).entries).Nodup
  cursors : ∀ c ∈ [(k.page node db now).next, (k.page node db now).cursor], c.isZero = false →
    ∀ e ∈ (k.page node db now).entries, c.generation = e.generation
  complete : r.walks = true → stops (k.page node db now) stop = false →
    (k.page node db now).next.isZero = true → ∀ e ∈ k.still db now, r.wants k e →
      e ∈ k.given ++ (k.page node db now).entries
  tail : r.each = true → 0 < r.asked.tail → ∀ e ∈ k.still db now, r.wants k e →
    e ∈ (k.page node db now).entries ∨
      (k.page node db now).entries.length = node.tailLimit r.asked ∧
        ∀ q ∈ (k.page node db now).entries, e.seq < q.seq

/-- Every page of every call is exact. -/
def ReadsExact (w : Reads) (event : ReadEvent) : Prop :=
  ∀ id now stop, event = .page id now stop → ∀ r ∈ w.readers, r.id = id → ∀ k ∈ r.walk,
    PageExact node w.store.db r k now stop

/-- No page is read of a notebook that was deleted and made again since the call read its head. -/
def SameHead (w : Reads) (event : ReadEvent) : Prop :=
  ∀ id now stop, event = .page id now stop → ∀ r ∈ w.readers, r.id = id → ∀ k ∈ r.walk,
    ∀ h ∈ w.store.db.heads, h.id = r.asked.ref.id → h.generation = k.gen

/-- The generations that the run draws for new heads. -/
def drawn (events : List ReadEvent) : List Nat :=
  events.filterMap fun
    | .write (.attempt _ _ bytes _) => some (newGeneration bytes)
    | .write (.setTTL _ _ _ bytes) => some (newGeneration bytes)
    | _ => none

end Statement

section Queries

variable {node : Node} {db : Db} {log : List Mark} {req : ReadReq} {now : Int} {gen : Nat}
    {e : EntryRow}

theorem mem_selected : e ∈ db.selected req now ↔ e ∈ db.entries ∧ req.selects now e = true := by
  rw [Db.selected, List.mem_insertionSort, List.mem_filter]

theorem selects_iff :
    req.selects now e = true ↔ req.matches e = true ∧ e.expired (formatAt now) = false ∧
    (req.after.seq ≤ 0 ∨ req.after.seq < e.seq) ∧ (req.upTo ≤ 0 ∨ (e.seq : Int) ≤ req.upTo) := by
  simp only [ReadReq.selects, Bool.and_eq_true, Bool.not_eq_true', Bool.or_eq_true,
    decide_eq_true_eq,
    and_assoc]

theorem id_of_matches (h : req.matches e = true) : e.id = req.ref.id := by
  simp only [ReadReq.matches, Bool.and_eq_true, beq_iff_eq] at h
  exact h.1.1.1

theorem Kept.ascending (h : Kept db log) (req : ReadReq) (now : Int) :
    Cursor.Ascending EntryRow.seq (db.selected req now) := by
  refine Cursor.ascending_insertionSort ?_
  have hkeys : ((db.entries.filter (req.selects now)).map fun e => (e.id, e.seq)).Nodup :=
    h.entries.sublist (List.Sublist.map _ List.filter_sublist)
  refine (List.nodup_map_iff_inj_on (List.Nodup.of_map _ hkeys)).mpr fun a ha b hb hseq => ?_
  have hid : a.id = b.id :=
    (id_of_matches (selects_iff.mp (List.mem_filter.mp ha).2).1).trans
      (id_of_matches (selects_iff.mp (List.mem_filter.mp hb).2).1).symm
  exact List.inj_on_of_nodup_map hkeys ha hb (Prod.ext hid hseq)

theorem Kept.generation (h : Kept db log) (he : e ∈ db.entries) :
    ∃ head ∈ db.heads, head.id = e.id ∧ e.generation = head.generation := by
  by_contra hnone
  have hsince : Notebook.since e.id log = [] := h.headless e.id fun head hhead hid =>
    hnone ⟨head, hhead, hid, (h.numbered head hhead e (hid.symm ▸ h.since e he)).2⟩
  exact List.not_mem_nil (hsince ▸ h.since e he)

theorem readPage_entries (h : req.tail ≤ 0) : (db.readPage node req gen now).entries =
    (db.selected req now).take (node.clampLimit req.limit) := by
  rw [Db.readPage, if_neg (Int.not_lt.mpr h)]
  exact (List.take_take ..).trans (by rw [Nat.min_eq_left (Nat.le_succ _)])

theorem readPage_next (h : req.tail ≤ 0) : (db.readPage node req gen now).next =
    if node.clampLimit req.limit < (db.selected req now).length then
      lastCursor gen (db.readPage node req gen now).entries else .zero := by
  rw [Db.readPage, if_neg (Int.not_lt.mpr h)]
  simp only [List.length_take]
  congr 1
  rw [eq_iff_iff]
  omega

theorem readPage_tail (h : 0 < req.tail) : (db.readPage node req gen now).entries =
    ((db.selected req now).reverse.take (node.tailLimit req)).reverse := by
  rw [Db.readPage, if_pos h]

theorem readPage_sublist (node : Node) (db : Db) (req : ReadReq) (gen : Nat) (now : Int) :
    ((db.readPage node req gen now).entries).Sublist (db.selected req now) := by
  rcases lt_or_ge 0 req.tail with h | h
  · rw [readPage_tail h]
    exact List.sublist_reverse_iff.mp (List.take_sublist _ _)
  · rw [readPage_entries h]
    exact List.take_sublist _ _

theorem readPage_cursors {c : Cursor}
    (hc : c ∈ [(db.readPage node req gen now).next, (db.readPage node req gen now).cursor])
    (hzero : c.isZero = false) : c.generation = gen := by
  have hlast : ∀ entries, (lastCursor gen entries).isZero = false →
      (lastCursor gen entries).generation = gen := by
    intro entries
    rw [lastCursor]
    split
    · nofun
    · exact fun _ => rfl
  rcases lt_or_ge 0 req.tail with h | h
  · rw [Db.readPage, if_pos h, List.mem_pair] at hc
    rcases hc with rfl | rfl
    · cases hzero
    · exact hlast _ hzero
  · rw [Db.readPage, if_neg (Int.not_lt.mpr h), List.mem_pair] at hc
    rcases hc with rfl | rfl
    · simp only at hzero ⊢
      split at hzero
      · next hmore =>
        rw [if_pos hmore]
        exact hlast _ hzero
      · cases hzero
    · exact hlast _ hzero

theorem clampLimit_pos (node : Node) (limit : Int) : 0 < node.clampLimit limit := by
  rw [Node.clampLimit]
  split
  · exact node.limits.defaultReadLimit_pos
  · split
    · exact node.limits.maxReadLimit_pos
    · omega

theorem Kept.readPage_next_cases (h : Kept db log) (htail : req.tail ≤ 0) (node : Node) (gen : Nat)
    (now : Int) :
    (db.readPage node req gen now).next.isZero = true ∧
        (db.readPage node req gen now).entries = db.selected req now ∨
      ∃ z, (db.readPage node req gen now).entries.getLast? = some z ∧
        (db.readPage node req gen now).next = ⟨gen, z.seq⟩ ∧
        (db.readPage node req gen now).next.isZero = false := by
  rw [readPage_next htail, readPage_entries htail]
  by_cases hmore : node.clampLimit req.limit < (db.selected req now).length
  · right
    rw [if_pos hmore, lastCursor]
    have hne : (db.selected req now).take (node.clampLimit req.limit) ≠ [] := by
      have hpos := clampLimit_pos node req.limit
      rw [Ne, List.take_eq_nil_iff, not_or]
      exact ⟨Nat.ne_of_gt hpos, fun hnil => by rw [hnil] at hmore; cases hmore⟩
    obtain ⟨z, hz⟩ := List.getLast?_isSome.mpr hne |> Option.isSome_iff_exists.mp
    have hmem : z ∈ db.selected req now := List.mem_of_mem_take (List.mem_of_getLast? hz)
    have hseq := h.entrySeq z (mem_selected.mp hmem).1
    rw [hz]
    refine ⟨z, rfl, rfl, ?_⟩
    simp only [Cursor.isZero, Bool.and_eq_false_iff, beq_eq_false_iff_ne]
    exact .inr (by omega)
  · left
    rw [if_neg hmore]
    exact ⟨rfl, List.take_of_length_le (Nat.not_lt.mp hmore)⟩

end Queries

section Walks

variable {node : Node} {db : Db} {log : List Mark} {r : Reader} {k : Walk} {now : Int}

structure Reader.Inv (r : Reader) (k : Walk) : Prop where
  matched : k.req.matches = r.asked.matches
  tail : k.req.tail = r.asked.tail
  single : r.walks = false → k.given = [] ∧ k.req = r.asked
  nodup : k.given.Nodup
  given : ∀ e ∈ k.given, (e.seq : Int) ≤ k.req.after.seq
  passed : ∀ e ∈ k.steady, r.wants k e → (e.seq : Int) ≤ k.req.after.seq → e ∈ k.given

theorem Reader.inv_readHead (h : r.readHead node db = some k) : r.Inv k := by
  rw [Reader.readHead] at h
  split at h
  · cases h
  · next head _ =>
    obtain ⟨-, h⟩ := Option.ite_none_left_eq_some.mp h
    cases h
    refine ⟨?_, ?_, ?_, .nil, nofun, ?_⟩
    · simp only [Reader.request]
      split <;> rfl
    · simp only [Reader.request]
      split <;> rfl
    · intro hwalks
      simp only [Reader.request, hwalks, Bool.false_eq_true, if_false, and_self]
    · rintro e - ⟨-, hafter, -⟩ hle
      have hsame : (r.request node head).after = r.asked.after := by
        rw [Reader.request]
        split <;> rfl
      rw [hsame] at hle
      exact absurd hle (Int.not_le.mpr hafter)

theorem Reader.Inv.selected (h : r.Inv k) {e : EntryRow} (he : e ∈ k.still db now)
    (hwants : r.wants k e) :
    e ∈ k.given ∨ e ∈ db.selected k.req now := by
  obtain ⟨hsteady, hstill⟩ := List.mem_filter.mp he
  rw [Bool.and_eq_true, List.contains_iff_mem, Bool.not_eq_true'] at hstill
  rcases le_or_gt (e.seq : Int) k.req.after.seq with hle | hlt
  · exact .inl (h.passed e hsteady hwants hle)
  · exact .inr (mem_selected.mpr ⟨hstill.1, selects_iff.mpr
      ⟨h.matched ▸ hwants.1, hstill.2, .inr hlt, hwants.2.2⟩⟩)

theorem Reader.Inv.once (h : r.Inv k) (hkept : Kept db log) :
    (k.given ++ (k.page node db now).entries).Nodup := by
  have hsub := readPage_sublist node db k.req k.gen now
  have hasc := (hkept.ascending k.req now).sublist hsub
  refine List.nodup_append.mpr ⟨h.nodup, hasc.imp fun hlt heq => ?_, ?_⟩
  · exact absurd (heq ▸ hlt) (Nat.lt_irrefl _)
  · rintro e he q hq rfl
    obtain ⟨hmem, hsel⟩ := mem_selected.mp (hsub.subset hq)
    have hpos := hkept.entrySeq e hmem
    have hle := h.given e he
    have hafter := (selects_iff.mp hsel).2.2.1
    omega

theorem Reader.Inv.complete (h : r.Inv k) (hkept : Kept db log) (hwalks : r.walks = true)
    (hend : (k.page node db now).next.isZero = true) {e : EntryRow} (he : e ∈ k.still db now)
    (hwants : r.wants k e) : e ∈ k.given ++ (k.page node db now).entries := by
  have htail : k.req.tail ≤ 0 := by
    rw [Reader.walks, Bool.and_eq_true, decide_eq_true_eq, ← h.tail] at hwalks
    exact hwalks.2
  rcases h.selected he hwants with hgiven | hsel
  · exact List.mem_append_left _ hgiven
  · rcases hkept.readPage_next_cases htail node k.gen now with ⟨-, hall⟩ | ⟨z, -, -, hmore⟩
    · exact List.mem_append_right _ (hall.symm ▸ hsel)
    · exact absurd (hend.symm.trans hmore) nofun

theorem Reader.Inv.newest (h : r.Inv k) (hkept : Kept db log) (htail : 0 < r.asked.tail)
    {e : EntryRow} (he : e ∈ k.still db now) (hwants : r.wants k e) :
    e ∈ (k.page node db now).entries ∨
      (k.page node db now).entries.length = node.tailLimit r.asked ∧
        ∀ q ∈ (k.page node db now).entries, e.seq < q.seq := by
  have hwalks : r.walks = false := by
    rw [Reader.walks, decide_eq_false (Int.not_le.mpr htail), Bool.and_false]
  obtain ⟨hgiven, hreq⟩ := h.single hwalks
  have hsel : e ∈ db.selected r.asked now := by
    rcases h.selected he hwants with hmem | hsel
    · rw [hgiven] at hmem
      cases hmem
    · exact hreq ▸ hsel
  have hdesc : (db.selected r.asked now).reverse.Pairwise fun a b => b.seq < a.seq :=
    List.pairwise_reverse.mpr (hkept.ascending r.asked now)
  rw [Walk.page, hreq, readPage_tail htail]
  rw [← List.mem_reverse, ← List.take_append_drop (node.tailLimit r.asked) (List.reverse _),
    List.mem_append] at hsel
  rcases hsel with hsel | hsel
  · exact .inl (List.mem_reverse.mpr hsel)
  · right
    rw [← List.take_append_drop (node.tailLimit r.asked) (List.reverse _)] at hdesc
    refine ⟨?_, fun q hq => (List.pairwise_append.mp hdesc).2.2 q (List.mem_reverse.mp hq) e hsel⟩
    rw [List.length_reverse, List.length_take, List.length_reverse]
    have hlen := List.length_pos_of_mem hsel
    rw [List.length_drop, List.length_reverse] at hlen
    omega

theorem Reader.Inv.page (h : r.Inv k) (hkept : Kept db log)
    (hhead : ∀ q ∈ db.heads, q.id = r.asked.ref.id → q.generation = k.gen) (stop : Option Nat) :
    PageExact node db r k now stop := by
  have hgen : ∀ e ∈ (k.page node db now).entries, e.generation = k.gen := by
    intro e he
    obtain ⟨hmem, hsel⟩ := mem_selected.mp ((readPage_sublist node db k.req k.gen now).subset he)
    obtain ⟨head, hq, hid, heq⟩ := hkept.generation hmem
    have hmatch : r.asked.matches e = true := h.matched ▸ (selects_iff.mp hsel).1
    rw [heq]
    exact hhead head hq (hid.trans (id_of_matches hmatch))
  refine ⟨hgen, h.once hkept, ?_, ?_, ?_⟩
  · intro c hc hzero e he
    rw [hgen e he]
    exact readPage_cursors hc hzero
  · intro hwalks _ hend e he hwants
    exact h.complete hkept hwalks hend he hwants
  · intro _ htail e he hwants
    exact h.newest hkept htail he hwants

theorem Reader.Inv.readPage (h : r.Inv k) (hkept : Kept db log) {stop : Option Nat} {k' : Walk}
    (hpage : r.readPage node db k now stop = some k') : r.Inv k' := by
  obtain ⟨hgoes, hpage⟩ := Option.ite_none_left_eq_some.mp hpage
  cases hpage
  rw [Bool.or_eq_true, Bool.or_eq_true, not_or, not_or, Bool.not_eq_true',
    Bool.not_eq_false] at hgoes
  obtain ⟨⟨hwalks, -⟩, hmore⟩ := hgoes
  have htail : k.req.tail ≤ 0 := by
    rw [Reader.walks, Bool.and_eq_true, decide_eq_true_eq, ← h.tail] at hwalks
    exact hwalks.2
  rcases hkept.readPage_next_cases htail node k.gen now with
    ⟨hend, -⟩ | ⟨z, hlast, hnext, -⟩
  · exact absurd hend hmore
  · have hasc := hkept.ascending k.req now
    have hsub := readPage_sublist node db k.req k.gen now
    have hz := List.mem_of_getLast? hlast
    have hbehind : (k.page node db now).next.seq = z.seq := congrArg Cursor.seq hnext
    have hgrow : k.req.after.seq ≤ z.seq := by
      have hafter := (selects_iff.mp (mem_selected.mp (hsub.subset hz)).2).2.2.1
      omega
    refine ⟨h.matched, h.tail, fun hno => absurd (hno.symm.trans hwalks) nofun, h.once hkept,
      ?_, ?_⟩
    · intro e he
      simp only
      rw [hbehind]
      rcases List.mem_append.mp he with he | he
      · exact Int.le_trans (h.given e he) hgrow
      · have hpage := hasc.sublist hsub
        obtain ⟨init, hinit⟩ := List.getLast?_eq_some_iff.mp hlast
        rw [Walk.page, hinit] at he
        rw [hinit] at hpage
        rcases List.mem_append.mp he with he | he
        · have hlt := (List.pairwise_append.mp hpage).2.2 e he z (List.mem_singleton_self z)
          omega
        · rw [List.mem_singleton.mp he]
    · intro e he hwants hle
      simp only at hle
      rw [hbehind] at hle
      rcases h.selected he hwants with hgiven | hsel
      · exact List.mem_append_left _ hgiven
      · refine List.mem_append_right _ ?_
        rw [readPage_entries htail] at hlast
        rw [Walk.page, readPage_entries htail]
        exact Cursor.mem_take_of_le hasc hlast hsel (Int.ofNat_le.mp hle)

end Walks

section Interleavings

variable {node : Node} {w : Reads}

structure Reads.Inv (w : Reads) : Prop where
  store : w.store.Inv
  readers : ∀ r ∈ w.readers, ∀ k ∈ r.walk, r.Inv k

theorem Reads.Inv.start : Reads.start.Inv :=
  ⟨World.Inv.start, fun _ hr => absurd hr List.not_mem_nil⟩

theorem Reads.Inv.put (h : w.Inv) (r : Reader) {walk : Option Walk}
    (hwalk : ∀ k ∈ walk, r.Inv k) : (w.put r walk).Inv := by
  refine ⟨?_, fun q hq k hk => ?_⟩
  · cases walk <;> exact h.store
  · cases walk with
    | none => exact h.readers q (List.mem_of_mem_filter hq) k hk
    | some k' =>
      obtain ⟨q₀, hq₀, rfl⟩ := List.mem_map.mp hq
      split at hk
      · next hid =>
        rw [if_pos hid]
        obtain rfl := Option.some.inj hk
        exact ⟨(hwalk _ rfl).matched, (hwalk _ rfl).tail, (hwalk _ rfl).single, (hwalk _ rfl).nodup,
          (hwalk _ rfl).given, (hwalk _ rfl).passed⟩
      · next hid =>
        rw [if_neg hid]
        exact h.readers q₀ hq₀ k hk

theorem Reads.Inv.next (h : w.Inv) {event : ReadEvent} {w' : Reads}
    (hnext : w.next node event = some w') : w'.Inv := by
  cases event with
  | write event =>
    obtain ⟨store, hstore, rfl⟩ := Option.map_eq_some_iff.mp hnext
    exact ⟨h.store.next hstore, h.readers⟩
  | begin each req =>
    rw [Reads.next] at hnext
    split at hnext
    · cases hnext
      exact h
    · cases hnext
      refine ⟨h.store, fun r hr k hk => ?_⟩
      rcases List.mem_append.mp hr with hr | hr
      · exact h.readers r hr k hk
      · rw [List.mem_singleton.mp hr] at hk
        cases hk
  | head id =>
    rw [Reads.next] at hnext
    split at hnext
    · next r hr =>
      obtain ⟨-, hnext⟩ := Option.ite_none_right_eq_some.mp hnext
      cases hnext
      exact h.put r fun k hk => Reader.inv_readHead hk
    · cases hnext
  | page id now stop =>
    rw [Reads.next] at hnext
    split at hnext
    · next r hr =>
      obtain ⟨k, hk, rfl⟩ := Option.map_eq_some_iff.mp hnext
      exact h.put r fun k' hk' =>
        (h.readers r (List.mem_of_find?_eq_some hr) k hk).readPage h.store.kept hk'
    · cases hnext
  | lost id =>
    obtain ⟨r, -, rfl⟩ := Option.map_eq_some_iff.mp hnext
    exact h.put r nofun

/-- Reads in any interleaving with the writes, as long as no page meets another head. -/
theorem readsExact_along (node : Node) (events : List ReadEvent)
    (h : Along (Reads.next node) SameHead Reads.start events) :
    Along (Reads.next node) (ReadsExact node) Reads.start events :=
  Along.of_invariant (fun _ _ _ hinv _ hnext => Reads.Inv.next hinv hnext)
    (fun _ _ hinv hsame id now stop hevent r hr hid k hk =>
      (hinv.readers r hr k hk).page hinv.store.kept (hsame id now stop hevent r hr hid k hk) stop)
    Reads.Inv.start h

end Interleavings

section Recreated

/-- A node on SQLite with the default caps. -/
def bundled : Node :=
  ⟨false, ⟨65536, 100, 1000, 0, by decide, by decide⟩, fun _ => true⟩

def journal : Ref := ⟨"acme".toList, "app".toList, "journal".toList⟩

def note (data : String) : AppendReq :=
  ⟨journal, "noted".toList, data.toList, [], 0⟩

def wholeJournal : ReadReq :=
  ⟨journal, .zero, 0, none, none, 0, [], 0⟩

/-- A read of the head, then the journal deleted and begun again, then the page. -/
def recreated : List ReadEvent :=
  [.write (.call (note "1")), .write (.attempt 0 second 4#64 none), .begin false wholeJournal,
    .head 0,
    .write (.delete journal), .write (.call (note "2")), .write (.attempt 1 (2 * second) 8#64 none),
    .page 0 (3 * second) none]

/-- The page gives the second journal's entry out under the first one's generation. -/
theorem not_readsExact_recreated :
    (drawn recreated).Nodup ∧
    ¬Along (Reads.next bundled) (ReadsExact bundled) Reads.start recreated := by
  refine ⟨by decide, fun h => ?_⟩
  have hbad : ((recreated.take 7).foldlM (Reads.next bundled) Reads.start).any (fun w =>
      w.readers.any fun r => r.id == 0 && r.walk.any fun k =>
        (k.page bundled w.store.db (3 * second)).entries.any fun e => e.generation != k.gen) =
          true := by
    decide
  obtain ⟨w, hw, hbad⟩ := (Option.any_eq_true _ _).mp hbad
  obtain ⟨r, hr, hbad⟩ := List.any_eq_true.mp hbad
  obtain ⟨hid, hbad⟩ := Bool.and_eq_true_iff.mp hbad
  obtain ⟨k, hk, hbad⟩ := (Option.any_eq_true _ _).mp hbad
  obtain ⟨e, he, hgen⟩ := List.any_eq_true.mp hbad
  have hpage := along_iff.mp h 7 (.page 0 (3 * second) none) w rfl hw 0 _ none rfl r hr
    (beq_iff_eq.mp hid) k hk
  exact bne_iff_ne.mp hgen (hpage.generation e he)

/-- A walk over the journal while it grows. -/
def grown : List ReadEvent :=
  [.write (.call (note "1")), .write (.attempt 0 second 4#64 none), .begin true wholeJournal,
    .head 0,
    .write (.call (note "2")), .write (.attempt 1 (2 * second) 8#64 none),
      .page 0 (3 * second) none]

instance SameHead.decidable (w : Reads) (event : ReadEvent) : Decidable (SameHead w event) :=
  match event with
  | .page id now stop =>
    decidable_of_iff (∀ r ∈ w.readers, r.id = id → ∀ k ∈ r.walk, ∀ h ∈ w.store.db.heads,
      h.id = r.asked.ref.id → h.generation = k.gen)
      ⟨fun h id' now' stop' heq r hr hid => by
        obtain ⟨rfl, rfl, rfl⟩ := ReadEvent.page.inj heq
        exact h r hr hid, fun h => h id now stop rfl⟩
  | .write _ | .begin _ _ | .head _ | .lost _ => .isTrue nofun

theorem readsExact_grown : Along (Reads.next bundled) SameHead Reads.start grown ∧
    Along (Reads.next bundled) (ReadsExact bundled) Reads.start grown := by
  have h : Along (Reads.next bundled) SameHead Reads.start grown := by decide
  exact ⟨h, readsExact_along bundled grown h⟩

end Recreated

end ThanksComputer.Notebook
