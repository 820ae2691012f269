import Mathlib.Algebra.Ring.Nat
import Mathlib.Data.Char
import Mathlib.Data.List.Lex
import Mathlib.Data.List.Sort
import ThanksComputer.Git.Objects
import ThanksComputer.Lib.Moves
import ThanksComputer.Lib.Table

/-! The index of the git repositories (`gitstore/store.go`). -/

namespace ThanksComputer.Git

open Net Lib Lib.Moves

section Tables

/-- Who may move refs: a push that the stack accepts, or any push. -/
inductive PushPolicy
  | stack
  | opened
  deriving DecidableEq

/-- Who judges a blob that is not text: the head, or the stack. -/
inductive ContentPolicy
  | text
  | stack
  deriving DecidableEq

/-- A repository's own caps; zero is the head's default. -/
structure Quotas where
  maxObjectBytes : Nat
  maxRepoBytes : Nat
  maxObjects : Nat
  deriving DecidableEq

structure Repo where
  id : Nat
  tenant : Str
  name : Str
  policyPush : PushPolicy
  policyContent : ContentPolicy
  head : Str
  quotas : Quotas
  deriving DecidableEq

structure ObjectRow where
  repo : Nat
  oid : Oid
  size : Nat
  deriving DecidableEq

structure RefRow where
  repo : Nat
  name : Str
  oid : Oid
  updatedBy : String
  credential : String
  deriving DecidableEq

def RefRow.key (r : RefRow) : Nat × Str :=
  (r.repo, r.name)

structure RefUpdate where
  name : Str
  old : Oid
  new : Oid
  deriving DecidableEq

def RefUpdate.move (u : RefUpdate) : Move Str Oid :=
  ⟨u.name, u.old, u.new⟩

structure Actor where
  principal : String
  credential : String
  source : String
  stack : String
  deriving DecidableEq

structure RefLogEntry where
  repo : Nat
  name : Str
  old : Oid
  new : Oid
  actor : Actor
  deriving DecidableEq

/-- The log stands in the order of the transactions; `minted` counts the ids given to
repositories. -/
structure Db where
  repos : List Repo
  objects : List ObjectRow
  refs : List RefRow
  log : List RefLogEntry
  minted : Nat
  deriving DecidableEq

/-- `ErrRefMoved`; a guard that fails behind the checks does not say where the ref is. -/
structure RefMoved where
  name : Str
  current : Option Oid
  deriving DecidableEq

end Tables

section Repositories

variable (db : Db)

def Db.getRepo (tenant name : Str) : Option Repo :=
  db.repos.find? fun r => r.tenant == tenant && r.name == name

/-- What a repository is made from; the defaults are a stack's for pushes and text for content. -/
structure NewRepo where
  tenant : Str
  name : Str
  policyPush : Option PushPolicy
  policyContent : Option ContentPolicy
  head : Option Str
  quotas : Quotas
  deriving DecidableEq

def NewRepo.row (r : NewRepo) (id : Nat) : Repo :=
  ⟨id, r.tenant, r.name, r.policyPush.getD .stack, r.policyContent.getD .text,
    r.head.getD "refs/heads/main".toList, r.quotas⟩

def Db.createRepo (r : NewRepo) : Db :=
  match db.getRepo r.tenant r.name with
  | some _ => db
  | none => { db with repos := db.repos ++ [r.row db.minted], minted := db.minted + 1 }

/-- `none` is `ErrNotFound`. -/
def Db.removeRepo (id : Nat) : Option Db :=
  if db.repos.any (·.id == id) then
    some { db with
      repos := db.repos.filter (·.id != id)
      refs := db.refs.filter (·.repo != id)
      objects := db.objects.filter (·.repo != id)
      log := db.log.filter (·.repo != id) }
  else none

def Db.getObject (repo : Nat) (oid : Oid) : Option ObjectRow :=
  db.objects.find? fun o => o.repo == repo && o.oid == oid

def Db.indexed (repo : Nat) (oid : Oid) : Bool :=
  (db.getObject repo oid).isSome

/-- `ON CONFLICT DO NOTHING`. -/
def Db.putObject (o : ObjectRow) : Db :=
  if db.indexed o.repo o.oid then db else { db with objects := db.objects ++ [o] }

def Db.putObjects (objs : List ObjectRow) : Db :=
  objs.foldl Db.putObject db

/-- The bytes of `ObjectStats`. -/
def Db.storedBytes (repo : Nat) : Nat :=
  ((db.objects.filter (·.repo == repo)).map ObjectRow.size).sum

end Repositories

section Refs

variable (db : Db)

def RefRow.isAt (repo : Nat) (name : Str) (r : RefRow) : Bool :=
  r.repo == repo && r.name == name

/-- The guard of a `DELETE` and an `UPDATE`. -/
def RefRow.isStill (repo : Nat) (name : Str) (oid : Oid) (r : RefRow) : Bool :=
  r.isAt repo name && r.oid == oid

def Db.listRefs (repo : Nat) : List RefRow :=
  (db.refs.filter (·.repo == repo)).insertionSort fun a b => a.name ≤ b.name

def Db.refsAt (repo : Nat) (name : Str) : List RefRow :=
  db.refs.filter (RefRow.isAt repo name)

/-- Where a ref is; nowhere is `ZeroOID`. -/
def Db.current (repo : Nat) (name : Str) : Oid :=
  match db.refsAt repo name with
  | [] => zeroOID
  | r :: _ => r.oid

variable (repo : Nat) (actor : Actor)

def Db.checkRefs : List RefUpdate → Option RefMoved
  | [] => none
  | u :: us =>
    if u.old ≠ db.current repo u.name then some ⟨u.name, some (db.current repo u.name)⟩
    else Db.checkRefs us

/-- `refs`, and a log row. -/
def Db.moved (u : RefUpdate) (refs : List RefRow) : Db :=
  { db with refs := refs, log := db.log ++ [⟨repo, u.name, u.old, u.new, actor⟩] }

def RefRow.movedTo (actor : Actor) (new : Oid) (r : RefRow) : RefRow :=
  { r with oid := new, updatedBy := actor.principal, credential := actor.credential }

def Db.setRef (u : RefUpdate) : Except RefMoved Db :=
  if u.new = zeroOID then
    if db.refs.countP (RefRow.isStill repo u.name u.old) ≠ 1 then .error ⟨u.name, none⟩
    else .ok (db.moved repo actor u (db.refs.filter fun r => !r.isStill repo u.name u.old))
  else if u.old = zeroOID then
    if db.refs.any (RefRow.isAt repo u.name) then .error ⟨u.name, none⟩
    else .ok (db.moved repo actor u
      (db.refs ++ [⟨repo, u.name, u.new, actor.principal, actor.credential⟩]))
  else
    if db.refs.countP (RefRow.isStill repo u.name u.old) ≠ 1 then .error ⟨u.name, none⟩
    else .ok (db.moved repo actor u
      (Table.update (RefRow.isStill repo u.name u.old) (RefRow.movedTo actor u.new) db.refs))

def Db.compareAndSetRefs (updates : List RefUpdate) : Except RefMoved Db :=
  match db.checkRefs repo updates with
  | some e => .error e
  | none => updates.foldlM (fun db u => db.setRef repo actor u) db

end Refs

section Specs

variable {db db' : Db} {repo : Nat} {name : Str} {actor : Actor} {u : RefUpdate}

structure RefsOk (db : Db) : Prop where
  keys : (db.refs.map RefRow.key).Nodup
  nonzero : ∀ r ∈ db.refs, r.oid ≠ zeroOID

theorem isAt_iff {r : RefRow} : r.isAt repo name = true ↔ r.repo = repo ∧ r.name = name := by
  rw [RefRow.isAt, Bool.and_eq_true, beq_iff_eq, beq_iff_eq]

theorem isStill_iff {r : RefRow} {oid : Oid} :
    r.isStill repo name oid = true ↔ r.isAt repo name = true ∧ r.oid = oid := by
  rw [RefRow.isStill, Bool.and_eq_true, beq_iff_eq]

theorem filter_eq_singleton {α κ : Type} {key : α → κ} {t : List α} (h : (t.map key).Nodup)
    {p : α → Bool} {r : α} (hr : r ∈ t) (hp : ∀ q ∈ t, p q = true ↔ key q = key r) :
      t.filter p = [r] := by
  induction t with
  | nil => cases hr
  | cons q t ih =>
    rw [List.map_cons, List.nodup_cons] at h
    rw [List.forall_mem_cons] at hp
    rcases List.mem_cons.mp hr with rfl | hr
    · rw [List.filter_cons_of_pos (hp.1.mpr rfl), List.filter_eq_nil_iff.mpr]
      intro q hq hpq
      exact h.1 ((hp.2 q hq).mp hpq ▸ List.mem_map_of_mem hq)
    · have hq : ¬ p q = true := fun hpq => h.1 (hp.1.mp hpq ▸ List.mem_map_of_mem hr)
      rw [List.filter_cons_of_neg hq]
      exact ih h.2 hr hp.2

theorem RefsOk.refsAt_eq (hok : RefsOk db) {r : RefRow} (hr : r ∈ db.refs) :
    db.refsAt r.repo r.name = [r] := by
  refine filter_eq_singleton hok.keys hr fun q _ => ?_
  rw [isAt_iff, RefRow.key, RefRow.key, Prod.mk.injEq]

theorem RefsOk.current_eq (hok : RefsOk db) {r : RefRow} (hr : r ∈ db.refs) :
    db.current r.repo r.name = r.oid := by
  rw [Db.current, hok.refsAt_eq hr]

theorem current_of_refsAt_nil (h : db.refsAt repo name = []) : db.current repo name = zeroOID := by
  rw [Db.current, h]

theorem exists_row (h : db.current repo name ≠ zeroOID) :
    ∃ r ∈ db.refs, r.repo = repo ∧ r.name = name ∧ r.oid = db.current repo name := by
  rw [Db.current] at h ⊢
  split at h
  · exact absurd rfl h
  · next r rows hrows =>
    have hmem : r ∈ db.refsAt repo name := hrows ▸ List.mem_cons_self
    obtain ⟨hr, hat⟩ := List.mem_filter.mp hmem
    obtain ⟨hrepo, hname⟩ := isAt_iff.mp hat
    exact ⟨r, hr, hrepo, hname, rfl⟩

theorem RefsOk.exists_of_countP (hok : RefsOk db) {old : Oid}
    (h : db.refs.countP (RefRow.isStill repo name old) = 1) :
    ∃ r ∈ db.refs, r.repo = repo ∧ r.name = name ∧ r.oid = old ∧ db.current repo name = old := by
  have hpos : 0 < db.refs.countP (RefRow.isStill repo name old) := by omega
  obtain ⟨r, hr, hstill⟩ := List.countP_pos_iff.mp hpos
  obtain ⟨hat, hoid⟩ := isStill_iff.mp hstill
  obtain ⟨rfl, rfl⟩ := isAt_iff.mp hat
  exact ⟨r, hr, rfl, rfl, hoid, (hok.current_eq hr).trans hoid⟩

/-- What one statement does: the ref moves from where its update has it, and no other does. -/
structure Moves (db db' : Db) (repo : Nat) (actor : Actor) (u : RefUpdate) : Prop where
  ok : RefsOk db'
  old : db.current repo u.name = u.old
  new : db'.current repo u.name = u.new
  others : ∀ repo' name', (repo', name') ≠ (repo, u.name) →
    db'.refsAt repo' name' = db.refsAt repo' name'
  log : db'.log = db.log ++ [⟨repo, u.name, u.old, u.new, actor⟩]
  repos : db'.repos = db.repos
  objects : db'.objects = db.objects
  minted : db'.minted = db.minted

theorem isAt_eq_false_of_ne {repo' : Nat} {name' : Str} (h : (repo', name') ≠ (repo, name))
    {r : RefRow} (hat : r.isAt repo name = true) : r.isAt repo' name' = false := by
  rw [Bool.eq_false_iff]
  intro hat'
  obtain ⟨hrepo, hname⟩ := isAt_iff.mp hat
  obtain ⟨hrepo', hname'⟩ := isAt_iff.mp hat'
  exact h (by rw [← hrepo, ← hname, ← hrepo', ← hname'])

theorem moves_delete (hok : RefsOk db) (hnew : u.new = zeroOID)
    (h : db.refs.countP (RefRow.isStill repo u.name u.old) = 1) :
    Moves db (db.moved repo actor u (db.refs.filter fun r => !r.isStill repo u.name u.old)) repo
      actor u := by
  obtain ⟨row, hrow, hrepo, hname, hoid, hcurrent⟩ := hok.exists_of_countP h
  refine ⟨⟨?_, fun r hr => hok.nonzero r (List.mem_filter.mp hr).1⟩, hcurrent, ?_, ?_, rfl,
    rfl, rfl, rfl⟩
  · exact hok.keys.sublist (List.filter_sublist.map _)
  · rw [hnew]
    refine current_of_refsAt_nil (List.filter_eq_nil_iff.mpr fun r hr hat => ?_)
    obtain ⟨hr, hkept⟩ := List.mem_filter.mp hr
    obtain ⟨hrepo', hname'⟩ := isAt_iff.mp hat
    have heq : r = row :=
      Table.eq_of_key hok.keys hr hrow
        (by rw [RefRow.key, RefRow.key, hrepo', hname', hrepo, hname])
    rw [heq, isStill_iff.mpr ⟨heq ▸ hat, hoid⟩] at hkept
    cases hkept
  · intro repo' name' hne
    rw [Db.refsAt, Db.moved, List.filter_filter, Db.refsAt]
    refine List.filter_congr fun r _ => ?_
    cases hat : r.isAt repo' name' with
    | false => rfl
    | true =>
      have hother := isAt_eq_false_of_ne hne.symm hat
      rw [RefRow.isStill, hother]
      rfl

theorem moves_insert (hok : RefsOk db) (hnew : u.new ≠ zeroOID) (hold : u.old = zeroOID)
    (h : ∀ r ∈ db.refs, ¬ r.isAt repo u.name = true) :
    Moves db (db.moved repo actor u
      (db.refs ++ [⟨repo, u.name, u.new, actor.principal, actor.credential⟩])) repo actor u := by
  have hnil : db.refsAt repo u.name = [] := List.filter_eq_nil_iff.mpr h
  refine ⟨⟨?_, fun r hr => ?_⟩, ?_, ?_, ?_, rfl, rfl, rfl, rfl⟩
  · refine Table.nodup_insert hok.keys fun q hq hkey => h q hq ?_
    rw [RefRow.key, RefRow.key, Prod.mk.injEq] at hkey
    exact isAt_iff.mpr hkey
  · rcases List.mem_append.mp hr with hr | hr
    · exact hok.nonzero r hr
    · rw [List.mem_singleton.mp hr]
      exact hnew
  · rw [hold]
    exact current_of_refsAt_nil hnil
  · rw [Db.current, Db.refsAt, Db.moved, List.filter_append]
    rw [Db.refsAt] at hnil
    have hself : RefRow.isAt repo u.name
        ⟨repo, u.name, u.new, actor.principal, actor.credential⟩ = true := isAt_iff.mpr ⟨rfl, rfl⟩
    rw [hnil, List.nil_append, List.filter_cons_of_pos hself]
  · intro repo' name' hne
    have hat := isAt_eq_false_of_ne hne (isAt_iff.mpr ⟨rfl, rfl⟩ :
      RefRow.isAt repo u.name ⟨repo, u.name, u.new, actor.principal, actor.credential⟩ = true)
    rw [Db.refsAt, Db.moved, List.filter_append,
      List.filter_cons_of_neg (by rw [hat]; exact Bool.false_ne_true), List.filter_nil,
        List.append_nil,
      Db.refsAt]

theorem moves_update (hok : RefsOk db) (hnew : u.new ≠ zeroOID)
    (h : db.refs.countP (RefRow.isStill repo u.name u.old) = 1) :
    Moves db (db.moved repo actor u
      (Table.update (RefRow.isStill repo u.name u.old) (RefRow.movedTo actor u.new) db.refs)) repo
        actor u := by
  obtain ⟨row, hrow, hrepo, hname, hoid, hcurrent⟩ := hok.exists_of_countP h
  have hok' : RefsOk (db.moved repo actor u
      (Table.update (RefRow.isStill repo u.name u.old) (RefRow.movedTo actor u.new) db.refs)) := by
    refine ⟨?_, fun r hr => ?_⟩
    · have hkey : ∀ r : RefRow, (r.movedTo actor u.new).key = r.key := fun _ => rfl
      exact (Table.map_update hkey db.refs).symm ▸ hok.keys
    · obtain ⟨r₀, hr₀, heq⟩ := Table.mem_update.mp hr
      split at heq
      · rw [← heq]
        exact hnew
      · exact heq ▸ hok.nonzero r₀ hr₀
  refine ⟨hok', hcurrent, ?_, ?_, rfl, rfl, rfl, rfl⟩
  · have hstill : row.isStill repo u.name u.old = true :=
      isStill_iff.mpr ⟨isAt_iff.mpr ⟨hrepo, hname⟩, hoid⟩
    have hcurrent' := hok'.current_eq (Table.mem_update.mpr ⟨row, hrow, if_pos hstill⟩)
    change Db.current _ row.repo row.name = u.new at hcurrent'
    rw [hrepo, hname] at hcurrent'
    exact hcurrent'
  · intro repo' name' hne
    refine Table.filter_update fun r _ hstill => ?_
    have hat := isAt_eq_false_of_ne hne (isStill_iff.mp hstill).1
    exact ⟨hat, hat⟩

theorem moves_of_setRef (hok : RefsOk db) (h : db.setRef repo actor u = .ok db') :
    Moves db db' repo actor u := by
  rw [Db.setRef] at h
  split at h
  · next hnew =>
    split at h
    · cases h
    next hcount =>
    cases h
    exact moves_delete hok hnew (not_not.mp hcount)
  next hnew =>
  split at h
  · next hold =>
    split at h
    · cases h
    next hnone =>
    cases h
    refine moves_insert hok hnew hold fun r hr hat => ?_
    exact hnone (List.any_eq_true.mpr ⟨r, hr, hat⟩)
  · split at h
    · cases h
    next hcount =>
    cases h
    exact moves_update hok hnew (not_not.mp hcount)

end Specs

section Batch

variable {db db' : Db} {repo : Nat} {actor : Actor} {updates : List RefUpdate}

def RefUpdate.logged (repo : Nat) (actor : Actor) (u : RefUpdate) : RefLogEntry :=
  ⟨repo, u.name, u.old, u.new, actor⟩

/-- What a transaction does that goes through: the moves of its updates, one behind the other. -/
structure Plays (db db' : Db) (repo : Nat) (actor : Actor) (updates : List RefUpdate) : Prop where
  ok : RefsOk db'
  play : play (db.current repo) (updates.map RefUpdate.move) = some (db'.current repo)
  others : ∀ repo', repo' ≠ repo → db'.current repo' = db.current repo'
  log : db'.log = db.log ++ updates.map (RefUpdate.logged repo actor)
  repos : db'.repos = db.repos
  objects : db'.objects = db.objects
  minted : db'.minted = db.minted

theorem current_congr {repo' : Nat} {name : Str}
    (h : db'.refsAt repo' name = db.refsAt repo' name) :
    db'.current repo' name = db.current repo' name := by
  rw [Db.current, h, Db.current]

theorem Moves.take {u : RefUpdate} (h : Moves db db' repo actor u) :
    take (db.current repo) u.move = some (db'.current repo) := by
  refine take_eq_some_iff.mpr ⟨h.old, funext fun name => ?_⟩
  change db'.current repo name = Function.update (db.current repo) u.name u.new name
  by_cases hname : name = u.name
  · subst hname
    rw [Function.update_self]
    exact h.new
  · have hne : (repo, name) ≠ (repo, u.name) := fun heq => hname (congrArg Prod.snd heq)
    rw [Function.update_of_ne hname]
    exact current_congr (h.others repo name hne)

theorem plays_foldlM (hok : RefsOk db)
    (h : updates.foldlM (fun db u => db.setRef repo actor u) db = .ok db') :
    Plays db db' repo actor updates := by
  induction updates generalizing db with
  | nil =>
    cases h
    exact ⟨hok, rfl, fun _ _ => rfl, (List.append_nil _).symm, rfl, rfl, rfl⟩
  | cons u us ih =>
    rw [List.foldlM_cons] at h
    cases hset : db.setRef repo actor u with
    | error e =>
      rw [hset] at h
      cases h
    | ok db₁ =>
      rw [hset] at h
      have hmoves := moves_of_setRef hok hset
      have hrest := ih hmoves.ok h
      refine ⟨hrest.ok, ?_, fun repo' hne => ?_, ?_, hrest.repos.trans hmoves.repos,
        hrest.objects.trans hmoves.objects, hrest.minted.trans hmoves.minted⟩
      · rw [List.map_cons, play, List.foldlM_cons, hmoves.take]
        exact hrest.play
      · rw [hrest.others repo' hne]
        exact funext fun name => current_congr (hmoves.others repo' name fun heq =>
          hne (congrArg Prod.fst heq))
      · rw [hrest.log, hmoves.log, List.append_assoc, List.map_cons]
        rfl

theorem checkRefs_eq_none_iff :
    db.checkRefs repo updates = none ↔ ∀ u ∈ updates, db.current repo u.name = u.old := by
  induction updates with
  | nil => exact iff_of_true rfl fun u hu => absurd hu List.not_mem_nil
  | cons u us ih =>
    rw [Db.checkRefs, List.forall_mem_cons]
    split
    · next h => exact ⟨nofun, fun hall => absurd hall.1.symm h⟩
    · next h => rw [ih, and_iff_right (not_not.mp h).symm]

theorem compareAndSetRefs_ok (hok : RefsOk db)
    (h : db.compareAndSetRefs repo actor updates = .ok db') :
    (∀ u ∈ updates, db.current repo u.name = u.old) ∧ Plays db db' repo actor updates := by
  rw [Db.compareAndSetRefs] at h
  split at h
  · cases h
  next hcheck =>
  exact ⟨checkRefs_eq_none_iff.mp hcheck, plays_foldlM hok h⟩

theorem Plays.current_or (h : Plays db db' repo actor updates) (name : Str) :
    db'.current repo name = db.current repo name ∨
      ∃ u ∈ updates, u.name = name ∧ db'.current repo name = u.new := by
  have hled := leads_of_play h.play name
  rcases hled.eq_or with heq | ⟨m, hm, hnew⟩
  · exact .inl heq.symm
  · obtain ⟨hm, hkey⟩ := List.mem_filter.mp hm
    obtain ⟨u, hu, rfl⟩ := List.mem_map.mp hm
    exact .inr ⟨u, hu, of_decide_eq_true hkey, hnew⟩

theorem Plays.row (h : Plays db db' repo actor updates) {r : RefRow} (hr : r ∈ db'.refs) :
    (∃ r₀ ∈ db.refs, r₀.repo = r.repo ∧ r₀.oid = r.oid) ∨
      r.repo = repo ∧ ∃ u ∈ updates, r.oid = u.new := by
  have hcurrent := h.ok.current_eq hr
  have hold : db.current r.repo r.name = r.oid → ∃ r₀ ∈ db.refs, r₀.repo = r.repo ∧
    r₀.oid = r.oid := by
    intro heq
    obtain ⟨r₀, hr₀, hrepo₀, -, hoid₀⟩ := exists_row (heq ▸ h.ok.nonzero r hr)
    exact ⟨r₀, hr₀, hrepo₀, hoid₀.trans heq⟩
  by_cases heq : r.repo = repo
  · subst heq
    rcases h.current_or r.name with hsame | ⟨u, hu, -, hnew⟩
    · exact .inl (hold (hsame.symm.trans hcurrent))
    · exact .inr ⟨rfl, u, hu, hcurrent.symm.trans hnew⟩
  · rw [h.others r.repo heq] at hcurrent
    exact .inl (hold hcurrent)

end Batch

section Frames

variable {db db' : Db} {repo id : Nat} {oid : Oid}

theorem indexed_iff :
    db.indexed repo oid = true ↔ ∃ o ∈ db.objects, o.repo = repo ∧ o.oid = oid := by
  rw [Db.indexed, Db.getObject, List.find?_isSome]
  simp only [Bool.and_eq_true, beq_iff_eq]

theorem putObject_frame (db : Db) (o : ObjectRow) :
    (db.putObject o).repos = db.repos ∧ (db.putObject o).refs = db.refs ∧
      (db.putObject o).log = db.log ∧ (db.putObject o).minted = db.minted := by
  rw [Db.putObject]
  split <;> exact ⟨rfl, rfl, rfl, rfl⟩

theorem indexed_putObject (o : ObjectRow) :
    (db.putObject o).indexed repo oid = true ↔
      db.indexed repo oid = true ∨ o.repo = repo ∧ o.oid = oid := by
  rw [Db.putObject]
  split
  · next h =>
    refine ⟨.inl, fun hor => hor.elim id ?_⟩
    rintro ⟨rfl, rfl⟩
    exact h
  · simp only [indexed_iff, List.mem_append, List.mem_singleton, or_and_right, exists_or,
      exists_eq_left]

theorem putObjects_frame (db : Db) (objs : List ObjectRow) :
    (db.putObjects objs).repos = db.repos ∧ (db.putObjects objs).refs = db.refs ∧
      (db.putObjects objs).log = db.log ∧ (db.putObjects objs).minted = db.minted := by
  induction objs generalizing db with
  | nil => exact ⟨rfl, rfl, rfl, rfl⟩
  | cons o objs ih =>
    obtain ⟨hrepos, hrefs, hlog, hminted⟩ := ih (db.putObject o)
    obtain ⟨hrepos', hrefs', hlog', hminted'⟩ := putObject_frame db o
    exact ⟨hrepos.trans hrepos', hrefs.trans hrefs', hlog.trans hlog', hminted.trans hminted'⟩

theorem indexed_putObjects (objs : List ObjectRow) :
    (db.putObjects objs).indexed repo oid = true ↔
      db.indexed repo oid = true ∨ ∃ o ∈ objs, o.repo = repo ∧ o.oid = oid := by
  induction objs generalizing db with
  | nil => simp [Db.putObjects]
  | cons o objs ih =>
    rw [Db.putObjects, List.foldl_cons, ← Db.putObjects, ih, indexed_putObject, or_assoc,
      List.exists_mem_cons_iff]

end Frames

end ThanksComputer.Git
