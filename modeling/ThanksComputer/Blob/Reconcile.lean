import ThanksComputer.Blob.Index
import ThanksComputer.Lib.Runs

/-! The reconcile of a stack's `BLOBS/` tree (`storeseed/blobseed/blobseed.go`) beside runtime puts.
Each of its reads and writes of the index is one step. -/

namespace ThanksComputer.Blob

open Net Lib.Assoc Lib.Runs

section Rows

/-- `storeseed`'s kinds of packs. -/
inductive Kind
  | vector
  | kv
  | blob
  deriving DecidableEq

structure RawPack where
  path : String
  kind : Kind
  name : Str
  hash : Str
  deriving DecidableEq

structure Scope where
  stack : String
  force : Bool
  deriving DecidableEq

inductive SeedError
  | store (text : String)
  | name (e : NameError)
  | notResident (hash : Str)
  deriving DecidableEq

inductive ReconcileError
  | notABlob (path : String)
  | name (path : String) (e : NameError)
  | noHash (path : String)
  | noFilecas
  | seed (name : Str) (e : SeedError)
  | listNames (text : String)
  | reRead (name : Str) (text : String)
  | deleteStale (name : Str) (text : String)
  deriving DecidableEq

/-- The checks of a row of the tree; the empty path is the marker of an empty tree. -/
def RawPack.check (p : RawPack) : Option ReconcileError :=
  if p.kind ≠ .blob then some (.notABlob p.path)
  else match validName p.name with
    | some e => some (.name p.path e)
    | none => if validSha256 p.hash then none else some (.noHash p.path)

def rows (packs : List RawPack) : List RawPack :=
  packs.filter (·.path != "")

def rowErrors (packs : List RawPack) : List ReconcileError :=
  (rows packs).filterMap RawPack.check

def desired (packs : List RawPack) : List (Str × Str) :=
  ((rows packs).filter fun p => (RawPack.check p).isNone).foldl
    (fun d p => upsert p.name (fun _ => p.hash) d) []

end Rows

section Program

inductive ReadError
  | notFound
  | other (text : String)
  deriving DecidableEq

/-- What is left of a reconcile, one operation of the stores after the other. -/
inductive Prog : Type
  | pure (errs : List ReconcileError)
  | getName (name : Str) (next : Except String (Option NameRow) → Prog)
  | getReader (hash : Str) (next : Except ReadError Nat → Prog)
  | putShaIfAbsent (sha : Str) (row : ShaRow) (next : Except String Unit → Prog)
  | putName (name : Str) (row : NameRow) (next : Except SeedError Unit → Prog)
  | listNames (next : Except String (List (Str × NameRow)) → Prog)
  | deleteName (name : Str) (next : Except String Unit → Prog)

/-- The chassis it runs on. -/
structure Env where
  defaultContentType : Str → String
  hasFilecas : Bool
  now : Nat

variable (E : Env) (scope : Scope)

/-- The size and the content type of the new row: those of a row with the same content, or the
probe's. -/
def probe (name hash : Str) (prior : Option NameRow)
    (done : Except SeedError (Nat × String) → Prog) : Prog :=
  let ct := E.defaultContentType name
  match prior.filter fun r => r.sha256 == hash with
  | some r => done (.ok (r.size, if r.contentType ≠ "" then r.contentType else ct))
  | none => .getReader hash fun
    | .error .notFound => done (.error (.notResident hash))
    | .error (.other text) => done (.error (.store text))
    | .ok size => done (.ok (size, ct))

def seedRow (hash : Str) (size : Nat) (ct : String) (prior : Option NameRow) : NameRow :=
  match prior with
  | none => ⟨hash, size, ct, "", [], scope.stack, hash, E.now, E.now⟩
  | some r =>
    ⟨hash, size, ct, r.filename, r.permissions, scope.stack, hash, if r.createdAt = 0 then
      E.now else r.createdAt,
      if r.sha256 = hash then r.updatedAt else E.now⟩

/-- The row is as the tree has it, bookkeeping and all. -/
def settled (hash : Str) (prior : Option NameRow) : Bool :=
  prior.any fun r => r.sha256 == hash && r.seededBy == scope.stack && r.seededSHA == hash

def stands (hash : Str) (prior : Option NameRow) : Bool :=
  prior.any fun r => r.sha256 != hash && !scope.force && r.drifted && r.seededSHA == hash

def seedOne (name hash : Str) (done : Option SeedError → Prog) : Prog :=
  .getName name fun
    | .error text => done (some (.store text))
    | .ok prior =>
      if settled scope hash prior then done none
      else if stands scope hash prior then done none
      else probe E name hash prior fun
        | .error e => done (some e)
        | .ok (size, ct) => .putShaIfAbsent hash ⟨size, ct, E.now⟩ fun
          | .error text => done (some (.store text))
          | .ok _ => .putName name (seedRow E scope hash size ct prior) fun
            | .error e => done (some e)
            | .ok _ => done none

def seedAll (errs : List ReconcileError) (done : List ReconcileError → Prog) :
    List (Str × Str) → Prog
  | [] => done errs
  | (name, hash) :: rest => seedOne E scope name hash fun
    | none => seedAll errs done rest
    | some e => seedAll (errs ++ [.seed name e]) done rest

def dropMissing (keep : List (Str × Str)) (errs : List ReconcileError) : List (Str × NameRow) → Prog
  | [] => .pure errs
  | (name, row) :: rest =>
    if row.seededBy ≠ scope.stack ∨ (keep.lookup name).isSome then dropMissing keep errs rest
    else .getName name fun
      | .error text => dropMissing keep (errs ++ [.reRead name text]) rest
      | .ok none => dropMissing keep errs rest
      | .ok (some cur) =>
        if cur.seededBy ≠ scope.stack then dropMissing keep errs rest
        else if cur.drifted && !scope.force then dropMissing keep errs rest
        else .deleteName name fun
          | .error text => dropMissing keep (errs ++ [.deleteStale name text]) rest
          | .ok _ => dropMissing keep errs rest

def reconcile (packs : List RawPack) : Prog :=
  if desired packs ≠ [] ∧ E.hasFilecas = false then .pure [.noFilecas]
  else seedAll E scope (rowErrors packs) (fun errs => .listNames fun
      | .error text => .pure (errs ++ [.listNames text])
      | .ok page => dropMissing scope (desired packs) errs page)
    ((desired packs).insertionSort fun a b => a.1 ≤ b.1)

end Program

section Runs

/-- A runtime put between its read and its write. -/
structure Putting where
  put : Put
  prior : Option NameRow

/-- `seen` is the reconcile's last read of a name; `runtime` are the names whose row is a runtime
put. -/
structure World where
  index : Index
  prog : Prog
  seen : Option (Str × Option NameRow)
  puts : List Putting
  runtime : List Str

/-- A step of the reconcile, which may fail, with the size of the object that a probe finds; or a
runtime put that reads its name, and then writes it. -/
inductive Event
  | step (fault : Option String) (resident : Option Nat)
  | read (p : Put)
  | write (i : Nat)

def answer {α : Type} (fault : Option String) (a : α) : Except String α :=
  match fault with
  | some text => .error text
  | none => .ok a

def readAnswer (fault : Option String) (resident : Option Nat) : Except ReadError Nat :=
  match fault, resident with
  | some text, _ => .error (.other text)
  | none, none => .error .notFound
  | none, some size => .ok size

/-- The index behind the next operation of the reconcile, and what is left. -/
def Prog.step (ix : Index) (fault : Option String) (resident : Option Nat) : Prog → Index × Prog
  | .pure errs => (ix, .pure errs)
  | .getName name next => (ix, next (answer fault (ix.getName name)))
  | .getReader _ next => (ix, next (readAnswer fault resident))
  | .putShaIfAbsent sha row next =>
    (if fault.isSome then ix else ix.putShaIfAbsent sha row, next (answer fault ()))
  | .putName name row next => match fault, ix.putName name row with
    | some text, _ => (ix, next (.error (.store text)))
    | none, .error e => (ix, next (.error (.name e)))
    | none, .ok ix' => (ix', next (.ok ()))
  | .listNames next => (ix, next (answer fault ix.listNames))
  | .deleteName name next =>
    (if fault.isSome then ix else ix.deleteName name, next (answer fault ()))

def Prog.reads (ix : Index) (fault : Option String) (seen : Option (Str × Option NameRow)) :
    Prog → Option (Str × Option NameRow)
  | .getName name _ => if fault.isSome then seen else some (name, ix.getName name)
  | _ => seen

def Prog.writes (fault : Option String) : Prog → List Str
  | .putName name _ _ | .deleteName name _ => if fault.isSome then [] else [name]
  | _ => []

variable (E : Env) (scope : Scope) (packs : List RawPack)

def World.next (w : World) : Event → Option World
  | .step fault resident => some
    { w with
      index := (w.prog.step w.index fault resident).1
      prog := (w.prog.step w.index fault resident).2
      seen := w.prog.reads w.index fault w.seen
      runtime := w.runtime.filter fun name => !(w.prog.writes fault).contains name }
  | .read p =>
    if validName p.name = none then some { w with puts := w.puts ++ [⟨p, w.index.getName p.name⟩] }
      else none
  | .write i => match w.puts[i]? with
    | none => none
    | some x => match w.index.putName x.put.name (x.put.row E.defaultContentType x.prior) with
      | .error _ => none
      | .ok ix =>
        some { w with index := ix, puts := w.puts.eraseIdx i, runtime := x.put.name :: w.runtime }

/-- A reconcile of the tree begins on an index, some of whose rows are runtime puts. -/
def World.start (index : Index) (runtime : List Str) : World :=
  ⟨index, reconcile E scope packs, none, [], runtime⟩

def Ships (name : Str) : Prop :=
  ∃ p ∈ rows packs, p.kind = .blob ∧ p.name = name

/-- The tree's file of a name is the one that was last seeded, or the tree has none. -/
def Unchanged (name : Str) (row : NameRow) : Prop :=
  (desired packs).lookup name = some row.seededSHA ∨ ¬Ships packs name

structure Spares (w w' : World) : Prop where
  shipped : ∀ name, Ships packs name → (w.index.getName name).isSome →
    (w'.index.getName name).isSome
  others : ∀ name row, w.index.getName name = some row → row.seededBy ≠ "" →
    row.seededBy ≠ scope.stack →
    ¬Ships packs name → w'.index.getName name = some row
  puts : ∀ name row, w.index.getName name = some row → name ∈ w.runtime → row.seededSHA ≠ [] →
    Unchanged packs name row → ∃ row', w'.index.getName name = some row' ∧ row'.sha256 = row.sha256

def SparesAt (w : World) : Event → Prop
  | .step fault resident => ∀ w', w.next E (.step fault resident) = some w' →
    Spares scope packs w w'
  | _ => True

/-- The reconcile writes a name only while its row is the one that it read, and a runtime put there
is not of the content that was seeded. -/
def Undisturbed (w : World) : Event → Prop
  | .step fault _ => ∀ name ∈ w.prog.writes fault, w.seen = some (name, w.index.getName name) ∧
      ∀ row, w.index.getName name = some row → name ∈ w.runtime → row.seededSHA ≠ [] →
        row.drifted = true
  | _ => True

/-- Every file of the tree carries its hash. -/
def Hashed : Prop :=
  ∀ p ∈ rows packs, p.kind = .blob → validName p.name = none → validSha256 p.hash = true

instance : Decidable (Hashed packs) :=
  inferInstanceAs (Decidable (∀ p ∈ rows packs, p.kind = .blob → validName p.name = none → _))

end Runs

section Desired

variable {packs : List RawPack} {p : RawPack} {name : Str}

theorem check_eq_none :
    p.check = none ↔ p.kind = .blob ∧ validName p.name = none ∧ validSha256 p.hash = true := by
  rw [RawPack.check]
  split
  · next hkind => exact iff_of_false (by simp) fun h => hkind h.1
  next hkind =>
  split
  · next e he => exact iff_of_false (by simp) fun h => by simp [he] at h
  · next he => simp_all

theorem lookup_foldl_upsert (ps : List RawPack) (d : List (Str × Str)) :
    (ps.foldl (fun d p => upsert p.name (fun _ => p.hash) d) d).lookup name ≠ none ↔
      (∃ p ∈ ps, p.name = name) ∨ d.lookup name ≠ none := by
  induction ps generalizing d with
  | nil => simp
  | cons p ps ih =>
    rw [List.foldl_cons, ih]
    by_cases hp : name = p.name
    · subst hp
      simp [lookup_upsert_self]
    · rw [lookup_upsert_of_ne hp]
      simp [Ne.symm hp]

theorem lookup_desired_ne_none :
    (desired packs).lookup name ≠ none ↔ ∃ p ∈ rows packs, p.check = none ∧ p.name = name := by
  rw [desired, lookup_foldl_upsert]
  simp [and_assoc]

theorem ships_of_desired (h : (desired packs).lookup name ≠ none) : Ships packs name := by
  obtain ⟨p, hp, hcheck, hname⟩ := lookup_desired_ne_none.mp h
  exact ⟨p, hp, (check_eq_none.mp hcheck).1, hname⟩

theorem desired_of_ships (hhash : Hashed packs) (hvalid : validName name = none)
    (h : Ships packs name) :
    (desired packs).lookup name ≠ none := by
  obtain ⟨p, hp, hkind, rfl⟩ := h
  exact lookup_desired_ne_none.mpr
    ⟨p, hp, check_eq_none.mpr ⟨hkind, hvalid, hhash p hp hkind hvalid⟩, rfl⟩

end Desired

section Guards

variable (scope : Scope) (packs : List RawPack)

def Asserts (name : Str) (row : NameRow) (prior : Option NameRow) : Prop :=
  (desired packs).lookup name = some row.sha256 ∧
    ∀ r, prior = some r → r.drifted = true → r.seededSHA = row.sha256 → r.sha256 = row.sha256

/-- The stack's own row, which the tree has dropped and the runtime has not moved. -/
def Stale (name : Str) (cur : Option NameRow) : Prop :=
  (desired packs).lookup name = none ∧ ∃ r, cur = some r ∧ r.seededBy = scope.stack ∧
    r.drifted = false

/-- Each write of the index is behind a read of the name that allows it. -/
def Guarded : Option (Str × Option NameRow) → Prog → Prop
  | _, .pure _ => True
  | seen, .getName name next =>
    (∀ text, Guarded seen (next (.error text))) ∧ ∀ row, Guarded (some (name, row)) (next (.ok row))
  | seen, .getReader _ next => ∀ a, Guarded seen (next a)
  | seen, .putShaIfAbsent _ _ next => ∀ a, Guarded seen (next a)
  | seen, .putName name row next =>
    (∀ prior, seen = some (name, prior) → Asserts packs name row prior) ∧ ∀ a, Guarded seen (next a)
  | seen, .listNames next => ∀ a, Guarded seen (next a)
  | seen, .deleteName name next =>
    (∀ cur, seen = some (name, cur) → Stale scope packs name cur) ∧ ∀ a, Guarded seen (next a)

variable {scope packs} {E : Env} {seen : Option (Str × Option NameRow)}

theorem guarded_probe {name hash : Str} {prior : Option NameRow}
    {done : Except SeedError (Nat × String) → Prog} (h : ∀ a, Guarded scope packs seen (done a)) :
      Guarded scope packs seen (probe E name hash prior done) := by
  rw [probe]
  split
  · exact h _
  · rintro ((_ | text) | size)
    · exact h _
    · exact h _
    · exact h _

theorem sha256_seedRow (hash : Str) (size : Nat) (ct : String) (prior : Option NameRow) :
    (seedRow E scope hash size ct prior).sha256 = hash := by
  cases prior with
  | none => rfl
  | some r => rfl

theorem guarded_seedOne (hforce : scope.force = false) {name hash : Str}
    (hdesired : (desired packs).lookup name = some hash) {done : Option SeedError → Prog}
    (h : ∀ seen e, Guarded scope packs seen (done e)) :
      Guarded scope packs seen (seedOne E scope name hash done) := by
  refine ⟨fun text => h _ _, fun prior => ?_⟩
  dsimp only
  split
  · exact h _ _
  split
  · exact h _ _
  next hstands =>
  refine guarded_probe fun a => ?_
  rcases a with e | ⟨size, ct⟩
  · exact h _ _
  rintro (text | -)
  · exact h _ _
  refine ⟨fun prior' hprior => ?_, ?_⟩
  · cases hprior
    rw [Asserts, sha256_seedRow]
    refine ⟨hdesired, fun r hr hdrift hsha => ?_⟩
    by_contra hne
    refine hstands ?_
    rw [stands, hr, Option.any_some, hforce, hdrift, hsha, bne_iff_ne.mpr hne, beq_self_eq_true]
    rfl
  · rintro (e | -)
    · exact h _ _
    · exact h _ _

theorem guarded_seedAll (hforce : scope.force = false) {done : List ReconcileError → Prog}
    (h : ∀ seen errs, Guarded scope packs seen (done errs)) {todo : List (Str × Str)}
    (htodo : ∀ e ∈ todo, (desired packs).lookup e.1 = some e.2) (errs : List ReconcileError) :
    Guarded scope packs seen (seedAll E scope errs done todo) := by
  induction todo generalizing seen errs with
  | nil => exact h _ _
  | cons e todo ih =>
    rw [List.forall_mem_cons] at htodo
    refine guarded_seedOne hforce htodo.1 fun seen e => ?_
    cases e with
    | none => exact ih htodo.2 _
    | some e => exact ih htodo.2 _

theorem guarded_dropMissing (hforce : scope.force = false) (errs : List ReconcileError)
    (page : List (Str × NameRow)) :
      Guarded scope packs seen (dropMissing scope (desired packs) errs page) := by
  induction page generalizing seen errs with
  | nil => trivial
  | cons e page ih =>
    obtain ⟨name, row⟩ := e
    rw [dropMissing]
    split
    · exact ih _
    next hkeep =>
    refine ⟨fun text => ih _, fun cur => ?_⟩
    cases cur with
    | none => exact ih _
    | some cur =>
      dsimp only
      split
      · exact ih _
      next hstack =>
      split
      · exact ih _
      next hdrift =>
      refine ⟨fun cur' hcur => ?_, ?_⟩
      · cases hcur
        rw [hforce, Bool.not_false, Bool.and_true, Bool.not_eq_true] at hdrift
        rw [not_or, Option.not_isSome_iff_eq_none] at hkeep
        exact ⟨hkeep.2, cur, rfl, not_not.mp hstack, hdrift⟩
      · rintro (text | -)
        · exact ih _
        · exact ih _

theorem keys_desired_nodup (packs : List RawPack) : (keys (desired packs)).Nodup := by
  rw [desired]
  refine foldl_invariant (I := fun d : List (Str × Str) => (keys d).Nodup)
    (R := fun _ => True) ?_ ?_ ?_
  · exact fun d p hd _ => keys_upsert_nodup p.name (fun _ => p.hash) hd
  · exact List.nodup_nil
  · exact fun _ _ => trivial

theorem guarded_reconcile (hforce : scope.force = false) :
    Guarded scope packs seen (reconcile E scope packs) := by
  rw [reconcile]
  split
  · trivial
  refine guarded_seedAll hforce (fun seen errs => ?_) (fun e he => ?_) _
  · rintro (text | page)
    · trivial
    · exact guarded_dropMissing hforce _ _
  · rw [List.mem_insertionSort] at he
    exact lookup_of_mem (keys_desired_nodup packs) he

theorem Guarded.step {ix : Index} {p : Prog} (h : Guarded scope packs seen p)
    (fault : Option String) (resident : Option Nat) :
    Guarded scope packs (p.reads ix fault seen) (p.step ix fault resident).2 := by
  cases p with
  | pure errs => trivial
  | getName name next =>
    cases fault with
    | none => exact h.2 _
    | some text => exact h.1 text
  | getReader hash next => exact h _
  | putShaIfAbsent sha row next => exact h _
  | putName name row next =>
    cases fault with
    | some text => exact h.2 _
    | none =>
      cases hput : ix.putName name row with
      | error e =>
        simp only [Prog.step, hput]
        exact h.2 _
      | ok ix' =>
        simp only [Prog.step, hput]
        exact h.2 _
  | listNames next => exact h _
  | deleteName name next => exact h.2 _

end Guards

section Safety

variable {scope : Scope} {packs : List RawPack} {E : Env} {w w' : World}

theorem spares_of_same (h : ∀ name, w'.index.getName name = w.index.getName name) :
    Spares scope packs w w' :=
  ⟨fun name _ hsome => by rwa [h], fun name row hrow _ _ _ => by rw [h, hrow],
    fun name row hrow _ _ _ => ⟨row, by rw [h, hrow], rfl⟩⟩

theorem spares_of_put {name : Str} {row : NameRow}
    (hassert : Asserts packs name row (w.index.getName name))
    (hdrift : ∀ r, w.index.getName name = some r → name ∈ w.runtime → r.seededSHA ≠ [] →
      r.drifted = true) (hput :
        w.index.putName name row = .ok w'.index) : Spares scope packs w w' := by
  have hships : Ships packs name :=
    ships_of_desired (by rw [hassert.1]; exact Option.some_ne_none _)
  have hnew := Index.getName_putName hput
  refine ⟨fun other _ hsome => ?_, fun other r hr _ _ hnot =>
    ?_, fun other r hr hrun hseeded hsame => ?_⟩
  · by_cases hother : other = name
    · rw [hother, hnew]
      rfl
    · rwa [Index.getName_putName_of_ne hput hother]
  · by_cases hother : other = name
    · exact absurd (hother ▸ hships) hnot
    · rw [Index.getName_putName_of_ne hput hother, hr]
  · by_cases hother : other = name
    · subst hother
      refine ⟨row, hnew, ?_⟩
      rcases hsame with hsame | hnot
      · rw [hassert.1, Option.some.injEq] at hsame
        exact (hassert.2 r hr (hdrift r hr hrun hseeded) hsame.symm).symm
      · exact absurd hships hnot
    · exact ⟨r, by rw [Index.getName_putName_of_ne hput hother, hr], rfl⟩

theorem spares_of_delete (hhash : Hashed packs) {name : Str}
    (hstale : Stale scope packs name (w.index.getName name))
    (hdrift : ∀ r, w.index.getName name = some r → name ∈ w.runtime → r.seededSHA ≠ [] →
      r.drifted = true)
    (hdelete : w'.index = w.index.deleteName name) : Spares scope packs w w' := by
  obtain ⟨hnone, r₀, hr₀, hstack, hstill⟩ := hstale
  have hother : ∀ other, other ≠ name → w'.index.getName other = w.index.getName other := by
    intro other hne
    rw [hdelete, Index.getName_deleteName_of_ne hne]
  refine ⟨fun other hships hsome => ?_, fun other r hr _ hne _ =>
    ?_, fun other r hr hrun hseeded _ => ?_⟩
  · have hne : other ≠ name := by
      rintro rfl
      exact desired_of_ships hhash (Index.validName_of_getName hr₀) hships hnone
    rwa [hother other hne]
  · refine (hother other ?_).trans hr
    rintro rfl
    cases hr.symm.trans hr₀
    exact hne hstack
  · refine ⟨r, (hother other ?_).trans hr, rfl⟩
    rintro rfl
    cases hr.symm.trans hr₀
    rw [hdrift r₀ hr₀ hrun hseeded] at hstill
    cases hstill

theorem spares_step (hhash : Hashed packs) (hguard : Guarded scope packs w.seen w.prog)
    {fault : Option String} {resident : Option Nat} (hun : Undisturbed w (.step fault resident))
    (hnext : w.next E (.step fault resident) = some w') : Spares scope packs w w' := by
  obtain ⟨index, prog, seen, puts, runtime⟩ := w
  cases hnext
  cases prog with
  | pure | getName | getReader | listNames => exact spares_of_same fun name => rfl
  | putShaIfAbsent sha row next =>
    refine spares_of_same fun name => ?_
    cases fault with
    | none => exact Index.getName_putShaIfAbsent sha row
    | some text => rfl
  | putName name row next =>
    cases fault with
    | some text => exact spares_of_same fun name => rfl
    | none =>
      obtain ⟨hseen, hdrift⟩ := hun name List.mem_cons_self
      cases hput : index.putName name row with
      | error e =>
        refine spares_of_same fun name => ?_
        simp only [Prog.step, hput]
      | ok ix =>
        refine spares_of_put (hguard.1 _ hseen) hdrift ?_
        simp only [Prog.step, hput]
  | deleteName name next =>
    cases fault with
    | some text => exact spares_of_same fun name => rfl
    | none =>
      obtain ⟨hseen, hdrift⟩ := hun name List.mem_cons_self
      exact spares_of_delete hhash (hguard.1 _ hseen) hdrift rfl

theorem guarded_next (hguard : Guarded scope packs w.seen w.prog) {e : Event}
    (hnext : w.next E e = some w') :
    Guarded scope packs w'.seen w'.prog := by
  cases e with
  | step fault resident =>
    cases hnext
    exact hguard.step fault resident
  | read p =>
    rw [World.next] at hnext
    split at hnext
    · cases hnext
      exact hguard
    · cases hnext
  | write i =>
    rw [World.next] at hnext
    split at hnext
    · cases hnext
    split at hnext
    · cases hnext
    · cases hnext
      exact hguard

/-- A reconcile whose files carry their hashes, and that writes what it has just read, spares what
is shipped, what other stacks have seeded, and the runtime's puts. -/
theorem sparesAt_along (E : Env) (scope : Scope) (hforce : scope.force = false)
    (packs : List RawPack) (hhash : Hashed packs) (index : Index) (runtime : List Str)
    (es : List Event)
    (h : Along (World.next E) Undisturbed (.start E scope packs index runtime) es) :
    Along (World.next E) (SparesAt E scope packs) (.start E scope packs index runtime) es := by
  refine h.of_invariant (I := fun w => Guarded scope packs w.seen w.prog)
    (fun w e w' hw _ hnext => guarded_next hw hnext) (fun w e hw hun => ?_)
      (guarded_reconcile hforce)
  cases e with
  | step fault resident => exact fun w' hnext => spares_step hhash hw hun hnext
  | read p => trivial
  | write i => trivial

end Safety

section Scenes

/-- The next write is of the row that was read, and not of a runtime put that is no drift. -/
def undisturbed (w : World) : Event → Bool
  | .step fault _ => (w.prog.writes fault).all fun name =>
    decide (w.seen = some (name, w.index.getName name)) &&
      (w.index.getName name).all fun row => !w.runtime.contains name || row.seededSHA ==
        [] || row.drifted
  | _ => true

theorem undisturbed_of_check {w : World} {e : Event} (h : undisturbed w e = true) :
    Undisturbed w e := by
  cases e with
  | step fault resident =>
    intro name hname
    have hboth := List.all_eq_true.mp h name hname
    rw [Bool.and_eq_true, decide_eq_true_eq] at hboth
    refine ⟨hboth.1, fun row hrow hrun hseeded => ?_⟩
    have hrow := hrow ▸ hboth.2
    rw [Option.all_some, List.contains_iff_mem.mpr hrun, beq_eq_false_iff_ne.mpr hseeded] at hrow
    exact hrow
  | read p => trivial
  | write i => trivial

def sha (c : Char) : Str :=
  List.replicate 64 c

def seeded (c : Char) : NameRow :=
  ⟨sha c, 1, "text/plain", "", [], "core", sha c, 10, 10⟩

def docs : Index where
  names := [("faq".toList, seeded 'a'), ("old".toList, seeded 'a')]
  shas := []
  valid := by decide

def env : Env :=
  ⟨fun _ => "text/plain", true, 20⟩

def core : Scope :=
  ⟨"core", false⟩

def edit : Put :=
  ⟨"old".toList, sha 'c', 1, "", "", none, 15⟩

/-- The tree has a new faq and drops the old document, which is edited before it is read again. -/
def tree : List RawPack :=
  [⟨"BLOBS/faq", .blob, "faq".toList, sha 'b'⟩]

def editedFirst : List Event :=
  [.step none none, .step none (some 1), .step none none, .step none none, .step none none,
    .read edit, .write 0,
    .step none none]

theorem sparesAt_editedFirst :
    Along (World.next env) Undisturbed (.start env core tree docs []) editedFirst ∧
      Along (World.next env) (SparesAt env core tree)
        (.start env core tree docs []) editedFirst := by
  have hcheck : Along (World.next env) (fun w e => undisturbed w e = true)
    (.start env core tree docs [])
      editedFirst := by decide
  have hun := hcheck.of_invariant (I := fun _ => True) (fun _ _ _ _ _ _ => trivial)
    (fun _ _ _ h => undisturbed_of_check h) trivial
  exact ⟨hun, sparesAt_along env core rfl tree (by decide) docs [] editedFirst hun⟩

/-- The tree is gone, and the old document is edited between the second look at it and its
unlink. -/
def editedLate : List Event :=
  [.step none none, .step none none, .step none none, .step none none, .read edit, .write 0]

def emptyTree : List RawPack :=
  [⟨"", .blob, [], []⟩]

theorem not_sparesAt_editedLate :
    ¬∀ (E : Env) (scope : Scope) (packs : List RawPack) (index : Index) (runtime : List Str)
      (es : List Event),
      scope.force = false →
        Along (World.next E) (SparesAt E scope packs) (.start E scope packs index runtime) es := by
  intro h
  have hrun : (editedLate.foldlM (World.next env) (.start env core emptyTree docs [])).any (fun w =>
      w.index.getName "old".toList == some { seeded 'a' with sha256 := sha 'c', updatedAt := 15 } &&
        w.runtime.contains "old".toList &&
          ((w.prog.step w.index none none).1.getName "old".toList).isNone) = true := by decide
  obtain ⟨w, hw, hlost⟩ := (Option.any_eq_true _ _).mp hrun
  rw [Bool.and_eq_true, Bool.and_eq_true, beq_iff_eq, List.contains_iff_mem,
    Option.isNone_iff_eq_none] at hlost
  obtain ⟨⟨hrow, hruntime⟩, hgone⟩ := hlost
  have hspares :=
    (h env core emptyTree docs [] (editedLate ++ [.step none none]) rfl).after hw _ rfl
  have hnot : ¬Ships emptyTree "old".toList := by
    rintro ⟨p, hp, -⟩
    cases hp
  obtain ⟨row', hrow', -⟩ := hspares.puts _ _ hrow hruntime (by decide) (.inr hnot)
  cases hgone.symm.trans hrow'

end Scenes

end ThanksComputer.Blob
