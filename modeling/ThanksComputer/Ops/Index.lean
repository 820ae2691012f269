import ThanksComputer.Lib.Assoc
import ThanksComputer.Lib.Runs
import ThanksComputer.Lib.Search
import ThanksComputer.Ops.Stage

/-! The ops table as SQLite holds it, the floor lookup by SQL, and the in-memory index of
opsindex.go that answers in its place.  A table lists its rows in rowid order. -/

namespace ThanksComputer.Ops.Index

open Lib.Assoc Lib.Runs Lib.Search

abbrev Slug := List Char

structure OpRow where
  tenantId : Option String
  stack : StageText
  scope : Int
  name : String
  txcl : String
  mockRes : String
  deriving DecidableEq

structure TenantRow where
  tenantId : String
  slug : Slug

structure Snapshot where
  ops : List OpRow
  tenants : List TenantRow

/-- The order in which the engine returns the rows of a select that asks for none, given the rows in
rowid order. -/
structure Engine where
  order : List OpRow → List OpRow
  perm : ∀ rows, (order rows).Perm rows

section Sql

/-- `LIKE` with `\` as its escape character; ASCII letters match in either case. -/
def likeEscape : List Char → List Char → Bool
  | [], text => text.isEmpty
  | '\\' :: [], _ => false
  | '\\' :: _ :: _, [] => false
  | '\\' :: c :: p, d :: text => c.toLower == d.toLower && likeEscape p text
  | c :: p, text =>
    if c = '%' then text.tails.any (likeEscape p)
    else
      match text with
      | [] => false
      | d :: text => (c == '_' || c.toLower == d.toLower) && likeEscape p text

/-- Doubles the escape character, then escapes `_`; `%` stays a wildcard. -/
def escapeLikeLiterals (pattern : List Char) : List Char :=
  (pattern.flatMap fun c => if c = '\\' then ['\\', '\\'] else [c]).flatMap fun c =>
    if c = '_' then ['\\', '_'] else [c]

/-- The rows of the tenant.  A slug that is in no row of `tenants` has none; the empty one has the
rows without a tenant. -/
def tenantPredicate (db : Snapshot) (tenant : Slug) (r : OpRow) : Bool :=
  if tenant.isEmpty then r.tenantId.isNone
  else
    match db.tenants.find? fun t => t.slug == tenant with
    | some t => r.tenantId == some t.tenantId
    | none => false

def matching (db : Snapshot) (tenant : Slug) (stack : StageText) : List OpRow :=
  db.ops.filter fun r =>
    likeEscape (escapeLikeLiterals stack) r.stack && tenantPredicate db tenant r

/-- `SELECT MIN(scope) ... WHERE scope >= ?`; `none` is its NULL. -/
def minScope (rows : List OpRow) (floor : Int) : Option Int :=
  ((rows.map OpRow.scope).filter fun x => decide (floor ≤ x)).min?

def rowsAtScope (rows : List OpRow) (x : Int) : List OpRow :=
  rows.filter fun r => r.scope == x

/-- The rows at the lowest scope at or above the floor, in rowid order. -/
def floorOps (rows : List OpRow) (floor : Int) : List OpRow :=
  match minScope rows floor with
  | some x => rowsAtScope rows x
  | none => []

def lookupOpsExact (E : Engine) (db : Snapshot) (tenant : Slug) (stack : StageText) (floor : Int) :
    List OpRow :=
  E.order (floorOps (matching db tenant stack) floor)

def stackParent (stack : StageText) : Option StageText :=
  match stack.reverse.dropWhile (· != '/') with
  | _ :: before => some before.reverse
  | [] => none

def peelParent (stack : StageText) : Option StageText :=
  match stackParent stack with
  | some parent => if (stack.drop (parent.length + 1)).head? = some '_' then none else some parent
  | none => none

theorem length_stackParent {stack parent : StageText} (h : stackParent stack = some parent) :
    parent.length < stack.length := by
  rw [stackParent] at h
  split at h
  · next c before heq =>
    cases h
    have hle : (stack.reverse.dropWhile (· != '/')).length ≤ stack.reverse.length :=
      (List.dropWhile_suffix _).length_le
    rw [heq, List.length_cons, List.length_reverse] at hle
    rw [List.length_reverse]
    exact hle
  · cases h

theorem length_peelParent {stack parent : StageText} (h : peelParent stack = some parent) :
    parent.length < stack.length := by
  rw [peelParent] at h
  split at h
  · next p hp =>
    split at h
    · cases h
    · cases h
      exact length_stackParent hp
  · cases h

/-- The overlay walk: the stack's rows, or those of the first parent that has any. -/
def walk (look : StageText → List OpRow) (peels : Bool) (stack : StageText) : List OpRow :=
  if !(look stack).isEmpty then look stack
  else if !peels then []
  else
    match _h : peelParent stack with
    | some parent => walk look peels parent
    | none => []
termination_by stack.length
decreasing_by exact length_peelParent _h

/-- The loop of `OpsForStage` over the SQL lookup.  A wildcard pattern never peels. -/
def sqlOps (E : Engine) (db : Snapshot) (peels : Bool) (tenant : Slug) (stack : StageText)
    (floor : Int) : List OpRow :=
  walk (fun s => lookupOpsExact E db tenant s floor) (peels && !wildcard stack) stack

end Sql

section Ladder

structure StackLadder where
  scopes : List Int
  ops : List (Int × List OpRow)

def addRow (l : StackLadder) (r : OpRow) : StackLadder :=
  match l.ops.lookup r.scope with
  | some rows => { l with ops := replaceFirst r.scope (rows ++ [r]) l.ops }
  | none => ⟨l.scopes ++ [r.scope], l.ops ++ [(r.scope, [r])]⟩

/-- `ORDER BY scope, rowid`. -/
def orderByScope (rows : List OpRow) : List OpRow :=
  rows.mergeSort fun a b => decide (a.scope ≤ b.scope)

def ladderOf (rows : List OpRow) : StackLadder :=
  let l := (orderByScope rows).foldl addRow ⟨[], []⟩
  { l with scopes := l.scopes.mergeSort fun a b => decide (a ≤ b) }

def buildStackLadder (db : Snapshot) (tenant : Slug) (stack : StageText) : StackLadder :=
  ladderOf (matching db tenant stack)

def StackLadder.atOrAbove (l : StackLadder) (floor : Int) : List OpRow :=
  match l.scopes[searchFloor l.scopes floor]? with
  | some x => (l.ops.lookup x).getD []
  | none => []

theorem rowsAtScope_append (rows rows' : List OpRow) (x : Int) :
    rowsAtScope (rows ++ rows') x = rowsAtScope rows x ++ rowsAtScope rows' x := by
  simp [rowsAtScope]

theorem rowsAtScope_orderByScope (rows : List OpRow) (x : Int) :
    rowsAtScope (orderByScope rows) x = rowsAtScope rows x := by
  have hperm : (orderByScope rows).Perm rows := List.mergeSort_perm _ _
  have hsame : (rowsAtScope rows x).Pairwise fun a b => decide (a.scope ≤ b.scope) = true := by
    refine List.Pairwise.imp_of_mem (R := fun _ _ => True) ?_
      (List.pairwise_of_forall fun _ _ => trivial)
    intro a b ha hb _
    have ha' : a.scope = x := by simpa using (List.mem_filter.mp ha).2
    have hb' : b.scope = x := by simpa using (List.mem_filter.mp hb).2
    simp [ha', hb']
  have hsub : (rowsAtScope rows x).Sublist (orderByScope rows) := by
    refine List.sublist_mergeSort ?_ ?_ hsame List.filter_sublist
    · intro a b c hab hbc
      simp only [decide_eq_true_eq] at hab hbc ⊢
      exact hab.trans hbc
    · intro a b
      simpa using le_total a.scope b.scope
  have hfilter : (rowsAtScope rows x).Sublist (rowsAtScope (orderByScope rows) x) := by
    have h := hsub.filter fun r => r.scope == x
    simp only [rowsAtScope, List.filter_filter, Bool.and_self] at h
    exact h
  exact (hfilter.eq_of_length (hperm.filter _).length_eq.symm).symm

/-- What the ladder holds after the loop has read `rows`. -/
structure Holds (l : StackLadder) (rows : List OpRow) : Prop where
  scopes : ∀ x, x ∈ l.scopes ↔ x ∈ rows.map OpRow.scope
  ops : ∀ x, (l.ops.lookup x).getD [] = rowsAtScope rows x
  seen : ∀ x, (l.ops.lookup x).isSome = true ↔ x ∈ l.scopes

theorem Holds.nil : Holds ⟨[], []⟩ [] :=
  ⟨by simp, fun _ => rfl, by simp⟩

theorem Holds.addRow {l : StackLadder} {rows : List OpRow} (h : Holds l rows) (r : OpRow) :
    Holds (addRow l r) (rows ++ [r]) := by
  have hrow : ∀ x, rowsAtScope (rows ++ [r]) x =
      rowsAtScope rows x ++ if x = r.scope then [r] else [] := by
    intro x
    rw [rowsAtScope_append]
    by_cases hx : x = r.scope
    · simp [rowsAtScope, hx]
    · simp [rowsAtScope, hx, Ne.symm hx]
  rw [Index.addRow]
  cases hlook : l.ops.lookup r.scope with
  | some old =>
    have hmem : r.scope ∈ l.scopes := (h.seen _).mp (by rw [hlook]; rfl)
    have hold : old = rowsAtScope rows r.scope := by rw [← h.ops, hlook]; rfl
    refine ⟨fun x => ?_, fun x => ?_, fun x => ?_⟩
    · rw [List.map_append, List.mem_append, h.scopes]
      constructor
      · exact .inl
      · rintro (hx | hx)
        · exact hx
        · rw [← h.scopes, List.mem_singleton.mp hx]
          exact hmem
    · rw [hrow]
      by_cases hx : x = r.scope
      · subst hx
        rw [lookup_replaceFirst_self (mem_keys_of_lookup hlook), if_pos rfl, hold]
        rfl
      · rw [lookup_replaceFirst_of_ne hx, if_neg hx, List.append_nil, h.ops]
    · by_cases hx : x = r.scope
      · subst hx
        rw [lookup_replaceFirst_self (mem_keys_of_lookup hlook)]
        simpa using hmem
      · rw [lookup_replaceFirst_of_ne hx, h.seen]
  | none =>
    have hnil : rowsAtScope rows r.scope = [] := by rw [← h.ops, hlook]; rfl
    have hnew : ∀ x, (l.ops ++ [(r.scope, [r])]).lookup x =
        if x = r.scope then some [r] else l.ops.lookup x := by
      intro x
      rw [List.lookup_append]
      by_cases hx : x = r.scope
      · simp [hx, hlook]
      · rw [if_neg hx, lookup_cons_of_ne (e := (r.scope, [r])) hx]
        simp
    refine ⟨fun x => ?_, fun x => ?_, fun x => ?_⟩
    · rw [List.mem_append, List.map_append, List.mem_append, h.scopes]
      rfl
    · rw [hnew, hrow]
      by_cases hx : x = r.scope
      · subst hx
        rw [if_pos rfl, if_pos rfl, hnil]
        rfl
      · rw [if_neg hx, if_neg hx, List.append_nil, h.ops]
    · rw [hnew, List.mem_append, ← h.seen]
      by_cases hx : x = r.scope
      · simp [hx]
      · simp [hx]

theorem Holds.foldl {l : StackLadder} {rows : List OpRow} (h : Holds l rows) (rest : List OpRow) :
    Holds (rest.foldl Index.addRow l) (rows ++ rest) := by
  induction rest generalizing l rows with
  | nil => simpa using h
  | cons r rest ih =>
    have hnext := ih (h.addRow r)
    rwa [List.append_assoc] at hnext

theorem min?_congr {xs ys : List Int} (h : ∀ x, x ∈ xs ↔ x ∈ ys) : xs.min? = ys.min? := by
  cases hy : ys.min? with
  | none =>
    rw [List.min?_eq_none_iff] at hy ⊢
    subst hy
    exact List.eq_nil_iff_forall_not_mem.mpr fun x hx => List.not_mem_nil ((h x).mp hx)
  | some m =>
    rw [List.min?_eq_some_iff] at hy ⊢
    exact ⟨(h m).mpr hy.1, fun b hb => hy.2 b ((h b).mp hb)⟩

theorem atOrAbove_ladderOf (rows : List OpRow) (floor : Int) :
    (ladderOf rows).atOrAbove floor = floorOps rows floor := by
  have h : Holds ((orderByScope rows).foldl addRow ⟨[], []⟩) (orderByScope rows) :=
    Holds.nil.foldl (orderByScope rows)
  have hperm : (orderByScope rows).Perm rows := List.mergeSort_perm _ _
  have hsorted : (ladderOf rows).scopes.Pairwise (· ≤ ·) := by
    have htrans : ∀ a b c : Int, decide (a ≤ b) = true → decide (b ≤ c) = true →
        decide (a ≤ c) = true := by
      intro a b c hab hbc
      simp only [decide_eq_true_eq] at hab hbc ⊢
      exact hab.trans hbc
    have htotal : ∀ a b : Int, (decide (a ≤ b) || decide (b ≤ a)) = true := by
      intro a b
      simpa using le_total a b
    exact (List.pairwise_mergeSort htrans htotal
      ((orderByScope rows).foldl addRow ⟨[], []⟩).scopes).imp fun hab => by simpa using hab
  have hmem : ∀ x, x ∈ (ladderOf rows).scopes ↔ x ∈ rows.map OpRow.scope := by
    intro x
    rw [ladderOf, List.mem_mergeSort, h.scopes]
    exact (hperm.map _).mem_iff
  have hmin : ((ladderOf rows).scopes.filter fun x => decide (floor ≤ x)).min? =
      minScope rows floor := by
    apply min?_congr
    intro x
    rw [List.mem_filter, List.mem_filter, hmem]
  rw [StackLadder.atOrAbove, getElem?_searchFloor hsorted, hmin, floorOps]
  cases minScope rows floor with
  | none => rfl
  | some x => exact (h.ops x).trans (rowsAtScope_orderByScope rows x)

end Ladder

section Index

/-- The map key of a ladder, `tenant + "\x00" + stack`. -/
def ladderKey (tenant : Slug) (stack : StageText) : String :=
  String.ofList (tenant ++ '\x00' :: stack)

/-- The ladders built so far for one snapshot handle at one generation. -/
structure OpsIndex where
  snap : Nat
  gen : Nat
  ladders : List (String × StackLadder)

def OpsIndex.ladderFor (idx : OpsIndex) (db : Snapshot) (tenant : Slug) (stack : StageText) :
    StackLadder × OpsIndex :=
  match idx.ladders.lookup (ladderKey tenant stack) with
  | some l => (l, idx)
  | none =>
    let l := buildStackLadder db tenant stack
    (l, { idx with ladders := (ladderKey tenant stack, l) :: idx.ladders })

def OpsIndex.opsForStage (idx : OpsIndex) (db : Snapshot) (peels : Bool) (tenant : Slug)
    (stack : StageText) (floor : Int) : List OpRow × OpsIndex :=
  let (l, idx) := idx.ladderFor db tenant stack
  if !(l.atOrAbove floor).isEmpty then (l.atOrAbove floor, idx)
  else if !peels then ([], idx)
  else
    match _h : peelParent stack with
    | some parent => idx.opsForStage db peels tenant parent floor
    | none => ([], idx)
termination_by stack.length
decreasing_by exact length_peelParent _h

/-- The processor's view of the dbcache: the current handle, its generation, the content behind
every handle made so far and the index it last built. -/
structure Unit where
  snap : Nat
  gen : Nat
  content : Nat → Snapshot
  opsIdx : Option OpsIndex

def Unit.usableIndex (pu : Unit) : OpsIndex :=
  match pu.opsIdx with
  | some idx => if idx.snap = pu.snap ∧ idx.gen = pu.gen then idx else ⟨pu.snap, pu.gen, []⟩
  | none => ⟨pu.snap, pu.gen, []⟩

/-- `none` where the request's handle is not the current one. -/
def Unit.currentOpsIndex (pu : Unit) (pinned : Nat) : Option OpsIndex :=
  if pinned = pu.snap then some pu.usableIndex else none

/-- A request's lookup: its pinned handle and tenant, the stage, and whether its frame peels. -/
structure Lookup where
  pinned : Nat
  tenant : Slug
  stage : StageText
  peels : Bool

/-- What the SQL loop answers; `none` is the parse error. -/
def Unit.sqlAnswer (E : Engine) (pu : Unit) (q : Lookup) : Option (List OpRow) :=
  (stageParse q.stage).map fun (stack, scope) =>
    sqlOps E (pu.content q.pinned) q.peels q.tenant stack scope

/-- `OpsForStage`, with the index it leaves behind. -/
def Unit.opsForStage (E : Engine) (pu : Unit) (q : Lookup) : Option (List OpRow) × Unit :=
  match stageParse q.stage with
  | none => (none, pu)
  | some (stack, scope) =>
    if wildcard stack then (pu.sqlAnswer E q, pu)
    else
      match pu.currentOpsIndex q.pinned with
      | none => (pu.sqlAnswer E q, pu)
      | some idx =>
        let (ops, idx) := idx.opsForStage (pu.content pu.snap) q.peels q.tenant stack scope
        (some ops, { pu with opsIdx := some idx })

/-- What happens to the index: a lookup, a reload that swaps in a new handle, or a rewrite of the
current snapshot in place, which bumps the generation. -/
inductive IndexEvent
  | lookup (q : Lookup)
  | reload (db : Snapshot)
  | rewrite (db : Snapshot)

def Unit.next (E : Engine) (pu : Unit) : IndexEvent → Unit
  | .lookup q => (pu.opsForStage E q).2
  | .reload db =>
    { pu with snap := pu.snap + 1, content := fun h => if h = pu.snap + 1 then
      db else pu.content h }
  | .rewrite db =>
    { pu with gen := pu.gen + 1, content := fun h => if h = pu.snap then db else pu.content h }

theorem ladderKey_inj {t t' : Slug} {s s' : StageText} (ht : '\x00' ∉ t) (ht' : '\x00' ∉ t')
    (h : ladderKey t s = ladderKey t' s') : t = t' ∧ s = s' := by
  rw [ladderKey, ladderKey, String.ofList_inj] at h
  induction t generalizing t' with
  | nil =>
    cases t' with
    | nil => exact ⟨rfl, (List.cons.inj h).2⟩
    | cons c' t' =>
      rw [List.nil_append, List.cons_append, List.cons.injEq] at h
      exact absurd (h.1 ▸ List.mem_cons_self) ht'
  | cons c t ih =>
    cases t' with
    | nil =>
      rw [List.nil_append, List.cons_append, List.cons.injEq] at h
      exact absurd (h.1 ▸ List.mem_cons_self) ht
    | cons c' t' =>
      rw [List.cons_append, List.cons_append, List.cons.injEq] at h
      obtain ⟨rfl, h⟩ := h
      obtain ⟨rfl, rfl⟩ := ih (fun hm => ht (List.mem_cons_of_mem _ hm))
        (fun hm => ht' (List.mem_cons_of_mem _ hm)) h
      exact ⟨rfl, rfl⟩

/-- Every ladder is the one its tenant and stack have in the snapshot. -/
def OpsIndex.Sound (idx : OpsIndex) (db : Snapshot) : Prop :=
  ∀ tenant stack l, '\x00' ∉ tenant → idx.ladders.lookup (ladderKey tenant stack) = some l →
    l = buildStackLadder db tenant stack

/-- The indexes a lookup can leave: sound ones of the same handle and generation. -/
structure OpsIndex.Extends (idx idx' : OpsIndex) (db : Snapshot) : Prop where
  snap : idx'.snap = idx.snap
  gen : idx'.gen = idx.gen
  sound : idx'.Sound db

variable {idx : OpsIndex} {db : Snapshot} {tenant : Slug}

theorem OpsIndex.ladderFor_spec (h : idx.Sound db) (ht : '\x00' ∉ tenant) (stack : StageText) :
    (idx.ladderFor db tenant stack).1 = buildStackLadder db tenant stack ∧
      idx.Extends (idx.ladderFor db tenant stack).2 db := by
  rw [ladderFor]
  split
  · next l hl => exact ⟨h tenant stack l ht hl, rfl, rfl, h⟩
  · refine ⟨rfl, rfl, rfl, fun tenant' stack' l ht' hl => ?_⟩
    simp only at hl
    by_cases hkey : ladderKey tenant' stack' = ladderKey tenant stack
    · obtain ⟨rfl, rfl⟩ := ladderKey_inj ht' ht hkey
      rw [lookup_cons_fst (ladderKey tenant' stack', _), Option.some.injEq] at hl
      exact hl.symm
    · rw [lookup_cons_of_ne (e := (ladderKey tenant stack, _)) hkey] at hl
      exact h tenant' stack' l ht' hl

theorem OpsIndex.opsForStage_spec (h : idx.Sound db) (ht : '\x00' ∉ tenant) (peels : Bool)
    (stack : StageText) (floor : Int) :
    (idx.opsForStage db peels tenant stack floor).1 =
        walk (fun s => floorOps (matching db tenant s) floor) peels stack ∧
      idx.Extends (idx.opsForStage db peels tenant stack floor).2 db := by
  induction hn : stack.length using Nat.strongRecOn generalizing idx stack with
  | _ n ih =>
    obtain ⟨hladder, hext⟩ := ladderFor_spec h ht stack
    rw [opsForStage, walk]
    simp only [hladder, buildStackLadder, atOrAbove_ladderOf]
    split
    · exact ⟨rfl, hext⟩
    · split
      · exact ⟨rfl, hext⟩
      · split
        · next parent hparent =>
          have hlt : parent.length < n := hn ▸ length_peelParent hparent
          obtain ⟨hrows, hext'⟩ := ih _ hlt hext.sound parent rfl
          exact ⟨hrows, hext'.snap.trans hext.snap, hext'.gen.trans hext.gen, hext'.sound⟩
        · exact ⟨rfl, hext⟩

theorem Engine.order_isEmpty (E : Engine) (rows : List OpRow) :
    (E.order rows).isEmpty = rows.isEmpty := by
  rw [Bool.eq_iff_iff, List.isEmpty_iff, List.isEmpty_iff, ← List.length_eq_zero_iff,
    ← List.length_eq_zero_iff, (E.perm rows).length_eq]

theorem Engine.order_nil (E : Engine) : E.order [] = [] :=
  List.perm_nil.mp (E.perm [])

theorem walk_order (E : Engine) (look : StageText → List OpRow) (peels : Bool) (stack : StageText) :
    walk (fun s => E.order (look s)) peels stack = E.order (walk look peels stack) := by
  fun_induction walk look peels stack with
  | case1 stack hrows =>
    rw [walk, E.order_isEmpty, if_pos hrows]
  | case2 stack hrows hpeels =>
    rw [walk, E.order_isEmpty, if_neg hrows, if_pos hpeels, E.order_nil]
  | case3 stack hrows hpeels parent hparent ih =>
    rw [walk, E.order_isEmpty, if_neg hrows, if_neg hpeels]
    split
    · next parent' h =>
      rw [hparent, Option.some.injEq] at h
      exact h ▸ ih
    · next h =>
      rw [hparent] at h
      cases h
  | case4 stack hrows hpeels hnone =>
    rw [walk, E.order_isEmpty, if_neg hrows, if_neg hpeels, E.order_nil]
    split
    · next h =>
      rw [hnone] at h
      cases h
    · rfl

/-- The stored index is of no later handle or generation, and sound where its generation is the
current one: a rewrite in place moves the generation, a reload leaves the older handles alone. -/
def Unit.Fresh (pu : Unit) : Prop :=
  ∀ idx, pu.opsIdx = some idx →
    idx.snap ≤ pu.snap ∧ idx.gen ≤ pu.gen ∧ (idx.gen = pu.gen → idx.Sound (pu.content idx.snap))

theorem OpsIndex.sound_nil (snap gen : Nat) (db : Snapshot) :
    (⟨snap, gen, []⟩ : OpsIndex).Sound db :=
  fun _ _ _ _ h => nomatch h

variable {pu : Unit}

theorem Unit.Fresh.usableIndex (h : pu.Fresh) :
    pu.usableIndex.snap = pu.snap ∧ pu.usableIndex.gen = pu.gen ∧
      pu.usableIndex.Sound (pu.content pu.snap) := by
  rw [Unit.usableIndex]
  split
  · next idx hidx =>
    split
    · next heq =>
      obtain ⟨hsnap, hgen⟩ := heq
      exact ⟨hsnap, hgen, hsnap ▸ (h idx hidx).2.2 hgen⟩
    · exact ⟨rfl, rfl, OpsIndex.sound_nil _ _ _⟩
  · exact ⟨rfl, rfl, OpsIndex.sound_nil _ _ _⟩

def Lookup.indexed (q : Lookup) (pu : Unit) : Bool :=
  match stageParse q.stage with
  | some (stack, _) => !wildcard stack && q.pinned == pu.snap
  | none => false

def Lookup.found (q : Lookup) (pu : Unit) : List OpRow :=
  match stageParse q.stage with
  | some (stack, scope) =>
    walk (fun s => floorOps (matching (pu.content q.pinned) q.tenant s) scope)
      (q.peels && !wildcard stack) stack
  | none => []

theorem Unit.sqlAnswer_eq (E : Engine) (q : Lookup) :
    pu.sqlAnswer E q = (stageParse q.stage).map fun _ => E.order (q.found pu) := by
  rw [Unit.sqlAnswer, Lookup.found]
  cases stageParse q.stage with
  | none => rfl
  | some p => exact congrArg some (walk_order E _ _ p.1)

theorem Unit.opsForStage_spec (E : Engine) (h : pu.Fresh) {q : Lookup} (ht : '\x00' ∉ q.tenant) :
    (pu.opsForStage E q).1 = (if q.indexed pu then some (q.found pu) else pu.sqlAnswer E q) ∧
      (pu.opsForStage E q).2.Fresh := by
  rw [Unit.opsForStage, Lookup.indexed, Lookup.found]
  cases hparse : stageParse q.stage with
  | none =>
    refine ⟨?_, h⟩
    rw [Unit.sqlAnswer, hparse]
    rfl
  | some p =>
    obtain ⟨stack, scope⟩ := p
    simp only
    by_cases hwild : wildcard stack = true
    · rw [if_pos hwild]
      exact ⟨by simp [hwild], h⟩
    · rw [if_neg hwild, Unit.currentOpsIndex]
      rw [Bool.not_eq_true] at hwild
      by_cases hpin : q.pinned = pu.snap
      · obtain ⟨hsnap, hgen, hsound⟩ := h.usableIndex
        obtain ⟨hrows, hext⟩ := OpsIndex.opsForStage_spec hsound ht q.peels stack scope
        rw [if_pos hpin]
        simp only [hwild, hpin, Bool.not_false, Bool.and_true, beq_self_eq_true, if_true, hrows,
          true_and]
        intro idx hidx
        cases hidx
        have hsnap' := hext.snap.trans hsnap
        have hgen' := hext.gen.trans hgen
        refine ⟨hsnap'.le, hgen'.le, fun _ => ?_⟩
        rw [hsnap']
        exact hext.sound
      · rw [if_neg hpin]
        exact ⟨by simp [hpin], h⟩

theorem Unit.Fresh.next (E : Engine) (h : pu.Fresh) {e : IndexEvent}
    (he : ∀ q, e = .lookup q → '\x00' ∉ q.tenant) : (pu.next E e).Fresh := by
  cases e with
  | lookup q => exact (Unit.opsForStage_spec E h (he q rfl)).2
  | reload db =>
    intro idx hidx
    obtain ⟨hsnap, hgen, hsound⟩ := h idx hidx
    refine ⟨Nat.le_succ_of_le hsnap, hgen, fun hg => ?_⟩
    have hne : idx.snap ≠ pu.snap + 1 := by omega
    simpa [Unit.next, hne] using hsound hg
  | rewrite db =>
    intro idx hidx
    obtain ⟨hsnap, hgen, -⟩ := h idx hidx
    refine ⟨hsnap, Nat.le_succ_of_le hgen, fun hg => ?_⟩
    simp only [Unit.next] at hg
    omega

/-- The index and the SQL loop answer a lookup alike. -/
def Agrees (E : Engine) (pu : Unit) (e : IndexEvent) : Prop :=
  ∀ q, e = .lookup q → (pu.opsForStage E q).1 = pu.sqlAnswer E q

/-- Where the index answers, the engine returns the rows of the unordered select in rowid order. -/
def RowidOrder (E : Engine) (pu : Unit) (e : IndexEvent) : Prop :=
  ∀ q, e = .lookup q → q.indexed pu = true → E.order (q.found pu) = q.found pu

theorem agrees_iff (E : Engine) (h : pu.Fresh) {e : IndexEvent}
    (he : ∀ q, e = .lookup q → '\x00' ∉ q.tenant) : Agrees E pu e ↔ RowidOrder E pu e := by
  refine forall₂_congr fun q hq => ?_
  rw [(Unit.opsForStage_spec E h (he q hq)).1]
  split
  · next hindexed =>
    have hsql : pu.sqlAnswer E q = some (E.order (q.found pu)) := by
      rw [Unit.sqlAnswer_eq]
      rw [Lookup.indexed] at hindexed
      cases hparse : stageParse q.stage with
      | none =>
        rw [hparse] at hindexed
        cases hindexed
      | some p => rfl
    rw [hsql, Option.some.injEq]
    exact ⟨fun heq _ => heq.symm, fun heq => (heq hindexed).symm⟩
  · next hindexed => exact iff_of_true rfl fun h => absurd h hindexed

/-- In every run of lookups, reloads and rewrites in which no tenant's slug holds a NUL, each lookup
is answered as by SQL exactly when the engine's order is the rowid order. -/
theorem index_agrees_along (E : Engine) (snap gen : Nat) (content : Nat → Snapshot)
    {es : List IndexEvent} (hes : ∀ q, .lookup q ∈ es → '\x00' ∉ q.tenant) :
    Along (fun pu e => some (pu.next E e)) (fun pu e => Agrees E pu e ↔ RowidOrder E pu e)
      ⟨snap, gen, content, none⟩ es := by
  have hrun : ∀ (es : List IndexEvent) (pu : Unit), pu.Fresh →
      (∀ q, .lookup q ∈ es → '\x00' ∉ q.tenant) →
        Along (fun pu e => some (pu.next E e)) (fun pu e => Agrees E pu e ↔ RowidOrder E pu e)
          pu es := by
    intro es
    induction es with
    | nil => exact fun _ _ _ => trivial
    | cons e es ih =>
      intro pu hfresh hes
      have he : ∀ q, e = .lookup q →
        '\x00' ∉ q.tenant := fun q hq => hes q (hq ▸ List.mem_cons_self)
      refine ⟨agrees_iff E hfresh he, fun pu' hpu' => ?_⟩
      cases hpu'
      exact ih _ (hfresh.next E he) fun q hq => hes q (List.mem_cons_of_mem _ hq)
  refine hrun es _ ?_ hes
  intro idx hidx
  cases hidx

/-- SQLite scanning the table, or its index on the tenant. -/
def scanEngine : Engine where
  order rows := rows
  perm := .refl

/-- An engine that returns the rows the other way round, as a select without an order may. -/
def backwardEngine : Engine where
  order rows := rows.reverse
  perm := List.reverse_perm

/-- A table in which a slug holds the separator of the index's keys. -/
def nulSnapshot : Snapshot where
  ops :=
    [⟨some "t2", "c".toList, 100, "hello", "EXEC \"noop\"", ""⟩,
      ⟨some "t1", "my_book".toList, 100, "one", "EXEC \"noop\"", ""⟩,
      ⟨some "t1", "MY_book".toList, 100, "two", "EXEC \"noop\"", ""⟩]
  tenants := [⟨"t1", "a".toList⟩, ⟨"t2", ['a', '\x00', 'b']⟩]

def nulUnit : Unit :=
  ⟨0, 0, fun _ => nulSnapshot, none⟩

theorem index_agrees_peeled :
    Along (fun pu e => some (pu.next scanEngine e))
      (fun pu e => Agrees scanEngine pu e ↔ RowidOrder scanEngine pu e) nulUnit
      [.lookup ⟨0, "a".toList, "my_book/canary/50".toList, true⟩,
        .lookup ⟨0, "a".toList, "my_book/7".toList, true⟩] := by
  apply index_agrees_along
  intro q hq
  simp only [List.mem_cons, List.not_mem_nil, or_false, IndexEvent.lookup.injEq] at hq
  rcases hq with rfl | rfl <;> decide

theorem nul_slug_meets_foreign_ladder :
    ¬Along (fun pu e => some (pu.next scanEngine e)) (Agrees scanEngine) nulUnit
        [.lookup ⟨0, "a".toList, 'b' :: '\x00' :: "c/100".toList, true⟩,
          .lookup ⟨0, ['a', '\x00', 'b'], "c/100".toList, true⟩] ∧
    ¬Agrees backwardEngine nulUnit (.lookup ⟨0, "a".toList, "my_book/7".toList, true⟩) := by
  constructor
  · intro h
    have heq := (h.2 _ rfl).1 _ rfl
    revert heq
    decide +kernel
  · intro h
    have hfresh : nulUnit.Fresh := fun idx hidx => nomatch hidx
    have heq := (agrees_iff backwardEngine hfresh (fun q hq => by cases hq; decide)).mp h _ rfl
      (by decide)
    revert heq
    decide +kernel

end Index

end ThanksComputer.Ops.Index
