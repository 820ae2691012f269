import Mathlib.Data.List.Nodup
import Mathlib.Data.List.Pairwise
import Mathlib.Data.List.Perm.Basic
import ThanksComputer.Admin.Paths
import ThanksComputer.Lib.Assoc
import ThanksComputer.Lib.Runs

/-! The ops rows that an activation makes of a version's files (`materialiseStackVersion`). -/

namespace ThanksComputer.Admin

open Net Lib.Assoc

section Rows

structure RawFile where
  path : Str
  content : Str
  deriving DecidableEq

structure ScopeData where
  rules : List (Str × Str)
  mockReq : Str
  mockRes : Str
  deriving DecidableEq

def ScopeData.mock (sd : ScopeData) : Mock → Str
  | .req => sd.mockReq
  | .res => sd.mockRes

def ScopeData.setMock (sd : ScopeData) (content : Str) : Mock → ScopeData
  | .req => { sd with mockReq := content }
  | .res => { sd with mockRes := content }

structure OpRow where
  scope : Nat
  name : Str
  txcl : Str
  mockReq : Str
  mockRes : Str
  deriving DecidableEq

/-- The guardrails of an activation: complete dataset pairs, and no rule with an unresolved op, a
bare include or a compute that is not there. -/
structure Guards where
  datasetPairs : List Str → Option String
  hasRefs : Str → Bool
  hasInclude : Str → Bool
  computeFault : Str → Option String

variable (G : Guards)

def Guards.rule (content : Str) : Option String :=
  if G.hasRefs content then some "unresolved_op_ref"
  else if G.hasInclude content then some "unexpanded_include"
  else G.computeFault content

abbrev Scopes := List (Nat × ScopeData)

/-- What a file means to an activation; an asset is no op. -/
def RawFile.parse (f : RawFile) : Option PathFile :=
  if isAsset f.path then none else parseStackPath f.path

def emptyScope : ScopeData := ⟨[], [], []⟩

def group (scopes : Scopes) (f : RawFile) : Scopes :=
  match f.parse with
  | none => scopes
  | some (.mock kind scope) =>
    upsert scope (fun sd => (sd.getD emptyScope).setMock f.content kind) scopes
  | some (.rule scope name) =>
    upsert scope (fun sd =>
      let sd := sd.getD emptyScope
      { sd with rules := upsert name (fun _ => f.content) sd.rules }) scopes

def groupFile (scopes : Scopes) (f : RawFile) : Except String Scopes :=
  match f.parse with
  | some (.rule _ _) =>
    match G.rule f.content with
    | some code => .error code
    | none => .ok (group scopes f)
  | _ => .ok (group scopes f)

def opRows (scopes : Scopes) : List OpRow :=
  scopes.flatMap fun s => s.2.rules.map fun r => ⟨s.1, r.1, r.2, s.2.mockReq, s.2.mockRes⟩

/-- The `INSERT` into `ops`: a text stands once in a scope, and so does a name. -/
def insertOps (rows : List OpRow) : Except String (List OpRow) :=
  if (rows.map fun r => (r.scope, r.txcl)).Nodup ∧
    ((rows.filter (·.name != [])).map fun r => (r.scope, r.name)).Nodup then
    .ok rows
  else .error "insert_ops"

/-- The ops rows of a version whose files are read in this order. -/
def materialise (files : List RawFile) : Except String (List OpRow) :=
  match G.datasetPairs (files.map (·.path)) with
  | some code => .error code
  | none => (files.foldlM (groupFile G) []).bind fun scopes => insertOps (opRows scopes)

end Rows

section Grouping

def Scopes.rule (scopes : Scopes) (scope : Nat) (name : Str) : Option Str :=
  (scopes.lookup scope).bind fun sd => sd.rules.lookup name

def Scopes.mock (scopes : Scopes) (kind : Mock) (scope : Nat) : Str :=
  ((scopes.lookup scope).getD emptyScope).mock kind

structure Scopes.Wf (scopes : Scopes) : Prop where
  once : (keys scopes).Nodup
  names : ∀ e ∈ scopes, (keys e.2.rules).Nodup

theorem ScopeData.mock_setMock_self (sd : ScopeData) (content : Str) (kind : Mock) :
    (sd.setMock content kind).mock kind = content := by
  cases kind <;> rfl

theorem ScopeData.mock_setMock_of_ne {kind kind' : Mock} (h : kind' ≠ kind) (sd : ScopeData)
    (content : Str) :
    (sd.setMock content kind).mock kind' = sd.mock kind' := by
  cases kind <;> cases kind' <;> first | rfl | exact absurd rfl h

@[simp] theorem ScopeData.rules_setMock (sd : ScopeData) (content : Str) (kind : Mock) :
    (sd.setMock content kind).rules = sd.rules := by
  cases kind <;> rfl

theorem Scopes.Wf.rules_getD {scopes : Scopes} (h : scopes.Wf) (scope : Nat) :
    (keys ((scopes.lookup scope).getD emptyScope).rules).Nodup := by
  cases hsd : scopes.lookup scope with
  | none => exact List.nodup_nil
  | some sd => exact h.names (scope, sd) (mem_of_lookup hsd)

theorem Scopes.Wf.group {scopes : Scopes} (h : scopes.Wf) (f : RawFile) : (group scopes f).Wf := by
  unfold Admin.group
  split
  · exact h
  · next kind scope _ =>
    refine ⟨keys_upsert_nodup _ _ h.once, fun e he => ?_⟩
    rcases mem_upsert he with rfl | he
    · simpa using h.rules_getD scope
    · exact h.names e he
  · next scope name _ =>
    refine ⟨keys_upsert_nodup _ _ h.once, fun e he => ?_⟩
    rcases mem_upsert he with rfl | he
    · exact keys_upsert_nodup _ _ (h.rules_getD scope)
    · exact h.names e he

theorem wf_foldl (order : List RawFile) : (order.foldl group []).Wf :=
  Lib.Runs.foldl_invariant (I := Scopes.Wf) (R := fun _ => True) (fun _ f h _ => h.group f)
    (s := []) ⟨List.nodup_nil, List.forall_mem_nil _⟩ fun _ _ => trivial

theorem rule_group_self {f : RawFile} {scope : Nat} {name : Str}
    (hf : f.parse = some (.rule scope name)) (scopes : Scopes) :
      (group scopes f).rule scope name = some f.content := by
  simp [Admin.group, hf, Scopes.rule, lookup_upsert_self]

theorem rule_group_of_ne {f : RawFile} {scope : Nat} {name : Str}
    (hf : f.parse ≠ some (.rule scope name)) (scopes : Scopes) :
      (group scopes f).rule scope name = scopes.rule scope name := by
  unfold Admin.group Scopes.rule
  split
  · rfl
  · next kind scope' _ =>
    by_cases hs : scope = scope'
    · subst hs
      rw [lookup_upsert_self]
      cases scopes.lookup scope <;> simp [emptyScope]
    · rw [lookup_upsert_of_ne hs]
  · next scope' name' hrule =>
    by_cases hs : scope = scope'
    · subst hs
      have hn : name ≠ name' := fun hn => hf (hn ▸ hrule)
      rw [lookup_upsert_self]
      cases scopes.lookup scope <;> simp [emptyScope, lookup_upsert_of_ne hn]
    · rw [lookup_upsert_of_ne hs]

theorem mock_group_self {f : RawFile} {kind : Mock} {scope : Nat}
    (hf : f.parse = some (.mock kind scope)) (scopes : Scopes) :
      (group scopes f).mock kind scope = f.content := by
  simp [Admin.group, hf, Scopes.mock, lookup_upsert_self, ScopeData.mock_setMock_self]

theorem mock_group_of_ne {f : RawFile} {kind : Mock} {scope : Nat}
    (hf : f.parse ≠ some (.mock kind scope)) (scopes : Scopes) :
      (group scopes f).mock kind scope = scopes.mock kind scope := by
  unfold Admin.group Scopes.mock
  split
  · rfl
  · next kind' scope' hmock =>
    by_cases hs : scope = scope'
    · subst hs
      have hk : kind ≠ kind' := fun hk => hf (hk ▸ hmock)
      rw [lookup_upsert_self, Option.getD_some, ScopeData.mock_setMock_of_ne hk]
    · rw [lookup_upsert_of_ne hs]
  · next scope' name' _ =>
    by_cases hs : scope = scope'
    · subst hs
      rw [lookup_upsert_self]
      cases kind <;> rfl
    · rw [lookup_upsert_of_ne hs]

theorem rule_foldl (order : List RawFile) (scope : Nat) (name : Str) :
    (∃ f ∈ order, f.parse = some (.rule scope name) ∧
      (order.foldl group []).rule scope name = some f.content) ∨
      (∀ f ∈ order, f.parse ≠ some (.rule scope name)) ∧ (order.foldl group []).rule scope name =
        none :=
  have hwrite (scopes : Scopes) (f : RawFile) (hf : f.parse = some (.rule scope name)) :=
    rule_group_self hf scopes
  have hkeep (scopes : Scopes) (f : RawFile) (hf : f.parse ≠ some (.rule scope name)) :=
    rule_group_of_ne hf scopes
  Lib.Runs.foldl_read (r := fun scopes => Scopes.rule scopes scope name) hwrite hkeep [] order

theorem mock_foldl (order : List RawFile) (kind : Mock) (scope : Nat) :
    (∃ f ∈ order, f.parse = some (.mock kind scope) ∧
      (order.foldl group []).mock kind scope = f.content) ∨
      (∀ f ∈ order, f.parse ≠ some (.mock kind scope)) ∧ (order.foldl group []).mock kind scope =
        [] := by
  have hempty : Scopes.mock [] kind scope = [] := by cases kind <;> rfl
  have hwrite (scopes : Scopes) (f : RawFile) (hf : f.parse = some (.mock kind scope)) :=
    mock_group_self hf scopes
  have hkeep (scopes : Scopes) (f : RawFile) (hf : f.parse ≠ some (.mock kind scope)) :=
    mock_group_of_ne hf scopes
  have h :=
    Lib.Runs.foldl_read (r := fun scopes => Scopes.mock scopes kind scope) hwrite hkeep [] order
  rwa [hempty] at h

theorem mem_opRows {scopes : Scopes} (h : scopes.Wf) {row : OpRow} :
    row ∈ opRows scopes ↔ scopes.rule row.scope row.name = some row.txcl ∧
      row.mockReq = scopes.mock .req row.scope ∧ row.mockRes = scopes.mock .res row.scope := by
  constructor
  · intro hrow
    obtain ⟨⟨scope, sd⟩, hsd, hrow⟩ := List.mem_flatMap.mp hrow
    obtain ⟨⟨name, text⟩, htext, rfl⟩ := List.mem_map.mp hrow
    have hsc := lookup_of_mem h.once hsd
    have hname := lookup_of_mem (h.names _ hsd) htext
    simp [Scopes.rule, Scopes.mock, hsc, hname, ScopeData.mock]
  · rintro ⟨hrule, hreq, hres⟩
    obtain ⟨sd, hsd, htext⟩ := Option.bind_eq_some_iff.mp hrule
    refine List.mem_flatMap.mpr
      ⟨(row.scope, sd), mem_of_lookup hsd, List.mem_map.mpr ⟨_, mem_of_lookup htext, ?_⟩⟩
    simp only [Scopes.mock, hsd, Option.getD_some, ScopeData.mock] at hreq hres
    rw [← hreq, ← hres]

theorem opRows_nodup {scopes : Scopes} (h : scopes.Wf) :
    ((opRows scopes).map fun r => (r.scope, r.name)).Nodup := by
  rw [opRows, List.map_flatMap, List.nodup_flatMap]
  constructor
  · intro e he
    have hkeys : ((e.2.rules.map fun r => (⟨e.1, r.1, r.2, e.2.mockReq, e.2.mockRes⟩ : OpRow)).map
        fun r => (r.scope, r.name)) = (keys e.2.rules).map (Prod.mk e.1) := by
      simp [keys]
    rw [hkeys]
    exact (h.names e he).map (Prod.mk_right_injective e.1)
  · refine (List.pairwise_map.mp h.once).imp fun hne => ?_
    simp only [Function.onFun, List.disjoint_left, List.mem_map]
    rintro _ ⟨_, ⟨r, _, rfl⟩, rfl⟩ ⟨_, ⟨r', _, rfl⟩, heq⟩
    exact hne (congrArg Prod.fst heq).symm

end Grouping

section Reading

theorem numbered_spec {p ds rest : Str} (h : numbered p = some (ds, rest)) :
    p = ds ++ '/' :: rest ∧ ds ≠ [] ∧ ∀ c ∈ ds, c.isDigit := by
  unfold numbered at h
  split at h
  · next d ds' rest' htake hdrop =>
    cases h
    refine ⟨?_, List.cons_ne_nil _ _, fun c hc => List.mem_takeWhile_imp (htake ▸ hc)⟩
    rw [← htake, ← hdrop, List.takeWhile_append_dropWhile]
  · cases h

theorem isAsset_of_numbered {p : Str} {m : Str × Str} (h : numbered p = some m) :
    isAsset p = false := by
  obtain ⟨rfl, hds, hdigit⟩ := numbered_spec h
  obtain ⟨d, ds, hcons⟩ := List.exists_cons_of_ne_nil hds
  rw [hcons, List.cons_append]
  have hd : d.isDigit := hdigit d (hcons ▸ List.mem_cons_self)
  have hhead : assetDirs.all (fun dir => (dir.head?.map Char.isDigit) == some false) = true := by
    decide
  rw [isAsset, List.any_eq_false]
  intro dir hdir hprefix
  have hdir := List.all_eq_true.mp hhead dir hdir
  cases dir with
  | nil => cases hdir
  | cons c cs =>
    have hc : c = d := (List.cons_prefix_cons.mp (List.isPrefixOf_iff_prefix.mp hprefix)).1
    simp [hc, hd] at hdir

theorem RawFile.parse_of_numbered {f : RawFile} {m : Str × Str} (h : numbered f.path = some m) :
    f.parse = parseStackPath f.path := by
  rw [RawFile.parse, isAsset_of_numbered h]
  rfl

theorem numbered_of_parse {f : RawFile} {x : PathFile} (h : f.parse = some x) :
    ∃ ds rest, numbered f.path = some (ds, rest) ∧ pathRe f.path = some (ds, rest) ∧
      '\n' ∉ rest := by
  unfold RawFile.parse at h
  split at h
  · cases h
  · obtain ⟨m, hm, -⟩ := Option.bind_eq_some_iff.mp h
    have hpath := Option.filter_eq_some_iff.mp hm
    have hline : '\n' ∉ m.2 := by simpa using (Bool.and_eq_true_iff.mp hpath.2).2
    exact ⟨m.1, m.2, hpath.1, hm, hline⟩

theorem pathRe_of_numbered {p : Str} {m : Str × Str} (h : numbered p = some m) (hrest : m.2 ≠ [])
    (hline : '\n' ∉ m.2) : pathRe p = some m := by
  simp [pathRe, h, hrest, hline]

theorem newline_of_numbered {p ds rest : Str} (h : numbered p = some (ds, rest)) :
    '\n' ∈ p ↔ '\n' ∈ rest := by
  obtain ⟨rfl, -, hdigit⟩ := numbered_spec h
  have hds : '\n' ∉ ds := fun hmem => absurd (hdigit _ hmem) (by decide)
  simp [hds]

theorem txcl_suffix_rest {p ds rest : Str} (h : numbered p = some (ds, rest)) :
    txcl <:+ p ↔ txcl <:+ rest := by
  obtain ⟨rfl, -, -⟩ := numbered_spec h
  have hrest : '/' :: rest <:+ ds ++ '/' :: rest := List.suffix_append _ _
  constructor
  · intro hsuffix
    rcases Nat.lt_or_ge rest.length txcl.length with hlt | hge
    · have hslash := List.suffix_of_suffix_length_le hrest hsuffix hlt
      exact absurd (hslash.mem List.mem_cons_self) (by decide)
    · exact List.suffix_of_suffix_length_le hsuffix ((List.suffix_cons _ _).trans hrest) hge
  · intro hsuffix
    exact hsuffix.trans ((List.suffix_cons _ _).trans hrest)

theorem base_not_txcl (kind : Mock) : ¬txcl <:+ kind.base := by
  cases kind <;> decide

end Reading

section Statement

/-- The files of a version: paths that the validation accepts, each once. -/
structure FileSet (N : Names) where
  files : List RawFile
  nodup : (files.map (·.path)).Nodup
  accepted : ∀ f ∈ files, validateStackFilePath N f.path = none

/-- A rule file whose path starts with a number and a slash: that number and the name. -/
def RawFile.asRule (f : RawFile) : Option (Nat × Str) :=
  (numbered f.path).bind fun m => if txcl.isSuffixOf f.path then some (spelled m.1, ruleName m.2)
    else none

/-- A mock file of a scope: the number of that scope. -/
def RawFile.asMock (f : RawFile) (kind : Mock) : Option Nat :=
  (numbered f.path).bind fun m => if m.2 = kind.base then some (spelled m.1) else none

def expected (files : List RawFile) (mock : Mock → Nat → Str) : List OpRow :=
  files.filterMap fun f => f.asRule.map fun r => ⟨r.1, r.2, f.content, mock .req r.1, mock .res r.1⟩

/-- The mocks of a scope are the contents of its mock files, or nothing where it has none. -/
def MocksOf (files : List RawFile) (mock : Mock → Nat → Str) : Prop :=
  ∀ kind, ∀ f ∈ files, ∀ r, f.asRule = some r →
    (∃ g ∈ files, g.asMock kind = some r.1 ∧ mock kind r.1 = g.content) ∨
      (∀ g ∈ files, g.asMock kind ≠ some r.1) ∧ mock kind r.1 = []

/-- In whatever order the files are read, an activation makes one row of each rule file, with its
text, the scope that its number spells and the mocks of that scope. -/
def Materialises (G : Guards) (files : List RawFile) : Prop :=
  ∃ mock, MocksOf files mock ∧
    ∀ order, order.Perm files → ∃ rows, materialise G order = .ok rows ∧
      rows.Perm (expected files mock)

/-- The rule files have numbers in range and stand on one line; no two have one number and one name,
or one number and one text; and the mock files that are read as a rule's scope agree with that
scope's. -/
structure Apart (files : List RawFile) : Prop where
  range : ∀ f ∈ files, ∀ r, f.asRule = some r → r.1 ≤ Ops.maxInt ∧ '\n' ∉ f.path
  names : (files.filterMap RawFile.asRule).Nodup
  texts : (files.filterMap fun f => f.asRule.map fun r => (r.1, f.content)).Nodup
  mocks : ∀ kind, ∀ f ∈ files, ∀ r, f.asRule = some r → ∀ g ∈ files, ∀ n, g.asMock kind = some n →
    min n Ops.maxInt = r.1 →
      (∀ g' ∈ files, ∀ n', g'.asMock kind = some n' → min n' Ops.maxInt = r.1 →
        g'.content = g.content) ∧
      ((∀ g' ∈ files, g'.asMock kind ≠ some r.1) → g.content = [])

/-- No guardrail refuses the version, in whatever order its files are read. -/
def Guards.Pass (G : Guards) (files : List RawFile) : Prop :=
  (∀ order : List RawFile, order.Perm files → G.datasetPairs (order.map (·.path)) = none) ∧
    ∀ f ∈ files, ∀ scope name, f.parse = some (.rule scope name) → G.rule f.content = none

end Statement

section Exact

variable {f g : RawFile} {files order : List RawFile}

theorem RawFile.parse_eq {ds rest : Str} (hnum : numbered f.path = some (ds, rest))
    (hpath : pathRe f.path = some (ds, rest)) :
    f.parse = if rest = mockRequest then some (.mock .req (min (spelled ds) Ops.maxInt))
      else if rest = mockResponse then some (.mock .res (min (spelled ds) Ops.maxInt))
      else if txcl.isSuffixOf rest then some (.rule (min (spelled ds) Ops.maxInt) (ruleName rest))
      else none := by
  rw [RawFile.parse_of_numbered hnum, parseStackPath, hpath]
  rfl

theorem RawFile.asRule_eq {ds rest : Str} (hnum : numbered f.path = some (ds, rest)) :
    f.asRule = if txcl.isSuffixOf f.path then some (spelled ds, ruleName rest) else none := by
  rw [RawFile.asRule, hnum]
  rfl

theorem RawFile.asMock_eq {ds rest : Str} (hnum : numbered f.path = some (ds, rest)) (kind : Mock) :
    f.asMock kind = if rest = kind.base then some (spelled ds) else none := by
  rw [RawFile.asMock, hnum]
  rfl

theorem RawFile.asRule_of_parse {scope : Nat} {name : Str} (h : f.parse = some (.rule scope name)) :
    ∃ n, f.asRule = some (n, name) ∧ min n Ops.maxInt = scope ∧ '\n' ∉ f.path := by
  obtain ⟨ds, rest, hnum, hpath, hline⟩ := numbered_of_parse h
  rw [RawFile.parse_eq hnum hpath] at h
  split_ifs at h with _ _ htxcl
  · cases h
  · cases h
  · cases h
    have hsuffix := (txcl_suffix_rest hnum).mpr (List.isSuffixOf_iff_suffix.mp htxcl)
    refine ⟨spelled ds, ?_, rfl, fun hmem => hline ((newline_of_numbered hnum).mp hmem)⟩
    rw [RawFile.asRule_eq hnum, if_pos (List.isSuffixOf_iff_suffix.mpr hsuffix)]

theorem RawFile.parse_of_asRule {r : Nat × Str} (h : f.asRule = some r) (hline : '\n' ∉ f.path) :
    f.parse = some (.rule (min r.1 Ops.maxInt) r.2) := by
  obtain ⟨⟨ds, rest⟩, hnum, -⟩ := Option.bind_eq_some_iff.mp h
  rw [RawFile.asRule_eq hnum] at h
  split_ifs at h with htxcl
  cases h
  have hsuffix := (txcl_suffix_rest hnum).mp (List.isSuffixOf_iff_suffix.mp htxcl)
  have hmock (kind : Mock) : rest ≠ kind.base := fun heq => base_not_txcl kind (heq ▸ hsuffix)
  have hreq : rest ≠ mockRequest := hmock .req
  have hres : rest ≠ mockResponse := hmock .res
  have hrest : rest ≠ [] := fun heq => absurd (heq ▸ hsuffix) (by decide)
  have hpath := pathRe_of_numbered hnum hrest fun hmem =>
    hline ((newline_of_numbered hnum).mpr hmem)
  rw [RawFile.parse_eq hnum hpath, if_neg hreq, if_neg hres,
    if_pos (List.isSuffixOf_iff_suffix.mpr hsuffix)]

theorem RawFile.asMock_of_parse {kind : Mock} {scope : Nat}
    (h : f.parse = some (.mock kind scope)) :
    ∃ n, f.asMock kind = some n ∧ min n Ops.maxInt = scope := by
  obtain ⟨ds, rest, hnum, hpath, -⟩ := numbered_of_parse h
  rw [RawFile.parse_eq hnum hpath] at h
  split_ifs at h with hreq hres
  · cases h
    exact ⟨spelled ds, (RawFile.asMock_eq hnum .req).trans (if_pos hreq), rfl⟩
  · cases h
    exact ⟨spelled ds, (RawFile.asMock_eq hnum .res).trans (if_pos hres), rfl⟩
  · cases h

theorem RawFile.parse_of_asMock {kind : Mock} {n : Nat} (h : f.asMock kind = some n) :
    f.parse = some (.mock kind (min n Ops.maxInt)) := by
  obtain ⟨⟨ds, rest⟩, hnum, -⟩ := Option.bind_eq_some_iff.mp h
  rw [RawFile.asMock_eq hnum] at h
  split_ifs at h with hbase
  cases h
  have hone : kind.base ≠ [] ∧ '\n' ∉ kind.base := by cases kind <;> decide
  have hpath := pathRe_of_numbered hnum (hbase ▸ hone.1) (hbase ▸ hone.2)
  rw [RawFile.parse_eq hnum hpath, hbase]
  cases kind <;> rfl

variable {G : Guards}

theorem foldlM_groupFile
    (hrules : ∀ f ∈ files, ∀ scope name, f.parse = some (.rule scope name) →
      G.rule f.content = none) (scopes :
        Scopes) : files.foldlM (groupFile G) scopes = .ok (files.foldl group scopes) := by
  induction files generalizing scopes with
  | nil => rfl
  | cons f files ih =>
    rw [List.forall_mem_cons] at hrules
    have hf : groupFile G scopes f = .ok (group scopes f) := by
      unfold groupFile
      split
      · next scope name hparse => rw [hrules.1 scope name hparse]
      · rfl
    rw [List.foldlM_cons, hf]
    exact ih hrules.2 _

theorem rules_of_foldlM {scopes scopes' : Scopes}
    (h : files.foldlM (groupFile G) scopes = .ok scopes') :
    ∀ f ∈ files, ∀ scope name, f.parse = some (.rule scope name) → G.rule f.content = none := by
  induction files generalizing scopes with
  | nil => exact List.forall_mem_nil _
  | cons f files ih =>
    rw [List.foldlM_cons] at h
    cases hf : groupFile G scopes f with
    | error code =>
      rw [hf] at h
      cases h
    | ok next =>
      rw [hf] at h
      refine List.forall_mem_cons.mpr ⟨fun scope name hparse => ?_, ih h⟩
      rw [groupFile, hparse] at hf
      cases hrule : G.rule f.content with
      | none => rfl
      | some code =>
        rw [hrule] at hf
        cases hf

theorem insertOps_eq_ok {rows rows' : List OpRow} : insertOps rows = .ok rows' ↔
    rows' = rows ∧ (rows.map fun r => (r.scope, r.txcl)).Nodup ∧
      ((rows.filter (·.name != [])).map fun r => (r.scope, r.name)).Nodup := by
  unfold insertOps
  split
  · next h => simp [h, eq_comm]
  · next h => simp [h]

theorem Guards.Pass.perm (h : G.Pass files) (horder : order.Perm files) : G.Pass order :=
  ⟨fun order' horder' => h.1 order' (horder'.trans horder), fun f hf =>
    h.2 f (horder.mem_iff.mp hf)⟩

theorem Guards.Pass.materialise (h : G.Pass files) :
    materialise G files = insertOps (opRows (files.foldl group [])) := by
  rw [Admin.materialise, h.1 files (List.Perm.refl _), foldlM_groupFile h.2]
  rfl

theorem Materialises.pass (h : Materialises G files) : G.Pass files := by
  obtain ⟨mock, -, hrows⟩ := h
  refine ⟨fun order horder => ?_, ?_⟩
  · obtain ⟨rows, hok, -⟩ := hrows order horder
    unfold materialise at hok
    split at hok
    · cases hok
    · next hnone => exact hnone
  · obtain ⟨rows, hok, -⟩ := hrows files (List.Perm.refl _)
    unfold materialise at hok
    split at hok
    · cases hok
    · cases hfold : files.foldlM (groupFile G) [] with
      | error code =>
        rw [hfold] at hok
        cases hok
      | ok scopes => exact rules_of_foldlM hfold

theorem expected_keys (files : List RawFile) (mock : Mock → Nat → Str) :
    (expected files mock).map (fun r => (r.scope, r.name)) = files.filterMap RawFile.asRule := by
  rw [expected, List.map_filterMap]
  congr 1
  funext f
  cases f.asRule <;> rfl

theorem expected_texts (files : List RawFile) (mock : Mock → Nat → Str) :
    (expected files mock).map (fun r => (r.scope, r.txcl)) =
      files.filterMap fun f => f.asRule.map fun r => (r.1, f.content) := by
  rw [expected, List.map_filterMap]
  congr 1
  funext f
  cases f.asRule <;> rfl

theorem mem_expected {mock : Mock → Nat → Str} {row : OpRow} : row ∈ expected files mock ↔
    ∃ f ∈ files, ∃ r, f.asRule = some r ∧
      (⟨r.1, r.2, f.content, mock .req r.1, mock .res r.1⟩ : OpRow) = row := by
  simp only [expected, List.mem_filterMap, Option.map_eq_some_iff]

theorem eq_of_asRule (hnames : (files.filterMap RawFile.asRule).Nodup) (hf : f ∈ files)
    (hg : g ∈ files) {r : Nat × Str} (hfr : f.asRule = some r) (hgr : g.asRule = some r) :
      f = g := by
  by_contra hne
  have hpair := List.pairwise_filterMap.mp hnames
  have : Std.Symm fun f g : RawFile => ∀ b, f.asRule = some b → ∀ b', g.asRule = some b' → b ≠ b' :=
    ⟨fun _ _ h b hb b' hb' => (h b' hb' b hb).symm⟩
  exact hpair.forall hf hg hne r hfr r hgr rfl

section Sufficient

variable (hapart : Apart files)

include hapart

theorem Apart.parse_rule (hf : f ∈ files) {r : Nat × Str} (hr : f.asRule = some r) :
    f.parse = some (.rule r.1 r.2) := by
  obtain ⟨hrange, hline⟩ := hapart.range f hf r hr
  rw [RawFile.parse_of_asRule hr hline, Nat.min_eq_left hrange]

theorem Apart.asRule_rule (hf : f ∈ files) {scope : Nat} {name : Str}
    (h : f.parse = some (.rule scope name)) :
    f.asRule = some (scope, name) := by
  obtain ⟨n, hr, hn, -⟩ := RawFile.asRule_of_parse h
  have hscope : n = scope := (Nat.min_eq_left (hapart.range f hf _ hr).1).symm.trans hn
  rw [hr, hscope]

theorem Apart.mock_perm (horder : order.Perm files) (hf : f ∈ files) {r : Nat × Str}
    (hr : f.asRule = some r) (kind : Mock) :
      (order.foldl group []).mock kind r.1 = (files.foldl group []).mock kind r.1 := by
  rcases mock_foldl order kind r.1 with ⟨g, hg, hparse, hval⟩ | ⟨hnone, hval⟩ <;>
    rcases mock_foldl files kind r.1 with ⟨g', hg', hparse', hval'⟩ | ⟨hnone', hval'⟩
  · obtain ⟨n, hn, hscope⟩ := RawFile.asMock_of_parse hparse
    obtain ⟨n', hn', hscope'⟩ := RawFile.asMock_of_parse hparse'
    rw [hval, hval']
    exact (hapart.mocks kind f hf r hr g' hg' n' hn' hscope').1 g (horder.mem_iff.mp hg) n hn hscope
  · exact absurd hparse (hnone' g (horder.mem_iff.mp hg))
  · exact absurd hparse' (hnone g' (horder.mem_iff.mpr hg'))
  · rw [hval, hval']

theorem Apart.mocksOf : MocksOf files (files.foldl group []).mock := by
  intro kind f hf r hr
  have hrange := (hapart.range f hf r hr).1
  rcases mock_foldl files kind r.1 with ⟨g, hg, hparse, hval⟩ | ⟨hnone, hval⟩
  · obtain ⟨n, hn, hscope⟩ := RawFile.asMock_of_parse hparse
    obtain ⟨hsame, hempty⟩ := hapart.mocks kind f hf r hr g hg n hn hscope
    rw [hval]
    by_cases hex : ∃ g' ∈ files, g'.asMock kind = some r.1
    · obtain ⟨g', hg', hn'⟩ := hex
      exact .inl ⟨g', hg', hn', (hsame g' hg' r.1 hn' (Nat.min_eq_left hrange)).symm⟩
    · have hnone : ∀ g' ∈ files, g'.asMock kind ≠ some r.1 := fun g' hg' hn' => hex ⟨g', hg', hn'⟩
      exact .inr ⟨hnone, hempty hnone⟩
  · refine .inr ⟨fun g hg hn => hnone g hg ?_, hval⟩
    rw [RawFile.parse_of_asMock hn, Nat.min_eq_left hrange]

theorem Apart.mem_opRows (horder : order.Perm files) (row : OpRow) :
    row ∈ opRows (order.foldl group []) ↔ row ∈ expected files (files.foldl group []).mock := by
  rw [Admin.mem_opRows (wf_foldl order), mem_expected]
  constructor
  · rintro ⟨hrule, hreq, hres⟩
    rcases rule_foldl order row.scope row.name with ⟨f, hf, hparse, htext⟩ | ⟨-, hnone⟩
    · have hf := horder.mem_iff.mp hf
      have hr := hapart.asRule_rule hf hparse
      rw [htext, Option.some.injEq] at hrule
      refine ⟨f, hf, _, hr, ?_⟩
      rw [← hapart.mock_perm horder hf hr, ← hapart.mock_perm horder hf hr, ← hreq, ← hres, hrule]
    · rw [hnone] at hrule
      cases hrule
  · rintro ⟨f, hf, r, hr, rfl⟩
    refine ⟨?_, (hapart.mock_perm horder hf hr .req).symm,
      (hapart.mock_perm horder hf hr .res).symm⟩
    rcases rule_foldl order r.1 r.2 with ⟨g, hg, hparse, htext⟩ | ⟨hnone, -⟩
    · have hg := horder.mem_iff.mp hg
      rw [htext, eq_of_asRule hapart.names hf hg hr (hapart.asRule_rule hg hparse)]
    · exact absurd (hapart.parse_rule hf hr) (hnone f (horder.mem_iff.mpr hf))

theorem Apart.opRows_perm (horder : order.Perm files) :
    (opRows (order.foldl group [])).Perm (expected files (files.foldl group []).mock) := by
  have hrows : (opRows (order.foldl group [])).Nodup := (opRows_nodup (wf_foldl order)).of_map _
  have hexpected : (expected files (files.foldl group []).mock).Nodup := by
    refine List.Nodup.of_map (fun r => (r.scope, r.name)) ?_
    rw [expected_keys]
    exact hapart.names
  exact (List.perm_ext_iff_of_nodup hrows hexpected).mpr (hapart.mem_opRows horder)

theorem Apart.materialises (hpass : G.Pass files) : Materialises G files := by
  refine ⟨_, hapart.mocksOf, fun order horder => ⟨_, ?_, hapart.opRows_perm horder⟩⟩
  rw [(hpass.perm horder).materialise, insertOps_eq_ok]
  refine ⟨rfl, ?_, (opRows_nodup (wf_foldl order)).sublist (List.filter_sublist.map _)⟩
  rw [((hapart.opRows_perm horder).map _).nodup_iff, expected_texts]
  exact hapart.texts

end Sufficient

section Necessary

variable {mock : Mock → Nat → Str} {rows : List OpRow}

theorem parse_of_mem_rows (hrow : ∀ row ∈ expected files mock, row ∈ opRows (order.foldl group []))
    (hf : f ∈ files) {r : Nat × Str} (hr : f.asRule = some r) :
    (∃ g ∈ order, g.parse = some (.rule r.1 r.2)) ∧
    ∀ kind, mock kind r.1 = (order.foldl group []).mock kind r.1 := by
  obtain ⟨hrule, hreq, hres⟩ :=
    (mem_opRows (wf_foldl order)).mp (hrow _ (mem_expected.mpr ⟨f, hf, r, hr, rfl⟩))
  refine ⟨?_, fun kind => ?_⟩
  · rcases rule_foldl order r.1 r.2 with ⟨g, hg, hparse, -⟩ | ⟨-, hnone⟩
    · exact ⟨g, hg, hparse⟩
    · rw [hnone] at hrule
      cases hrule
  · cases kind with
    | req => exact hreq
    | res => exact hres

theorem Materialises.apart (h : Materialises G files) : Apart files := by
  have hpass := h.pass
  obtain ⟨mock, hmocks, hrows⟩ := h
  have hperm (order : List RawFile) (horder : order.Perm files) :
      (opRows (order.foldl group [])).Perm (expected files mock) ∧
        ((opRows (order.foldl group [])).map fun r => (r.scope, r.txcl)).Nodup := by
    obtain ⟨rows, hok, hperm⟩ := hrows order horder
    rw [(hpass.perm horder).materialise, insertOps_eq_ok] at hok
    obtain ⟨rfl, htexts, -⟩ := hok
    exact ⟨hperm, htexts⟩
  have hself := hperm files (List.Perm.refl _)
  have hread (order : List RawFile) (horder : order.Perm files) {f : RawFile} (hf : f ∈ files)
    {r : Nat × Str}
      (hr : f.asRule = some r) :=
    parse_of_mem_rows (fun row hrow => (hperm order horder).1.mem_iff.mpr hrow) hf hr
  have hnames : (files.filterMap RawFile.asRule).Nodup := by
    rw [← expected_keys files mock, ← (hself.1.map _).nodup_iff]
    exact opRows_nodup (wf_foldl files)
  have hrange {f : RawFile} (hf : f ∈ files) {r : Nat × Str} (hr : f.asRule = some r) : r.1 ≤
    Ops.maxInt := by
    obtain ⟨⟨g, -, hparse⟩, -⟩ := hread files (List.Perm.refl _) hf hr
    obtain ⟨n, -, hn, -⟩ := RawFile.asRule_of_parse hparse
    exact hn ▸ Nat.min_le_right _ _
  refine ⟨fun f hf r hr => ⟨hrange hf hr, ?_⟩, hnames, ?_, ?_⟩
  · obtain ⟨⟨g, hg, hparse⟩, -⟩ := hread files (List.Perm.refl _) hf hr
    obtain ⟨n, hn, hscope, hline⟩ := RawFile.asRule_of_parse hparse
    have heq : n = r.1 := (Nat.min_eq_left (hrange hg hn)).symm.trans hscope
    rw [heq] at hn
    have hfg : f = g := eq_of_asRule hnames hf hg hr hn
    exact hfg ▸ hline
  · rw [← expected_texts files mock, ← (hself.1.map _).nodup_iff]
    exact hself.2
  · -- a mock file that is read last is the one that its scope keeps
    intro kind f hf r hr
    have hlast {g : RawFile} (hg : g ∈ files) {n : Nat} (hn : g.asMock kind = some n)
        (hscope : min n Ops.maxInt = r.1) : mock kind r.1 = g.content := by
      have horder : (files.erase g ++ [g]).Perm files :=
        List.perm_append_comm.trans (List.perm_cons_erase hg).symm
      have hparse : g.parse = some (.mock kind r.1) := hscope ▸ RawFile.parse_of_asMock hn
      rw [(hread _ horder hf hr).2 kind, List.foldl_append, List.foldl_cons, List.foldl_nil,
        mock_group_self hparse]
    intro g hg n hn hscope
    refine ⟨fun g' hg' n' hn' hscope' => ?_, fun hnone => ?_⟩
    · rw [← hlast hg' hn' hscope', hlast hg hn hscope]
    · rcases hmocks kind f hf r hr with ⟨g', hg', hn', -⟩ | ⟨-, hempty⟩
      · exact absurd hn' (hnone g' hg')
      · rw [← hlast hg hn hscope, hempty]

end Necessary

/-- The rows are those of the rule files exactly where the guardrails let the version through and
its files are apart. -/
theorem materialises_iff {N : Names} (G : Guards) (S : FileSet N) :
    Materialises G S.files ↔ G.Pass S.files ∧ Apart S.files := by
  constructor
  · intro h
    exact ⟨h.pass, h.apart⟩
  · rintro ⟨hpass, hapart⟩
    exact hapart.materialises hpass

def noGuards : Guards := ⟨fun _ => none, fun _ => false, fun _ => false, fun _ => none⟩

def asciiNames : Names := ⟨Char.toUpper, fun s => String.ofList s, fun _ => none⟩

def padded : FileSet asciiNames where
  files := [⟨"01/a.txcl".toList, "one".toList⟩, ⟨"1/a.txcl".toList, "two".toList⟩]
  nodup := by decide
  accepted := by decide

/-- The two files of `padded` are one row. -/
theorem not_materialises_padded :
    ¬∀ (N : Names) (G : Guards) (S : FileSet N), G.Pass S.files → Materialises G S.files := by
  intro h
  obtain ⟨mock, -, hrows⟩ := h asciiNames noGuards padded ⟨fun _ _ => rfl, fun _ _ _ _ _ => rfl⟩
  obtain ⟨rows, hok, hperm⟩ := hrows padded.files (List.Perm.refl _)
  have hone : materialise noGuards padded.files = .ok [⟨1, ['a'], "two".toList, [], []⟩] := by
    decide
  rw [hone] at hok
  cases hok
  have hlength : (expected padded.files mock).length = 2 := by rfl
  exact absurd (hperm.length_eq.trans hlength) (by decide)

end Exact

end ThanksComputer.Admin
