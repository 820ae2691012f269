import ThanksComputer.Net.Address
import ThanksComputer.Lib.Closure

/-! Git objects, the files of a tree, and what the chassis uses of go-git: the reachability walk and
the tree diff. -/

namespace ThanksComputer.Git

open Net Lib.Closure

section Objects

abbrev Oid := BitVec 160

/-- `ZeroOID`, git's "no object". -/
def zeroOID : Oid := 0

inductive FileMode
  | empty
  | dir
  | regular
  | deprecated
  | executable
  | symlink
  | submodule
  deriving DecidableEq

structure TreeEntry where
  name : Str
  mode : FileMode
  hash : Oid
  deriving DecidableEq

inductive Object
  | blob (content : List UInt8)
  | tree (entries : List TreeEntry)
  | commit (root : Oid) (parents : List Oid)
  | tag (target : Oid)
  deriving DecidableEq

/-- What an object needs in its repository.  A submodule's commit is in another one. -/
def Object.links : Object → List Oid
  | .blob _ => []
  | .tree entries => (entries.filter (·.mode != .submodule)).map TreeEntry.hash
  | .commit root parents => root :: parents
  | .tag target => [target]

structure File where
  path : List Str
  hash : Oid
  mode : FileMode
  deriving DecidableEq

inductive InTree (object : Oid → Object) : Oid → File → Prop
  | leaf {t : Oid} {entries : List TreeEntry} {e : TreeEntry} :
      object t = .tree entries → e ∈ entries → e.mode ≠ .dir →
      InTree object t ⟨[e.name], e.hash, e.mode⟩
  | under {t : Oid} {entries : List TreeEntry} {e : TreeEntry} {f : File} :
      object t = .tree entries → e ∈ entries → e.mode = .dir → InTree object e.hash f →
        InTree object t ⟨e.name :: f.path, f.hash, f.mode⟩

def Holds (object : Oid → Object) (tree : Option Oid) (f : File) : Prop :=
  ∃ t ∈ tree, InTree object t f

/-- `object.Change`: an insert has no file before it and a delete none after. -/
structure TreeChange where
  before : Option File
  after : Option File
  deriving DecidableEq

/-- The changes are the files whose hash or mode differ. -/
structure DiffOf (object : Oid → Object) (old : Option Oid) (new : Oid) (ds : List TreeChange) :
    Prop where
  after : ∀ f, (∃ d ∈ ds, d.after = some f) ↔ InTree object new f ∧ ¬ Holds object old f
  before : ∀ f, (∃ d ∈ ds, d.before = some f) ↔ Holds object old f ∧ ¬ InTree object new f
  path : ∀ d ∈ ds, ∀ f ∈ d.before, ∀ g ∈ d.after, f.path = g.path
  insert : ∀ d ∈ ds, d.before = none → ∀ g ∈ d.after, ∀ f, Holds object old f → f.path ≠ g.path
  delete : ∀ d ∈ ds, d.after = none → ∀ f ∈ d.before, ∀ g, InTree object new g → g.path ≠ f.path

end Objects

section External

/-- What an id names, and what the chassis uses of go-git.  `has` are the objects that can be
read. -/
structure GoGit where
  object : Oid → Object
  encodedSize : Oid → Nat
  validName : Str → Bool
  short : Str → Str
  detectContentType : List UInt8 → Str
  revlistObjects : (Oid → Bool) → Oid → List Oid → Option (List Oid)
  diffTree : (Oid → Bool) → Option Oid → Oid → Option (List TreeChange)
  revlistObjects_complete : ∀ {has tip tips objs}, revlistObjects has tip tips = some objs →
    ∀ o, Reach (fun a => (object a).links) tip o →
      (∀ t ∈ tips, ¬ Reach (fun a => (object a).links) t o) →
      o ∈ objs ∧ has o = true
  diffTree_exact : ∀ {has old new ds}, diffTree has old new = some ds → DiffOf object old new ds

variable (G : GoGit)

/-- The objects that `tip` needs. -/
def GoGit.Reaches (tip o : Oid) : Prop :=
  Reach (fun a => (G.object a).links) tip o

def GoGit.size (o : Oid) : Nat :=
  match G.object o with
  | .blob content => content.length
  | _ => G.encodedSize o

/-- `object.GetCommit` and `Commit.Tree`, for a commit and a tree that can be read. -/
def GoGit.commitTree (has : Oid → Bool) (o : Oid) : Option Oid :=
  match has o, G.object o with
  | true, .commit t _ => match has t, G.object t with
    | true, .tree _ => some t
    | _, _ => none
  | _, _ => none

theorem GoGit.commitTree_eq {G : GoGit} {has : Oid → Bool} {o t : Oid}
    (h : G.commitTree has o = some t) :
    ∃ parents, G.object o = .commit t parents := by
  rw [GoGit.commitTree] at h
  split at h
  · next tree parents _ hcommit =>
    split at h
    · cases h
      exact ⟨parents, hcommit⟩
    · cases h
  · cases h

/-- `IsText`: UTF-8 without a NUL. -/
def isText (content : List UInt8) : Bool :=
  content.toByteArray.validateUTF8 && !content.contains 0

theorem isText_iff {content : List UInt8} :
    isText content = true ↔ content.toByteArray.IsValidUTF8 ∧ 0 ∉ content := by
  rw [isText, Bool.and_eq_true, ByteArray.validateUTF8_eq_true_iff, Bool.not_eq_true',
    ← Bool.not_eq_true,
    List.contains_iff_mem]

def GoGit.sniffType (content : List UInt8) : Str :=
  G.detectContentType (content.take 512)

end External

section Flat

variable {object : Oid → Object}

def flatFiles (object : Oid → Object) : Option Oid → Option (List File)
  | none => some []
  | some t => match object t with
    | .tree entries =>
      if entries.any (·.mode == .dir) then none
        else some (entries.map fun e => ⟨[e.name], e.hash, e.mode⟩)
    | _ => none

theorem holds_iff_of_flatFiles {t : Option Oid} {files : List File}
    (h : flatFiles object t = some files) (f : File) : Holds object t f ↔ f ∈ files := by
  cases t with
  | none =>
    cases h
    constructor
    · rintro ⟨t, hmem, -⟩
      cases hmem
    · exact fun hmem => absurd hmem List.not_mem_nil
  | some t =>
    rw [flatFiles] at h
    split at h
    swap
    · cases h
    next entries htree =>
    split at h
    · cases h
    next hflat =>
    cases h
    have hleaf : ∀ e ∈ entries, e.mode ≠ .dir := fun e he heq =>
      hflat (List.any_eq_true.mpr ⟨e, he, beq_iff_eq.mpr heq⟩)
    constructor
    · rintro ⟨t', hmem, hin⟩
      cases hmem
      cases hin with
      | leaf htree' he _ =>
        cases htree.symm.trans htree'
        exact List.mem_map_of_mem he
      | under htree' he hdir _ =>
        cases htree.symm.trans htree'
        exact absurd hdir (hleaf _ he)
    · intro hmem
      obtain ⟨e, he, rfl⟩ := List.mem_map.mp hmem
      exact ⟨t, rfl, .leaf htree he (hleaf e he)⟩

def diffFiles (old new : List File) : List TreeChange :=
  (new.filter (· ∉ old)).map (fun g => ⟨old.find? (·.path == g.path), some g⟩) ++
    (old.filter fun f => !new.any (·.path == f.path)).map fun f => ⟨some f, none⟩

variable {old : Option Oid} {new : Oid} {oldFiles newFiles : List File}

theorem diffOf_diffFiles (hold : ∀ f, Holds object old f ↔ f ∈ oldFiles)
    (hnew : ∀ f, InTree object new f ↔ f ∈ newFiles) (hkold : (oldFiles.map File.path).Nodup)
    (hknew : (newFiles.map File.path).Nodup) :
      DiffOf object old new (diffFiles oldFiles newFiles) := by
  have heqold : ∀ {f g}, f ∈ oldFiles → g ∈ oldFiles → f.path = g.path → f = g := fun hf hg heq =>
    List.inj_on_of_nodup_map hkold hf hg heq
  have heqnew : ∀ {f g}, f ∈ newFiles → g ∈ newFiles → f.path = g.path → f = g := fun hf hg heq =>
    List.inj_on_of_nodup_map hknew hf hg heq
  have hcases : ∀ d ∈ diffFiles oldFiles newFiles,
      (∃ g ∈ newFiles, g ∉ oldFiles ∧ d = ⟨oldFiles.find? (·.path == g.path), some g⟩) ∨
        ∃ f ∈ oldFiles, (∀ g ∈ newFiles, g.path ≠ f.path) ∧ d = ⟨some f, none⟩ := by
    intro d hd
    rcases List.mem_append.mp hd with hd | hd
    · obtain ⟨g, hg, rfl⟩ := List.mem_map.mp hd
      obtain ⟨hg, hnot⟩ := List.mem_filter.mp hg
      exact .inl ⟨g, hg, of_decide_eq_true hnot, rfl⟩
    · obtain ⟨f, hf, rfl⟩ := List.mem_map.mp hd
      obtain ⟨hf, hnone⟩ := List.mem_filter.mp hf
      rw [Bool.not_eq_true', List.any_eq_false] at hnone
      exact .inr ⟨f, hf, fun g hg heq => hnone g hg (beq_iff_eq.mpr heq), rfl⟩
  have hfind : ∀ {g f : File}, oldFiles.find? (·.path == g.path) = some f →
      f ∈ oldFiles ∧ f.path = g.path := by
    intro g f h
    have hpath := List.find?_some h
    exact ⟨List.mem_of_find?_eq_some h, beq_iff_eq.mp hpath⟩
  have hwritten : ∀ {g : File}, g ∈ newFiles → g ∉ oldFiles →
      ⟨oldFiles.find? (·.path == g.path), some g⟩ ∈ diffFiles oldFiles newFiles := fun hg hnot =>
    List.mem_append_left _ (List.mem_map_of_mem (List.mem_filter.mpr ⟨hg, decide_eq_true hnot⟩))
  refine ⟨fun g => ?_, fun f => ?_, fun d hd => ?_, fun d hd => ?_, fun d hd => ?_⟩
  · rw [hold, hnew]
    constructor
    · rintro ⟨d, hd, hafter⟩
      rcases hcases d hd with ⟨g', hg', hnot, rfl⟩ | ⟨f, _, _, rfl⟩
      · cases hafter
        exact ⟨hg', hnot⟩
      · cases hafter
    · exact fun ⟨hg, hnot⟩ => ⟨_, hwritten hg hnot, rfl⟩
  · rw [hold, hnew]
    constructor
    · rintro ⟨d, hd, hbefore⟩
      rcases hcases d hd with ⟨g, hg, hnot, rfl⟩ | ⟨f', hf', hnone, rfl⟩
      · obtain ⟨hf, hpath⟩ := hfind hbefore
        exact ⟨hf, fun hfnew => hnot (heqnew hfnew hg hpath ▸ hf)⟩
      · cases hbefore
        exact ⟨hf', fun hfnew => hnone f hfnew rfl⟩
    · rintro ⟨hf, hnot⟩
      by_cases hsome : ∃ g ∈ newFiles, g.path = f.path
      · obtain ⟨g, hg, hpath⟩ := hsome
        have hgold : g ∉ oldFiles := fun hgold => hnot (heqold hgold hf hpath ▸ hg)
        refine ⟨_, hwritten hg hgold, ?_⟩
        have hisSome : (oldFiles.find? (·.path == g.path)).isSome = true :=
          List.find?_isSome.mpr ⟨f, hf, beq_iff_eq.mpr hpath.symm⟩
        obtain ⟨f', hf'⟩ := Option.isSome_iff_exists.mp hisSome
        rw [heqold (hfind hf').1 hf ((hfind hf').2.trans hpath)] at hf'
        exact hf'
      · refine ⟨⟨some f, none⟩, List.mem_append_right _ (List.mem_map_of_mem ?_), rfl⟩
        refine List.mem_filter.mpr ⟨hf, ?_⟩
        rw [Bool.not_eq_true', List.any_eq_false]
        exact fun g hg heq => hsome ⟨g, hg, beq_iff_eq.mp heq⟩
  · intro f hf g hg
    rcases hcases d hd with ⟨g', _, _, rfl⟩ | ⟨f', _, _, rfl⟩
    · cases hg
      exact (hfind hf).2
    · cases hg
  · intro hnone g hg f hf hpath
    rcases hcases d hd with ⟨g', _, _, rfl⟩ | ⟨f', _, _, rfl⟩
    · cases hg
      exact List.find?_eq_none.mp hnone f ((hold f).mp hf) (beq_iff_eq.mpr hpath)
    · cases hg
  · intro hnone f hf g hg
    rcases hcases d hd with ⟨g', _, _, rfl⟩ | ⟨f', _, hdelete, rfl⟩
    · cases hnone
    · cases hf
      exact hdelete g ((hnew g).mp hg)

def flatDiff (object : Oid → Object) (has : Oid → Bool) (old : Option Oid) (new : Oid) :
    Option (List TreeChange) := do
  let oldFiles ← flatFiles object old
  let newFiles ← flatFiles object (some new)
  if (oldFiles.map File.path).Nodup ∧ (newFiles.map File.path).Nodup ∧ has new ∧ old.all has then
    some (diffFiles oldFiles newFiles)
  else none

/-- Git on trees without directories, for histories of a few commits. -/
def flatGit (object : Oid → Object) : GoGit where
  object := object
  encodedSize _ := 200
  validName name := name != []
  short name := name.drop "refs/heads/".length
  detectContentType _ := "text/plain; charset=utf-8".toList
  revlistObjects := walk (fun a => (object a).links) 8
  diffTree := flatDiff object
  revlistObjects_complete h _ ho hroots := walk_complete h ho hroots
  diffTree_exact h := by
    obtain ⟨oldFiles, hold, h⟩ := Option.bind_eq_some_iff.mp h
    obtain ⟨newFiles, hnew, h⟩ := Option.bind_eq_some_iff.mp h
    split at h
    · next hok =>
      cases h
      refine diffOf_diffFiles (holds_iff_of_flatFiles hold) (fun f => ?_) hok.1 hok.2.1
      rw [← holds_iff_of_flatFiles hnew]
      exact ⟨fun hin => ⟨_, rfl, hin⟩, fun ⟨_, hmem, hin⟩ => by cases hmem; exact hin⟩
    · cases h

/-- Two commits without a parent: one with the file a, one with the file b. -/
def sampleObject (o : Oid) : Object :=
  match o.toNat with
  | 1 => .blob [104, 105]
  | 2 => .tree [⟨"a".toList, .regular, 1⟩]
  | 3 => .commit 2 []
  | 4 => .blob [121, 111]
  | 5 => .tree [⟨"b".toList, .regular, 4⟩]
  | 6 => .commit 5 []
  | _ => .blob []

def sampleGit : GoGit :=
  flatGit sampleObject

end Flat

end ThanksComputer.Git
