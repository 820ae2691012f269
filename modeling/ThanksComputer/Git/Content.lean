import ThanksComputer.Git.Reports

/-! What the lane hears of a push, and what is in the trees of the tips.  Only the difference to the
old id that the client states is looked at; the refs move from that id, so tips stay clean. -/

namespace ThanksComputer.Git

open Net Lib Lib.Moves Lib.Runs
open Lib.Checks (mapM_ok)

section Inspections

variable {G : GoGit} {L : Limits} {policy : ContentPolicy} {has : Oid → Bool}

/-- The changes are exactly the difference between two trees. -/
structure ListsDiff (object : Oid → Object) (old : Option Oid) (new : Oid) (changes : List Change) :
    Prop where
  written : ∀ f, (∃ ch ∈ changes, ch.op ≠ .delete ∧ ch.file = f) ↔ InTree object new f ∧
    ¬ Holds object old f
  deleted : ∀ f, (∃ ch ∈ changes, ch.op = .delete ∧ ch.file = f) ↔
    Holds object old f ∧ ∀ g, InTree object new g → g.path ≠ f.path
  added : ∀ ch ∈ changes, ch.op = .add → ∀ f, Holds object old f → f.path ≠ ch.file.path
  modified : ∀ ch ∈ changes, ch.op = .modify → ∃ f, Holds object old f ∧ f.path = ch.file.path

def CleanFile (G : GoGit) (f : File) : Prop :=
  f.mode ≠ .symlink ∧ f.mode ≠ .executable ∧ f.mode ≠ .submodule ∧
    ∃ content, G.object f.hash = .blob content ∧ content.toByteArray.IsValidUTF8 ∧ 0 ∉ content

theorem checkFile_ok {op : Op} {f : File} {ch : Change}
    (h : checkFile G L policy has op f = .ok ch) :
    ch.file = f ∧ ch.op = op ∧ (L.textOnly = true → policy ≠ .stack → CleanFile G f) := by
  rw [checkFile] at h
  split at h
  · cases h
  next hsymlink =>
  split at h
  · cases h
  next hexecutable =>
  split at h
  · cases h
  next hsubmodule =>
  split at h
  · cases h
  split at h
  · cases h
  next text type hfacts =>
  split at h
  · cases h
  next htext =>
  cases h
  refine ⟨rfl, rfl, fun honly hpolicy => ⟨fun hmode => hsymlink ⟨honly, hmode⟩,
    fun hmode => hexecutable ⟨honly, hmode⟩, fun hmode => hsubmodule ⟨honly, hmode⟩, ?_⟩⟩
  rw [blobFacts] at hfacts
  split at hfacts
  swap
  · cases hfacts
  next content _ hblob =>
  cases hfacts
  refine ⟨content, hblob, isText_iff.mp ?_⟩
  by_contra hnot
  rw [Bool.not_eq_true] at hnot
  exact htext ⟨honly, by rw [hnot]; rfl, hpolicy⟩

theorem changeOf_ok {d : TreeChange} {ch : Change} (h : changeOf G L policy has d = .ok ch) :
    (d.before = some ch.file ∧ d.after = none ∧ ch.op = .delete) ∨
      (d.after = some ch.file ∧
      (d.before = none ∧ ch.op = .add ∨ d.before ≠ none ∧ ch.op = .modify) ∧
        (L.textOnly = true → policy ≠ .stack → CleanFile G ch.file)) := by
  obtain ⟨before, after⟩ := d
  cases before with
  | none =>
    cases after with
    | none => cases h
    | some f =>
      obtain ⟨rfl, hop, hclean⟩ := checkFile_ok h
      exact .inr ⟨rfl, .inl ⟨rfl, hop⟩, hclean⟩
  | some g =>
    cases after with
    | none =>
      cases h
      exact .inl ⟨rfl, rfl, rfl⟩
    | some f =>
      obtain ⟨rfl, hop, hclean⟩ := checkFile_ok h
      exact .inr ⟨rfl, .inr ⟨nofun, hop⟩, hclean⟩

theorem listsDiff_of_diffOf {old : Option Oid} {new : Oid} {ds : List TreeChange}
    {changes : List Change} (hdiff : DiffOf G.object old new ds)
    (hmap : ds.mapM (changeOf G L policy has) = .ok changes) :
    ListsDiff G.object old new changes := by
  obtain ⟨hfrom, hto⟩ := mapM_ok hmap
  refine ⟨fun f => ?_, fun f => ?_, fun ch hch hop f hf => ?_, fun ch hch hop => ?_⟩
  · rw [← hdiff.after]
    constructor
    · rintro ⟨ch, hch, hop, rfl⟩
      obtain ⟨d, hd, heq⟩ := hfrom ch hch
      rcases changeOf_ok heq with ⟨-, -, hdelete⟩ | ⟨hafter, -⟩
      · exact absurd hdelete hop
      · exact ⟨d, hd, hafter⟩
    · rintro ⟨d, hd, hafter⟩
      obtain ⟨ch, hch, heq⟩ := hto d hd
      rcases changeOf_ok heq with ⟨-, hnone, -⟩ | ⟨hafter', hop, -⟩
      · cases hnone.symm.trans hafter
      · refine ⟨ch, hch, ?_, Option.some.inj (hafter'.symm.trans hafter)⟩
        rcases hop with ⟨-, hop⟩ | ⟨-, hop⟩ <;> rw [hop] <;> exact nofun
  · constructor
    · rintro ⟨ch, hch, hop, rfl⟩
      obtain ⟨d, hd, heq⟩ := hfrom ch hch
      rcases changeOf_ok heq with ⟨hbefore, hafter, -⟩ | ⟨-, hop', -⟩
      · exact ⟨((hdiff.before _).mp ⟨d, hd, hbefore⟩).1, hdiff.delete d hd hafter _ hbefore⟩
      · rcases hop' with ⟨-, hop'⟩ | ⟨-, hop'⟩ <;> cases hop.symm.trans hop'
    · rintro ⟨hold, hnone⟩
      have hnew : ¬ InTree G.object new f := fun hin => hnone f hin rfl
      obtain ⟨d, hd, hbefore⟩ := (hdiff.before f).mpr ⟨hold, hnew⟩
      obtain ⟨ch, hch, heq⟩ := hto d hd
      rcases changeOf_ok heq with ⟨hbefore', -, hop⟩ | ⟨hafter, -⟩
      · exact ⟨ch, hch, hop, Option.some.inj (hbefore'.symm.trans hbefore)⟩
      · have hin := ((hdiff.after _).mp ⟨d, hd, hafter⟩).1
        exact absurd (hdiff.path d hd f hbefore _ hafter).symm (hnone _ hin)
  · obtain ⟨d, hd, heq⟩ := hfrom ch hch
    rcases changeOf_ok heq with ⟨-, -, hdelete⟩ | ⟨hafter, ⟨hnone, -⟩ | ⟨-, hmodify⟩, -⟩
    · cases hop.symm.trans hdelete
    · exact hdiff.insert d hd hnone _ hafter f hf
    · cases hop.symm.trans hmodify
  · obtain ⟨d, hd, heq⟩ := hfrom ch hch
    rcases changeOf_ok heq with ⟨-, -, hdelete⟩ | ⟨hafter, ⟨-, hadd⟩ | ⟨hsome, -⟩, -⟩
    · cases hop.symm.trans hdelete
    · cases hop.symm.trans hadd
    · obtain ⟨f, hf⟩ := Option.ne_none_iff_exists'.mp hsome
      exact ⟨f, ((hdiff.before f).mp ⟨d, hd, hf⟩).1, hdiff.path d hd f hf _ hafter⟩

def GoGit.treeOf (G : GoGit) (o : Oid) : Option Oid :=
  if o = zeroOID then none
  else match G.object o with
    | .commit t _ => some t
    | _ => none

theorem treeOf_of_commitTree {o t : Oid} (hne : o ≠ zeroOID) (h : G.commitTree has o = some t) :
    G.treeOf o = some t := by
  obtain ⟨parents, hcommit⟩ := GoGit.commitTree_eq h
  rw [GoGit.treeOf, if_neg hne, hcommit]

structure Inspects (G : GoGit) (L : Limits) (policy : ContentPolicy) (cmd : Command)
    (found : Inspected) :
    Prop where
  against : ∀ t ∈ found.against, G.treeOf cmd.old = some t
  zero : cmd.old = zeroOID → found.against = none
  lists : ∃ new, (cmd.new ≠ zeroOID → G.treeOf cmd.new = some new) ∧
    ListsDiff G.object found.against new found.changes
  clean : L.textOnly = true → policy ≠ .stack → ∀ ch ∈ found.changes, ch.op ≠ .delete →
    CleanFile G ch.file

theorem inspects_of_inspect {cmd : Command} {found : Inspected}
    (h : inspect G L policy has cmd = .ok found) : Inspects G L policy cmd found := by
  cases h ▸ inspection (L := L) policy has cmd with
  | clean new ds changes hnew hds hmap =>
    refine ⟨fun t ht => ?_, fun hzero => if_pos hzero, ⟨new, fun hne => ?_, ?_⟩, ?_⟩
    · have ht' : oldTree G has cmd = some t := ht
      rw [oldTree] at ht'
      split at ht'
      · cases ht'
      · next hne => exact treeOf_of_commitTree hne ht'
    · rw [newTree] at hnew
      split at hnew
      · split at hnew
        · next htree =>
          cases hnew
          exact treeOf_of_commitTree hne htree
        · cases hnew
      · cases hnew
    · exact listsDiff_of_diffOf (G.diffTree_exact hds) hmap
    · intro honly hpolicy ch hch hop
      obtain ⟨d, -, heq⟩ := (mapM_ok hmap).1 ch hch
      rcases changeOf_ok heq with ⟨-, -, hdelete⟩ | ⟨-, -, hclean⟩
      · exact absurd hdelete hop
      · exact hclean honly hpolicy

end Inspections

section Recorded

variable {G : GoGit} {L : Limits} {db : Db} {p p' : Push} {input : Input} {e : Effect}

def settersOf (name : Str) (cmds : List Command) : List Command :=
  cmds.filter fun cmd => cmd.name = name ∧ cmd.new ≠ zeroOID

/-- Each command of the list that sets a ref was inspected, and what is recorded for a ref is from
the last one that sets it. -/
structure Covers (G : GoGit) (L : Limits) (p : Push) (cmds : List Command) : Prop where
  all : ∀ cmd ∈ cmds, cmd.new ≠ zeroOID → ∃ found, Inspects G L p.repo.policyContent cmd found
  last : ∀ name cmd, (settersOf name cmds).getLast? = some cmd →
    ∃ found, p.changes.lookup name = some found ∧ Inspects G L p.repo.policyContent cmd found

theorem Covers.congr {cmds : List Command} (h : Covers G L p cmds) (hrepo : p'.repo = p.repo)
    (hchanges : p'.changes = p.changes) : Covers G L p' cmds where
  all := by
    rw [hrepo]
    exact h.all
  last := by
    rw [hrepo, hchanges]
    exact h.last

theorem covers_nil : Covers G L p [] where
  all _ hcmd := absurd hcmd List.not_mem_nil
  last _ _ hlast := by cases hlast

theorem Covers.skip {cmds : List Command} (h : Covers G L p cmds) {cmd : Command}
    (hzero : cmd.new = zeroOID) :
    Covers G L p (cmds ++ [cmd]) where
  all c hc hne := by
    rcases List.mem_append.mp hc with hc | hc
    · exact h.all c hc hne
    · rw [List.mem_singleton.mp hc] at hne
      exact absurd hzero hne
  last name c hlast := by
    have hnone : settersOf name [cmd] = [] := List.filter_cons_of_neg (by simp [hzero])
    rw [settersOf, List.filter_append, ← settersOf, ← settersOf, hnone, List.append_nil] at hlast
    exact h.last name c hlast

theorem Covers.record {cmds : List Command} (h : Covers G L p cmds) {cmd : Command}
    {found : Inspected} {phase : Phase} (hne : cmd.new ≠ zeroOID)
    (hfound : Inspects G L p.repo.policyContent cmd found) :
    Covers G L { p with
      changes := Assoc.upsert cmd.name (fun _ => found) p.changes, phase := phase }
        (cmds ++ [cmd]) where
  all c hc hnec := by
    rcases List.mem_append.mp hc with hc | hc
    · exact h.all c hc hnec
    · rw [List.mem_singleton.mp hc]
      exact ⟨found, hfound⟩
  last name c hlast := by
    rw [settersOf, List.filter_append, ← settersOf, ← settersOf] at hlast
    by_cases hname : name = cmd.name
    · subst hname
      have hself : settersOf cmd.name [cmd] = [cmd] := List.filter_cons_of_pos (by simp [hne])
      rw [hself, List.getLast?_concat] at hlast
      cases hlast
      exact ⟨found, Assoc.lookup_upsert_self _ _ _, hfound⟩
    · have hnone : settersOf name [cmd] = [] := by
        refine List.filter_cons_of_neg fun hset => hname ?_
        exact (of_decide_eq_true hset).1.symm
      rw [hnone, List.append_nil] at hlast
      obtain ⟨found', hlookup, hinspects⟩ := h.last name c hlast
      exact ⟨found', (Assoc.lookup_upsert_of_ne hname _ _).trans hlookup, hinspects⟩

def RecordedOk (G : GoGit) (L : Limits) (p : Push) : Prop :=
  match p.phase with
  | .opened | .checked | .done _ => True
  | .walking todo => p.unpack ≠ okText ∨ p.refused ≠ [] ∨
      ∃ past, p.commands = past ++ todo ∧ Covers G L p past
  | .inspecting cmd todo => p.unpack ≠ okText ∨ p.refused ≠ [] ∨
      ∃ past, p.commands = past ++ cmd :: todo ∧ cmd.new ≠ zeroOID ∧ Covers G L p past
  | .walked | .kept | .asked => AllRefused p ∨ Covers G L p p.commands

theorem refused_ne_nil {name : Str} (h : p.isRefused name = true) : p.refused ≠ [] := by
  intro hnil
  rw [isRefused_of_nil hnil] at h
  cases h

theorem recordedOk_walk {has : Oid → Bool} {todo : List Command} (hphase : p.phase = .walking todo)
    (h : RecordedOk G L p) : RecordedOk G L (p.walk G has todo) := by
  rw [RecordedOk, hphase] at h
  cases todo with
  | nil =>
    rw [Push.walk]
    dsimp only
    split
    · have hall := allRefused_refuseRest { p with phase := .walked } .unpackFailed
      obtain ⟨refused, heq⟩ := refuseRest_eq { p with phase := .walked } .unpackFailed
      rw [heq] at hall ⊢
      exact .inl hall
    next hok =>
    split
    · have hall := allRefused_refuseRest { p with phase := .walked } .atomic
      obtain ⟨refused, heq⟩ := refuseRest_eq { p with phase := .walked } .atomic
      rw [heq] at hall ⊢
      exact .inl hall
    · next hnone =>
      obtain ⟨past, hpast, hcovers⟩ := (h.resolve_left hok).resolve_left hnone
      rw [List.append_nil] at hpast
      subst hpast
      exact .inr (hcovers.congr rfl rfl)
  | cons cmd todo =>
    rw [Push.walk]
    split
    · next hskip =>
      refine h.imp_right fun h => ?_
      rcases hskip with hrefused | hzero
      · exact .inl (refused_ne_nil hrefused)
      · refine h.imp_right fun h => ?_
        obtain ⟨past, hpast, hcovers⟩ := h
        refine ⟨past ++ [cmd], ?_, ?_⟩
        · rw [List.append_assoc]
          exact hpast
        · exact (hcovers.skip hzero).congr rfl rfl
    next hskip =>
    split
    · have hself : (p.refuse cmd.name .missingObjects).isRefused cmd.name = true :=
        isRefused_refuse.mpr (.inr rfl)
      exact .inr (.inl (refused_ne_nil hself))
    · refine h.imp_right fun h => h.imp_right fun h => ?_
      obtain ⟨past, hpast, hcovers⟩ := h
      refine ⟨past, hpast, ?_, ?_⟩
      · exact fun hzero => hskip (.inr hzero)
      · exact hcovers.congr rfl rfl

theorem recordedOk_look {has : Oid → Bool} {cmd : Command} {todo : List Command}
    (hphase : p.phase = .inspecting cmd todo) (h : RecordedOk G L p) :
    RecordedOk G L (p.look G L has cmd todo) := by
  rw [RecordedOk, hphase] at h
  rw [Push.look]
  split
  · next why _ =>
    have hself : (p.refuse cmd.name why).isRefused cmd.name = true :=
      isRefused_refuse.mpr (.inr rfl)
    exact .inr (.inl (refused_ne_nil hself))
  · next found hfound =>
    refine h.imp_right fun h => h.imp_right fun h => ?_
    obtain ⟨past, hpast, hne, hcovers⟩ := h
    refine ⟨past ++ [cmd], ?_, ?_⟩
    · rw [List.append_assoc]
      exact hpast
    · exact hcovers.record hne (inspects_of_inspect hfound)

theorem Stepped.recordedOk (h : Stepped G L db p input e) (hp : RecordedOk G L p) :
    RecordedOk G L e.push := by
  cases h with
  | refs => trivial
  | receive pack hphase =>
    obtain ⟨text, staged, heq⟩ := receive_eq G L p pack
    dsimp only
    rw [heq]
    by_cases htext : text = okText
    · exact .inr (.inr ⟨[], by rw [if_pos htext]; rfl, covers_nil⟩)
    · exact .inl htext
  | walk lost todo hphase => exact recordedOk_walk hphase hp
  | inspect lost cmd todo hphase => exact recordedOk_look hphase hp
  | keep fault hphase =>
    rw [RecordedOk, hphase] at hp
    dsimp only
    rw [Push.keep]
    split
    · split
      · exact hp.imp_right fun hcovers => hcovers.congr rfl rfl
      · exact .inl (allRefused_refuseRest _ .unpackFailed)
    · exact hp.imp_right fun hcovers => hcovers.congr rfl rfl
  | ask a hphase =>
    rw [RecordedOk, hphase] at hp
    dsimp only
    rw [Push.hear]
    split
    · exact .inl (allRefused_refuseRest _ _)
    · exact hp.imp_right fun hcovers => hcovers.congr rfl rfl
  | update fault =>
    rw [Push.update]
    split
    · trivial
    split
    · trivial
    split <;> trivial

end Recorded

section Moves

variable {G : GoGit} {L : Limits} {db db' : Db} {w w' : World} {p : Push}

/-- What the lane heard of each ref that the push leaves at a commit is the difference between the
tree the ref had and the one it has. -/
def MovesTold (G : GoGit) (w w' : World) : Event → Prop
  | .step i (.update _) => ∀ p ∈ w.pushes[i]?, ∀ p' ∈ w'.pushes[i]?, p'.phase = .done true →
    ∀ told ∈ p.envelope, w'.db.current p.repo.id told.ref ≠ zeroOID →
      ∃ new ∈ G.treeOf (w'.db.current p.repo.id told.ref),
        ListsDiff G.object (G.treeOf (w.db.current p.repo.id told.ref)) new told.changes
  | _ => True

/-- The tips of the repositories that take text only. -/
def TipsClean (G : GoGit) (db : Db) : Prop :=
  ∀ repo ∈ db.repos, repo.policyContent = .text → ∀ ref ∈ db.refs, ref.repo = repo.id →
    ∃ t ∈ G.treeOf ref.oid, ∀ f, InTree G.object t f → CleanFile G f

/-- A push that comes to move a ref from an id it was opened with has seen the tree of that id. -/
def OldsRead (w : World) : Event → Prop
  | .step i (.update _) => ∀ p ∈ w.pushes[i]?, ∀ cmd ∈ p.commands, cmd.new ≠ zeroOID →
    cmd.old ≠ zeroOID →
    w.db.current p.repo.id cmd.name = cmd.old →
      ∀ found ∈ p.changes.lookup cmd.name, found.against ≠ none
  | _ => True

theorem Plays.current_last {repo : Nat} {actor : Actor} {updates : List RefUpdate}
    (h : Plays db db' repo actor updates) {name : Str} (hnamed : ∃ u ∈ updates, u.name = name)
    (hne : db'.current repo name ≠ zeroOID) :
    ∃ u ∈ updates, u.name = name ∧ (settersOf name updates).getLast? = some u ∧
      db'.current repo name = u.new := by
  have hled := leads_of_play h.play name
  have hfilter : (updates.map RefUpdate.move).filter (·.key = name) =
      (updates.filter (·.name = name)).map RefUpdate.move := by
    rw [List.filter_map]
    rfl
  rw [hfilter] at hled
  obtain ⟨u₀, hu₀, hname₀⟩ := hnamed
  rcases (updates.filter (·.name = name)).eq_nil_or_concat' with hnil | ⟨init, u, hconcat⟩
  · have hmem : u₀ ∈ updates.filter (·.name = name) :=
      List.mem_filter.mpr ⟨hu₀, decide_eq_true hname₀⟩
    rw [hnil] at hmem
    exact absurd hmem List.not_mem_nil
  rw [hconcat, List.map_append, List.map_singleton] at hled
  have hnew : db'.current repo name = u.new := hled.eq_new
  have hu : u ∈ updates.filter (·.name = name) := hconcat ▸ List.mem_concat_self
  obtain ⟨hmem, hname⟩ := List.mem_filter.mp hu
  refine ⟨u, hmem, of_decide_eq_true hname, ?_, hnew⟩
  -- the setters of the ref are the updates of it that set something, and the last one does
  have hsetters : settersOf name updates = (updates.filter (·.name = name)).filter
    (·.new ≠ zeroOID) := by
    rw [settersOf, List.filter_filter]
    refine List.filter_congr fun c _ => ?_
    rw [Bool.decide_and, Bool.and_comm]
  have hset : u.new ≠ zeroOID := hnew ▸ hne
  have hself : [u].filter (·.new ≠ zeroOID) = [u] := List.filter_cons_of_pos (by simpa using hset)
  rw [hsetters, hconcat, List.filter_append, hself, List.getLast?_concat]

theorem told_of_plays {actor : Actor} (hplays : Plays db db' p.repo.id actor p.commands)
    (hold : ∀ cmd ∈ p.commands, db.current p.repo.id cmd.name = cmd.old)
    (hcovers : Covers G L p p.commands)
    (hread : ∀ cmd ∈ p.commands, cmd.new ≠ zeroOID → cmd.old ≠ zeroOID →
      ∀ found ∈ p.changes.lookup cmd.name, found.against ≠ none)
    {told : EnvCommand} (htold : told ∈ p.envelope)
    (hne : db'.current p.repo.id told.ref ≠ zeroOID) :
    ∃ new ∈ G.treeOf (db'.current p.repo.id told.ref),
      ListsDiff G.object (G.treeOf (db.current p.repo.id told.ref)) new told.changes := by
  obtain ⟨cmd₀, hcmd₀, rfl⟩ := List.mem_map.mp htold
  dsimp only at hne ⊢
  obtain ⟨cmd, hcmd, hname, hlast, hnew⟩ := hplays.current_last ⟨cmd₀, hcmd₀, rfl⟩ hne
  obtain ⟨found, hlookup, hinspects⟩ := hcovers.last _ cmd hlast
  have hset : cmd.new ≠ zeroOID := hnew ▸ hne
  obtain ⟨new, htree, hlists⟩ := hinspects.lists
  have hbefore : db.current p.repo.id cmd₀.name = cmd.old := hname ▸ hold cmd hcmd
  -- the list was made against the tree that the ref names
  have hagainst : found.against = G.treeOf cmd.old := by
    by_cases hzero : cmd.old = zeroOID
    · rw [hinspects.zero hzero, GoGit.treeOf, if_pos hzero]
    · have hsome := hread cmd hcmd hset hzero found (hname.symm ▸ hlookup)
      obtain ⟨t, ht⟩ := Option.ne_none_iff_exists'.mp hsome
      rw [ht, hinspects.against t ht]
  refine ⟨new, ?_, ?_⟩
  · rw [hnew]
    exact htree hset
  · rw [hbefore, ← hagainst, Push.changesOf, hlookup]
    exact hlists

theorem Inspects.tree_clean {policy : ContentPolicy} {cmd : Command} {found : Inspected}
    (h : Inspects G L policy cmd found) (honly : L.textOnly = true) (hpolicy : policy ≠ .stack)
    (hne : cmd.new ≠ zeroOID)
    (hold : ∀ t ∈ G.treeOf cmd.old, ∀ f, InTree G.object t f → CleanFile G f) :
    ∃ t ∈ G.treeOf cmd.new, ∀ f, InTree G.object t f → CleanFile G f := by
  obtain ⟨new, htree, hlists⟩ := h.lists
  refine ⟨new, htree hne, fun f hin => ?_⟩
  by_cases hheld : Holds G.object found.against f
  · obtain ⟨t, ht, hint⟩ := hheld
    exact hold t (h.against t ht) f hint
  · obtain ⟨ch, hch, hop, rfl⟩ := (hlists.written f).mpr ⟨hin, hheld⟩
    exact h.clean honly hpolicy ch hch hop

end Moves

section Runs

variable {G : GoGit} {L : Limits} {w w' : World}

/-- A push has its repository's row, and what it recorded is from its commands. -/
structure ContentOk (G : GoGit) (L : Limits) (w : World) : Prop where
  world : WorldOk G w
  unique : (w.db.repos.map Repo.id).Nodup
  rows : ∀ p ∈ w.pushes, ∀ repo ∈ w.db.repos, repo.id = p.repo.id → repo = p.repo
  recorded : ∀ p ∈ w.pushes, RecordedOk G L p
  clean : L.textOnly = true → TipsClean G w.db

theorem ContentOk.create (h : ContentOk G L w) (r : NewRepo)
    (hnext : w.next G L (.create r) = some w') : ContentOk G L w' := by
  have hworld := h.world.next hnext
  cases hnext
  rcases createRepo_cases w.db r with heq | heq
  · rw [heq] at hworld ⊢
    exact ⟨hworld, h.unique, h.rows, h.recorded, h.clean⟩
  rw [heq] at hworld ⊢
  have hfresh : ∀ repo ∈ w.db.repos, repo.id ≠ w.db.minted := fun repo hrepo heq =>
    Nat.lt_irrefl _ (heq ▸ h.world.db.ids repo hrepo)
  refine ⟨hworld, Table.nodup_insert h.unique hfresh, ?_, h.recorded, fun honly => ?_⟩
  · intro p hp repo hrepo hid
    rcases List.mem_append.mp hrepo with hrepo | hrepo
    · exact h.rows p hp repo hrepo hid
    · have hminted := (h.world.pushes p hp).minted
      rw [List.mem_singleton.mp hrepo] at hid
      exact absurd (hid ▸ hminted) (Nat.lt_irrefl _)
  · intro repo hrepo hpolicy ref href hat
    rcases List.mem_append.mp hrepo with hrepo | hrepo
    · exact h.clean honly repo hrepo hpolicy ref href hat
    · rw [List.mem_singleton.mp hrepo] at hat
      exact absurd (h.world.db.rows ref href) (hat ▸ Nat.lt_irrefl _)

theorem ContentOk.remove (h : ContentOk G L w) {id : Nat}
    (hnext : w.next G L (.remove id) = some w') :
    ContentOk G L w' := by
  have hworld := h.world.next hnext
  obtain ⟨db, hdb, rfl⟩ := Option.map_eq_some_iff.mp hnext
  rw [Db.removeRepo] at hdb
  split at hdb
  swap
  · cases hdb
  cases hdb
  refine ⟨hworld, h.unique.sublist (List.filter_sublist.map _), ?_, h.recorded, fun honly => ?_⟩
  · exact fun p hp repo hrepo hid => h.rows p hp repo (List.mem_filter.mp hrepo).1 hid
  · exact fun repo hrepo hpolicy ref href hat =>
      h.clean honly repo (List.mem_filter.mp hrepo).1 hpolicy ref
      (List.mem_filter.mp href).1 hat

theorem ContentOk.openPush (h : ContentOk G L w) {tenant name : Str} {principal credential : String}
    {commands : List Command} {reportStatus : Bool}
    (hnext : w.next G L (.openPush tenant name principal credential commands reportStatus) =
      some w') :
    ContentOk G L w' := by
  have hworld := h.world.next hnext
  obtain ⟨row, hrow, rfl⟩ := Option.map_eq_some_iff.mp hnext
  refine ⟨hworld, h.unique, fun p hp repo hrepo hid => ?_, fun p hp => ?_, h.clean⟩
  · rcases List.mem_append.mp hp with hp | hp
    · exact h.rows p hp repo hrepo hid
    · rw [List.mem_singleton.mp hp] at hid ⊢
      exact Table.eq_of_key h.unique hrepo (mem_of_getRepo hrow) hid
  · rcases List.mem_append.mp hp with hp | hp
    · exact h.recorded p hp
    · rw [List.mem_singleton.mp hp]
      trivial

theorem ContentOk.covers (h : ContentOk G L w) {p : Push} (hp : p ∈ w.pushes)
    (hphase : p.phase = .asked) (hpending : p.pending ≠ 0) : Covers G L p p.commands := by
  have hrecorded := h.recorded p hp
  rw [RecordedOk, hphase] at hrecorded
  exact hrecorded.resolve_left fun hall => hpending (pending_eq_zero_iff.mpr hall)

theorem ContentOk.clean_moved (h : ContentOk G L w) {p : Push} (hp : p ∈ w.pushes) {db : Db}
    (hcovers : Covers G L p p.commands)
    (hold : ∀ cmd ∈ p.commands, w.db.current p.repo.id cmd.name = cmd.old)
    (hplays : Plays w.db db p.repo.id p.actor p.commands) (honly : L.textOnly = true) :
      TipsClean G db := by
  intro repo hrepo hpolicy ref href hat
  rw [hplays.repos] at hrepo
  rcases hplays.row href with ⟨r₀, hr₀, hrepo₀, hoid₀⟩ | ⟨hid, cmd, hcmd, hnew⟩
  · rw [← hoid₀]
    exact h.clean honly repo hrepo hpolicy r₀ hr₀ (hrepo₀.trans hat)
  have hrow : repo = p.repo := h.rows p hp repo hrepo (hat.symm.trans hid)
  have hset : cmd.new ≠ zeroOID := hnew ▸ hplays.ok.nonzero ref href
  obtain ⟨found, hfound⟩ := hcovers.all cmd hcmd hset
  have hstack : p.repo.policyContent ≠ .stack := by
    rw [← hrow, hpolicy]
    exact nofun
  rw [hnew]
  refine hfound.tree_clean honly hstack hset fun t ht f hin => ?_
  -- the old id is where the ref is, and that tip is clean
  have hne : cmd.old ≠ zeroOID := fun hzero => by
    rw [GoGit.treeOf, if_pos hzero] at ht
    cases ht
  rw [← hold cmd hcmd] at hne ht
  obtain ⟨r₀, hr₀, hrepo₀, -, hoid₀⟩ := exists_row hne
  obtain ⟨t', ht', hclean⟩ := h.clean honly repo hrepo hpolicy r₀ hr₀ (hrepo₀.trans (hrow ▸ rfl))
  rw [hoid₀] at ht'
  cases Option.some.inj (ht.symm.trans ht')
  exact hclean f hin

theorem ContentOk.clean_stored (h : ContentOk G L w) {p : Push} (hp : p ∈ w.pushes) {e : Effect}
    (hstored : Stored w.db p e) (honly : L.textOnly = true) : TipsClean G e.db := by
  cases hstored with
  | same hdb =>
    rw [hdb]
    exact h.clean honly
  | kept objs _ hdb =>
    obtain ⟨hrepos, hrefs, -, -⟩ := putObjects_frame w.db objs
    rw [hdb, TipsClean, hrepos, hrefs]
    exact h.clean honly
  | moved hphase hpending hset =>
    obtain ⟨hold, hplays⟩ := compareAndSetRefs_ok h.world.db.refs hset
    exact h.clean_moved hp (h.covers hp hphase hpending) hold hplays honly

theorem Stored.repos {db : Db} {p : Push} {e : Effect} (h : Stored db p e) (hok : RefsOk db) :
    e.db.repos = db.repos := by
  cases h with
  | same hdb => rw [hdb]
  | kept objs _ hdb =>
    rw [hdb]
    exact (putObjects_frame db objs).1
  | moved _ _ hset => exact (compareAndSetRefs_ok hok hset).2.repos

theorem ContentOk.next (h : ContentOk G L w) {event : Event} (hnext : w.next G L event = some w') :
    ContentOk G L w' := by
  cases event with
  | create r => exact h.create r hnext
  | remove id => exact h.remove hnext
  | openPush tenant name principal credential commands reportStatus => exact h.openPush hnext
  | step i input =>
    have hworld := h.world.next hnext
    obtain ⟨p, hi, hnext⟩ := Option.bind_eq_some_iff.mp hnext
    obtain ⟨e, he, hnext⟩ := Option.bind_eq_some_iff.mp hnext
    cases hnext
    have hp := List.mem_of_getElem? hi
    have hstep := stepped_of_step he
    have hrepos := hstep.stored.repos h.world.db.refs
    refine ⟨hworld, ?_, fun q hq => ?_, fun q hq => ?_, h.clean_stored hp hstep.stored⟩
    · rw [hrepos]
      exact h.unique
    · rw [hrepos]
      rcases List.mem_or_eq_of_mem_set hq with hq | rfl
      · exact h.rows q hq
      · rw [hstep.samePush.repo]
        exact h.rows p hp
    · rcases List.mem_or_eq_of_mem_set hq with hq | rfl
      · exact h.recorded q hq
      · exact hstep.recordedOk (h.recorded p hp)

theorem contentOk_start : ContentOk G L .start where
  world := worldOk_start
  unique := List.nodup_nil
  rows _ hp := absurd hp List.not_mem_nil
  recorded _ hp := absurd hp List.not_mem_nil
  clean _ _ hrepo := absurd hrepo List.not_mem_nil

theorem ContentOk.movesTold (h : ContentOk G L w) {event : Event} (hread : OldsRead w event)
    (hnext : w.next G L event = some w') : MovesTold G w w' event := by
  cases event with
  | create r => trivial
  | remove id => trivial
  | openPush tenant name principal credential commands reportStatus => trivial
  | step i input =>
    cases input with
    | refs => trivial
    | receive pack => trivial
    | walk lost => trivial
    | inspect lost => trivial
    | keep fault => trivial
    | ask a => trivial
    | update fault =>
      intro p hi p' hi' hdone told htold hne
      obtain ⟨q, hq, hnext⟩ := Option.bind_eq_some_iff.mp hnext
      cases hq.symm.trans hi
      obtain ⟨e, he, hnext⟩ := Option.bind_eq_some_iff.mp hnext
      cases hnext
      rw [Option.mem_def, List.getElem?_set_self (List.getElem?_eq_some_iff.mp hq).1,
        Option.some.injEq]
        at hi'
      subst hi'
      cases (stepped_of_step he).stored with
      | same _ _ hnot => exact absurd hdone hnot
      | kept _ _ _ _ hnot => exact absurd hdone hnot
      | moved hphase hpending hset =>
        obtain ⟨hold, hplays⟩ := compareAndSetRefs_ok h.world.db.refs hset
        have hcovers := h.covers (List.mem_of_getElem? hq) hphase hpending
        refine told_of_plays hplays hold hcovers (fun cmd hcmd hnew hne => ?_) htold hne
        exact hread p hi cmd hcmd hnew hne (hold cmd hcmd)

/-- What the lane hears of a push is what it changes, as long as the push has seen the tree that
each ref moves from; and on a head for text only, the trees of the tips hold plain text files. -/
theorem contentSound_along (G : GoGit) (L : Limits) {events : List Event}
    (hread : Along (World.next G L) OldsRead .start events) :
    Along (World.next G L) (fun w event => ∀ w' ∈ w.next G L event,
      MovesTold G w w' event ∧ (L.textOnly = true → TipsClean G w'.db)) .start events := by
  refine Along.of_invariant (I := ContentOk G L) ?_ ?_ contentOk_start hread
  · exact fun w event w' hw _ hnext => hw.next hnext
  · exact fun w event hw hevent w' hnext => ⟨hw.movesTold hevent hnext, (hw.next hnext).clean⟩

instance (w : World) (event : Event) : Decidable (OldsRead w event) :=
  match event with
  | .step i (.update _) => inferInstanceAs (Decidable (∀ p ∈ w.pushes[i]?, ∀ cmd ∈ p.commands,
      cmd.new ≠ zeroOID → cmd.old ≠ zeroOID → w.db.current p.repo.id cmd.name = cmd.old →
        ∀ found ∈ p.changes.lookup cmd.name, found.against ≠ none))
  | .create _ | .remove _ | .openPush _ _ _ _ _ _ | .step _ .refs | .step _ (.receive _)
  | .step _ (.walk _) | .step _ (.inspect _) | .step _ (.keep _) | .step _ (.ask _) =>
    .isTrue trivial

def accept (i : Nat) : List Event :=
  [.step i (.ask (.response (.res true []))), .step i (.update false)]

/-- Two pushes, one behind the other. -/
theorem contentSound_sequel :
    Along (World.next sampleGit sampleLimits)
      (fun w event => ∀ w' ∈ w.next sampleGit sampleLimits event,
      MovesTold sampleGit w w' event ∧ (sampleLimits.textOnly = true → TipsClean sampleGit w'.db))
        .start
      (acceptedSteps ++ [pushMain 3 6] ++ deliver 1 [4, 5, 6] ++ accept 1) :=
  contentSound_along sampleGit sampleLimits (by decide)

/-- A push from commit 3 to 6 is inspected while nobody has 3 yet; then another push brings 3. -/
def racedSteps : List Event :=
  [createSite, pushMain 3 6] ++ deliver 0 [4, 5, 6] ++ [pushMain 0 3] ++ deliver 1 [1, 2, 3] ++
    accept 1 ++
    [.step 0 (.ask (.response (.res true [])))]

/-- The lane does not hear that the file a is gone. -/
theorem not_movesTold_raced :
    ¬ Along (World.next sampleGit sampleLimits) (fun w event =>
      ∀ w' ∈ w.next sampleGit sampleLimits event,
        MovesTold sampleGit w w' event ∧ (sampleLimits.textOnly = true → TipsClean sampleGit w'.db))
          .start
      (racedSteps ++ [.step 0 (.update false)]) := by
  intro h
  have hends : (racedSteps ++ [Event.step 0 (.update false)]).foldlM
    (World.next sampleGit sampleLimits)
      .start = some (endOf (racedSteps ++ [.step 0 (.update false)])) := by decide
  have hbefore : racedSteps.foldlM (World.next sampleGit sampleLimits) .start =
    some (endOf racedSteps) := by
    decide
  obtain ⟨w, hw, hnext, hP⟩ := h.last hends
  cases hw.symm.trans hbefore
  have hpush : ∃ p ∈ (endOf racedSteps).pushes[0]?,
      ∃ p' ∈ (endOf (racedSteps ++ [.step 0 (.update false)])).pushes[0]?, p'.phase = .done true ∧
        p.repo.id = 0 ∧ ∃ told ∈ p.envelope, told.ref = mainRef ∧
          ∀ ch ∈ told.changes, ch.op ≠ .delete := by
    decide
  have hold : sampleGit.treeOf ((endOf racedSteps).db.current 0 mainRef) = some 2 := by decide
  have hnew : (endOf (racedSteps ++ [.step 0 (.update false)])).db.current 0 mainRef = 6 := by
    decide
  obtain ⟨p, hp, p', hp', hdone, hid, told, htold, href, hnone⟩ := hpush
  obtain ⟨new, htree, hlists⟩ := (hP _ hnext).1 p hp p' hp' hdone told htold (by
    rw [hid, href, hnew]
    decide)
  rw [hid, href, hnew] at htree
  have hfive : sampleGit.treeOf 6 = some 5 := by decide
  cases Option.some.inj (hfive.symm.trans htree)
  rw [hid, href, hold] at hlists
  have hfilesOld := @holds_iff_of_flatFiles sampleObject (some 2) _ rfl
  have hfilesNew := @holds_iff_of_flatFiles sampleObject (some 5) _ rfl
  obtain ⟨ch, hch, hop, -⟩ := (hlists.deleted ⟨["a".toList], 1, .regular⟩).mpr
    ⟨(hfilesOld _).mpr (by decide), fun g hg => by
      have hmem := (hfilesNew g).mp ⟨5, rfl, hg⟩
      rw [List.mem_singleton.mp hmem]
      decide⟩
  exact hnone ch hch hop

end Runs

end ThanksComputer.Git
