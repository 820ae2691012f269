import ThanksComputer.Git.Push
import ThanksComputer.Lib.Runs

/-! What pushes keep, in any order of their steps: the log of a ref is a chain, a repository has all
that its refs reach, and a report says ok where the refs moved. -/

namespace ThanksComputer.Git

open Net Guard Lib Lib.Moves Lib.Runs Lib.Closure

section Steps

variable (G : GoGit) (L : Limits) (db : Db) (p : Push)

inductive Stepped : Input → Effect → Prop
  | refs : p.phase = .opened → Stepped .refs ⟨db, p.readRefs G db, []⟩
  | receive (pack : Pack) : p.phase = .checked →
    Stepped (.receive pack) ⟨db, p.receive G L pack, []⟩
  | walk (lost : List Oid) (todo : List Command) : p.phase = .walking todo →
      Stepped (.walk lost) ⟨db, p.walk G (p.has db lost) todo, []⟩
  | inspect (lost : List Oid) (cmd : Command) (todo : List Command) : p.phase =
    .inspecting cmd todo →
      Stepped (.inspect lost) ⟨db, p.look G L (p.has db lost) cmd todo, []⟩
  | keep (fault : Option CommitFault) : p.phase = .walked →
      Stepped (.keep fault) ⟨(p.keep G L db fault).1, (p.keep G L db fault).2, []⟩
  | ask (a : LaneAnswer) : p.phase = .kept → Stepped (.ask a) ⟨db, p.hear a, []⟩
  | update (fault : Bool) : p.phase = .asked → Stepped (.update fault) (p.update db fault)

variable {G L db p} {input : Input} {e : Effect}

theorem stepped_of_step (h : p.step G L db input = some e) : Stepped G L db p input e := by
  cases input with
  | refs =>
    rw [Push.step] at h
    split at h
    · next hphase =>
      cases h
      exact .refs hphase
    · cases h
  | receive pack =>
    rw [Push.step] at h
    split at h
    · next hphase =>
      cases h
      exact .receive pack hphase
    · cases h
  | walk lost =>
    rw [Push.step] at h
    split at h
    · next todo hphase =>
      cases h
      exact .walk lost todo hphase
    · cases h
  | inspect lost =>
    rw [Push.step] at h
    split at h
    · next cmd todo hphase =>
      cases h
      exact .inspect lost cmd todo hphase
    · cases h
  | keep fault =>
    rw [Push.step] at h
    split at h
    · next hphase =>
      cases h
      exact .keep fault hphase
    · cases h
  | ask a =>
    rw [Push.step] at h
    split at h
    · next hphase =>
      cases h
      exact .ask a hphase
    · cases h
  | update fault =>
    rw [Push.step] at h
    split at h
    · next hphase =>
      cases h
      exact .update fault hphase
    · cases h

theorem receive_eq (G : GoGit) (L : Limits) (p : Push) (pack : Pack) :
    ∃ text staged, p.receive G L pack = { p with
      unpack := text, staged := staged, phase :=
        .walking (if text = okText then p.commands else []) } :=
  ⟨_, _, rfl⟩

structure SamePush (p p' : Push) : Prop where
  repo : p'.repo = p.repo
  commands : p'.commands = p.commands
  actor : p'.actor = p.actor

theorem samePush_refused {refused : List (Str × Refusal)} {phase : Phase} {p' : Push}
    (h : p' = { p with refused := refused }) : SamePush p { p' with phase := phase } := by
  subst h
  exact ⟨rfl, rfl, rfl⟩

theorem samePush_walk (has : Oid → Bool) (todo : List Command) :
    SamePush p (p.walk G has todo) := by
  cases todo with
  | nil =>
    rw [Push.walk]
    dsimp only
    split
    · obtain ⟨refused, heq⟩ := refuseRest_eq { p with phase := .walked } .unpackFailed
      rw [heq]
      exact ⟨rfl, rfl, rfl⟩
    split
    · obtain ⟨refused, heq⟩ := refuseRest_eq { p with phase := .walked } .atomic
      rw [heq]
      exact ⟨rfl, rfl, rfl⟩
    · exact ⟨rfl, rfl, rfl⟩
  | cons cmd todo =>
    rw [Push.walk]
    split
    · exact ⟨rfl, rfl, rfl⟩
    split
    · obtain ⟨refused, heq⟩ := refuse_eq p cmd.name .missingObjects
      exact samePush_refused heq
    · exact ⟨rfl, rfl, rfl⟩

theorem samePush_look (has : Oid → Bool) (cmd : Command) (todo : List Command) :
    SamePush p (p.look G L has cmd todo) := by
  rw [Push.look]
  split
  · next why _ =>
    obtain ⟨refused, heq⟩ := refuse_eq p cmd.name why
    exact samePush_refused heq
  · exact ⟨rfl, rfl, rfl⟩

theorem samePush_keep (fault : Option CommitFault) : SamePush p (p.keep G L db fault).2 := by
  rw [Push.keep]
  split
  · split
    · exact ⟨rfl, rfl, rfl⟩
    · next text _ =>
      obtain ⟨refused, heq⟩ := refuseRest_eq { p with unpack := text } .unpackFailed
      rw [heq]
      exact ⟨rfl, rfl, rfl⟩
  · exact ⟨rfl, rfl, rfl⟩

theorem samePush_hear (a : LaneAnswer) : SamePush p (p.hear a) := by
  rw [Push.hear]
  split
  · obtain ⟨refused, heq⟩ := refuseRest_eq p (.declined a.answer.msg)
    exact samePush_refused heq
  · exact ⟨rfl, rfl, rfl⟩

theorem samePush_update (fault : Bool) : SamePush p (p.update db fault).push := by
  rw [Push.update]
  split
  · exact ⟨rfl, rfl, rfl⟩
  split
  · obtain ⟨refused, heq⟩ := refuseRest_eq p .atomic
    exact samePush_refused heq
  split
  · exact ⟨rfl, rfl, rfl⟩
  · next e _ =>
    obtain ⟨refused, heq⟩ := refuseMoved_eq p e
    exact samePush_refused heq

theorem Stepped.samePush (h : Stepped G L db p input e) : SamePush p e.push := by
  cases h with
  | refs =>
    obtain ⟨refused, heq⟩ := checkCommands_eq G p
    dsimp only
    rw [Push.readRefs, heq]
    exact ⟨rfl, rfl, rfl⟩
  | receive pack => exact ⟨rfl, rfl, rfl⟩
  | walk lost todo => exact samePush_walk _ _
  | inspect lost cmd todo => exact samePush_look _ _ _
  | keep fault => exact samePush_keep _
  | ask a => exact samePush_hear _
  | update fault => exact samePush_update _

/-- What a step does to the store: nothing, or objects are added to the push's repository, or its
refs move. -/
inductive Stored (db : Db) (p : Push) (e : Effect) : Prop
  | same : e.db = db → e.moved = [] → e.push.phase ≠ .done true → Stored db p e
  | kept (objs : List ObjectRow) : (∀ o ∈ objs, o.repo = p.repo.id) → e.db = db.putObjects objs →
      e.moved = [] → e.push.phase ≠ .done true → Stored db p e
  | moved : p.phase = .asked → p.pending ≠ 0 →
    db.compareAndSetRefs p.repo.id p.actor p.commands = .ok e.db →
      e.moved = p.commands → e.push = { p with phase := .done true } → Stored db p e

theorem phase_walk_ne (has : Oid → Bool) (todo : List Command) (moved : Bool) :
    (p.walk G has todo).phase ≠ .done moved := by
  cases todo with
  | nil =>
    rw [Push.walk]
    dsimp only
    split
    · obtain ⟨refused, heq⟩ := refuseRest_eq { p with phase := .walked } .unpackFailed
      rw [heq]
      exact nofun
    split
    · obtain ⟨refused, heq⟩ := refuseRest_eq { p with phase := .walked } .atomic
      rw [heq]
      exact nofun
    · exact nofun
  | cons cmd todo =>
    rw [Push.walk]
    split
    · exact nofun
    split
    · exact nofun
    · exact nofun

theorem commit_eq {fault : Option CommitFault} {db' : Db}
    (h : p.commit G L db fault = .ok db') :
    db' = db.putObjects (p.rows G) := by
  rw [Push.commit] at h
  split at h
  · cases h
  split at h
  · cases h
  split at h
  · cases h
  split at h
  · cases h
  · cases h
    rfl

theorem stored_keep (fault : Option CommitFault) :
    Stored db p ⟨(p.keep G L db fault).1, (p.keep G L db fault).2, []⟩ := by
  rw [Push.keep]
  split
  · cases hcommit : p.commit G L db fault with
    | error text => exact .same rfl rfl nofun
    | ok db' =>
      refine .kept (p.rows G) (fun o ho => ?_) (commit_eq hcommit) rfl nofun
      obtain ⟨oid, -, rfl⟩ := List.mem_map.mp ho
      rfl
  · exact .same rfl rfl nofun

theorem stored_update (fault : Bool) (hphase : p.phase = .asked) :
    Stored db p (p.update db fault) := by
  rw [Push.update]
  split
  · exact .same rfl rfl nofun
  next hpending =>
  split
  · exact .same rfl rfl nofun
  cases hset : db.compareAndSetRefs p.repo.id p.actor p.commands with
  | error e => exact .same rfl rfl nofun
  | ok db' => exact .moved hphase hpending hset rfl rfl

theorem Stepped.stored (h : Stepped G L db p input e) : Stored db p e := by
  cases h with
  | refs => exact .same rfl rfl nofun
  | receive pack => exact .same rfl rfl nofun
  | walk lost todo => exact .same rfl rfl (phase_walk_ne _ _ true)
  | inspect lost cmd todo =>
    refine .same rfl rfl ?_
    dsimp only
    rw [Push.look]
    split <;> exact nofun
  | keep fault => exact stored_keep fault
  | ask a =>
    refine .same rfl rfl ?_
    dsimp only
    rw [Push.hear]
    split <;> exact nofun
  | update fault hphase => exact stored_update fault hphase

theorem Stepped.phase_ne (h : Stepped G L db p input e) (moved : Bool) : p.phase ≠ .done moved := by
  intro hdone
  cases h <;> simp_all

end Steps

section Decided

variable {G : GoGit} {L : Limits} {db : Db} {p : Push} {input : Input} {e : Effect}

/-- Once all commands are walked, all are refused or none; at the end, none exactly if the refs
moved. -/
def Decided (p : Push) : Prop :=
  match p.phase with
  | .walked | .kept | .asked => AllRefused p ∨ p.refused = []
  | .done true => p.refused = []
  | .done false => AllRefused p
  | .opened | .checked | .walking _ | .inspecting _ _ => True

theorem decided_walk (has : Oid → Bool) (todo : List Command) : Decided (p.walk G has todo) := by
  cases todo with
  | nil =>
    rw [Push.walk]
    dsimp only
    split
    · have hall := allRefused_refuseRest { p with phase := .walked } .unpackFailed
      obtain ⟨refused, heq⟩ := refuseRest_eq { p with phase := .walked } .unpackFailed
      rw [heq] at hall ⊢
      exact .inl hall
    split
    · have hall := allRefused_refuseRest { p with phase := .walked } .atomic
      obtain ⟨refused, heq⟩ := refuseRest_eq { p with phase := .walked } .atomic
      rw [heq] at hall ⊢
      exact .inl hall
    · next hnone => exact .inr (not_not.mp hnone)
  | cons cmd todo =>
    rw [Push.walk]
    split
    · trivial
    split <;> trivial

theorem Stepped.decided (h : Stepped G L db p input e) (hp : Decided p) : Decided e.push := by
  cases h with
  | refs => trivial
  | receive pack => trivial
  | walk lost todo => exact decided_walk _ _
  | inspect lost cmd todo =>
    dsimp only
    rw [Push.look]
    split <;> trivial
  | keep fault hphase =>
    rw [Decided, hphase] at hp
    dsimp only
    rw [Push.keep]
    split
    · split
      · exact hp
      · exact .inl (allRefused_refuseRest _ .unpackFailed)
    · exact hp
  | ask a hphase =>
    rw [Decided, hphase] at hp
    dsimp only
    rw [Push.hear]
    split
    · exact .inl (allRefused_refuseRest _ _)
    · exact hp
  | update fault hphase =>
    rw [Decided, hphase] at hp
    rw [Push.update]
    split
    · next hpending => exact pending_eq_zero_iff.mp hpending
    next hpending =>
    have hnone : p.refused = [] := hp.resolve_left fun hall =>
      hpending (pending_eq_zero_iff.mpr hall)
    split
    · exact allRefused_refuseRest p .atomic
    split
    · exact hnone
    · next e _ => exact allRefused_refuseMoved p e

end Decided

section Objects

variable {G : GoGit} {L : Limits} {db db' : Db} {p : Push} {input : Input} {e : Effect}

def Alive (db : Db) (id : Nat) : Prop :=
  ∃ repo ∈ db.repos, repo.id = id

/-- A repository has all that its refs reach. -/
def RefsComplete (G : GoGit) (db : Db) : Prop :=
  ∀ repo ∈ db.repos, ∀ ref ∈ db.refs, ref.repo = repo.id →
    ∀ o, G.Reaches ref.oid o → db.indexed repo.id o = true

def TipsOk (G : GoGit) (db : Db) (p : Push) : Prop :=
  ∀ t ∈ p.tips, ∀ o, G.Reaches t o → db.indexed p.repo.id o = true

/-- The object is in the repository, or the push will keep it. -/
def Held (db : Db) (p : Push) (o : Oid) : Prop :=
  db.indexed p.repo.id o = true ∨ o ∈ p.reachable ∧ o ∈ p.staged

def Accounted (G : GoGit) (db : Db) (p : Push) (cmd : Command) : Prop :=
  p.isRefused cmd.name = true ∨ cmd.new = zeroOID ∨ ∀ o, G.Reaches cmd.new o → Held db p o

def Arrived (G : GoGit) (db : Db) (p : Push) (cmd : Command) : Prop :=
  p.isRefused cmd.name = true ∨ cmd.new = zeroOID ∨
    ∀ o, G.Reaches cmd.new o → db.indexed p.repo.id o = true

def ObjectsOk (G : GoGit) (db : Db) (p : Push) : Prop :=
  match p.phase with
  | .opened => True
  | .checked => TipsOk G db p
  | .walking todo | .inspecting _ todo => TipsOk G db p ∧
      (p.unpack ≠ okText ∨ ∀ cmd ∈ p.commands, cmd ∈ todo ∨ Accounted G db p cmd)
  | .walked => ∀ cmd ∈ p.commands, Accounted G db p cmd
  | .kept | .asked => ∀ cmd ∈ p.commands, Arrived G db p cmd
  | .done _ => True

theorem ObjectsOk.mono (h : ObjectsOk G db p)
    (hmono : ∀ o, db.indexed p.repo.id o = true → db'.indexed p.repo.id o = true) :
      ObjectsOk G db' p := by
  have htips : TipsOk G db p → TipsOk G db' p := fun h t ht o ho => hmono o (h t ht o ho)
  have haccounted : ∀ cmd, Accounted G db p cmd → Accounted G db' p cmd := fun cmd h =>
    h.imp_right fun h => h.imp_right fun h o ho => (h o ho).imp_left (hmono o)
  rw [ObjectsOk] at h ⊢
  split at h
  · trivial
  · exact htips h
  · exact ⟨htips h.1, h.2.imp_right fun h cmd hcmd => (h cmd hcmd).imp_right (haccounted cmd)⟩
  · exact ⟨htips h.1, h.2.imp_right fun h cmd hcmd => (h cmd hcmd).imp_right (haccounted cmd)⟩
  · exact fun cmd hcmd => haccounted cmd (h cmd hcmd)
  · exact fun cmd hcmd => (h cmd hcmd).imp_right fun h => h.imp_right fun h o ho => hmono o (h o ho)
  · exact fun cmd hcmd => (h cmd hcmd).imp_right fun h => h.imp_right fun h o ho => hmono o (h o ho)
  · trivial

theorem tipsOk_readRefs (halive : Alive db p.repo.id) (hcomplete : RefsComplete G db) :
    TipsOk G db (p.readRefs G db) := by
  obtain ⟨repo, hrepo, hid⟩ := halive
  obtain ⟨refused, heq⟩ := checkCommands_eq G p
  intro t ht o ho
  rw [Push.readRefs, heq] at ht ⊢
  obtain ⟨ref, href, rfl⟩ := List.mem_map.mp ht
  obtain ⟨href, hat⟩ := List.mem_filter.mp ((List.mem_insertionSort _).mp href)
  rw [← hid] at hat ⊢
  exact hcomplete repo hrepo ref href (beq_iff_eq.mp hat) o ho

theorem accounted_of_walk {lost : List Oid} {cmd : Command} {objs : List Oid} {phase : Phase}
    (htips : TipsOk G db p) (h : G.revlistObjects (p.has db lost) cmd.new p.tips = some objs) :
    Accounted G db { p with reachable := p.reachable ++ objs, phase := phase } cmd := by
  refine .inr (.inr (covers_of_difference (fun t ht o ho => .inl (htips t ht o ho)) ?_))
  intro o ho hnew
  obtain ⟨hmem, hhas⟩ := G.revlistObjects_complete h o ho hnew
  rw [Push.has, Bool.or_eq_true, Bool.and_eq_true] at hhas
  rcases hhas with hstaged | ⟨hindexed, -⟩
  · exact .inr ⟨List.mem_append_right _ hmem, List.contains_iff_mem.mp hstaged⟩
  · exact .inl hindexed

theorem objectsOk_walk {lost : List Oid} {todo : List Command} (hphase : p.phase = .walking todo)
    (h : ObjectsOk G db p) : ObjectsOk G db (p.walk G (p.has db lost) todo) := by
  rw [ObjectsOk, hphase] at h
  obtain ⟨htips, h⟩ := h
  cases todo with
  | nil =>
    rw [Push.walk]
    dsimp only
    split
    · have hall := allRefused_refuseRest { p with phase := .walked } .unpackFailed
      obtain ⟨refused, heq⟩ := refuseRest_eq { p with phase := .walked } .unpackFailed
      rw [heq] at hall ⊢
      exact fun cmd hcmd => .inl (hall cmd hcmd)
    next hok =>
    split
    · have hall := allRefused_refuseRest { p with phase := .walked } .atomic
      obtain ⟨refused, heq⟩ := refuseRest_eq { p with phase := .walked } .atomic
      rw [heq] at hall ⊢
      exact fun cmd hcmd => .inl (hall cmd hcmd)
    · exact fun cmd hcmd => (h.resolve_left hok cmd hcmd).resolve_left List.not_mem_nil
  | cons cmd todo =>
    -- whatever becomes of this command, it is accounted for, and the others stay so
    have hnext : ∀ p', (∀ c ∈ p.commands, Accounted G db p c → Accounted G db p' c) →
        Accounted G db p' cmd → p'.unpack = p.unpack →
        p'.unpack ≠ okText ∨ ∀ c ∈ p.commands, c ∈ todo ∨ Accounted G db p' c := by
      intro p' hkeep hcmd hunpack
      rw [hunpack]
      refine h.imp_right fun h c hc => ?_
      rcases h c hc with hmem | hacc
      · rcases List.mem_cons.mp hmem with rfl | hmem
        · exact .inr hcmd
        · exact .inl hmem
      · exact .inr (hkeep c hc hacc)
    rw [Push.walk]
    split
    · next hskip => exact ⟨htips, hnext _ (fun c _ hc => hc) (hskip.imp_right .inl) rfl⟩
    split
    · obtain ⟨refused, heq⟩ := refuse_eq p cmd.name .missingObjects
      have hmono : ∀ c : Command, p.isRefused c.name = true →
          (p.refuse cmd.name .missingObjects).isRefused c.name = true := fun c hc =>
        isRefused_refuse.mpr (.inl hc)
      have hself : (p.refuse cmd.name .missingObjects).isRefused cmd.name = true :=
        isRefused_refuse.mpr (.inr rfl)
      rw [heq] at hmono hself ⊢
      exact ⟨htips, hnext _ (fun c _ hc => hc.imp_left (hmono c)) (.inl hself) rfl⟩
    · next objs hobjs =>
      have hmore : ∀ c, Accounted G db p c →
          Accounted G db { p with reachable := p.reachable ++ objs, phase := .inspecting cmd todo }
            c :=
        fun c hc => hc.imp_right fun hc => hc.imp_right fun hc o ho =>
          (hc o ho).imp_right fun hheld => ⟨List.mem_append_left _ hheld.1, hheld.2⟩
      exact ⟨htips, hnext _ (fun c _ hc => hmore c hc) (accounted_of_walk htips hobjs) rfl⟩

theorem objectsOk_look {has : Oid → Bool} {cmd : Command} {todo : List Command}
    (hphase : p.phase = .inspecting cmd todo) (h : ObjectsOk G db p) :
    ObjectsOk G db (p.look G L has cmd todo) := by
  rw [ObjectsOk, hphase] at h
  rw [Push.look]
  split
  · next why _ =>
    obtain ⟨refused, heq⟩ := refuse_eq p cmd.name why
    have hmono : ∀ c : Command, p.isRefused c.name = true →
        (p.refuse cmd.name why).isRefused c.name = true := fun c hc =>
          isRefused_refuse.mpr (.inl hc)
    rw [heq] at hmono ⊢
    refine ⟨h.1, h.2.imp_right fun h c hc => (h c hc).imp_right ?_⟩
    exact fun hacc => hacc.imp_left (hmono c)
  · exact h

theorem indexed_rows {o : Oid} (hreachable : o ∈ p.reachable) (hstaged : o ∈ p.staged) :
    (db.putObjects (p.rows G)).indexed p.repo.id o = true := by
  refine (indexed_putObjects _).mpr (.inr ⟨⟨p.repo.id, o, G.size o⟩, ?_, rfl, rfl⟩)
  refine List.mem_map.mpr ⟨o, List.mem_filter.mpr ⟨?_, List.contains_iff_mem.mpr hstaged⟩, rfl⟩
  exact List.mem_eraseDups.mpr hreachable

theorem objectsOk_keep {fault : Option CommitFault} (hphase : p.phase = .walked)
    (h : ObjectsOk G db p) :
    ObjectsOk G (p.keep G L db fault).1 (p.keep G L db fault).2 := by
  rw [ObjectsOk, hphase] at h
  rw [Push.keep]
  split
  · cases hcommit : p.commit G L db fault with
    | error text =>
      dsimp only
      have hall := allRefused_refuseRest { p with unpack := text } .unpackFailed
      obtain ⟨refused, heq⟩ := refuseRest_eq { p with unpack := text } .unpackFailed
      rw [heq] at hall ⊢
      exact fun cmd hcmd => .inl (hall cmd hcmd)
    | ok db' =>
      rw [commit_eq hcommit]
      refine fun cmd hcmd => (h cmd hcmd).imp_right fun h => h.imp_right fun h o ho => ?_
      rcases h o ho with hindexed | ⟨hreachable, hstaged⟩
      · exact (indexed_putObjects _).mpr (.inl hindexed)
      · exact indexed_rows hreachable hstaged
  · next hnone =>
    -- all commands are refused, or there is nothing to keep
    rw [not_and_or, Nat.not_lt, Nat.le_zero, not_not] at hnone
    rcases hnone with hpending | hnil
    · exact fun cmd hcmd => .inl (pending_eq_zero_iff.mp hpending cmd hcmd)
    · refine fun cmd hcmd => (h cmd hcmd).imp_right fun h => h.imp_right fun h o ho => ?_
      refine (h o ho).resolve_right fun hheld => ?_
      rw [hnil] at hheld
      exact List.not_mem_nil hheld.1

theorem objectsOk_hear {a : LaneAnswer} (hphase : p.phase = .kept) (h : ObjectsOk G db p) :
    ObjectsOk G db (p.hear a) := by
  rw [ObjectsOk, hphase] at h
  rw [Push.hear]
  split
  · have hall := allRefused_refuseRest p (.declined a.answer.msg)
    obtain ⟨refused, heq⟩ := refuseRest_eq p (.declined a.answer.msg)
    rw [heq] at hall ⊢
    exact fun cmd hcmd => .inl (hall cmd hcmd)
  · exact h

theorem objectsOk_update (fault : Bool) :
    ObjectsOk G (p.update db fault).db (p.update db fault).push := by
  rw [Push.update]
  split
  · trivial
  split
  · trivial
  split <;> trivial

theorem Stepped.objectsOk (h : Stepped G L db p input e) (halive : Alive db p.repo.id)
    (hcomplete : RefsComplete G db) (hp : ObjectsOk G db p) : ObjectsOk G e.db e.push := by
  cases h with
  | refs => exact tipsOk_readRefs halive hcomplete
  | receive pack hphase =>
    rw [ObjectsOk, hphase] at hp
    obtain ⟨text, staged, heq⟩ := receive_eq G L p pack
    dsimp only
    rw [heq]
    refine ⟨hp, ?_⟩
    by_cases htext : text = okText
    · exact .inr fun cmd hcmd => .inl (by rw [if_pos htext]; exact hcmd)
    · exact .inl htext
  | walk lost todo hphase => exact objectsOk_walk hphase hp
  | inspect lost cmd todo hphase => exact objectsOk_look hphase hp
  | keep fault hphase => exact objectsOk_keep hphase hp
  | ask a hphase => exact objectsOk_hear hphase hp
  | update fault hphase => exact objectsOk_update fault

end Objects

section Stores

variable {G : GoGit} {db db' : Db} {id : Nat}

/-- The moves of one ref, in the order of the log. -/
def Db.movesOf (db : Db) (repo : Nat) (name : Str) : List (Move Str Oid) :=
  (db.log.filter fun e => e.repo == repo && e.name == name).map fun e => ⟨e.name, e.old, e.new⟩

/-- The log of each ref leads from no object to where the ref is. -/
def RefsChained (db : Db) : Prop :=
  ∀ repo ∈ db.repos, ∀ name, Leads zeroOID (db.movesOf repo.id name) (db.current repo.id name)

structure DbOk (G : GoGit) (db : Db) : Prop where
  refs : RefsOk db
  ids : ∀ repo ∈ db.repos, repo.id < db.minted
  rows : ∀ r ∈ db.refs, r.repo < db.minted
  chained : ∀ repo name, Leads zeroOID (db.movesOf repo name) (db.current repo name)
  complete : RefsComplete G db

theorem dbOk_start : DbOk G World.start.db where
  refs := ⟨List.nodup_nil, fun _ hr => absurd hr List.not_mem_nil⟩
  ids _ hrepo := absurd hrepo List.not_mem_nil
  rows _ hr := absurd hr List.not_mem_nil
  chained _ _ := rfl
  complete _ hrepo := absurd hrepo List.not_mem_nil

/-- What the rest sees of a change: ids are not given twice, nothing comes back, and a repository
that is there keeps its objects. -/
structure Later (db db' : Db) : Prop where
  minted : db.minted ≤ db'.minted
  alive : ∀ id, id < db.minted → Alive db' id → Alive db id
  indexed : ∀ id o, Alive db' id → db.indexed id o = true → db'.indexed id o = true

theorem later_of_repos (hminted : db'.minted = db.minted) (hrepos : db'.repos = db.repos)
    (hindexed : ∀ id o, db.indexed id o = true → db'.indexed id o = true) : Later db db' where
  minted := Nat.le_of_eq hminted.symm
  alive id _ h := by
    rw [Alive, hrepos] at h
    exact h
  indexed id o _ := hindexed id o

theorem createRepo_cases (db : Db) (r : NewRepo) :
    db.createRepo r = db ∨
      db.createRepo r =
        { db with repos := db.repos ++ [r.row db.minted], minted := db.minted + 1 } := by
  rw [Db.createRepo]
  split
  · exact .inl rfl
  · exact .inr rfl

theorem DbOk.createRepo (h : DbOk G db) (r : NewRepo) :
    DbOk G (db.createRepo r) ∧ Later db (db.createRepo r) := by
  rcases createRepo_cases db r with heq | heq
  · rw [heq]
    exact ⟨h, later_of_repos rfl rfl fun _ _ ho => ho⟩
  rw [heq]
  refine ⟨⟨⟨h.refs.keys, h.refs.nonzero⟩, ?_, fun row hrow => Nat.lt_succ_of_lt (h.rows row hrow),
    h.chained, ?_⟩, ⟨Nat.le_succ _, ?_, fun _ _ _ ho => ho⟩⟩
  · intro repo hrepo
    rcases List.mem_append.mp hrepo with hrepo | hrepo
    · exact Nat.lt_succ_of_lt (h.ids repo hrepo)
    · rw [List.mem_singleton.mp hrepo]
      exact Nat.lt_succ_self _
  · intro repo hrepo ref href hat
    rcases List.mem_append.mp hrepo with hrepo | hrepo
    · exact h.complete repo hrepo ref href hat
    · rw [List.mem_singleton.mp hrepo] at hat
      exact absurd (h.rows ref href) (hat ▸ Nat.lt_irrefl _)
  · rintro id hid ⟨repo, hrepo, hrid⟩
    rcases List.mem_append.mp hrepo with hrepo | hrepo
    · exact ⟨repo, hrepo, hrid⟩
    · rw [List.mem_singleton.mp hrepo] at hrid
      exact absurd hid (hrid ▸ Nat.lt_irrefl _)

theorem filter_repo_at {α : Type} (repoOf : α → Nat) (id : Nat) {q : α → Bool} {repo : Nat}
    (hq : ∀ a, q a = true → repoOf a = repo) (t : List α) :
    (t.filter (repoOf · != id)).filter q = if repo = id then [] else t.filter q := by
  rw [List.filter_filter]
  split
  · next heq =>
    refine List.filter_eq_nil_iff.mpr fun a _ hand => ?_
    rw [Bool.and_eq_true, bne_iff_ne] at hand
    exact hand.2 ((hq a hand.1).trans heq)
  · next hne =>
    refine List.filter_congr fun a _ => ?_
    cases hqa : q a with
    | false => rfl
    | true =>
      rw [Bool.true_and, bne_iff_ne, hq a hqa]
      exact hne

theorem DbOk.removeRepo (h : DbOk G db) (hremove : db.removeRepo id = some db') :
    DbOk G db' ∧ Later db db' := by
  rw [Db.removeRepo] at hremove
  split at hremove
  swap
  · cases hremove
  cases hremove
  have hindexed : ∀ id' o, id' ≠ id → db.indexed id' o = true → Db.indexed { db with
      repos := db.repos.filter (·.id != id), refs := db.refs.filter (·.repo != id),
      objects := db.objects.filter (·.repo != id), log := db.log.filter (·.repo != id) } id' o =
        true := by
    intro id' o hne ho
    obtain ⟨row, hrow, rfl, rfl⟩ := indexed_iff.mp ho
    exact indexed_iff.mpr ⟨row, List.mem_filter.mpr ⟨hrow, bne_iff_ne.mpr hne⟩, rfl, rfl⟩
  have hkept : ∀ repo ∈ db.repos.filter (·.id != id), repo ∈ db.repos ∧
    repo.id ≠ id := fun repo hrepo =>
    ⟨(List.mem_filter.mp hrepo).1, bne_iff_ne.mp (List.mem_filter.mp hrepo).2⟩
  refine ⟨⟨⟨?_, fun r hr => h.refs.nonzero r (List.mem_filter.mp hr).1⟩, fun repo hrepo =>
    h.ids repo (hkept repo hrepo).1, fun r hr => h.rows r (List.mem_filter.mp hr).1, ?_, ?_⟩,
      ⟨Nat.le_refl _,
    ?_, ?_⟩⟩
  · exact h.refs.keys.sublist (List.filter_sublist.map _)
  · intro repo name
    have hmoves := filter_repo_at RefLogEntry.repo id
      (q := fun e => e.repo == repo && e.name == name)
      (fun e he => beq_iff_eq.mp (Bool.and_eq_true _ _ ▸ he).1) db.log
    have hrefs := filter_repo_at RefRow.repo id (q := RefRow.isAt repo name)
      (fun r hr => (isAt_iff.mp hr).1) db.refs
    have hled := h.chained repo name
    rw [Db.movesOf, Db.current, Db.refsAt] at hled ⊢
    dsimp only
    rw [hmoves, hrefs]
    split
    · rfl
    · exact hled
  · intro repo hrepo ref href hat o ho
    obtain ⟨hrepo, hne⟩ := hkept repo hrepo
    exact hindexed repo.id o hne (h.complete repo hrepo ref (List.mem_filter.mp href).1 hat o ho)
  · rintro id' - ⟨repo, hrepo, hid⟩
    exact ⟨repo, (hkept repo hrepo).1, hid⟩
  · rintro id' o ⟨repo, hrepo, rfl⟩
    exact hindexed repo.id o (hkept repo hrepo).2

theorem DbOk.putObjects (h : DbOk G db) (objs : List ObjectRow) :
    DbOk G (db.putObjects objs) ∧ Later db (db.putObjects objs) := by
  obtain ⟨hrepos, hrefs, hlog, hminted⟩ := putObjects_frame db objs
  have hmono : ∀ id o, db.indexed id o = true →
    (db.putObjects objs).indexed id o = true := fun id o ho =>
    (indexed_putObjects objs).mpr (.inl ho)
  refine ⟨⟨⟨?_, ?_⟩, ?_, ?_, ?_, ?_⟩, later_of_repos hminted hrepos hmono⟩
  · rw [hrefs]
    exact h.refs.keys
  · rw [hrefs]
    exact h.refs.nonzero
  · rw [hrepos, hminted]
    exact h.ids
  · rw [hrefs, hminted]
    exact h.rows
  · intro repo name
    rw [Db.movesOf, hlog, Db.current, Db.refsAt, hrefs]
    exact h.chained repo name
  · intro repo hrepo ref href hat o ho
    rw [hrepos] at hrepo
    rw [hrefs] at href
    exact hmono repo.id o (h.complete repo hrepo ref href hat o ho)

variable {repo : Nat} {actor : Actor} {updates : List RefUpdate}

theorem Plays.movesOf (h : Plays db db' repo actor updates) (repo' : Nat) (name : Str) :
    db'.movesOf repo' name = db.movesOf repo' name ++
      if repo' = repo then (updates.map RefUpdate.move).filter (·.key = name) else [] := by
  rw [Db.movesOf, h.log, List.filter_append, List.map_append, ← Db.movesOf]
  congr 1
  split
  · next heq =>
    subst heq
    rw [List.filter_map, List.filter_map, List.map_map]
    congr 1
    refine List.filter_congr fun u _ => Bool.eq_iff_iff.mpr ?_
    simp only [RefUpdate.logged, RefUpdate.move, Function.comp, beq_self_eq_true, Bool.true_and,
      beq_iff_eq]
    exact decide_eq_true_iff.symm
  · next hne =>
    rw [List.filter_map, List.map_map, List.filter_eq_nil_iff.mpr]
    · rfl
    · intro u _ hu
      rw [Function.comp, Bool.and_eq_true, beq_iff_eq] at hu
      exact hne hu.1.symm

theorem DbOk.compareAndSetRefs (h : DbOk G db) (hrepo : repo < db.minted)
    (harrived : Alive db repo → ∀ u ∈ updates, u.new = zeroOID ∨
      ∀ o, G.Reaches u.new o → db.indexed repo o = true)
    (hset : db.compareAndSetRefs repo actor updates = .ok db') : DbOk G db' ∧ Later db db' := by
  obtain ⟨-, hplays⟩ := compareAndSetRefs_ok h.refs hset
  have hindexed : ∀ id o, db'.indexed id o = db.indexed id o := fun id o => by
    rw [Db.indexed, Db.getObject, hplays.objects, ← Db.getObject, ← Db.indexed]
  refine ⟨⟨hplays.ok, ?_, ?_, ?_, ?_⟩, later_of_repos hplays.minted hplays.repos fun id o ho =>
    (hindexed id o).trans ho⟩
  · rw [hplays.repos, hplays.minted]
    exact h.ids
  · intro r hr
    rw [hplays.minted]
    rcases hplays.row hr with ⟨r₀, hr₀, hrepo₀, -⟩ | ⟨hrepo', -⟩
    · exact hrepo₀ ▸ h.rows r₀ hr₀
    · exact hrepo' ▸ hrepo
  · intro repo' name
    rw [hplays.movesOf]
    split
    · next heq =>
      subst heq
      exact (h.chained repo' name).append (leads_of_play hplays.play name)
    · next hne =>
      rw [List.append_nil, hplays.others repo' hne]
      exact h.chained repo' name
  · intro row hmem ref href hat o ho
    rw [hplays.repos] at hmem
    rw [hindexed]
    rcases hplays.row href with ⟨r₀, hr₀, hrepo₀, hoid₀⟩ | ⟨hrepo', u, hu, hnew⟩
    · exact h.complete row hmem r₀ hr₀ (hrepo₀.trans hat) o (hoid₀ ▸ ho)
    · have hid : row.id = repo := hat.symm.trans hrepo'
      rcases harrived ⟨row, hmem, hid⟩ u hu with hzero | harrived
      · exact absurd (hnew.trans hzero) (hplays.ok.nonzero ref href)
      · rw [hid]
        exact harrived o (hnew ▸ ho)

end Stores

section Runs

variable {G : GoGit} {L : Limits} {w w' : World}

structure PushOk (G : GoGit) (db : Db) (p : Push) : Prop where
  minted : p.repo.id < db.minted
  decided : Decided p
  objects : Alive db p.repo.id → ObjectsOk G db p

theorem PushOk.later {db db' : Db} {p : Push} (h : PushOk G db p) (hlater : Later db db') :
    PushOk G db' p where
  minted := Nat.lt_of_lt_of_le h.minted hlater.minted
  decided := h.decided
  objects halive := (h.objects (hlater.alive _ h.minted halive)).mono fun o ho =>
    hlater.indexed _ o halive ho

def World.movesOf (w : World) (i : Nat) : List RefUpdate :=
  (w.history.filter (·.1 == i)).map Prod.snd

/-- Of each push that moved its refs the history has all commands, and of the others none. -/
structure HistoryOk (w : World) : Prop where
  bound : ∀ m ∈ w.history, m.1 < w.pushes.length
  moves : ∀ i p, w.pushes[i]? = some p →
    w.movesOf i = if p.phase = .done true then p.commands else []

structure WorldOk (G : GoGit) (w : World) : Prop where
  db : DbOk G w.db
  pushes : ∀ p ∈ w.pushes, PushOk G w.db p
  history : HistoryOk w

theorem WorldOk.change (h : WorldOk G w) {db : Db} (hdb : DbOk G db ∧ Later w.db db) :
    WorldOk G { w with db := db } where
  db := hdb.1
  pushes p hp := (h.pushes p hp).later hdb.2
  history := ⟨h.history.bound, h.history.moves⟩

theorem WorldOk.openPush (h : WorldOk G w) {repo : Repo} (hrepo : repo ∈ w.db.repos)
    (principal credential : String) (commands : List Command) (reportStatus : Bool) :
    WorldOk G { w with
      pushes := w.pushes ++ [Git.openPush repo principal credential commands reportStatus] } := by
  refine ⟨h.db, fun p hp => ?_, ⟨fun m hm => ?_, fun i p hi => ?_⟩⟩
  · rcases List.mem_append.mp hp with hp | hp
    · exact h.pushes p hp
    · rw [List.mem_singleton.mp hp]
      exact ⟨h.db.ids repo hrepo, trivial, fun _ => trivial⟩
  · rw [List.length_append]
    exact Nat.lt_add_right _ (h.history.bound m hm)
  · rcases Nat.lt_or_ge i w.pushes.length with hlt | hge
    · rw [List.getElem?_append_left hlt] at hi
      exact h.history.moves i p hi
    · rw [List.getElem?_append_right hge] at hi
      have hmem := List.mem_of_getElem? hi
      rw [List.mem_singleton.mp hmem, if_neg nofun]
      -- no move is of a push that is not there yet
      have hnone : w.history.filter (·.1 == i) = [] := by
        refine List.filter_eq_nil_iff.mpr fun m hm heq => ?_
        have hlt := h.history.bound m hm
        rw [beq_iff_eq.mp heq] at hlt
        omega
      rw [World.movesOf, hnone]
      rfl

theorem mem_of_getRepo {db : Db} {tenant name : Str} {repo : Repo}
    (h : db.getRepo tenant name = some repo) :
    repo ∈ db.repos :=
  List.mem_of_find?_eq_some h

theorem WorldOk.stored (h : WorldOk G w) {p : Push} (hp : p ∈ w.pushes) {e : Effect}
    (hstored : Stored w.db p e) : DbOk G e.db ∧ Later w.db e.db := by
  have hok := h.pushes p hp
  cases hstored with
  | same hdb =>
    rw [hdb]
    exact ⟨h.db, later_of_repos rfl rfl fun _ _ ho => ho⟩
  | kept objs _ hdb =>
    rw [hdb]
    exact h.db.putObjects objs
  | moved hphase hpending hset =>
    refine h.db.compareAndSetRefs hok.minted (fun halive cmd hcmd => ?_) hset
    have hdecided := hok.decided
    have hobjects := hok.objects halive
    rw [Decided, hphase] at hdecided
    rw [ObjectsOk, hphase] at hobjects
    have hnone := hdecided.resolve_left fun hall => hpending (pending_eq_zero_iff.mpr hall)
    refine (hobjects cmd hcmd).resolve_left fun hrefused => ?_
    rw [isRefused_of_nil hnone] at hrefused
    cases hrefused

theorem HistoryOk.step (h : HistoryOk w) {i : Nat} {p : Push} (hi : w.pushes[i]? = some p)
    {e : Effect} (hphase : p.phase ≠ .done true) (hstored : Stored w.db p e) :
    HistoryOk ⟨e.db, w.pushes.set i e.push, w.history ++ e.moved.map fun u => (i, u)⟩ := by
  have hlt : i < w.pushes.length := (List.getElem?_eq_some_iff.mp hi).1
  have hmoves : ∀ j,
    World.movesOf ⟨e.db, w.pushes.set i e.push, w.history ++ e.moved.map fun u => (i, u)⟩ j =
      w.movesOf j ++ if j = i then e.moved else [] := by
    intro j
    rw [World.movesOf, List.filter_append, List.map_append, ← World.movesOf, List.filter_map,
      List.map_map]
    congr 1
    split
    · next heq =>
      subst heq
      have hall : e.moved.filter ((fun m : Nat × RefUpdate => m.1 == j) ∘ fun u => (j, u)) =
        e.moved :=
        List.filter_eq_self.mpr fun u _ => beq_self_eq_true j
      rw [hall]
      exact List.map_id _
    · next hne =>
      rw [List.filter_eq_nil_iff.mpr]
      · rfl
      · exact fun u _ heq => hne (beq_iff_eq.mp heq).symm
  refine ⟨fun m hm => ?_, fun j q hj => ?_⟩
  · rw [List.length_set]
    rcases List.mem_append.mp hm with hm | hm
    · exact h.bound m hm
    · obtain ⟨u, -, rfl⟩ := List.mem_map.mp hm
      exact hlt
  rw [hmoves]
  by_cases hji : j = i
  · subst hji
    rw [List.getElem?_set_self hlt, Option.some.injEq] at hj
    subst hj
    rw [h.moves j p hi, if_neg hphase, if_pos rfl, List.nil_append]
    cases hstored with
    | same _ hmoved hnot => rw [hmoved, if_neg hnot]
    | kept _ _ _ hmoved hnot => rw [hmoved, if_neg hnot]
    | moved _ _ _ hmoved hpush => rw [hmoved, hpush, if_pos rfl]
  · rw [List.getElem?_set_ne fun heq => hji heq.symm] at hj
    rw [if_neg hji, List.append_nil]
    exact h.moves j q hj

theorem WorldOk.step (h : WorldOk G w) {i : Nat} {p : Push} (hi : w.pushes[i]? = some p)
    {input : Input} {e : Effect} (hstep : Stepped G L w.db p input e) :
    WorldOk G ⟨e.db, w.pushes.set i e.push, w.history ++ e.moved.map fun u => (i, u)⟩ := by
  have hp := List.mem_of_getElem? hi
  have hok := h.pushes p hp
  have hsame := hstep.samePush
  obtain ⟨hdb, hlater⟩ := h.stored hp hstep.stored
  refine ⟨hdb, fun q hq => ?_, h.history.step hi (hstep.phase_ne true) hstep.stored⟩
  rcases List.mem_or_eq_of_mem_set hq with hq | rfl
  · exact (h.pushes q hq).later hlater
  · refine ⟨?_, hstep.decided hok.decided, fun halive => ?_⟩
    · rw [hsame.repo]
      exact Nat.lt_of_lt_of_le hok.minted hlater.minted
    · rw [hsame.repo] at halive
      have halive' := hlater.alive _ hok.minted halive
      exact hstep.objectsOk halive' h.db.complete (hok.objects halive')

theorem WorldOk.next (h : WorldOk G w) {event : Event} (hnext : w.next G L event = some w') :
    WorldOk G w' := by
  cases event with
  | create r =>
    cases hnext
    exact h.change (h.db.createRepo r)
  | remove id =>
    obtain ⟨db, hdb, rfl⟩ := Option.map_eq_some_iff.mp hnext
    exact h.change (h.db.removeRepo hdb)
  | openPush tenant name principal credential commands reportStatus =>
    obtain ⟨repo, hrepo, rfl⟩ := Option.map_eq_some_iff.mp hnext
    exact h.openPush (mem_of_getRepo hrepo) ..
  | step i input =>
    obtain ⟨p, hi, hnext⟩ := Option.bind_eq_some_iff.mp hnext
    obtain ⟨e, he, hnext⟩ := Option.bind_eq_some_iff.mp hnext
    cases hnext
    exact h.step hi (stepped_of_step he)

theorem worldOk_start : WorldOk G .start where
  db := dbOk_start
  pushes _ hp := absurd hp List.not_mem_nil
  history := ⟨fun _ hm => absurd hm List.not_mem_nil, fun _ _ hi => by cases hi⟩

end Runs

end ThanksComputer.Git
