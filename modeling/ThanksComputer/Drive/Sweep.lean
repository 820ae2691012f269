import Mathlib.Tactic.IntervalCases
import ThanksComputer.Drive.Objects
import ThanksComputer.Drive.Sync
import ThanksComputer.Lib.Reclaim

/-! Puts, copies and sweeps at the same time: no live file loses its object, as long as no sweep
looks up an object that a put or a copy has stored and not committed. -/

namespace ThanksComputer.Drive

open Lib.Checks Lib.Reclaim Lib.Runs Lib.Table

section Keys

variable {new : List String} {rows rows' : List Resource} {db db' : Index}

def Shaped (r : Resource) : Prop :=
  r.kind = .file ↔ r.objectKey.isSome = true

def LiveKey (rows : List Resource) (k : String) : Prop :=
  ∃ r ∈ rows, r.live = true ∧ r.objectKey = some k

/-- A row whose object is one of some keys, or a directory. -/
def NewRow (new : List String) (r : Resource) : Prop :=
  r.kind = .dir ∧ r.objectKey = none ∨ r.kind = .file ∧ ∃ k ∈ new, r.objectKey = some k

/-- Where the objects of the rows are from: none is revived, and what is not new was there. -/
def Grown (new : List String) (rows rows' : List Resource) : Prop :=
  ∀ r' ∈ rows', NewRow new r' ∨
    ∃ r ∈ rows, (r'.live = true → r.live = true) ∧ r.kind = r'.kind ∧ r.objectKey = r'.objectKey

theorem Grown.refl (new : List String) (rows : List Resource) : Grown new rows rows :=
  fun r hr => .inr ⟨r, hr, id, rfl, rfl⟩

theorem Grown.update (h : Grown new rows rows') {cond : Resource → Bool} {set : Resource → Resource}
    (hset : ∀ r, ((set r).live = true → r.live = true) ∧ (set r).kind = r.kind ∧
      (set r).objectKey = r.objectKey) : Grown new rows (update cond set rows') := by
  intro r' hr'
  obtain ⟨r, hr, rfl⟩ := mem_update.mp hr'
  split
  · obtain ⟨hlive, hkind, hkey⟩ := hset r
    rcases h r hr with hnew | ⟨r₀, hr₀, hlive₀, hkind₀, hkey₀⟩
    · rw [NewRow, ← hkind, ← hkey] at hnew
      exact .inl hnew
    · exact .inr ⟨r₀, hr₀, fun hl => hlive₀ (hlive hl), hkind₀.trans hkind.symm,
        hkey₀.trans hkey.symm⟩
  · exact h r hr

theorem Grown.tombstone (h : Grown new rows rows') {cond : Resource → Bool} (token : Nat)
    (now : Int) :
    Grown new rows (Lib.Table.update cond (Resource.tombstone token now) rows') := by
  apply h.update
  intro r
  exact ⟨fun hl => absurd hl Bool.false_ne_true, rfl, rfl⟩

theorem Grown.append (h : Grown new rows rows') {extra : List Resource}
    (hextra : ∀ r ∈ extra, NewRow new r) : Grown new rows (rows' ++ extra) := by
  intro r hr
  rcases List.mem_append.mp hr with hr | hr
  · exact h r hr
  · exact .inl (hextra r hr)

theorem Grown.shaped (h : Grown new rows rows') (hrows : ∀ r ∈ rows, Shaped r) :
    ∀ r ∈ rows', Shaped r := by
  intro r' hr'
  rcases h r' hr' with (⟨hkind, hkey⟩ | ⟨hkind, k, -, hkey⟩) | ⟨r, hr, -, hkind, hkey⟩
  · rw [Shaped, hkind, hkey]
    exact iff_of_false (fun h => by cases h) (fun h => by cases h)
  · rw [Shaped, hkind, hkey]
    exact iff_of_true rfl rfl
  · rw [Shaped, ← hkind, ← hkey]
    exact hrows r hr

theorem Grown.liveKey (h : Grown new rows rows') {k : String} (hk : LiveKey rows' k) :
    LiveKey rows k ∨ k ∈ new := by
  obtain ⟨r', hr', hlive, hkey⟩ := hk
  rcases h r' hr' with (⟨-, hnone⟩ | ⟨-, k', hk', hkey'⟩) | ⟨r, hr, hlive', -, hkey'⟩
  · rw [hnone] at hkey
    cases hkey
  · rw [hkey'] at hkey
    cases hkey
    exact .inr hk'
  · exact .inl ⟨r, hr, hlive' hlive, hkey'.trans hkey⟩

theorem insertRow_eq {r : Resource} (h : insertRow rows r = .ok rows') : rows' = rows ++ [r] := by
  unfold insertRow at h
  split at h
  · cases h
  · cases h
    rfl

theorem foldlM_insertRow_eq {extra : List Resource} (h : extra.foldlM insertRow rows = .ok rows') :
    rows' = rows ++ extra := by
  induction extra generalizing rows with
  | nil =>
    cases h
    exact (List.append_nil _).symm
  | cons r extra ih =>
    rw [List.foldlM_cons] at h
    obtain ⟨mid, hmid, h⟩ := bind_eq_ok.mp h
    rw [ih h, insertRow_eq hmid, List.append_assoc]
    rfl

theorem grown_move {nfc : Path → Path} {collID : String} {source target : Option Path}
    {overwrite : Bool} {now : Int} (h : db.move nfc collID source target overwrite now = .ok db') :
    Grown [] db.resources db'.resources := by
  obtain ⟨s, t, c, src, rows, -, -, -, -, hrows, rfl⟩ := move_ok h
  have hreplaced : Grown [] db.resources (replaced db c t now) := (Grown.refl _ _).tombstone _ _
  rw [Index.advance, (moveRows_ok hrows).1]
  apply Grown.update
  · exact hreplaced.update fun r => ⟨id, rfl, rfl⟩
  · exact fun r => ⟨id, rfl, rfl⟩

theorem grown_call {cfg : Config} {call : Call} (hrows : call.rowsOnly = true)
    (h : db.call cfg call = .ok db') : Grown [] db.resources db'.resources := by
  cases call with
  | ensureCollection tenant name id =>
    rcases ensureCollection_ok h with rfl | ⟨-, rfl⟩
    · exact .refl _ _
    · exact .refl _ _
  | deleteCollection tenant name force now =>
    rcases deleteCollection_ok h with rfl | ⟨c, -, -, rfl⟩
    · exact .refl _ _
    · exact (Grown.refl _ _).tombstone _ _
  | put collID p size body opts newID key => cases hrows
  | mkdir collID p id =>
    obtain ⟨q, c, rows, -, -, -, hins, rfl⟩ := mkdir_ok h
    rw [Index.advance, insertRow_eq hins]
    apply (Grown.refl _ _).append
    intro r hr
    rw [List.mem_singleton.mp hr]
    exact .inl ⟨rfl, rfl⟩
  | delete collID p opts now =>
    obtain ⟨q, hdelete⟩ := delete_ok h
    obtain ⟨c, cur, -, -, rfl⟩ := deleteWhere_ok hdelete
    exact (Grown.refl _ _).tombstone _ _
  | deleteByID collID resID opts now =>
    obtain ⟨c, cur, -, -, rfl⟩ := deleteWhere_ok h
    exact (Grown.refl _ _).tombstone _ _
  | move collID source target overwrite now => exact grown_move h
  | copyBetween srcID source collID target overwrite copies now => cases hrows

theorem grown_putCommit {limits : Limits} {collID : String} {p : Path} {opts : WriteOpts}
    {up : Upload} (hids : (db.resources.map Resource.resourceID).Nodup)
    (h : db.putCommit limits collID p opts up = .ok db') :
    Grown [up.key] db.resources db'.resources := by
  rcases putCommit_ok h with rfl | ⟨c, -, ⟨cur, hcur, hfile, rfl⟩ | ⟨-, rows, hins, rfl⟩⟩
  · exact .refl _ _
  · intro r' hr'
    obtain ⟨r, hr, rfl⟩ := mem_update.mp hr'
    split
    · next hid =>
      have heq : r = cur := eq_of_key hids hr (getResource_some hcur).1 (beq_iff_eq.mp hid)
      refine .inl (.inr ⟨?_, up.key, List.mem_singleton_self _, rfl⟩)
      rw [heq]
      exact hfile
    · exact .inr ⟨r, hr, id, rfl, rfl⟩
  · rw [Index.advance, insertRow_eq hins]
    apply (Grown.refl _ _).append
    intro r hr
    rw [List.mem_singleton.mp hr]
    exact .inr ⟨rfl, up.key, List.mem_singleton_self _, rfl⟩

theorem mem_of_copySource {srcID : String} {source : Path}
    (h : db.copySource srcID source = .ok rows) {r : Resource} (hr : r ∈ rows) :
      r ∈ db.resources := by
  obtain ⟨src, hsrc, rfl⟩ := copySource_ok h
  rcases List.mem_cons.mp hr with rfl | hr
  · exact (getResource_some hsrc).1
  · split at hr
    · exact (mem_listQ.mp hr).1
    · exact absurd hr List.not_mem_nil

theorem Copying.names_mem {c : Copying} {r : Resource}
    (hcopies : ∀ cp ∈ c.copies, cp.srcKey.isSome = true → cp.newKey.isSome = true)
    (hkey : r.objectKey.isSome = true) (hhas : c.has r = true) :
    (c.names r.resourceID).2 ∈ c.newKeys := by
  rw [Copying.has, Option.any_eq_true] at hhas
  obtain ⟨cp, hcp, hsrc⟩ := hhas
  have hmem := List.mem_of_find?_eq_some hcp
  rw [← beq_iff_eq.mp hsrc] at hkey
  obtain ⟨key, hnew⟩ := Option.isSome_iff_exists.mp (hcopies cp hmem hkey)
  rw [Copying.names, hcp, Copying.newKeys, List.mem_filterMap]
  refine ⟨cp, hmem, ?_⟩
  change cp.newKey = some (cp.newKey.getD "")
  rw [hnew]
  rfl

theorem grown_copyCommit {limits : Limits} {c : Copying} {now : Int} {rows : List Resource}
    (hshaped : ∀ r ∈ db.resources, Shaped r)
    (hcopies : ∀ cp ∈ c.copies, cp.srcKey.isSome = true → cp.newKey.isSome = true)
    (hrows : db.copySource c.srcID c.source = .ok rows) (hhas : ∀ r ∈ rows, c.has r = true)
    (h : db.copyCommit limits c.srcID c.source c.collID c.target c.overwrite c.names now =
      .ok db') :
    Grown c.newKeys db.resources db'.resources := by
  obtain ⟨locked, rows', inserted, -, hrows', -, hins, rfl⟩ := copyCommit_ok h
  rw [hrows] at hrows'
  cases hrows'
  rw [Index.advance, foldlM_insertRow_eq hins]
  apply Grown.append
  · exact (Grown.refl _ _).tombstone _ _
  · intro r' hr'
    obtain ⟨r, hr, rfl⟩ := List.mem_map.mp hr'
    cases hkind : r.kind with
    | dir =>
      refine .inl ⟨hkind, ?_⟩
      rw [Resource.copyTo, hkind]
      rfl
    | file =>
      have hkey := (hshaped r (mem_of_copySource hrows hr)).mp hkind
      refine .inr ⟨hkind, _, Copying.names_mem hcopies hkey (hhas r hr), ?_⟩
      rw [Resource.copyTo, hkind]
      rfl

theorem grown_filter (p : Resource → Bool) : Grown [] rows (rows.filter p) :=
  fun r hr => .inr ⟨r, (List.mem_filter.mp hr).1, id, rfl, rfl⟩

end Keys

section Acts

/-- What a job is made of: the rows of a copy, and the object of a lookup. -/
def Job.Wf (given : List String) : Job → Prop
  | .copy c => (∀ r ∈ c.todo, Shaped r) ∧
      ∀ cp ∈ c.copies, cp.srcKey.isSome = true → cp.newKey.isSome = true
  | .lookup _ key => key ∈ given
  | _ => True

variable {cfg : Setup} {sh sh' : Shared} {job job' : Job} {action : Action}

/-- Why a job may delete an object from now on: it is its own, or no live row had it. -/
def LetGo (sh : Shared) (job : Job) (action : Action) (sh' : Shared) (k : String) : Prop :=
  k ∈ job.holds ∨ (k ∉ sh.given ∧ k ∈ sh'.given) ∨
    ∃ grace, job = .lookup grace k ∧ action = .query ∧ sh.index.references k = false

structure Acted (sh : Shared) (job : Job) (action : Action) (sh' : Shared) (job' : Job) : Prop where
  tables : Tables sh'.index
  rows : Grown job.holds sh.index.resources sh'.index.resources
  published : Grown [] sh.index.resources sh'.index.resources ∨ job'.holds = []
  held : ∀ k ∈ job'.holds, k ∈ job.holds ∨
    k ∉ sh.given ∧ k ∈ sh'.objects.map Object.key ∧ k ∈ sh'.given
  doomed : ∀ k ∈ job'.dooms, k ∈ job.dooms ∨
    job'.holds = [] ∧ sh'.index = sh.index ∧ LetGo sh job action sh' k
  stored : ∀ o ∈ sh.objects, o ∈ sh'.objects ∨ o.key ∈ job.dooms
  listed : ∀ o ∈ sh'.objects, o ∈ sh.objects ∨ o.key ∈ sh'.given
  given : ∀ k ∈ sh.given, k ∈ sh'.given
  wf : job'.Wf sh'.given

theorem Acted.jobOnly (htables : Tables sh.index) (hheld : ∀ k ∈ job'.holds, k ∈ job.holds)
    (hdoomed : ∀ k ∈ job'.dooms, k ∈ job.dooms ∨ job'.holds = [] ∧ LetGo sh job action sh k)
    (hwf : job'.Wf sh.given) : Acted sh job action sh job' where
  tables := htables
  rows := .refl _ _
  published := .inl (.refl _ _)
  held k hk := .inl (hheld k hk)
  doomed k hk := (hdoomed k hk).imp_right fun h => ⟨h.1, rfl, h.2⟩
  stored _ ho := .inl ho
  listed _ ho := .inl ho
  given _ hk := hk
  wf := hwf

theorem Acted.quiet (htables : Tables sh.index) (hheld : job'.holds = [])
    (hdoomed : job'.dooms = []) (hwf : job'.Wf sh.given) : Acted sh job action sh job' := by
  apply Acted.jobOnly htables _ _ hwf
  · intro k hk
    rw [hheld] at hk
    exact absurd hk List.not_mem_nil
  · intro k hk
    rw [hdoomed] at hk
    exact absurd hk List.not_mem_nil

theorem Acted.discard (htables : Tables sh.index) :
    Acted sh job action sh (.discard job.holds) := by
  apply Acted.jobOnly htables
  · exact fun k hk => absurd hk List.not_mem_nil
  · exact fun k hk => .inr ⟨rfl, .inl hk⟩
  · trivial

theorem Acted.commit {db : Index} (htables : Tables db)
    (hrows : Grown job.holds sh.index.resources db.resources) (hheld : job'.holds = [])
    (hdoomed : job'.dooms = []) (hwf : job'.Wf sh.given) :
    Acted sh job action { sh with index := db } job' where
  tables := htables
  rows := hrows
  published := .inr hheld
  held k hk := by
    rw [hheld] at hk
    exact absurd hk List.not_mem_nil
  doomed k hk := by
    rw [hdoomed] at hk
    exact absurd hk List.not_mem_nil
  stored _ ho := .inl ho
  listed _ ho := .inl ho
  given _ hk := hk
  wf := hwf

theorem Acted.putObject {key : String} {modTime : Option Int} (htables : Tables sh.index)
    (hfresh : key ∉ sh.given) (hheld : ∀ k ∈ job'.holds, k ∈ job.holds ∨ k = key)
    (hdoomed : ∀ k ∈ job'.dooms, job'.holds = [] ∧ k = key)
    (hwf : job'.Wf (sh.putObject key modTime).given) :
    Acted sh job action (sh.putObject key modTime) job' where
  tables := htables
  rows := .refl _ _
  published := .inl (.refl _ _)
  held k hk := by
    rcases hheld k hk with hk | rfl
    · exact .inl hk
    · refine .inr ⟨hfresh, ?_, List.mem_cons_self⟩
      rw [Shared.putObject, List.map_append]
      exact List.mem_append_right _ (List.mem_singleton_self _)
  doomed k hk := by
    obtain ⟨hnone, rfl⟩ := hdoomed k hk
    exact .inr ⟨hnone, rfl, .inr (.inl ⟨hfresh, List.mem_cons_self⟩)⟩
  stored o ho := .inl (List.mem_append_left _ ho)
  listed o ho := by
    rcases List.mem_append.mp ho with ho | ho
    · exact .inl ho
    · rw [List.mem_singleton.mp ho]
      exact .inr List.mem_cons_self
  given _ hk := List.mem_cons_of_mem _ hk
  wf := hwf

theorem Acted.deleteObject {key : String} (htables : Tables sh.index) (hkey : key ∈ job.dooms)
    (hheld : job'.holds = []) (hdoomed : ∀ k ∈ job'.dooms, k ∈ job.dooms)
    (hwf : job'.Wf sh.given) :
    Acted sh job action { sh with objects := deleteObject sh.objects key } job' where
  tables := htables
  rows := .refl _ _
  published := .inl (.refl _ _)
  held k hk := by
    rw [hheld] at hk
    exact absurd hk List.not_mem_nil
  doomed k hk := .inl (hdoomed k hk)
  stored o ho := by
    by_cases ho' : o.key = key
    · rw [ho']
      exact .inr hkey
    · exact .inl (List.mem_filter.mpr ⟨ho, bne_iff_ne.mpr ho'⟩)
  listed o ho := .inl (List.mem_filter.mp ho).1
  given _ hk := hk
  wf := hwf

theorem acted_store {p : Putting} {body : Body} {newID key : String} (htables : Tables sh.index)
    (hfresh : key ∉ sh.given) :
    Acted sh (.put p) action (sh.store cfg p body newID key).1
      (sh.store cfg p body newID key).2 := by
  unfold Shared.store
  split
  · apply Acted.putObject htables hfresh
    · exact fun k hk => .inr (List.mem_singleton.mp hk)
    · exact fun k hk => absurd hk List.not_mem_nil
    · trivial
  · apply Acted.putObject htables hfresh
    · exact fun k hk => absurd hk List.not_mem_nil
    · exact fun k hk => ⟨rfl, List.mem_singleton.mp hk⟩
    · trivial

theorem acted_commitPut {p : Putting} {up : Upload} (htables : Tables sh.index) :
    Acted sh (.stored p up) action (sh.commitPut cfg p up).1 (sh.commitPut cfg p up).2 := by
  unfold Shared.commitPut
  split
  · next db hcommit =>
    split
    · exact .discard htables
    · apply Acted.commit
      · exact (change_putCommit htables.keyed hcommit).tables htables
      · exact grown_putCommit htables.keyed.ids hcommit
      · rfl
      · rfl
      · trivial
  · exact .discard htables

theorem acted_dup {c : Copying} {r : Resource} {todo : List Resource} {newID key : String}
    {linked : Bool} (htables : Tables sh.index) (hfresh : key ∉ sh.given)
    (htodo : c.todo = r :: todo) (hwf : (Job.copy c).Wf sh.given) :
    Acted sh (.copy c) action (sh.dup cfg c r todo newID key linked).1
      (sh.dup cfg c r todo newID key linked).2 := by
  obtain ⟨hshaped, hcopies⟩ := hwf
  rw [htodo, List.forall_mem_cons] at hshaped
  unfold Shared.dup
  split
  · next hkind =>
    apply Acted.jobOnly htables
    · exact fun k hk => hk
    · exact fun k hk => absurd hk List.not_mem_nil
    · refine ⟨hshaped.2, List.forall_mem_cons.mpr ⟨fun hsome => ?_, hcopies⟩⟩
      have hfile := hshaped.1.mpr hsome
      rw [hkind] at hfile
      cases hfile
  · split
    · exact .discard htables
    · apply Acted.putObject htables hfresh
      · exact fun k hk => (List.mem_cons.mp hk).symm
      · exact fun k hk => absurd hk List.not_mem_nil
      · exact ⟨hshaped.2, List.forall_mem_cons.mpr ⟨fun _ => rfl, hcopies⟩⟩

theorem acted_commitCopy {c : Copying} {now : Int} (htables : Tables sh.index)
    (hrows : ∀ r ∈ sh.index.resources, Shaped r) (hwf : (Job.copy c).Wf sh.given) :
    Acted sh (.copy c) action (sh.commitCopy cfg c now).1 (sh.commitCopy cfg c now).2 := by
  unfold Shared.commitCopy
  split
  · exact .discard htables
  next rows hsource =>
  split
  · next hall =>
    split
    · next db hcommit =>
      apply Acted.commit
      · exact (change_copyCommit htables.keyed hcommit).tables htables
      · exact grown_copyCommit hrows hwf.2 hsource (List.all_eq_true.mp hall) hcommit
      · rfl
      · rfl
      · trivial
    · exact .discard htables
  · apply Acted.jobOnly htables
    · exact fun k hk => hk
    · exact fun k hk => absurd hk List.not_mem_nil
    · exact ⟨fun r hr => hrows r (mem_of_copySource hsource (List.mem_filter.mp hr).1), hwf.2⟩

theorem acted_fail (htables : Tables sh.index) : Acted sh job action sh job.fail := by
  cases job with
  | stored p up => exact .discard htables
  | copy c => exact .discard htables
  | discard keys =>
    apply Acted.jobOnly htables
    · exact fun k hk => absurd hk List.not_mem_nil
    · exact fun k hk => .inl (List.mem_of_mem_tail hk)
    · trivial
  | _ => exact .quiet htables rfl rfl trivial

theorem tables_purgeResources {db : Index} (h : Tables db) (cutoff : Int) :
    Tables (db.purgeResources cutoff) where
  keyed :=
    ⟨h.keyed.ids.sublist (List.filter_sublist.map _),
      h.keyed.paths.sublist ((List.filter_sublist.filter _).map _)⟩
  ids := h.ids

theorem tables_purgeCollections {db : Index} (h : Tables db) (cutoff : Int) :
    Tables (db.purgeCollections cutoff) :=
  ⟨h.keyed, h.ids.sublist (List.filter_sublist.map _)⟩

theorem mem_of_statObject {objects : List Object} {key : String} {o : Object}
    (h : statObject objects key = some o) : o ∈ objects ∧ o.key = key := by
  have hmatch := List.find?_some h
  exact ⟨List.mem_of_find?_eq_some h, beq_iff_eq.mp hmatch⟩

theorem act_acted (htables : Tables sh.index) (hrows : ∀ r ∈ sh.index.resources, Shaped r)
    (hlisted : ∀ o ∈ sh.objects, o.key ∈ sh.given) (hwf : job.Wf sh.given)
    {out : Shared × Job} (h : sh.act cfg job action = some out) :
      Acted sh job action out.1 out.2 := by
  unfold Shared.act at h
  split at h
  -- start a put
  · split at h
    · cases h
      exact .quiet htables rfl rfl trivial
    · cases h
      exact .quiet htables rfl rfl trivial
  -- start a copy
  · split at h
    · next hprepare =>
      cases h
      refine .quiet htables rfl rfl ⟨?_, fun _ hcp => absurd hcp List.not_mem_nil⟩
      exact fun r hr => hrows r (mem_of_copySource (copyPrepare_ok hprepare).2.2 hr)
    · cases h
      exact .quiet htables rfl rfl trivial
  -- start a sweep
  · split at h
    · cases h
      exact .quiet htables rfl rfl trivial
    · cases h
      exact .quiet htables rfl rfl trivial
  · split at h
    · cases h
    · next hfresh =>
      cases h
      exact acted_store htables hfresh
  · cases h
    exact acted_commitPut htables
  · split at h
    · cases h
    next htodo =>
    split at h
    · cases h
    · next hfresh =>
      cases h
      exact acted_dup htables hfresh htodo hwf
  · split at h
    · cases h
      exact acted_commitCopy htables hrows hwf
    · cases h
  -- the deletions of a discard
  · cases h
    exact .deleteObject htables List.mem_cons_self rfl (fun k hk => List.mem_cons_of_mem _ hk)
      trivial
  · cases h
    exact .quiet htables rfl rfl trivial
  -- the two purges of a sweep
  · cases h
    exact .commit (tables_purgeResources htables _) (grown_filter _) rfl rfl trivial
  · cases h
    exact .commit (tables_purgeCollections htables _) (.refl _ _) rfl rfl trivial
  · split at h
    · cases h
    next hstat =>
    cases h
    split
    · exact .quiet htables rfl rfl trivial
    · obtain ⟨hmem, rfl⟩ := mem_of_statObject hstat
      exact .quiet htables rfl rfl (hlisted _ hmem)
  · cases h
    split
    · exact .quiet htables rfl rfl trivial
    · next grace key hno =>
      apply Acted.jobOnly htables
      · exact fun k hk => absurd hk List.not_mem_nil
      · intro k hk
        rw [List.mem_singleton.mp hk]
        exact .inr ⟨rfl, .inr (.inr ⟨grace, rfl, rfl, (Bool.not_eq_true _).mp hno⟩)⟩
      · trivial
  · cases h
    exact .deleteObject htables List.mem_cons_self rfl (fun k hk => absurd hk List.not_mem_nil)
      trivial
  · cases h
    exact acted_fail htables
  · cases h
    exact .quiet htables rfl rfl trivial
  · cases h

end Acts

section Runs

variable {cfg : Setup} {st st' : State}

/-- Which keys are whose. -/
def State.keys (st : State) : Lib.Reclaim.State String Nat where
  live := {k | LiveKey st.index.resources k}
  held i := {k | k ∈ (st.jobs i).holds}
  doomed i := {k | k ∈ (st.jobs i).dooms}
  stored := {k | k ∈ st.objects.map Object.key}
  given := {k | k ∈ st.given}

structure Intact (st : State) : Prop where
  tables : Tables st.index
  rows : ∀ r ∈ st.index.resources, Shaped r
  listed : ∀ o ∈ st.objects, o.key ∈ st.given
  jobs : ∀ i, (st.jobs i).Wf st.given
  safe : Safe st.keys

/-- No sweep looks up an object that a put or a copy has stored and not committed. -/
def Unclaimed (st : State) : Event → Prop
  | .act i .query => ∀ grace key, st.jobs i = .lookup grace key → ∀ j, key ∉ (st.jobs j).holds
  | _ => True

theorem Job.Wf.mono {given given' : List String} {job : Job} (h : job.Wf given)
    (hsub : ∀ k ∈ given, k ∈ given') : job.Wf given' := by
  cases job with
  | copy c => exact h
  | lookup grace key => exact hsub key h
  | _ => trivial

theorem liveKey_iff {db : Index} {k : String} :
    LiveKey db.resources k ↔ db.references k = true := by
  rw [Index.references, List.any_eq_true]
  simp only [LiveKey, Bool.and_eq_true, beq_iff_eq]

theorem Grown.live_subset {rows rows' : List Resource} (h : Grown [] rows rows') :
    {k | LiveKey rows' k} ⊆ {k | LiveKey rows k} := by
  intro k hk
  rcases h.liveKey hk with hlive | hnew
  · exact hlive
  · exact absurd hnew List.not_mem_nil

theorem LetGo.alone {i : Nat} {action : Action} {sh' : Shared} {k : String} (hst : Intact st)
    (hclear : Unclaimed st (.act i action)) (h : LetGo st.toShared (st.jobs i) action sh' k) :
    st.keys.InUse k → k ∈ st.keys.held i := by
  intro huse
  rcases h with hheld | ⟨hfresh, -⟩ | ⟨grace, hjob, rfl, hno⟩
  · exact hheld
  · exact absurd (hst.safe.used k huse) hfresh
  · rcases huse with hlive | ⟨j, hheld⟩
    · have href := liveKey_iff.mp hlive
      rw [hno] at href
      cases href
    · exact absurd hheld (hclear grace k hjob j)

theorem LetGo.given {i : Nat} {action : Action} {sh' : Shared} {k : String} (hst : Intact st)
    (hsub : ∀ k ∈ st.given, k ∈ sh'.given) (h : LetGo st.toShared (st.jobs i) action sh' k) :
    k ∈ sh'.given := by
  rcases h with hheld | ⟨-, hgiven⟩ | ⟨grace, hjob, -, -⟩
  · exact hsub k (hst.safe.used k (.inr ⟨i, hheld⟩))
  · exact hgiven
  · have hwf := hst.jobs i
    rw [hjob] at hwf
    exact hsub k hwf

theorem keys_self (st : State) (sh' : Shared) (i : Nat) (job' : Job) :
    (State.keys ⟨sh', Function.update st.jobs i job'⟩).held i = {k | k ∈ job'.holds} ∧
      (State.keys ⟨sh', Function.update st.jobs i job'⟩).doomed i = {k | k ∈ job'.dooms} := by
  simp only [State.keys, Function.update_self, and_self]

theorem keys_other (st : State) (sh' : Shared) (job' : Job) {i j : Nat} (hj : j ≠ i) :
    (State.keys ⟨sh', Function.update st.jobs i job'⟩).held j = st.keys.held j ∧
      (State.keys ⟨sh', Function.update st.jobs i job'⟩).doomed j = st.keys.doomed j := by
  simp only [State.keys, Function.update_of_ne hj, and_self]

theorem Acted.step {i : Nat} {action : Action} {sh' : Shared} {job' : Job} (hst : Intact st)
    (hclear : Unclaimed st (.act i action)) (h : Acted st.toShared (st.jobs i) action sh' job') :
    Step i st.keys (State.keys ⟨sh', Function.update st.jobs i job'⟩) := by
  obtain ⟨hheld, hdoomed⟩ := keys_self st sh' i job'
  refine ⟨?_, ?_, ?_, ?_, ?_, ?_, ?_⟩
  · exact fun k hk => h.rows.liveKey hk
  · refine h.published.imp Grown.live_subset fun hnone => ?_
    rw [hheld, hnone]
    exact Set.eq_empty_of_forall_notMem fun k => List.not_mem_nil
  · intro k hk
    rw [hheld] at hk
    exact h.held k hk
  · intro k hk
    rw [hdoomed] at hk
    refine (h.doomed k hk).imp_right fun ⟨hnone, hindex, hlet⟩ => ⟨hlet.given hst h.given, ?_⟩
    apply hst.safe.not_inUse (hlet.alone hst hclear)
    · exact Grown.live_subset (hindex ▸ Grown.refl _ _)
    · rw [hheld, hnone]
      exact List.not_mem_nil
    · exact fun j hj => (keys_other st sh' job' hj).1
  · intro k hk
    obtain ⟨o, ho, rfl⟩ := List.mem_map.mp hk
    exact (h.stored o ho).imp_left List.mem_map_of_mem
  · exact h.given
  · exact fun j hj => keys_other st sh' job' hj

theorem intact_act {i : Nat} {action : Action} {sh' : Shared} {job' : Job} (hst : Intact st)
    (hclear : Unclaimed st (.act i action)) (h : Acted st.toShared (st.jobs i) action sh' job') :
    Intact ⟨sh', Function.update st.jobs i job'⟩ where
  tables := h.tables
  rows := h.rows.shaped hst.rows
  listed o ho := (h.listed o ho).elim (fun ho => h.given _ (hst.listed o ho)) id
  jobs j := by
    change (Function.update st.jobs i job' j).Wf sh'.given
    by_cases hj : j = i
    · subst hj
      rw [Function.update_self]
      exact h.wf
    · rw [Function.update_of_ne hj]
      exact (hst.jobs j).mono h.given
  safe := (h.step hst hclear).safe hst.safe

theorem intact_call (hst : Intact st) {call : Call} (hrows : call.rowsOnly = true) :
    Intact { st with index := st.index.step cfg.toConfig call } := by
  have hgrown : Grown [] st.index.resources (st.index.step cfg.toConfig call).resources := by
    rw [Index.step]
    split
    · next db hcall => exact grown_call hrows hcall
    · exact .refl _ _
  have hstep : Step 0 st.keys
      (State.keys { st with index := st.index.step cfg.toConfig call }) := by
    refine ⟨?_, ?_, ?_, ?_, ?_, ?_, ?_⟩
    · exact fun k hk => .inl (hgrown.live_subset hk)
    · exact .inl hgrown.live_subset
    · exact fun k hk => .inl hk
    · exact fun k hk => .inl hk
    · exact fun k hk => .inl hk
    · exact Set.Subset.rfl
    · exact fun j _ => ⟨rfl, rfl⟩
  exact ⟨(change_step cfg.toConfig hst.tables call).tables hst.tables, hgrown.shaped hst.rows,
    hst.listed, hst.jobs, hstep.safe hst.safe⟩

theorem intact_next {e : Event} (hst : Intact st) (hclear : Unclaimed st e)
    (h : st.next cfg e = some st') : Intact st' := by
  cases e with
  | tick d =>
    cases h
    exact ⟨hst.tables, hst.rows, hst.listed, hst.jobs, hst.safe⟩
  | call call =>
    unfold State.next at h
    dsimp only at h
    split at h
    · next hrows =>
      cases h
      exact intact_call hst hrows
    · cases h
  | act i action =>
    obtain ⟨out, hout, rfl⟩ := Option.map_eq_some_iff.mp h
    exact intact_act hst hclear (act_acted hst.tables hst.rows hst.listed (hst.jobs i) hout)

theorem intact_init (clock : Int) : Intact (.init clock) where
  tables := ⟨inv_empty.tree.toKeyed, inv_empty.ids⟩
  rows _ h := absurd h List.not_mem_nil
  listed _ h := absurd h List.not_mem_nil
  jobs _ := trivial
  safe := by
    have hno : ∀ k, ¬(State.keys (.init clock)).InUse k := by
      rintro k (⟨r, hr, -⟩ | ⟨i, hk⟩)
      · exact absurd hr List.not_mem_nil
      · exact absurd hk List.not_mem_nil
    refine ⟨?_, ?_, ?_, ?_, ?_, ?_⟩
    · exact fun k hk => absurd hk (hno k)
    · exact fun k hk => absurd hk (hno k)
    · exact fun k hk => absurd hk (hno k)
    · exact fun i k hk => absurd hk List.not_mem_nil
    · exact fun i k hk => absurd hk List.not_mem_nil
    · exact fun i j k hk => absurd hk List.not_mem_nil

theorem Intact.backed (h : Intact st) : Backed st := by
  intro r hr hlive hfile
  obtain ⟨k, hk⟩ := Option.isSome_iff_exists.mp ((h.rows r hr).mp hfile)
  have hstored := h.safe.stored k (.inl ⟨r, hr, hlive, hk⟩)
  obtain ⟨o, ho, rfl⟩ := List.mem_map.mp hstored
  exact ⟨o, ho, hk⟩

/-- In every state of a run whose sweeps look up no object of a put or a copy in flight, the objects
of the live files are there. -/
theorem backed_along (cfg : Setup) (clock : Int) (events : List Event)
    (h : Along (State.next cfg) Unclaimed (.init clock) events) :
    Along (State.next cfg) (fun st e => ∀ st', st.next cfg e = some st' → Backed st') (.init clock)
      events := by
  refine Along.of_invariant (I := Intact) ?_ ?_ (intact_init clock) h
  · exact fun st e st' hst hclear hnext => intact_next hst hclear hnext
  · exact fun st e hst hclear st' hnext => (intact_next hst hclear hnext).backed

def timed : Setup :=
  ⟨unlimited, true⟩

/-- An old file is copied while a sweep walks the store. -/
def copyBeside (linked : Bool) (sweep : List Event) : List Event :=
  [.call (.ensureCollection "acme" ['m', 'a', 'i', 'n'] "dc_1"),
    .act 0 (.startPut "dc_1" (some ['a']) 3 ⟨[], []⟩), .act 0 (.store ⟨3, ['e']⟩ "dr_1" "k1"),
    .act 0 (.commit 0), .tick 3601,
    .act 0 (.startCopy "dc_1" (some ['a']) "dc_1" (some ['b']) false),
      .act 0 (.dup "dr_2" "k2" linked),
    .act 1 (.startSweep 3600 604800), .act 1 (.commit 0), .act 1 (.commit 0)] ++ sweep ++
    [.act 0 (.commit 3601)]

theorem jobs_of_run {events : List Event} {j : Nat} (hj : ∀ action, .act j action ∉ events)
    (h : events.foldlM (State.next cfg) st = some st') : st'.jobs j = st.jobs j := by
  induction events generalizing st with
  | nil =>
    cases h
    rfl
  | cons e events ih =>
    obtain ⟨mid, hmid, h⟩ := Option.bind_eq_some_iff.mp h
    rw [ih (fun action hmem => hj action (List.mem_cons_of_mem _ hmem)) h]
    cases e with
    | tick d =>
      cases hmid
      rfl
    | call call =>
      unfold State.next at hmid
      dsimp only at hmid
      split at hmid
      · cases hmid
        rfl
      · cases hmid
    | act i action =>
      obtain ⟨out, -, rfl⟩ := Option.map_eq_some_iff.mp hmid
      apply Function.update_of_ne
      rintro rfl
      exact hj action List.mem_cons_self

/-- A copy byte by byte is younger than the cutoff, and the file it is a copy of has its row. -/
def spared : List Event :=
  [.act 1 (.list "k2"), .act 1 (.list "k1"), .act 1 .query]

theorem backed_copies :
    Along (State.next timed) (fun st e => ∀ st', st.next timed e = some st' → Backed st') (.init 0)
      (copyBeside false spared) := by
  have hcalm : ∀ e ∈ (copyBeside false spared).take 12 ++ [.act 0 (.commit 3601)], ∀ st,
      Unclaimed st e := by
    simp [copyBeside, spared, Unclaimed]
  refine backed_along timed 0
    ((copyBeside false spared).take 12 ++ [.act 1 .query, .act 0 (.commit 3601)])
    (along_append.mpr ⟨.of_forall ?_ _, fun st hst => ⟨?_, fun st' _ => ?_⟩⟩)
  · exact fun e he => hcalm e (List.mem_append_left _ he)
  · intro grace key hjob j
    have hjobs : (((copyBeside false spared).take 12).foldlM (State.next timed) (.init 0)).all
      (fun st =>
        (st.jobs 0).holds == ["k2"] && match st.jobs 1 with
          | .lookup _ key => key == "k1"
          | _ => false) = true := by
      decide +kernel
    rw [hst, Option.all_some, Bool.and_eq_true, beq_iff_eq, hjob, beq_iff_eq] at hjobs
    obtain ⟨hcopy, rfl⟩ := hjobs
    match j with
    | 0 =>
      rw [hcopy]
      decide +kernel
    | 1 =>
      rw [hjob]
      exact List.not_mem_nil
    | j + 2 =>
      have hidle : st.jobs (j + 2) = .idle := by
        apply jobs_of_run _ hst
        intro action hmem
        simp [copyBeside, spared] at hmem
      rw [hidle]
      exact List.not_mem_nil
  · exact .of_forall (fun e he => hcalm e (List.mem_append_right _ he)) st'

/-- The copy is as old as what it is linked to, and the sweep reclaims it before its row is
there. -/
theorem not_backed_copies :
    ¬Along (State.next timed) (fun st e => ∀ st', st.next timed e = some st' → Backed st') (.init 0)
      (copyBeside true [.act 1 (.list "k2"), .act 1 .query, .act 1 .delete]) := by
  intro h
  have hrun : ((copyBeside true [.act 1 (.list "k2"), .act 1 .query, .act 1 .delete]).foldlM
      (State.next timed) (.init 0)).any (fun st => !decide (Backed st)) = true := by
    decide
  rw [Option.any_eq_true] at hrun
  obtain ⟨st, hst, hno⟩ := hrun
  obtain ⟨st₀, -, hnext, hbacked⟩ := h.last hst
  rw [Bool.not_eq_true', decide_eq_false_iff_not] at hno
  exact hno (hbacked st hnext)

end Runs

end ThanksComputer.Drive
