import ThanksComputer.Drive.Consistency

/-! Synchronisation: a mirror of a collection that applies what changed since its token has what the
collection has. -/

namespace ThanksComputer.Drive

open Lib.Runs Lib.Table

/-- What a mirror keeps of a resource. -/
structure Entry where
  path : Path
  size : Nat
  etag : List Char
  deriving DecidableEq

def Resource.entry (r : Resource) : Entry :=
  ⟨r.path, r.size, r.etag⟩

/-- By resource id. -/
abbrev Mirror : Type :=
  String → Option Entry

/-- The live resources of a collection. -/
def mirrorOf (rows : List Resource) (collID : String) : Mirror := fun id =>
  (rows.find? fun r => r.liveIn collID && r.resourceID == id).map Resource.entry

/-- A listed row: an entry that is there, or one that is gone. -/
def Mirror.apply (m : Mirror) (r : Resource) : Mirror :=
  Function.update m r.resourceID (if r.live then some r.entry else none)

/-- The recursive listing of the root, deleted entries included. -/
def changesSince (token : Nat) : ListOpts :=
  ⟨some [], true, token, true, 0, []⟩

section Stamps

variable {rows rows' rows'' : List Resource} {collID : String} {token : Nat}

/-- The rows of a collection that are not as they were have a later stamp. -/
structure Since (token : Nat) (collID : String) (rows rows' : List Resource) : Prop where
  kept : ∀ r ∈ rows, r.collectionID = collID → r ∈ rows' ∨
    ∃ r' ∈ rows', r'.resourceID = r.resourceID ∧ r'.collectionID = collID ∧ token < r'.modSeq
  origin : ∀ r' ∈ rows', r'.collectionID = collID → r' ∈ rows ∨ token < r'.modSeq

theorem Since.refl (token : Nat) (collID : String) (rows : List Resource) :
    Since token collID rows rows :=
  ⟨fun _ hr _ => .inl hr, fun _ hr _ => .inl hr⟩

theorem Since.trans (h : Since token collID rows rows') {token' : Nat}
    (h' : Since token' collID rows' rows'') (hle : token ≤ token') :
    Since token collID rows rows'' := by
  refine ⟨?_, ?_⟩
  · intro r hr hcoll
    rcases h.kept r hr hcoll with hr' | ⟨r', hr', hid, hcoll', hlate⟩
    · rcases h'.kept r hr' hcoll with hr'' | ⟨r'', hr'', hid', hcoll'', hlate'⟩
      · exact .inl hr''
      · exact .inr ⟨r'', hr'', hid', hcoll'', Nat.lt_of_le_of_lt hle hlate'⟩
    · rcases h'.kept r' hr' hcoll' with hr'' | ⟨r'', hr'', hid', hcoll'', hlate'⟩
      · exact .inr ⟨r', hr'', hid, hcoll', hlate⟩
      · exact .inr ⟨r'', hr'', hid'.trans hid, hcoll'', Nat.lt_of_le_of_lt hle hlate'⟩
  · intro r'' hr'' hcoll
    rcases h'.origin r'' hr'' hcoll with hr' | hlate
    · exact h.origin r'' hr' hcoll
    · exact .inr (Nat.lt_of_le_of_lt hle hlate)

/-- What a call does to the rows: it stamps those of one collection that it changes or adds. -/
structure Stamped (rows : List Resource) (collID : String) (token : Nat) (φ : Resource → Resource)
    (new : List Resource) : Prop where
  id : ∀ r, (φ r).resourceID = r.resourceID
  collection : ∀ r, (φ r).collectionID = r.collectionID
  changed : ∀ r ∈ rows, φ r = r ∨ r.collectionID = collID ∧ (φ r).modSeq = token
  new : ∀ r ∈ new, r.collectionID = collID ∧ r.modSeq = token

theorem Stamped.since {φ : Resource → Resource} {new : List Resource}
    (h : Stamped rows collID token φ new) {id : String} {before : Nat}
    (hlate : id = collID → before < token) : Since before id rows (rows.map φ ++ new) := by
  refine ⟨?_, ?_⟩
  · intro r hr hcoll
    rcases h.changed r hr with heq | ⟨hin, hmod⟩
    · exact .inl (List.mem_append_left _ (List.mem_map.mpr ⟨r, hr, heq⟩))
    · refine .inr ⟨φ r, List.mem_append_left _ (List.mem_map_of_mem hr), h.id r, ?_, ?_⟩
      · rw [h.collection]
        exact hcoll
      · rw [hmod]
        exact hlate (hcoll.symm.trans hin)
  · intro r' hr' hcoll
    rcases List.mem_append.mp hr' with hr' | hr'
    · obtain ⟨r, hr, rfl⟩ := List.mem_map.mp hr'
      rw [h.collection] at hcoll
      rcases h.changed r hr with heq | ⟨hin, hmod⟩
      · exact .inl (heq.symm ▸ hr)
      · refine .inr ?_
        rw [hmod]
        exact hlate (hcoll.symm.trans hin)
    · obtain ⟨hin, hmod⟩ := h.new r' hr'
      refine .inr ?_
      rw [hmod]
      exact hlate (hcoll.symm.trans hin)

end Stamps

section Mirrors

variable {rows rows' : List Resource} {collID : String} {token : Nat}

theorem foldl_apply (changes : List Resource) (m : Mirror) (id : String)
    (hids : (changes.map Resource.resourceID).Nodup) :
    (∀ r ∈ changes, r.resourceID = id →
        changes.foldl Mirror.apply m id = if r.live then some r.entry else none) ∧
      ((∀ r ∈ changes, r.resourceID ≠ id) → changes.foldl Mirror.apply m id = m id) := by
  induction changes generalizing m with
  | nil => exact ⟨fun _ h => absurd h List.not_mem_nil, fun _ => rfl⟩
  | cons q changes ih =>
    rw [List.map_cons, List.nodup_cons] at hids
    obtain ⟨hin, hout⟩ := ih (m.apply q) hids.2
    rw [List.foldl_cons]
    refine ⟨?_, ?_⟩
    · intro r hr hid
      rcases List.mem_cons.mp hr with rfl | hr
      · rw [hout fun r' hr' hid' => hids.1 (by
          rw [hid, ← hid']
          exact List.mem_map_of_mem hr')]
        rw [Mirror.apply, ← hid, Function.update_self]
      · exact hin r hr hid
    · intro hno
      rw [List.forall_mem_cons] at hno
      rw [hout hno.2, Mirror.apply, Function.update_of_ne (Ne.symm hno.1)]

theorem mirrorOf_of_mem (hids : (rows.map Resource.resourceID).Nodup) {r : Resource} (hr : r ∈ rows)
    (hcoll : r.collectionID = collID) :
    mirrorOf rows collID r.resourceID = if r.live then some r.entry else none := by
  rw [mirrorOf]
  cases hlive : r.live with
  | true =>
    cases hfind : rows.find? fun q => q.liveIn collID && q.resourceID == r.resourceID with
    | none =>
      have hno := List.find?_eq_none.mp hfind r hr
      rw [liveIn_iff.mpr ⟨hcoll, hlive⟩, beq_self_eq_true] at hno
      exact absurd rfl hno
    | some q =>
      have hmatch := List.find?_some hfind
      rw [Bool.and_eq_true, beq_iff_eq] at hmatch
      rw [eq_of_key hids (List.mem_of_find?_eq_some hfind) hr hmatch.2]
      rfl
  | false =>
    have hnone : (rows.find? fun q => q.liveIn collID && q.resourceID == r.resourceID) = none := by
      apply List.find?_eq_none.mpr
      intro q hq hmatch
      rw [Bool.and_eq_true, beq_iff_eq] at hmatch
      rw [eq_of_key hids hq hr hmatch.2] at hmatch
      rw [live_of_liveIn hmatch.1] at hlive
      cases hlive
    rw [hnone]
    rfl

theorem mirrorOf_of_not_mem {id : String}
    (h : ∀ r ∈ rows, r.collectionID = collID → r.resourceID ≠ id) :
      mirrorOf rows collID id = none := by
  rw [mirrorOf]
  have hnone : (rows.find? fun q => q.liveIn collID && q.resourceID == id) = none := by
    apply List.find?_eq_none.mpr
    intro q hq hmatch
    rw [Bool.and_eq_true, beq_iff_eq] at hmatch
    exact h q hq (liveIn_iff.mp hmatch.1).1 hmatch.2
  rw [hnone]
  rfl

theorem foldl_apply_mirrorOf (hids : (rows.map Resource.resourceID).Nodup)
    (hids' : (rows'.map Resource.resourceID).Nodup) (h : Since token collID rows rows')
    {changes : List Resource} (hnodup : (changes.map Resource.resourceID).Nodup)
    (hchanges : ∀ r, r ∈ changes ↔
      r ∈ rows' ∧ r.collectionID = collID ∧ (token = 0 ∨ token < r.modSeq)) :
    changes.foldl Mirror.apply (mirrorOf rows collID) = mirrorOf rows' collID := by
  funext id
  obtain ⟨hin, hout⟩ := foldl_apply changes (mirrorOf rows collID) id hnodup
  by_cases hrow : ∃ r' ∈ rows', r'.collectionID = collID ∧ r'.resourceID = id
  · obtain ⟨r', hr', hcoll, rfl⟩ := hrow
    rw [mirrorOf_of_mem hids' hr' hcoll]
    by_cases hlisted : token = 0 ∨ token < r'.modSeq
    · exact hin r' ((hchanges r').mpr ⟨hr', hcoll, hlisted⟩) rfl
    · -- A row that is not listed is as it was.
      rw [not_or] at hlisted
      have hold := (h.origin r' hr' hcoll).resolve_right hlisted.2
      rw [hout, mirrorOf_of_mem hids hold hcoll]
      intro r hr hid
      obtain ⟨hr, -, hlate⟩ := (hchanges r).mp hr
      rw [eq_of_key hids' hr hr' hid] at hlate
      exact hlate.elim hlisted.1 hlisted.2
  · have hnone : ∀ r' ∈ rows', r'.collectionID = collID → r'.resourceID ≠ id :=
      fun r' hr' hcoll hid => hrow ⟨r', hr', hcoll, hid⟩
    rw [mirrorOf_of_not_mem hnone, hout, mirrorOf_of_not_mem]
    · intro r hr hcoll hid
      rcases h.kept r hr hcoll with hr' | ⟨r', hr', hid', hcoll', -⟩
      · exact hnone r hr' hcoll hid
      · exact hnone r' hr' hcoll' (hid'.trans hid)
    · intro r hr hid
      obtain ⟨hr', hcoll, -⟩ := (hchanges r).mp hr
      exact hnone r hr' hcoll hid

end Mirrors

section Changes

variable {db db' : Index} {collID : String}

/-- What any call does: nothing, a new collection, or a change of one collection and its rows under
its next token. -/
inductive Change (db : Index) : Index → Prop
  | same : Change db db
  | created {c : Collection} (hfresh : ∀ row ∈ db.collections, row.id ≠ c.id) :
      Change db { db with collections := db.collections ++ [c] }
  | rows {c : Collection} {set : Collection → Collection} {φ : Resource → Resource}
      {new : List Resource} (hc : c ∈ db.collections)
      (hset : ∀ row, (set row).id = row.id ∧ (set row).syncToken = c.syncToken + 1)
      (hstamped : Stamped db.resources c.id (c.syncToken + 1) φ new)
      (hkeyed : Keyed (db.resources.map φ ++ new)) :
      Change db ⟨update (fun row => row.id == c.id) set db.collections, db.resources.map φ ++ new⟩

theorem Change.advance {c c' : Collection} (hc : c ∈ db.collections) (hid : c'.id = c.id)
    (htoken : c'.syncToken = c.syncToken + 1) {φ : Resource → Resource} {new rows : List Resource}
    (hrows : rows = db.resources.map φ ++ new)
    (hstamped : Stamped db.resources c.id (c.syncToken + 1) φ new) (hkeyed : Keyed rows) :
    Change db (Index.advance { db with resources := rows } c') := by
  subst hrows
  rw [Index.advance, hid]
  exact .rows hc (fun _ => ⟨rfl, htoken⟩) hstamped hkeyed

theorem stamped_tombstone {token : Nat} {now : Int} {out : Resource → Bool}
    (hout : ∀ r, out r = true → r.liveIn collID = true) {new : List Resource}
    (hnew : ∀ r ∈ new, r.collectionID = collID ∧ r.modSeq = token) :
    Stamped db.resources collID token
      (fun r => if out r then r.tombstone token now else r) new := by
  refine ⟨?_, ?_, ?_, hnew⟩
  · intro r
    split <;> rfl
  · intro r
    split <;> rfl
  · intro r _
    split
    · next hgone => exact .inr ⟨(liveIn_iff.mp (hout r hgone)).1, rfl⟩
    · exact .inl rfl

theorem stamped_new {token : Nat} {new : List Resource}
    (hnew : ∀ r ∈ new, r.collectionID = collID ∧ r.modSeq = token) :
    Stamped db.resources collID token id new :=
  ⟨fun _ => rfl, fun _ => rfl, fun _ _ => .inl rfl, hnew⟩

variable (hkeyed : Keyed db.resources)

include hkeyed in
theorem change_insert {c c' : Collection} (hc : db.lockCollection collID = .ok c) {new : Resource}
    {rows : List Resource} (hlive : new.liveIn collID = true) (hmod : new.modSeq = c.syncToken + 1)
    (hrows : insertRow db.resources new = .ok rows) (hid : c'.id = c.id)
    (htoken : c'.syncToken = c.syncToken + 1) :
    Change db (Index.advance { db with resources := rows } c') := by
  obtain ⟨hmem, rfl, -⟩ := lockCollection_ok hc
  obtain ⟨hlist, hkeyed'⟩ := insertRow_ok hkeyed (live_of_liveIn hlive) hrows
  have hrows' : rows = db.resources.map id ++ [new] := by rw [hlist, List.map_id]
  refine .advance hmem hid htoken hrows' (stamped_new ?_) hkeyed'
  · exact fun r hr => List.mem_singleton.mp hr ▸ ⟨(liveIn_iff.mp hlive).1, hmod⟩

include hkeyed in
theorem change_putCommit {limits : Limits} {p : Path} {opts : WriteOpts} {up : Upload}
    (h : db.putCommit limits collID p opts up = .ok db') : Change db db' := by
  rcases putCommit_ok h with rfl | ⟨c, hc, ⟨cur, hcur, -, rfl⟩ | ⟨-, rows, hrows, rfl⟩⟩
  · exact .same
  · obtain ⟨hmem, rfl, -⟩ := lockCollection_ok hc
    obtain ⟨hcurmem, hcurlive, -⟩ := getResource_some hcur
    let φ (r : Resource) : Resource := if r.resourceID == cur.resourceID then
      { r with
        objectKey := some up.key, size := up.size, etag := up.etag,
        modSeq := c.syncToken + 1 }
      else r
    have hsame : ∀ r, SamePlace r (φ r) := by
      intro r
      apply SamePlace.ite
      exact ⟨rfl, rfl, rfl, rfl, rfl, rfl, rfl⟩
    refine Change.advance hmem ?_ ?_ (φ := φ) (List.append_nil _).symm ⟨?_, ?_, ?_, ?_⟩ ?_
    · rfl
    · rfl
    · exact fun r => (hsame r).resourceID
    · exact fun r => (hsame r).collectionID
    · intro r hr
      dsimp only [φ]
      split
      · next hid =>
        obtain rfl := eq_of_key hkeyed.ids hr hcurmem (beq_iff_eq.mp hid)
        exact .inr ⟨(liveIn_iff.mp hcurlive).1, rfl⟩
      · exact .inl rfl
    · exact fun _ h => absurd h List.not_mem_nil
    · exact hkeyed.map hsame
  · refine change_insert hkeyed hc ?_ rfl hrows rfl rfl
    simp [Resource.liveIn, Resource.live]

include hkeyed in
theorem change_deleteWhere {opts : WriteOpts} {found : Option Resource} {now : Int}
    (h : db.deleteWhere collID opts found now = .ok db') : Change db db' := by
  obtain ⟨c, cur, hc, -, rfl⟩ := deleteWhere_ok h
  obtain ⟨hmem, rfl, -⟩ := lockCollection_ok hc
  refine Change.advance hmem ?_ ?_ (List.append_nil _).symm (stamped_tombstone ?_ ?_)
    hkeyed.tombstone
  · rfl
  · rfl
  · exact fun r hr => inSubtree_liveIn hr
  · exact fun _ h => absurd h List.not_mem_nil

theorem stamped_moved {src : Resource} (hsrc : src ∈ db.resources)
    (hlive : src.liveIn collID = true) (hids : (db.resources.map Resource.resourceID).Nodup)
    (s t : Path) (token : Nat) (now : Int) :
    Stamped db.resources collID token (moved db collID src s t token now) [] := by
  refine ⟨moved_id collID token, fun r => (same_moved r).2, ?_, fun _ h =>
    absurd h List.not_mem_nil⟩
  intro r hr
  by_cases hid : r.resourceID = src.resourceID
  · obtain rfl := eq_of_key hids hr hsrc hid
    refine .inr ⟨(liveIn_iff.mp hlive).1, ?_⟩
    rw [moved, beq_self_eq_true, if_pos rfl]
    rfl
  · cases hhit : targetHit db collID t r with
    | true =>
      refine .inr ⟨(liveIn_iff.mp (targetHit_liveIn hhit)).1, ?_⟩
      rw [moved, hhit]
      simp [hid, Resource.tombstone]
    | false =>
      cases hren : renamed db collID src s t r with
      | true =>
        refine .inr ⟨(liveIn_iff.mp (renamed_iff.mp hren).2.1).1, ?_⟩
        rw [moved_of_renamed hren hid]
        rfl
      | false => exact .inl (moved_of_not hhit hren hid)

include hkeyed in
theorem change_move {nfc : Path → Path} {source target : Option Path} {overwrite : Bool} {now : Int}
    (h : db.move nfc collID source target overwrite now = .ok db') : Change db db' := by
  obtain ⟨s, t, c, src, rows, -, hc, hsrc, -, hrows, rfl⟩ := move_ok h
  obtain ⟨hmem, rfl, -⟩ := lockCollection_ok hc
  obtain ⟨hsrcmem, hsrclive, -⟩ := getResource_some hsrc
  obtain ⟨hlist, hunique⟩ := moveRows_replaced rfl hrows
  refine Change.advance hmem ?_ ?_ (hlist.trans (List.append_nil _).symm)
    (stamped_moved hsrcmem hsrclive hkeyed.ids s t (c.syncToken + 1) now) ⟨?_, hunique⟩
  · rfl
  · rfl
  have hids : rows.map Resource.resourceID = db.resources.map Resource.resourceID := by
    rw [hlist, List.map_map]
    exact List.map_congr_left fun r _ => moved_id c.id (c.syncToken + 1) r
  rw [hids]
  exact hkeyed.ids

include hkeyed in
theorem change_copyCommit {limits : Limits} {srcID : String} {s t : Path} {overwrite : Bool}
    {copies : String → String × String} {now : Int}
    (h : db.copyCommit limits srcID s collID t overwrite copies now = .ok db') : Change db db' := by
  obtain ⟨c, rows, inserted, hc, -, -, hinserted, rfl⟩ := copyCommit_ok h
  obtain ⟨hmem, rfl, -⟩ := lockCollection_ok hc
  have hkeyed' : Keyed (replaced db c t now) := hkeyed.tombstone
  have hlive : ∀ r ∈ rows.map (Resource.copyTo c.id s t (c.syncToken + 1) copies),
    r.live = true := by
    intro r hr
    obtain ⟨r₀, -, rfl⟩ := List.mem_map.mp hr
    rfl
  obtain ⟨hlist, hkeyed''⟩ := foldlM_insertRow_ok hkeyed' hlive hinserted
  refine Change.advance hmem ?_ ?_ hlist (stamped_tombstone ?_ ?_) hkeyed''
  · rfl
  · rfl
  · exact fun r hr => targetHit_liveIn hr
  · intro r hr
    obtain ⟨r₀, -, rfl⟩ := List.mem_map.mp hr
    exact ⟨rfl, rfl⟩

include hkeyed in
theorem change_call {cfg : Config} {call : Call} (h : db.call cfg call = .ok db') :
    Change db db' := by
  cases call with
  | ensureCollection tenant name id =>
    rcases ensureCollection_ok h with rfl | ⟨hfresh, rfl⟩
    · exact .same
    · exact .created hfresh
  | deleteCollection tenant name force now =>
    rcases deleteCollection_ok h with rfl | ⟨c, hc, -, rfl⟩
    · exact .same
    · let φ (r : Resource) : Resource :=
        if r.liveIn c.id then r.tombstone (c.syncToken + 1) now else r
      have hrows : Stamped db.resources c.id (c.syncToken + 1) φ [] :=
        stamped_tombstone (fun _ h => h) fun _ h => absurd h List.not_mem_nil
      have hkeyed' : Keyed (db.resources.map φ ++ []) := by
        rw [List.append_nil]
        exact hkeyed.tombstone
      have hchange : Change db ⟨update (fun row => row.id == c.id) (fun row =>
          { row with
            deletedAt := some now
            syncToken := c.syncToken + 1
            bytesUsed := 0
            resourceCount := 0 }) db.collections, db.resources.map φ ++ []⟩ :=
        .rows hc (fun _ => ⟨rfl, rfl⟩) hrows hkeyed'
      rw [List.append_nil] at hchange
      exact hchange
  | put collID p size body opts newID key =>
    obtain ⟨q, n, -, hcommit⟩ := put_ok h
    exact change_putCommit hkeyed hcommit
  | mkdir collID p id =>
    obtain ⟨q, c, rows, -, hc, -, hrows, rfl⟩ := mkdir_ok h
    refine change_insert hkeyed hc ?_ rfl hrows rfl rfl
    simp [Resource.liveIn, Resource.live]
  | delete collID p opts now =>
    obtain ⟨q, hdelete⟩ := delete_ok h
    exact change_deleteWhere hkeyed hdelete
  | deleteByID collID resID opts now => exact change_deleteWhere hkeyed h
  | move collID source target overwrite now => exact change_move hkeyed h
  | copyBetween srcID source collID target overwrite copies now =>
    obtain ⟨s, t, -, -, hcommit⟩ := copyBetween_ok h
    exact change_copyCommit hkeyed hcommit

end Changes

section Histories

variable {cfg : Config} {db db' : Index}

/-- The keys of both tables. -/
structure Tables (db : Index) : Prop where
  keyed : Keyed db.resources
  ids : (db.collections.map Collection.id).Nodup

theorem Change.tables (h : Change db db') (htables : Tables db) : Tables db' := by
  cases h with
  | same => exact htables
  | created hfresh =>
    refine ⟨htables.keyed, ?_⟩
    exact nodup_insert htables.ids hfresh
  | @rows c set φ new hc hset hstamped hkeyed =>
    refine ⟨hkeyed, ?_⟩
    rw [map_update fun row => (hset row).1]
    exact htables.ids

theorem Change.since (h : Change db db') (htables : Tables db) {c : Collection}
    (hc : c ∈ db.collections) :
    ∃ c' ∈ db'.collections, c'.id = c.id ∧ c.syncToken ≤ c'.syncToken ∧
      Since c.syncToken c.id db.resources db'.resources := by
  cases h with
  | same => exact ⟨c, hc, rfl, Nat.le_refl _, .refl _ _ _⟩
  | created hfresh => exact ⟨c, List.mem_append_left _ hc, rfl, Nat.le_refl _, .refl _ _ _⟩
  | @rows locked set φ new hlocked hset hstamped hkeyed =>
    have hsince : Since c.syncToken c.id db.resources (db.resources.map φ ++ new) := by
      apply hstamped.since
      intro hid
      rw [eq_of_key htables.ids hc hlocked hid]
      exact Nat.lt_succ_self _
    by_cases hid : c.id = locked.id
    · have heq := eq_of_key htables.ids hc hlocked hid
      refine ⟨set c, mem_update.mpr ⟨c, hc, if_pos (beq_iff_eq.mpr hid)⟩, (hset c).1, ?_, hsince⟩
      rw [(hset c).2, heq]
      exact Nat.le_succ _
    · exact ⟨c, mem_update.mpr ⟨c, hc, if_neg (by simpa using hid)⟩, rfl, Nat.le_refl _, hsince⟩

theorem change_step (cfg : Config) (htables : Tables db) (call : Call) :
    Change db (db.step cfg call) := by
  rw [Index.step]
  split
  · next db' h => exact change_call htables.keyed h
  · exact .same

theorem tables_run (cfg : Config) (calls : List Call) :
    Tables (calls.foldl (Index.step cfg) .empty) := by
  apply foldl_invariant (I := Tables) (R := fun _ => True)
  · exact fun db call htables _ => (change_step cfg htables call).tables htables
  · exact ⟨inv_empty.tree.toKeyed, inv_empty.ids⟩
  · exact fun _ _ => trivial

theorem since_run (htables : Tables db) {c : Collection} (hc : c ∈ db.collections)
    (calls : List Call) :
    Since c.syncToken c.id db.resources (calls.foldl (Index.step cfg) db).resources := by
  have hrun : Tables (calls.foldl (Index.step cfg) db) ∧
      ∃ c' ∈ (calls.foldl (Index.step cfg) db).collections, c'.id = c.id ∧
        c.syncToken ≤ c'.syncToken ∧
        Since c.syncToken c.id db.resources (calls.foldl (Index.step cfg) db).resources := by
    apply foldl_invariant (I := fun db' : Index => Tables db' ∧
      ∃ c' ∈ db'.collections, c'.id = c.id ∧
      c.syncToken ≤ c'.syncToken ∧ Since c.syncToken c.id db.resources db'.resources)
      (R := fun _ => True)
    · rintro db' call ⟨htables', c', hc', hid, hle, hsince⟩ _
      have hchange := change_step cfg htables' call
      obtain ⟨c'', hc'', hid', hle', hsince'⟩ := hchange.since htables' hc'
      rw [hid] at hsince'
      exact ⟨hchange.tables htables', c'', hc'', hid'.trans hid, Nat.le_trans hle hle',
        hsince.trans hsince' hle⟩
    · exact ⟨htables, c, hc, rfl, Nat.le_refl _, .refl _ _ _⟩
    · exact fun _ _ => trivial
  obtain ⟨-, -, -, -, -, hsince⟩ := hrun
  exact hsince

theorem list_changesSince (hnfc : cfg.nfc [] = [])
    (hids : (db.resources.map Resource.resourceID).Nodup) (collID : String) (token : Nat) :
    ∃ changes, db.list cfg.nfc collID (changesSince token) = .ok changes ∧
      (changes.map Resource.resourceID).Nodup ∧
      ∀ r, r ∈ changes ↔
        r ∈ db.resources ∧ r.collectionID = collID ∧ (token = 0 ∨ token < r.modSeq) := by
  have hroot : normalizePath cfg.nfc (some []) = .ok [] := by
    simp [normalizePath, hnfc, trimSlashes, pure, Except.pure]
  refine ⟨_, by rw [Index.list, changesSince, hroot]; rfl, ?_, ?_⟩
  · rw [if_pos rfl, (List.Perm.map _ (List.mergeSort_perm _ _)).nodup_iff]
    exact hids.sublist (List.filter_sublist.map _)
  · intro r
    rw [if_pos rfl, List.mem_mergeSort, List.mem_filter]
    simp

/-- A mirror of a collection as of one of its tokens, brought up to date by what changed since, is
the mirror of the collection as it is. -/
theorem mirror_synced (cfg : Config) (hnfc : cfg.nfc [] = []) (before after : List Call)
    (c : Collection) (hc : c ∈ (before.foldl (Index.step cfg) .empty).collections) :
    ∃ changes, ((before ++ after).foldl (Index.step cfg) .empty).list cfg.nfc c.id
        (changesSince c.syncToken) = .ok changes ∧
      changes.foldl Mirror.apply
          (mirrorOf (before.foldl (Index.step cfg) .empty).resources c.id) =
        mirrorOf ((before ++ after).foldl (Index.step cfg) .empty).resources c.id := by
  have htables := tables_run cfg before
  have hids := (tables_run cfg (before ++ after)).keyed.ids
  obtain ⟨changes, hlist, hnodup, hchanges⟩ := list_changesSince hnfc hids c.id c.syncToken
  refine ⟨changes, hlist, foldl_apply_mirrorOf htables.keyed.ids hids ?_ hnodup hchanges⟩
  rw [List.foldl_append]
  exact since_run htables hc after

/-- A mirror from before the rename. -/
theorem mirror_synced_renames :
    ∃ changes, ((renames docs).foldl (Index.step unlimited) .empty).list unlimited.nfc "dc_1"
        (changesSince 2) = .ok changes ∧
      changes.foldl Mirror.apply
          (mirrorOf (((renames docs).take 3).foldl (Index.step unlimited) .empty).resources
            "dc_1") =
        mirrorOf ((renames docs).foldl (Index.step unlimited) .empty).resources "dc_1" := by
  obtain ⟨c, hc, hid, htoken⟩ :
      ∃ c ∈ (((renames docs).take 3).foldl (Index.step unlimited) .empty).collections,
        c.id = "dc_1" ∧ c.syncToken = 2 := by
    decide +kernel
  have hsynced := mirror_synced unlimited rfl ((renames docs).take 3) ((renames docs).drop 3) c hc
  rw [List.take_append_drop, hid, htoken] at hsynced
  exact hsynced

end Histories

end ThanksComputer.Drive
