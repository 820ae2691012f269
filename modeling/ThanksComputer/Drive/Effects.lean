import ThanksComputer.Drive.Index
import ThanksComputer.Lib.Checks

/-! What each call of a drive does to the index where it succeeds. -/

namespace ThanksComputer.Drive

open Lib.Checks Lib.Table

section Queries

variable {db : Index} {collID : String} {p : Path}

theorem liveIn_iff {r : Resource} :
    r.liveIn collID = true ↔ r.collectionID = collID ∧ r.live = true := by
  rw [Resource.liveIn, Bool.and_eq_true, beq_iff_eq]

theorem lockCollection_ok {c : Collection} (h : db.lockCollection collID = .ok c) :
    c ∈ db.collections ∧ c.id = collID ∧ c.deletedAt = none := by
  unfold Index.lockCollection at h
  split at h
  · next c' hfind =>
    cases h
    have hmatch := List.find?_some hfind
    rw [Bool.and_eq_true, beq_iff_eq, Option.isNone_iff_eq_none] at hmatch
    exact ⟨List.mem_of_find?_eq_some hfind, hmatch.1, hmatch.2⟩
  · cases h

theorem getResource_some {r : Resource} (h : db.getResource collID p = some r) :
    r ∈ db.resources ∧ r.liveIn collID = true ∧ r.path = p := by
  have hmatch := List.find?_some h
  rw [Bool.and_eq_true, beq_iff_eq] at hmatch
  exact ⟨List.mem_of_find?_eq_some h, hmatch.1, hmatch.2⟩

theorem getResource_none (h : db.getResource collID p = none) {r : Resource}
    (hr : r ∈ db.resources) (hlive : r.liveIn collID = true) : r.path ≠ p := by
  intro hp
  have hno := List.find?_eq_none.mp h r hr
  rw [hlive, hp, beq_self_eq_true] at hno
  exact hno rfl

theorem requireParent_ok (h : db.requireParent collID p = .ok ()) :
    parentOf p = [] ∨
      ∃ q ∈ db.resources, q.liveIn collID = true ∧ q.path = parentOf p ∧ q.kind = .dir := by
  unfold Index.requireParent at h
  split at h
  · next hroot => exact .inl hroot
  · split at h
    · cases h
    · next q hq =>
      split at h
      · next hdir =>
        obtain ⟨hmem, hlive, hpath⟩ := getResource_some hq
        exact .inr ⟨q, hmem, hlive, hpath, hdir⟩
      · cases h

theorem mem_listQ {r : Resource} :
    r ∈ db.listQ collID p ↔ r ∈ db.resources ∧ r.liveIn collID = true ∧
    likeBelow p r.path = true := by
  rw [Index.listQ, List.mem_mergeSort, List.mem_filter, Bool.and_eq_true]

end Queries

section Rows

variable {rows rows' : List Resource}

/-- The rows have ids of their own, and the live ones paths of their own. -/
structure Keyed (rows : List Resource) : Prop where
  ids : (rows.map Resource.resourceID).Nodup
  paths : livePathsUnique rows

theorem insertRow_ok (h : Keyed rows) {r : Resource} (hr : r.live = true)
    (hins : insertRow rows r = .ok rows') : rows' = rows ++ [r] ∧ Keyed rows' := by
  unfold insertRow at hins
  rw [check_eq_ok] at hins
  obtain ⟨hfree, hins⟩ := hins
  cases hins
  have hfree : ∀ q ∈ rows, q.resourceID ≠ r.resourceID ∧
      (q.liveIn r.collectionID = true → q.path ≠ r.path) := by
    intro q hq
    rw [List.any_eq_true, not_exists] at hfree
    have hno := hfree q
    simp only [hq, true_and, Bool.or_eq_true, Bool.and_eq_true, beq_iff_eq, not_or, not_and] at hno
    exact hno
  refine ⟨rfl, ?_, ?_⟩
  · exact nodup_insert h.ids fun q hq => (hfree q hq).1
  · rw [livePathsUnique, List.filter_append, List.map_append, List.nodup_append]
    refine ⟨h.paths, by simp [hr], fun a ha b hb hab => ?_⟩
    obtain ⟨q, hq, rfl⟩ := List.mem_map.mp ha
    obtain ⟨hq, hlive⟩ := List.mem_filter.mp hq
    have hb : b = (r.collectionID, r.path) := by simpa [hr] using hb
    rw [hb, Prod.mk.injEq] at hab
    exact (hfree q hq).2 (liveIn_iff.mpr ⟨hab.1, hlive⟩) hab.2

theorem foldlM_insertRow_ok (h : Keyed rows) {new : List Resource} (hnew : ∀ r ∈ new, r.live = true)
    (hins : new.foldlM insertRow rows = .ok rows') : rows' = rows ++ new ∧ Keyed rows' := by
  induction new generalizing rows with
  | nil =>
    cases hins
    exact ⟨(List.append_nil _).symm, h⟩
  | cons r new ih =>
    rw [List.forall_mem_cons] at hnew
    rw [List.foldlM_cons] at hins
    obtain ⟨mid, hmid, hins⟩ := bind_eq_ok.mp hins
    obtain ⟨rfl, hkeyed⟩ := insertRow_ok h hnew.1 hmid
    obtain ⟨rfl, hkeyed'⟩ := ih hkeyed hnew.2 hins
    exact ⟨by rw [List.append_assoc]; rfl, hkeyed'⟩

theorem updateRows_ok {cond : Resource → Bool} {set : Resource → Resource}
    (h : updateRows cond set rows = .ok rows') :
    rows' = update cond set rows ∧ livePathsUnique rows' := by
  unfold updateRows at h
  split at h
  · next hunique =>
    cases h
    exact ⟨rfl, hunique⟩
  · cases h


end Rows

section Subtrees

variable {db : Index} {collID : String}

def targetHit (db : Index) (collID : String) (target : Path) (r : Resource) : Bool :=
  (db.getResource collID target).any fun dst => inSubtree collID target dst.kind r

def Collection.without (c : Collection) (hit : Resource → Bool) (rows : List Resource) :
    Collection :=
  { c with
    resourceCount := c.resourceCount - (rows.filter hit).length
    bytesUsed := c.bytesUsed - ((rows.filter hit).map Resource.size).sum }

theorem inSubtree_liveIn {p : Path} {kind : Kind} {r : Resource}
    (h : inSubtree collID p kind r = true) : r.liveIn collID = true := by
  rw [inSubtree, Bool.and_eq_true] at h
  exact h.1

theorem targetHit_liveIn {target : Path} {r : Resource} (h : targetHit db collID target r = true) :
    r.liveIn collID = true := by
  rw [targetHit, Option.any_eq_true] at h
  obtain ⟨dst, -, hdst⟩ := h
  exact inSubtree_liveIn hdst

theorem replaceDestination_ok {c c' : Collection} {db' : Index} {target : Path} {overwrite : Bool}
    {now : Int} (h : replaceDestination db c target overwrite now = .ok (c', db')) :
    c' = c.without (targetHit db c.id target) db.resources ∧
      db' = { db with
        resources := update (targetHit db c.id target) (Resource.tombstone c.syncToken now)
          db.resources } := by
  unfold replaceDestination at h
  split at h
  · next hnone =>
    cases h
    have hno : targetHit db c.id target = fun _ => false := by
      funext r
      rw [targetHit, hnone]
      rfl
    rw [hno, Collection.without, update]
    simp
  · next dst hdst =>
    have hhit : targetHit db c.id target = inSubtree c.id target dst.kind := by
      funext r
      rw [targetHit, hdst]
      rfl
    rw [check_eq_ok] at h
    obtain ⟨-, h⟩ := h
    cases h
    rw [hhit]
    exact ⟨rfl, rfl⟩

end Subtrees

section Calls

variable {nfc : Path → Path} {limits : Limits} {db db' : Index} {collID : String}

theorem normalizeNonRoot_ok {reason : String} {p : Option Path} {q : Path}
    (h : normalizeNonRoot nfc reason p = .ok q) : q ≠ [] := by
  unfold normalizeNonRoot at h
  obtain ⟨q, -, h⟩ := bind_eq_ok.mp h
  obtain ⟨hne, h⟩ := check_eq_ok.mp h
  cases h
  exact hne

theorem putCommit_ok {p : Path} {opts : WriteOpts} {up : Upload}
    (h : db.putCommit limits collID p opts up = .ok db') :
    db' = db ∨ ∃ c, db.lockCollection collID = .ok c ∧
      ((∃ cur, db.getResource collID p = some cur ∧ cur.kind = .file ∧
          db' = Index.advance { db with
            resources := update (fun r => r.resourceID == cur.resourceID) (fun r =>
              { r with
                objectKey := some up.key
                size := up.size
                etag := up.etag
                modSeq := c.syncToken + 1 }) db.resources }
            { c with
              syncToken := c.syncToken + 1
              bytesUsed := c.bytesUsed + up.size - cur.size }) ∨
        db.requireParent collID p = .ok () ∧ ∃ rows,
          insertRow db.resources
            ⟨up.newID, collID, p, parentOf p, depthOf p, .file, some up.key, up.size,
            up.etag, c.syncToken + 1, none⟩ = .ok rows ∧
          db' = Index.advance { db with resources := rows }
            { c with
              syncToken := c.syncToken + 1
              bytesUsed := c.bytesUsed + up.size
              resourceCount := c.resourceCount + 1 }) := by
  unfold Index.putCommit at h
  obtain ⟨c, hc, h⟩ := bind_eq_ok.mp h
  obtain ⟨_, hparent, h⟩ := bind_eq_ok.mp h
  obtain ⟨hkind, h⟩ := check_eq_ok.mp h
  obtain ⟨_, -, h⟩ := bind_eq_ok.mp h
  split at h
  · cases h
    exact .inl rfl
  obtain ⟨-, h⟩ := check_eq_ok.mp h
  obtain ⟨-, h⟩ := check_eq_ok.mp h
  refine .inr ⟨c, hc, ?_⟩
  split at h
  · next cur hcur =>
    cases h
    refine .inl ⟨cur, hcur, ?_, ?_⟩
    · rw [hcur] at hkind
      cases hfile : cur.kind with
      | file => rfl
      | dir => simp [hfile] at hkind
    · rw [hcur]
      rfl
  · next hcur =>
    obtain ⟨rows, hrows, h⟩ := bind_eq_ok.mp h
    cases h
    refine .inr ⟨hparent, rows, hrows, ?_⟩
    rw [hcur]
    simp

theorem put_ok {p : Option Path} {size : Int} {body : Body} {opts : WriteOpts} {newID key : String}
    (h : db.put nfc limits collID p size body opts newID key = .ok db') :
    ∃ q n, q ≠ [] ∧ db.putCommit limits collID q opts ⟨newID, key, n, body.etag⟩ = .ok db' := by
  unfold Index.put at h
  obtain ⟨q, hq, h⟩ := bind_eq_ok.mp h
  obtain ⟨n, -, h⟩ := bind_eq_ok.mp h
  refine ⟨q, n, ?_, h⟩
  unfold Index.putPrepare at hq
  obtain ⟨q', hq', hq⟩ := bind_eq_ok.mp hq
  obtain ⟨-, hq⟩ := check_eq_ok.mp hq
  obtain ⟨-, hq⟩ := check_eq_ok.mp hq
  obtain ⟨_, -, hq⟩ := bind_eq_ok.mp hq
  obtain ⟨_, -, hq⟩ := bind_eq_ok.mp hq
  obtain ⟨-, hq⟩ := check_eq_ok.mp hq
  obtain ⟨_, -, hq⟩ := bind_eq_ok.mp hq
  cases hq
  exact normalizeNonRoot_ok hq'

theorem mkdir_ok {p : Option Path} {id : String} (h : db.mkdir nfc limits collID p id = .ok db') :
    ∃ q c rows, q ≠ [] ∧ db.lockCollection collID = .ok c ∧ db.requireParent collID q = .ok () ∧
      insertRow db.resources ⟨id, collID, q, parentOf q, depthOf q, .dir, none, 0, [],
        c.syncToken + 1,
        none⟩ = .ok rows ∧
      db' = Index.advance { db with resources := rows }
        { c with syncToken := c.syncToken + 1, resourceCount := c.resourceCount + 1 } := by
  unfold Index.mkdir at h
  obtain ⟨q, hq, h⟩ := bind_eq_ok.mp h
  obtain ⟨c, hc, h⟩ := bind_eq_ok.mp h
  obtain ⟨_, hparent, h⟩ := bind_eq_ok.mp h
  obtain ⟨-, h⟩ := check_eq_ok.mp h
  obtain ⟨-, h⟩ := check_eq_ok.mp h
  obtain ⟨rows, hrows, h⟩ := bind_eq_ok.mp h
  cases h
  exact ⟨q, c, rows, normalizeNonRoot_ok hq, hc, hparent, hrows, rfl⟩

theorem deleteWhere_ok {opts : WriteOpts} {found : Option Resource} {now : Int}
    (h : db.deleteWhere collID opts found now = .ok db') :
    ∃ c cur, db.lockCollection collID = .ok c ∧ found = some cur ∧
      db' = Index.advance { db with
        resources := update (inSubtree collID cur.path cur.kind)
          (Resource.tombstone (c.syncToken + 1) now) db.resources }
        { c with
          syncToken := c.syncToken + 1
          resourceCount :=
            max 0 (c.without (inSubtree collID cur.path cur.kind) db.resources).resourceCount
          bytesUsed :=
            max 0 (c.without (inSubtree collID cur.path cur.kind) db.resources).bytesUsed } := by
  unfold Index.deleteWhere at h
  obtain ⟨c, hc, h⟩ := bind_eq_ok.mp h
  cases found with
  | none => cases h
  | some cur =>
    obtain ⟨_, -, h⟩ := bind_eq_ok.mp h
    cases h
    exact ⟨c, cur, hc, rfl, rfl⟩

theorem delete_ok {p : Option Path} {opts : WriteOpts} {now : Int}
    (h : db.delete nfc collID p opts now = .ok db') :
    ∃ q, db.deleteWhere collID opts (db.getResource collID q) now = .ok db' := by
  unfold Index.delete at h
  obtain ⟨q, -, h⟩ := bind_eq_ok.mp h
  exact ⟨q, h⟩

/-- The rows of the index once the target of a move is out of its way. -/
def replaced (db : Index) (c : Collection) (target : Path) (now : Int) : List Resource :=
  update (targetHit db c.id target) (Resource.tombstone (c.syncToken + 1) now) db.resources

theorem move_ok {source target : Option Path} {overwrite : Bool} {now : Int}
    (h : db.move nfc collID source target overwrite now = .ok db') :
    ∃ s t c src rows, checkMoveCopyPaths nfc source target = .ok (s, t) ∧
      db.lockCollection collID = .ok c ∧ db.getResource collID s = some src ∧
      db.requireParent collID t = .ok () ∧
      moveRows (replaced db c t now) collID src s t (c.syncToken + 1) = .ok rows ∧
      db' = Index.advance { db with resources := rows }
        ({ c with syncToken := c.syncToken + 1 }.without (targetHit db collID t) db.resources) := by
  unfold Index.move at h
  obtain ⟨paths, hpaths, h⟩ := bind_eq_ok.mp h
  obtain ⟨c, hc, h⟩ := bind_eq_ok.mp h
  split at h
  · cases h
  next src hsrc =>
  obtain ⟨_, hparent, h⟩ := bind_eq_ok.mp h
  obtain ⟨out, hout, h⟩ := bind_eq_ok.mp h
  obtain ⟨rows, hrows, h⟩ := bind_eq_ok.mp h
  cases h
  obtain ⟨hc', hdb'⟩ := replaceDestination_ok hout
  have hid : c.id = collID := (lockCollection_ok hc).2.1
  refine ⟨paths.1, paths.2, c, src, rows, hpaths, hc, hsrc, hparent, ?_, ?_⟩
  · rw [hc', hdb'] at hrows
    exact hrows
  · rw [hc', hdb', hid]

theorem moveRows_ok {rows rows' : List Resource} {src : Resource} {s t : Path} {token : Nat}
    (h : moveRows rows collID src s t token = .ok rows') :
    rows' = update (fun r => r.resourceID == src.resourceID) (Resource.placeAt t token)
        (update (fun r => src.kind == .dir && r.liveIn collID && likeBelow s r.path)
          (Resource.relocate s t token) rows) ∧
      livePathsUnique rows' := by
  unfold moveRows at h
  dsimp only at h
  split at h
  · next hdir =>
    obtain ⟨below, hbelow, h⟩ := bind_eq_ok.mp h
    obtain ⟨rfl, -⟩ := updateRows_ok hbelow
    rw [hdir]
    exact updateRows_ok h
  · next hfile =>
    simpa [update, hfile] using updateRows_ok h

theorem checkMoveCopyPaths_ok {source target : Option Path} {s t : Path}
    (h : checkMoveCopyPaths nfc source target = .ok (s, t)) :
    s ≠ [] ∧ t ≠ [] ∧ s ≠ t ∧ isInside t s = false := by
  unfold checkMoveCopyPaths at h
  obtain ⟨s', -, h⟩ := bind_eq_ok.mp h
  obtain ⟨t', -, h⟩ := bind_eq_ok.mp h
  obtain ⟨hroot, h⟩ := check_eq_ok.mp h
  obtain ⟨hcycle, h⟩ := check_eq_ok.mp h
  cases h
  rw [not_or] at hroot hcycle
  exact ⟨hroot.1, hroot.2, hcycle.1, (Bool.not_eq_true _).mp hcycle.2⟩

theorem copyPaths_ok {srcID : String} {source target : Option Path} {s t : Path}
    (h : copyPaths nfc srcID collID source target = .ok (s, t)) : s ≠ [] ∧ t ≠ [] := by
  unfold copyPaths at h
  split at h
  · obtain ⟨hs, ht, -⟩ := checkMoveCopyPaths_ok h
    exact ⟨hs, ht⟩
  · obtain ⟨s', -, h⟩ := bind_eq_ok.mp h
    obtain ⟨t', -, h⟩ := bind_eq_ok.mp h
    obtain ⟨hroot, h⟩ := check_eq_ok.mp h
    cases h
    rw [not_or] at hroot
    exact hroot

theorem copySource_ok {srcID : String} {s : Path} {rows : List Resource}
    (h : db.copySource srcID s = .ok rows) :
    ∃ src, db.getResource srcID s = some src ∧
      rows = src :: if src.kind = .dir then db.listQ srcID s else [] := by
  unfold Index.copySource at h
  split at h
  · cases h
  · next src hsrc =>
    cases h
    exact ⟨src, hsrc, rfl⟩

theorem copyCommit_ok {srcID : String} {s t : Path} {overwrite : Bool}
    {copies : String → String × String} {now : Int}
    (h : db.copyCommit limits srcID s collID t overwrite copies now = .ok db') :
    ∃ c rows inserted, db.lockCollection collID = .ok c ∧ db.copySource srcID s = .ok rows ∧
      db.requireParent collID t = .ok () ∧
      (rows.map (Resource.copyTo collID s t (c.syncToken + 1) copies)).foldlM insertRow
        (replaced db c t now) = .ok inserted ∧
      db' = Index.advance { db with resources := inserted }
        { c with
          syncToken := c.syncToken + 1
          resourceCount := (c.without (targetHit db collID t) db.resources).resourceCount +
            rows.length
          bytesUsed := (c.without (targetHit db collID t) db.resources).bytesUsed +
            (rows.map Resource.size).sum } := by
  unfold Index.copyCommit at h
  obtain ⟨c, hc, h⟩ := bind_eq_ok.mp h
  obtain ⟨rows, hrows, h⟩ := bind_eq_ok.mp h
  obtain ⟨_, hparent, h⟩ := bind_eq_ok.mp h
  obtain ⟨-, h⟩ := check_eq_ok.mp h
  obtain ⟨-, h⟩ := check_eq_ok.mp h
  obtain ⟨out, hout, h⟩ := bind_eq_ok.mp h
  obtain ⟨inserted, hinserted, h⟩ := bind_eq_ok.mp h
  cases h
  obtain ⟨hc', hdb'⟩ := replaceDestination_ok hout
  have hid : c.id = collID := (lockCollection_ok hc).2.1
  refine ⟨c, rows, inserted, hc, hrows, hparent, ?_, ?_⟩
  · rw [hc', hdb'] at hinserted
    exact hinserted
  · rw [hc', hdb', hid]
    rfl

theorem copyPrepare_ok {srcID : String} {source target : Option Path}
    {out : Path × Path × List Resource}
    (h : db.copyPrepare nfc srcID source collID target = .ok out) :
    out.1 ≠ [] ∧ out.2.1 ≠ [] ∧ db.copySource srcID out.1 = .ok out.2.2 := by
  unfold Index.copyPrepare at h
  obtain ⟨paths, hpaths, h⟩ := bind_eq_ok.mp h
  obtain ⟨hs, ht⟩ := copyPaths_ok hpaths
  obtain ⟨coll, -, h⟩ := bind_eq_ok.mp h
  split at h
  -- Between two collections the tenants are compared; what comes after is the same.
  · obtain ⟨srcColl, -, h⟩ := bind_eq_ok.mp h
    obtain ⟨-, h⟩ := check_eq_ok.mp h
    obtain ⟨snapshot, hsource, h⟩ := bind_eq_ok.mp h
    obtain ⟨_, -, h⟩ := bind_eq_ok.mp h
    cases h
    exact ⟨hs, ht, hsource⟩
  · obtain ⟨snapshot, hsource, h⟩ := bind_eq_ok.mp h
    obtain ⟨_, -, h⟩ := bind_eq_ok.mp h
    cases h
    exact ⟨hs, ht, hsource⟩

theorem copyBetween_ok {srcID : String} {source target : Option Path} {overwrite : Bool}
    {copies : String → String × String} {now : Int}
    (h : db.copyBetween nfc limits srcID source collID target overwrite copies now = .ok db') :
    ∃ s t, s ≠ [] ∧ t ≠ [] ∧
      db.copyCommit limits srcID s collID t overwrite copies now = .ok db' := by
  unfold Index.copyBetween at h
  obtain ⟨out, hout, h⟩ := bind_eq_ok.mp h
  obtain ⟨hs, ht, -⟩ := copyPrepare_ok hout
  exact ⟨out.1, out.2.1, hs, ht, h⟩

theorem deleteCollection_ok {tenant : String} {name : List Char} {force : Bool} {now : Int}
    (h : db.deleteCollection tenant name force now = .ok db') :
    db' = db ∨ ∃ c ∈ db.collections, c.deletedAt = none ∧
      db' =
        { resources := update (Resource.liveIn c.id) (Resource.tombstone (c.syncToken + 1) now)
            db.resources
          collections := update (fun row => row.id == c.id) (fun row =>
            { row with
              deletedAt := some now
              syncToken := c.syncToken + 1
              bytesUsed := 0
              resourceCount := 0 }) db.collections } := by
  unfold Index.deleteCollection at h
  dsimp only at h
  split at h
  · cases h
    exact .inl rfl
  · next c hfind =>
    rw [check_eq_ok] at h
    obtain ⟨-, h⟩ := h
    cases h
    have hmatch := List.find?_some hfind
    simp only [Bool.and_eq_true, Option.isNone_iff_eq_none] at hmatch
    exact .inr ⟨c, List.mem_of_find?_eq_some hfind, hmatch.2, rfl⟩

theorem ensureCollection_ok {tenant : String} {name : List Char} {id : String}
    (h : db.ensureCollection tenant name id = .ok db') :
    db' = db ∨ (∀ c ∈ db.collections, c.id ≠ id) ∧
      db' = { db with
        collections := db.collections ++ [⟨id, tenant, Guard.trimSpace name, 0, 0, 0, none⟩] } := by
  unfold Index.ensureCollection at h
  dsimp only at h
  rw [check_eq_ok] at h
  obtain ⟨-, h⟩ := h
  split at h
  · cases h
    exact .inl rfl
  · rw [check_eq_ok] at h
    obtain ⟨hfree, h⟩ := h
    cases h
    refine .inr ⟨fun c hc hid => hfree ?_, rfl⟩
    exact List.any_eq_true.mpr ⟨c, hc, beq_iff_eq.mpr hid⟩

end Calls

end ThanksComputer.Drive
