import ThanksComputer.Drive.Move
import ThanksComputer.Lib.Runs

/-! The index stays consistent under every call: its rows are trees, and the counters of a
collection are those of its live rows. -/

namespace ThanksComputer.Drive

open Lib (byteLen)
open Lib.Runs Lib.Table

def liveCount (rows : List Resource) (collID : String) : Nat :=
  (rows.filter (Resource.liveIn collID)).length

def liveBytes (rows : List Resource) (collID : String) : Nat :=
  ((rows.filter (Resource.liveIn collID)).map Resource.size).sum

structure Counts (c : Collection) (rows : List Resource) : Prop where
  count : c.resourceCount = liveCount rows c.id
  bytes : c.bytesUsed = liveBytes rows c.id

/-- What holds of the index. -/
structure Consistent (db : Index) : Prop where
  tree : Tree db.resources
  counts : ∀ c ∈ db.collections, Counts c db.resources

structure Inv (db : Index) : Prop extends Consistent db where
  ids : (db.collections.map Collection.id).Nodup
  known : ∀ r ∈ db.resources, ∃ c ∈ db.collections, c.id = r.collectionID

section Tallies

variable {rows : List Resource} {φ : Resource → Resource} {collID : String}

def SameElsewhere (rows rows' : List Resource) (collID : String) : Prop :=
  ∀ id, id ≠ collID → liveCount rows' id = liveCount rows id ∧
    liveBytes rows' id = liveBytes rows id

theorem liveCount_map {p : Resource → Bool} (hφ : ∀ r ∈ rows, (φ r).liveIn collID = p r) :
    liveCount (rows.map φ) collID = (rows.filter p).length := by
  rw [liveCount, List.filter_map, List.length_map]
  congr 1
  exact List.filter_congr hφ

theorem liveBytes_map {p : Resource → Bool} (hφ : ∀ r ∈ rows, (φ r).liveIn collID = p r)
    (hsize : ∀ r, (φ r).size = r.size) :
    liveBytes (rows.map φ) collID = ((rows.filter p).map Resource.size).sum := by
  rw [liveBytes, List.filter_map, List.map_map]
  have hfun : Resource.size ∘ φ = Resource.size := by
    funext r
    exact hsize r
  rw [hfun]
  congr 2
  exact List.filter_congr hφ

theorem liveCount_append (new : List Resource) :
    liveCount (rows ++ new) collID = liveCount rows collID + liveCount new collID := by
  rw [liveCount, List.filter_append, List.length_append]
  rfl

theorem liveBytes_append (new : List Resource) :
    liveBytes (rows ++ new) collID = liveBytes rows collID + liveBytes new collID := by
  rw [liveBytes, List.filter_append, List.map_append, List.sum_append]
  rfl

theorem filter_liveIn_self {new : List Resource} (hnew : ∀ r ∈ new, r.liveIn collID = true) :
    new.filter (Resource.liveIn collID) = new :=
  List.filter_eq_self.mpr hnew

theorem sameElsewhere_append {new : List Resource} (hnew : ∀ r ∈ new, r.collectionID = collID) :
    SameElsewhere rows (rows ++ new) collID := by
  intro id hid
  have hnone : new.filter (Resource.liveIn id) = [] := by
    apply List.filter_eq_nil_iff.mpr
    intro r hr hlive
    exact hid ((liveIn_iff.mp hlive).1.symm.trans (hnew r hr))
  rw [liveCount_append, liveBytes_append, liveCount, liveBytes, liveCount, liveBytes, hnone]
  exact ⟨rfl, rfl⟩

theorem SameElsewhere.trans {rows rows' rows'' : List Resource}
    (h : SameElsewhere rows rows' collID) (h' : SameElsewhere rows' rows'' collID) :
    SameElsewhere rows rows'' collID := by
  intro id hid
  exact ⟨(h' id hid).1.trans (h id hid).1, (h' id hid).2.trans (h id hid).2⟩

theorem sameElsewhere_map {out : Resource → Bool}
    (hφ : ∀ r ∈ rows, ∀ id, (φ r).liveIn id = (r.liveIn id && !out r))
    (hout : ∀ r ∈ rows, out r = true → r.liveIn collID = true)
    (hsize : ∀ r, (φ r).size = r.size) : SameElsewhere rows (rows.map φ) collID := by
  intro id hid
  have hkeep : ∀ r ∈ rows, (φ r).liveIn id = r.liveIn id := by
    intro r hr
    rw [hφ r hr id]
    cases hgone : out r with
    | false => simp
    | true =>
      have hforeign : r.liveIn id = false := by
        apply (Bool.not_eq_true _).mp
        intro hlive
        exact hid ((liveIn_iff.mp hlive).1.symm.trans (liveIn_iff.mp (hout r hr hgone)).1)
      rw [hforeign]
      rfl
  exact ⟨liveCount_map hkeep, liveBytes_map hkeep hsize⟩

theorem counts_map {c : Collection} {out : Resource → Bool} (h : Counts c rows)
    (hφ : ∀ r ∈ rows, (φ r).liveIn c.id = (r.liveIn c.id && !out r))
    (hout : ∀ r ∈ rows, out r = true → r.liveIn c.id = true)
    (hsize : ∀ r, (φ r).size = r.size) : Counts (c.without out rows) (rows.map φ) := by
  refine ⟨?_, ?_⟩
  · have hsplit := length_filter_split hout
    have hcount := h.count
    change c.resourceCount - (rows.filter out).length = liveCount (rows.map φ) c.id
    rw [liveCount_map hφ]
    rw [liveCount] at hcount
    omega
  · have hsplit := sum_filter_split Resource.size hout
    have hbytes := h.bytes
    change c.bytesUsed - ((rows.filter out).map Resource.size).sum = liveBytes (rows.map φ) c.id
    rw [liveBytes_map hφ hsize]
    rw [liveBytes] at hbytes
    omega

theorem counts_append {c : Collection} (h : Counts c rows) {new : List Resource}
    (hnew : ∀ r ∈ new, r.liveIn c.id = true) :
    Counts { c with
      resourceCount := c.resourceCount + new.length
      bytesUsed := c.bytesUsed + (new.map Resource.size).sum } (rows ++ new) := by
  refine ⟨?_, ?_⟩
  · change c.resourceCount + new.length = liveCount (rows ++ new) c.id
    rw [liveCount_append, h.count, liveCount, liveCount, filter_liveIn_self hnew]
    rfl
  · change c.bytesUsed + (new.map Resource.size).sum = liveBytes (rows ++ new) c.id
    rw [liveBytes_append, h.bytes, liveBytes, liveBytes, filter_liveIn_self hnew]
    rfl

section Overwrite

variable {cur : Resource} {set : Resource → Resource}
  (hids : (rows.map Resource.resourceID).Nodup) (hcur : cur ∈ rows)
  (hset : ∀ r, SamePlace r (set r))

include hids hcur hset

theorem counts_overwrite {c : Collection} (h : Counts c rows) (hlive : cur.liveIn c.id = true) :
    Counts { c with bytesUsed := c.bytesUsed + (set cur).size - cur.size }
      (update (fun r => r.resourceID == cur.resourceID) set rows) := by
  refine ⟨?_, ?_⟩
  · change c.resourceCount = liveCount _ c.id
    rw [update, liveCount_map fun r _ => ((hset r).ite _).liveIn c.id]
    exact h.count
  · have hsum := sum_update_key Resource.size hids hcur hlive (((hset cur).liveIn c.id).trans hlive)
    have hbytes := h.bytes
    change c.bytesUsed + (set cur).size - cur.size = liveBytes _ c.id
    rw [liveBytes] at hbytes ⊢
    omega

theorem sameElsewhere_overwrite (hlive : cur.liveIn collID = true) :
    SameElsewhere rows (update (fun r => r.resourceID == cur.resourceID) set rows) collID := by
  intro id hid
  have hkeep : ∀ r ∈ rows, (if r.resourceID == cur.resourceID then set r else r).liveIn id =
      r.liveIn id := fun r _ => ((hset r).ite _).liveIn id
  refine ⟨liveCount_map hkeep, ?_⟩
  have hfilter : rows.filter (Resource.liveIn id ∘ fun r =>
      if r.resourceID == cur.resourceID then set r else r) = rows.filter (Resource.liveIn id) :=
    List.filter_congr hkeep
  rw [liveBytes, liveBytes, update, List.filter_map, List.map_map, hfilter]
  congr 1
  apply List.map_congr_left
  intro r hr
  obtain ⟨hr, hrl⟩ := List.mem_filter.mp hr
  have hother : r.resourceID ≠ cur.resourceID := by
    intro hsame
    obtain rfl := eq_of_key hids hr hcur hsame
    exact hid ((liveIn_iff.mp hrl).1.symm.trans (liveIn_iff.mp hlive).1)
  rw [Function.comp, if_neg (by simpa using hother)]

end Overwrite

end Tallies

section Advance

variable {db : Index} {c c' : Collection} {rows : List Resource}

/-- A call on one collection: the rows are trees, its counters are those of its rows, and the other
collections have the live rows they had. -/
theorem Inv.change (hinv : Inv db) (hc : c ∈ db.collections) {set : Collection → Collection}
    (hset : ∀ row, (set row).id = row.id) (htree : Tree rows)
    (hknown : ∀ r ∈ rows, r.collectionID = c.id ∨
      ∃ q ∈ db.resources, q.collectionID = r.collectionID)
    (hcounts : ∀ row, row.id = c.id → Counts (set row) rows)
    (helse : SameElsewhere db.resources rows c.id) :
    Inv ⟨update (fun row => row.id == c.id) set db.collections, rows⟩ := by
  have hids : (update (fun row => row.id == c.id) set db.collections).map Collection.id =
      db.collections.map Collection.id := map_update hset _
  refine ⟨⟨htree, ?_⟩, ?_, ?_⟩
  · intro row hrow
    obtain ⟨row₀, hrow₀, rfl⟩ := mem_update.mp hrow
    split
    · next hsame => exact hcounts row₀ (beq_iff_eq.mp hsame)
    · next hother =>
      rw [beq_iff_eq] at hother
      have hold := hinv.counts row₀ hrow₀
      obtain ⟨hcount, hbytes⟩ := helse row₀.id hother
      exact ⟨hold.count.trans (by rw [← hcount]), hold.bytes.trans (by rw [← hbytes])⟩
  · rw [hids]
    exact hinv.ids
  · intro r hr
    have hmem : ∀ id, (∃ row ∈ db.collections, row.id = id) →
        ∃ row ∈ update (fun row => row.id == c.id) set db.collections, row.id = id := by
      rintro id ⟨row, hrow, rfl⟩
      have hin : row.id ∈ db.collections.map Collection.id := List.mem_map_of_mem hrow
      rw [← hids] at hin
      exact List.mem_map.mp hin
    apply hmem
    rcases hknown r hr with hnew | ⟨q, hq, hsame⟩
    · exact ⟨c, hc, hnew.symm⟩
    · obtain ⟨row, hrow, hrowid⟩ := hinv.known q hq
      exact ⟨row, hrow, hrowid.trans hsame⟩

theorem Inv.advance (hinv : Inv db) (hc : c ∈ db.collections) (hid : c'.id = c.id)
    (htree : Tree rows)
    (hknown : ∀ r ∈ rows, r.collectionID = c.id ∨
      ∃ q ∈ db.resources, q.collectionID = r.collectionID) (hcounts : Counts c' rows) (helse :
        SameElsewhere db.resources rows c.id) :
    Inv (Index.advance { db with resources := rows } c') := by
  rw [Index.advance, hid]
  refine hinv.change hc (fun _ => rfl) htree hknown (fun row hrow => ⟨?_, ?_⟩) helse
  · change c'.resourceCount = liveCount rows row.id
    rw [hrow, ← hid]
    exact hcounts.count
  · change c'.bytesUsed = liveBytes rows row.id
    rw [hrow, ← hid]
    exact hcounts.bytes

end Advance

section Calls

variable {cfg : Config} {nfc : Path → Path} {limits : Limits} {db db' : Index} {collID : String}

theorem Inv.locked (hinv : Inv db) {c : Collection} (hc : db.lockCollection collID = .ok c) :
    c ∈ db.collections ∧ c.id = collID ∧ Counts c db.resources :=
  ⟨(lockCollection_ok hc).1, (lockCollection_ok hc).2.1, hinv.counts c (lockCollection_ok hc).1⟩

theorem Inv.insert (hinv : Inv db) {c c' : Collection} (hc : db.lockCollection collID = .ok c)
    {new : Resource} (hlive : new.liveIn collID = true)
    (hplace : new.path ≠ [] ∧ new.parentPath = parentOf new.path ∧ new.depth = depthOf new.path)
    (hparent : db.requireParent collID new.path = .ok ()) {rows : List Resource}
    (hrows : insertRow db.resources new = .ok rows) (hid : c'.id = c.id)
    (hcount : c'.resourceCount = c.resourceCount + 1)
    (hbytes : c'.bytesUsed = c.bytesUsed + new.size) :
    Inv (Index.advance { db with resources := rows } c') := by
  obtain ⟨hmem, rfl, hcounts⟩ := hinv.locked hc
  obtain ⟨rfl, hkeyed⟩ := insertRow_ok hinv.tree.toKeyed (live_of_liveIn hlive) hrows
  have hcoll := (liveIn_iff.mp hlive).1
  have hnew : ∀ r ∈ [new], r.liveIn c.id = true := fun r hr => List.mem_singleton.mp hr ▸ hlive
  apply hinv.advance hmem hid
  · apply hinv.tree.append hkeyed
    · exact fun r hr => List.mem_singleton.mp hr ▸ hplace
    · intro r hr
      obtain rfl := List.mem_singleton.mp hr
      rcases requireParent_ok hparent with hroot | ⟨q, hq, hql, hrest⟩
      · exact .inl hroot
      · exact .inr ⟨q, List.mem_append_left _ hq, hcoll ▸ hql, hrest⟩
  · intro r hr
    rcases List.mem_append.mp hr with hr | hr
    · exact .inr ⟨r, hr, rfl⟩
    · exact .inl (List.mem_singleton.mp hr ▸ hcoll)
  · have hadd := counts_append hcounts hnew
    refine ⟨?_, ?_⟩
    · rw [hcount, hid]
      exact hadd.count
    · rw [hbytes, hid]
      exact hadd.bytes
  · exact sameElsewhere_append fun r hr => List.mem_singleton.mp hr ▸ hcoll

theorem inv_mkdir (hinv : Inv db) {p : Option Path} {id : String}
    (h : db.mkdir nfc limits collID p id = .ok db') : Inv db' := by
  obtain ⟨q, c, rows, hq, hc, hparent, hrows, rfl⟩ := mkdir_ok h
  refine hinv.insert hc ?_ ⟨hq, rfl, rfl⟩ hparent hrows rfl rfl ?_
  · simp [Resource.liveIn, Resource.live]
  · exact (Int.add_zero _).symm

theorem inv_putCommit (hinv : Inv db) {p : Path} (hp : p ≠ []) {opts : WriteOpts} {up : Upload}
    (h : db.putCommit limits collID p opts up = .ok db') : Inv db' := by
  rcases putCommit_ok h with rfl | ⟨c, hc, ⟨cur, hcur, -, rfl⟩ | ⟨hparent, rows, hrows, rfl⟩⟩
  · exact hinv
  · obtain ⟨hmem, rfl, hcounts⟩ := hinv.locked hc
    obtain ⟨hcurmem, hcurlive, -⟩ := getResource_some hcur
    let set (r : Resource) : Resource :=
      { r with
        objectKey := some up.key, size := up.size, etag := up.etag,
        modSeq := c.syncToken + 1 }
    have hset : ∀ r, SamePlace r (set r) := fun r => ⟨rfl, rfl, rfl, rfl, rfl, rfl, rfl⟩
    have hcounts' := counts_overwrite hinv.tree.ids hcurmem hset hcounts hcurlive
    refine hinv.advance hmem rfl (hinv.tree.map fun r => (hset r).ite _) ?_
      ⟨hcounts'.count, hcounts'.bytes⟩
      (sameElsewhere_overwrite hinv.tree.ids hcurmem hset hcurlive)
    intro r' hr'
    obtain ⟨r, hr, rfl⟩ := List.mem_map.mp hr'
    exact .inr ⟨r, hr, ((hset r).ite _).collectionID.symm⟩
  · refine hinv.insert hc ?_ ⟨hp, rfl, rfl⟩ hparent hrows rfl rfl rfl
    simp [Resource.liveIn, Resource.live]

theorem inv_deleteWhere (hinv : Inv db) {opts : WriteOpts} {found : Option Resource} {now : Int}
    (hfound : ∀ cur, found = some cur → cur ∈ db.resources ∧ cur.liveIn collID = true)
    (h : db.deleteWhere collID opts found now = .ok db') : Inv db' := by
  obtain ⟨c, cur, hc, hcur, rfl⟩ := deleteWhere_ok h
  obtain ⟨hmem, rfl, hcounts⟩ := hinv.locked hc
  obtain ⟨hcurmem, hcurlive⟩ := hfound cur hcur
  have hout := uprooted_inSubtree hinv.tree hcurmem hcurlive
  have hleft : Counts (c.without (inSubtree c.id cur.path cur.kind) db.resources)
      (update (inSubtree c.id cur.path cur.kind) (Resource.tombstone (c.syncToken + 1) now)
        db.resources) := by
    apply counts_map hcounts (fun r _ => liveIn_tombstone c.id r) hout.live
    intro r
    split <;> rfl
  refine hinv.advance hmem rfl (hinv.tree.tombstone hout) ?_ ⟨?_, ?_⟩ ?_
  · intro r' hr'
    obtain ⟨r, hr, rfl⟩ := mem_update.mp hr'
    refine .inr ⟨r, hr, ?_⟩
    split <;> rfl
  · have hcount := hleft.count
    change max 0 (c.without (inSubtree c.id cur.path cur.kind) db.resources).resourceCount = _
    rw [hcount]
    exact Int.max_eq_right (Int.natCast_nonneg _)
  · have hbytes := hleft.bytes
    change max 0 (c.without (inSubtree c.id cur.path cur.kind) db.resources).bytesUsed = _
    rw [hbytes]
    exact Int.max_eq_right (Int.natCast_nonneg _)
  · apply sameElsewhere_map (fun r _ id => liveIn_tombstone id r) hout.live
    intro r
    split <;> rfl

theorem uprooted_targetHit (htree : Tree db.resources) (collID : String) (t : Path) :
    Uprooted db.resources collID (targetHit db collID t) := by
  cases hdst : db.getResource collID t with
  | none =>
    have hno : ∀ r, targetHit db collID t r = false := by
      intro r
      rw [targetHit, hdst]
      rfl
    refine ⟨fun r _ hr => ?_, fun r _ _ q _ hq => ?_⟩
    · rw [hno] at hr
      cases hr
    · rw [hno] at hq
      cases hq
  | some dst =>
    obtain ⟨hmem, hlive, rfl⟩ := getResource_some hdst
    have hhit : targetHit db collID dst.path = inSubtree collID dst.path dst.kind := by
      funext r
      rw [targetHit, hdst]
      rfl
    rw [hhit]
    exact uprooted_inSubtree htree hmem hlive

theorem not_targetHit_parent {t : Path} (ht : t ≠ []) {q : Resource} (hq : q.path = parentOf t) :
    targetHit db collID t q = false := by
  apply (Bool.not_eq_true _).mp
  intro hhit
  have hshort := length_parentOf_lt ht
  rw [targetHit, Option.any_eq_true] at hhit
  obtain ⟨dst, -, hsub⟩ := hhit
  simp only [inSubtree, Bool.and_eq_true, Bool.or_eq_true, beq_iff_eq] at hsub
  rw [hq] at hsub
  rcases hsub.2 with heq | ⟨-, hbelow⟩
  · rw [heq] at hshort
    exact Nat.lt_irrefl _ hshort
  · exact Nat.lt_asymm hshort (length_lt_of_likeBelow hbelow)

section Moves

variable {src : Resource} {s t : Path} {token : Nat} {now : Int}

theorem moved_cases (htree : Tree db.resources) (hsrc : db.getResource collID s = some src)
    {r : Resource} (hr : r ∈ db.resources)
    (hlive : (moved db collID src s t token now r).live = true) :
    targetHit db collID t r = false ∧ r.live = true ∧
      (r = src ∧ moved db collID src s t token now r = src.placeAt t token ∨
        r.resourceID ≠ src.resourceID ∧ renamed db collID src s t r = true ∧
          moved db collID src s t token now r = r.relocate s t token ∨
        r.resourceID ≠ src.resourceID ∧ renamed db collID src s t r = false ∧
          moved db collID src s t token now r = r) := by
  obtain ⟨hmem, -, hsp⟩ := getResource_some hsrc
  have hhit : targetHit db collID t r = false := by
    apply (Bool.not_eq_true _).mp
    intro hhit
    rw [live_moved_of_hit hhit] at hlive
    cases hlive
  refine ⟨hhit, ?_⟩
  by_cases hid : r.resourceID = src.resourceID
  · obtain rfl := eq_of_key htree.ids hr hmem hid
    have heq : moved db collID r s t token now r = r.placeAt t token := moved_src hhit hsp
    rw [heq] at hlive
    exact ⟨hlive, .inl ⟨rfl, heq⟩⟩
  · cases hren : renamed db collID src s t r with
    | true =>
      have heq : moved db collID src s t token now r = r.relocate s t token :=
        moved_of_renamed hren hid
      rw [heq] at hlive
      exact ⟨hlive, .inr (.inl ⟨hid, rfl, heq⟩)⟩
    | false =>
      have heq : moved db collID src s t token now r = r := moved_of_not hhit hren hid
      rw [heq] at hlive
      exact ⟨hlive, .inr (.inr ⟨hid, rfl, heq⟩)⟩

theorem not_targetHit_src (hne : s ≠ t) (hsp : src.path = s) {r : Resource}
    (hlive : r.liveIn collID = true) (hbelow : likeBelow s r.path = true)
    (hkept : targetHit db collID t r = false) : targetHit db collID t src = false := by
  apply (Bool.not_eq_true _).mp
  intro hhit
  rw [targetHit, Option.any_eq_true] at hhit
  obtain ⟨dst, hdst, hsub⟩ := hhit
  simp only [inSubtree, Bool.and_eq_true, Bool.or_eq_true, beq_iff_eq] at hsub
  rw [hsp] at hsub
  rcases hsub.2 with heq | ⟨hdir, hst⟩
  · exact hne heq
  · have hgone : targetHit db collID t r = true := by
      rw [targetHit, hdst]
      simp [inSubtree, hlive, hdir, likeBelow_trans hst hbelow]
    rw [hkept] at hgone
    cases hgone

/-- A directory may be moved where its length is the same in bytes and in characters, or nothing
below it is renamed, and where the parent of the target is not renamed with it. -/
structure Movable (db : Index) (collID : String) (src : Resource) (s t : Path) : Prop where
  length : ∀ r ∈ db.resources, renamed db collID src s t r = true → byteLen s = s.length
  parent : src.kind = .dir → likeBelow s (parentOf t) = false

variable (htree : Tree db.resources) (hs : s ≠ []) (ht : t ≠ []) (hne : s ≠ t)
  (hcycle : isInside t s = false) (hsrc : db.getResource collID s = some src)
  (hparent : db.requireParent collID t = .ok ()) (hmov : Movable db collID src s t)

include htree hs ht hmov in
theorem place_moved_of_renamed (token : Nat) {r : Resource} (hr : r ∈ db.resources)
    (hren : renamed db collID src s t r = true) {f x : Path} (hf : SameLetters f s)
    (hpath : r.path = f ++ '/' :: x) :
    (r.relocate s t token).path = t ++ '/' :: x ∧
      (r.relocate s t token).parentPath = parentOf (t ++ '/' :: x) ∧
      (r.relocate s t token).depth = depthOf (t ++ '/' :: x) := by
  obtain ⟨-, hlive, -, -⟩ := renamed_iff.mp hren
  obtain ⟨-, hpp, hdepth⟩ := htree.place r hr (live_of_liveIn hlive)
  exact relocate_place token hs ht (hmov.length r hr hren) hf hpath hpp hdepth

include ht hcycle hsrc hparent hmov htree in
theorem parent_moved_src : parentOf t = [] ∨
    ∃ q ∈ db.resources.map (moved db collID src s t token now),
      q.liveIn collID = true ∧ q.path = parentOf t ∧ q.kind = .dir := by
  obtain ⟨hmem, -, hsp⟩ := getResource_some hsrc
  rcases requireParent_ok hparent with hroot | ⟨q, hq, hql, hqpath, hqdir⟩
  · exact .inl hroot
  by_cases hroot : parentOf t = []
  · exact .inl hroot
  have hnot : renamed db collID src s t q = false := by
    apply (Bool.not_eq_true _).mp
    intro hren
    obtain ⟨hdir, -, hbelow, -⟩ := renamed_iff.mp hren
    rw [hqpath, hmov.parent hdir] at hbelow
    cases hbelow
  have hid : q.resourceID ≠ src.resourceID := by
    apply ne_src_of_path htree.ids hq hmem
    rw [hqpath, hsp]
    rintro rfl
    obtain ⟨seg, hseg, -⟩ := eq_append_of_parentOf hroot
    rw [(isInside_iff hroot).mpr ⟨seg, hseg⟩] at hcycle
    cases hcycle
  have heq : moved db collID src s t token now q = q :=
    moved_of_not (not_targetHit_parent ht hqpath) hnot hid
  exact .inr ⟨q, heq ▸ List.mem_map_of_mem hq, hql, hqpath, hqdir⟩

include htree hs ht hne hsrc hmov in
theorem parent_moved_renamed {r : Resource} (hr : r ∈ db.resources)
    (hren : renamed db collID src s t r = true) {f x : Path} (hf : SameLetters f s)
    (hpath : r.path = f ++ '/' :: x) :
    ∃ q ∈ db.resources.map (moved db collID src s t token now),
      q.liveIn collID = true ∧ q.path = parentOf (t ++ '/' :: x) ∧ q.kind = .dir := by
  obtain ⟨hmem, hsl, hsp⟩ := getResource_some hsrc
  obtain ⟨hdir, hlive, hbelow, hkept⟩ := renamed_iff.mp hren
  by_cases hx : '/' ∈ x
  · -- The parent of the row is renamed with it.
    have hrparent : parentOf r.path = f ++ '/' :: parentOf x := by
      rw [hpath, parentOf_append, if_pos hx]
    obtain ⟨q, hchild, hqpath⟩ := htree.childOf hr (live_of_liveIn hlive) (by rw [hrparent]; simp)
    rw [hrparent] at hqpath
    have hql : q.liveIn collID = true := (liveIn_iff.mp hlive).1 ▸ hchild.live
    have hqkept : targetHit db collID t q = false := by
      apply (Bool.not_eq_true _).mp
      intro hhit
      rw [(uprooted_targetHit htree collID t).below r hr hlive q hchild hhit] at hkept
      cases hkept
    have hqren : renamed db collID src s t q = true :=
      renamed_iff.mpr ⟨hdir, hql, likeBelow_iff.mpr ⟨f, parentOf x, hqpath, hf⟩, hqkept⟩
    have hid : q.resourceID ≠ src.resourceID := by
      apply ne_src_of_path htree.ids hchild.mem hmem
      rw [hqpath, hsp]
      intro heq
      have hlen := congrArg List.length heq
      rw [List.length_append, hf.length_eq, List.length_cons] at hlen
      omega
    refine ⟨_, List.mem_map_of_mem hchild.mem, ?_⟩
    rw [moved_of_renamed hqren hid, parentOf_append, if_pos hx]
    exact ⟨hql, (place_moved_of_renamed htree hs ht hmov token hchild.mem hqren hf hqpath).1,
      hchild.dir⟩
  · have hsrckept := not_targetHit_src hne hsp hlive hbelow hkept
    refine ⟨_, List.mem_map_of_mem hmem, ?_⟩
    rw [moved_src hsrckept hsp, parentOf_append, if_neg hx]
    exact ⟨hsl, rfl, hdir⟩

include htree hsrc in
theorem parent_moved_other {r : Resource} (hr : r ∈ db.resources) (hlive : r.live = true)
    (hkept : targetHit db collID t r = false) (hnot : renamed db collID src s t r = false) :
    parentOf r.path = [] ∨ ∃ q ∈ db.resources.map (moved db collID src s t token now),
      q.liveIn r.collectionID = true ∧ q.path = parentOf r.path ∧ q.kind = .dir := by
  obtain ⟨hmem, hsl, hsp⟩ := getResource_some hsrc
  by_cases hroot : parentOf r.path = []
  · exact .inl hroot
  obtain ⟨q, hchild, hqpath⟩ := htree.childOf hr hlive hroot
  obtain ⟨seg, hseg, -⟩ := hchild.path
  have hcoll : ∀ id, q.liveIn id = true → r.liveIn id = true := by
    intro id hq
    rw [liveIn_iff] at hq
    exact liveIn_iff.mpr ⟨(liveIn_iff.mp hchild.live).1.symm.trans hq.1, hlive⟩
  have hren : ∀ hdir : src.kind = .dir, q.liveIn collID = true → likeBelow s r.path = true →
    False := by
    intro hdir hq hbelow
    rw [renamed_iff.mpr ⟨hdir, hcoll collID hq, hbelow, hkept⟩] at hnot
    cases hnot
  refine .inr ⟨q, ?_, hchild.live, hqpath, hchild.dir⟩
  have heq : moved db collID src s t token now q = q := by
    apply moved_of_not
    · apply (Bool.not_eq_true _).mp
      intro hhit
      have hql := targetHit_liveIn hhit
      rw [(uprooted_targetHit htree collID t).below r hr (hcoll collID hql) q hchild hhit] at hkept
      cases hkept
    · apply (Bool.not_eq_true _).mp
      intro hqren
      obtain ⟨hdir, hql, hbelow, -⟩ := renamed_iff.mp hqren
      exact hren hdir hql (hseg ▸ likeBelow_append hbelow seg)
    · intro hid
      obtain rfl := eq_of_key htree.ids hchild.mem hmem hid
      exact hren hchild.dir hsl (hseg ▸ hsp ▸ likeBelow_self q.path seg)
  rw [← heq]
  exact List.mem_map_of_mem hchild.mem

include htree hs ht hne hcycle hsrc hparent hmov in
theorem tree_moved
    (hunique : livePathsUnique (db.resources.map (moved db collID src s t token now))) :
    Tree (db.resources.map (moved db collID src s t token now)) := by
  obtain ⟨hmem, hsl, -⟩ := getResource_some hsrc
  refine ⟨⟨?_, hunique⟩, ?_, ?_⟩
  · have hids : (db.resources.map (moved db collID src s t token now)).map Resource.resourceID =
        db.resources.map Resource.resourceID := by
      rw [List.map_map]
      exact List.map_congr_left fun r _ => moved_id collID token r
    rw [hids]
    exact htree.ids
  · intro r' hr' hlive'
    obtain ⟨r, hr, rfl⟩ := List.mem_map.mp hr'
    obtain ⟨-, hlive, ⟨rfl, heq⟩ | ⟨-, hren, heq⟩ | ⟨-, -, heq⟩⟩ := moved_cases htree hsrc hr hlive'
    · rw [heq]
      exact ⟨ht, rfl, rfl⟩
    · obtain ⟨-, -, hbelow, -⟩ := renamed_iff.mp hren
      obtain ⟨f, x, hpath, hf⟩ := likeBelow_iff.mp hbelow
      obtain ⟨hp, hpp, hd⟩ := place_moved_of_renamed htree hs ht hmov token hr hren hf hpath
      rw [heq, hp, hpp, hd]
      exact ⟨by simp, rfl, rfl⟩
    · rw [heq]
      exact htree.place r hr hlive
  · intro r' hr' hlive'
    obtain ⟨r, hr, rfl⟩ := List.mem_map.mp hr'
    obtain ⟨hkept, hlive, ⟨rfl, heq⟩ | ⟨-, hren, heq⟩ | ⟨-, hnot, heq⟩⟩ :=
      moved_cases htree hsrc hr hlive'
    · rw [heq]
      have hcoll : (r.placeAt t token).collectionID = collID := (liveIn_iff.mp hsl).1
      rw [hcoll]
      exact parent_moved_src htree ht hcycle hsrc hparent hmov
    · obtain ⟨-, hlive, hbelow, -⟩ := renamed_iff.mp hren
      obtain ⟨f, x, hpath, hf⟩ := likeBelow_iff.mp hbelow
      obtain ⟨hp, -, -⟩ := place_moved_of_renamed htree hs ht hmov token hr hren hf hpath
      have hcoll : (r.relocate s t token).collectionID = collID := (liveIn_iff.mp hlive).1
      rw [heq, hp, hcoll]
      exact .inr (parent_moved_renamed htree hs ht hne hsrc hmov hr hren hf hpath)
    · rw [heq]
      exact parent_moved_other htree hsrc hr hlive hkept hnot

end Moves

theorem liveIn_moved {src : Resource} {s t : Path} {token : Nat} {now : Int} (id : String)
    (r : Resource) :
    (moved db collID src s t token now r).liveIn id =
      (r.liveIn id && !targetHit db collID t r) := by
  have hplace : ∀ r' : Resource, r'.liveIn id = (r.liveIn id && !targetHit db collID t r) →
      (if r.resourceID == src.resourceID then r'.placeAt t token else r').liveIn id =
        (r.liveIn id && !targetHit db collID t r) := by
    intro r' hr'
    split
    · exact hr'
    · exact hr'
  apply hplace
  cases hhit : targetHit db collID t r with
  | true => simp [Resource.liveIn, live_tombstone]
  | false =>
    rw [if_neg Bool.false_ne_true, Bool.not_false, Bool.and_true]
    split <;> rfl

theorem same_moved {src : Resource} {s t : Path} {token : Nat} {now : Int} (r : Resource) :
    (moved db collID src s t token now r).size = r.size ∧
      (moved db collID src s t token now r).collectionID = r.collectionID := by
  have hplace : ∀ r' : Resource, r'.size = r.size ∧ r'.collectionID = r.collectionID →
      (if r.resourceID == src.resourceID then r'.placeAt t token else r').size = r.size ∧
        (if r.resourceID == src.resourceID then r'.placeAt t token else r').collectionID =
          r.collectionID := by
    intro r' hr'
    split
    · exact hr'
    · exact hr'
  apply hplace
  split
  · exact ⟨rfl, rfl⟩
  · split <;> exact ⟨rfl, rfl⟩

theorem inv_move (hinv : Inv db) {source target : Option Path} {overwrite : Bool} {now : Int}
    (hmov : ∀ s t src, checkMoveCopyPaths nfc source target = .ok (s, t) →
      db.getResource collID s = some src → Movable db collID src s t)
    (h : db.move nfc collID source target overwrite now = .ok db') : Inv db' := by
  obtain ⟨s, t, c, src, rows, hpaths, hc, hsrc, hparent, hrows, rfl⟩ := move_ok h
  obtain ⟨hs, ht, hne, hcycle⟩ := checkMoveCopyPaths_ok hpaths
  obtain ⟨hmem, rfl, hcounts⟩ := hinv.locked hc
  obtain ⟨rfl, hunique⟩ := moveRows_replaced rfl hrows
  have hout := uprooted_targetHit hinv.tree c.id t
  refine hinv.advance hmem rfl ?_ ?_ ?_ ?_
  · exact tree_moved hinv.tree hs ht hne hcycle hsrc hparent (hmov s t src hpaths hsrc) hunique
  · intro r' hr'
    obtain ⟨r, hr, rfl⟩ := List.mem_map.mp hr'
    exact .inr ⟨r, hr, (same_moved r).2.symm⟩
  · exact counts_map (c := { c with syncToken := c.syncToken + 1 }) ⟨hcounts.count, hcounts.bytes⟩
      (fun r _ => liveIn_moved c.id r) hout.live fun r => (same_moved r).1
  · exact sameElsewhere_map (fun r _ id => liveIn_moved id r) hout.live fun r => (same_moved r).1

section Copies

theorem dropBytes_append (f y : Path) : dropBytes (byteLen f) (f ++ y) = y := by
  induction f with
  | nil =>
    rw [byteLen, List.map_nil, List.sum_nil, List.nil_append, dropBytes]
  | cons c f ih =>
    have hsize : 0 < c.utf8Size := Char.utf8Size_pos c
    have hbytes : byteLen (c :: f) = c.utf8Size + byteLen f := by
      rw [byteLen, List.map_cons, List.sum_cons]
      rfl
    rw [hbytes]
    cases hn : c.utf8Size + byteLen f with
    | zero => omega
    | succ n =>
      rw [List.cons_append, dropBytes, ← hn, Nat.add_sub_cancel_left]
      exact ih

variable {srcID : String} {s t : Path} {token : Nat} {copies : String → String × String}

theorem path_copyTo {r : Resource} {f y : Path} (hf : SameLetters f s) (hpath : r.path = f ++ y) :
    (r.copyTo collID s t token copies).path = t ++ y := by
  change t ++ dropBytes (byteLen s) r.path = t ++ y
  rw [hpath, ← hf.byteLen_eq, dropBytes_append]

theorem mem_copySource {rows : List Resource} (h : db.copySource srcID s = .ok rows) :
    ∃ src, src ∈ rows ∧ src.path = s ∧ (∀ r ∈ rows, r ∈ db.resources ∧ r.liveIn srcID = true) ∧
      ∀ r, r ∈ rows → r = src ∨ src.kind = .dir ∧ likeBelow s r.path = true ∧
        ∀ q ∈ db.resources, q.liveIn srcID = true → likeBelow s q.path = true → q ∈ rows := by
  obtain ⟨src, hsrc, rfl⟩ := copySource_ok h
  obtain ⟨hmem, hlive, hpath⟩ := getResource_some hsrc
  refine ⟨src, List.mem_cons_self, hpath, ?_, ?_⟩
  · intro r hr
    rcases List.mem_cons.mp hr with rfl | hr
    · exact ⟨hmem, hlive⟩
    · split at hr
      · obtain ⟨hr, hrl, -⟩ := mem_listQ.mp hr
        exact ⟨hr, hrl⟩
      · cases hr
  · intro r hr
    rcases List.mem_cons.mp hr with rfl | hr
    · exact .inl rfl
    · split at hr
      · next hdir =>
        refine .inr ⟨hdir, (mem_listQ.mp hr).2.2, fun q hq hql hbelow => ?_⟩
        rw [if_pos hdir]
        exact List.mem_cons_of_mem _ (mem_listQ.mpr ⟨hq, hql, hbelow⟩)
      · cases hr

theorem parent_copyTo (htree : Tree db.resources) {rows : List Resource}
    (h : db.copySource srcID s = .ok rows) {r : Resource} (hr : r ∈ rows) (hne : r.path ≠ s) :
    ∃ q ∈ rows.map (Resource.copyTo collID s t token copies), q.liveIn collID = true ∧
      q.path = parentOf (r.copyTo collID s t token copies).path ∧ q.kind = .dir := by
  obtain ⟨src, hsrc, hsp, hall, hrows⟩ := mem_copySource h
  rcases hrows r hr with rfl | ⟨hdir, hbelow, hclosed⟩
  · exact absurd hsp hne
  have hliveAt : ∀ q : Resource, (q.copyTo collID s t token copies).liveIn collID = true := by
    intro q
    simp [Resource.copyTo, Resource.liveIn, Resource.live]
  obtain ⟨f, x, hpath, hf⟩ := likeBelow_iff.mp hbelow
  rw [path_copyTo hf hpath, parentOf_append]
  by_cases hx : '/' ∈ x
  · rw [if_pos hx]
    have hparent : parentOf r.path = f ++ '/' :: parentOf x := by
      rw [hpath, parentOf_append, if_pos hx]
    obtain ⟨hrmem, hrl⟩ := hall r hr
    obtain ⟨q, hchild, hqpath⟩ := htree.childOf hrmem (live_of_liveIn hrl) (by rw [hparent]; simp)
    rw [hparent] at hqpath
    have hql : q.liveIn srcID = true := (liveIn_iff.mp hrl).1 ▸ hchild.live
    have hq := hclosed q hchild.mem hql (likeBelow_iff.mpr ⟨f, parentOf x, hqpath, hf⟩)
    exact ⟨_, List.mem_map_of_mem hq, hliveAt q, path_copyTo hf hqpath, hchild.dir⟩
  · rw [if_neg hx]
    refine ⟨_, List.mem_map_of_mem hsrc, hliveAt src, ?_, hdir⟩
    rw [path_copyTo (SameLetters.refl s) (hsp.trans (List.append_nil s).symm), List.append_nil]

theorem inv_copyCommit (hinv : Inv db) {s t : Path} (ht : t ≠ []) {overwrite : Bool}
    {now : Int} (h : db.copyCommit limits srcID s collID t overwrite copies now = .ok db') :
      Inv db' := by
  obtain ⟨c, rows, inserted, hc, hrows, hparent, hinserted, rfl⟩ := copyCommit_ok h
  obtain ⟨hmem, rfl, hcounts⟩ := hinv.locked hc
  have hout := uprooted_targetHit hinv.tree c.id t
  have htree : Tree (replaced db c t now) := hinv.tree.tombstone hout
  let new := rows.map (Resource.copyTo c.id s t (c.syncToken + 1) copies)
  have hnew : ∀ r ∈ new, r.liveIn c.id = true := by
    intro r hr
    obtain ⟨r₀, -, rfl⟩ := List.mem_map.mp hr
    simp [Resource.copyTo, Resource.liveIn, Resource.live]
  have hcoll : ∀ r ∈ new, r.collectionID = c.id := fun r hr => (liveIn_iff.mp (hnew r hr)).1
  obtain ⟨rfl, hkeyed⟩ := foldlM_insertRow_ok htree.toKeyed (fun r hr => live_of_liveIn (hnew r hr))
    hinserted
  refine hinv.advance hmem rfl ?_ ?_ ?_ ?_
  · apply htree.append hkeyed
    · intro r hr
      obtain ⟨r₀, -, rfl⟩ := List.mem_map.mp hr
      refine ⟨?_, rfl, rfl⟩
      exact List.append_ne_nil_of_left_ne_nil ht _
    · intro r hr
      obtain ⟨r₀, hr₀, rfl⟩ := List.mem_map.mp hr
      by_cases hroot : r₀.path = s
      · -- The copy of the source itself stands below the parent of the target.
        have hat : (r₀.copyTo c.id s t (c.syncToken + 1) copies).path = t := by
          rw [path_copyTo (SameLetters.refl s) (hroot.trans (List.append_nil s).symm),
            List.append_nil]
        rw [hat]
        rcases requireParent_ok hparent with hnil | ⟨q, hq, hql, hqpath, hqdir⟩
        · exact .inl hnil
        · refine .inr ⟨q, List.mem_append_left _ ?_, hql, hqpath, hqdir⟩
          exact (mem_update_tombstone (live_of_liveIn hql)).mpr ⟨hq, not_targetHit_parent ht hqpath⟩
      · obtain ⟨q, hq, hql, hqpath, hqdir⟩ := parent_copyTo hinv.tree hrows hr₀ hroot
        exact .inr ⟨q, List.mem_append_right _ hq, hql, hqpath, hqdir⟩
  · intro r hr
    rcases List.mem_append.mp hr with hr | hr
    · obtain ⟨r₀, hr₀, rfl⟩ := mem_update.mp hr
      refine .inr ⟨r₀, hr₀, ?_⟩
      split <;> rfl
    · exact .inl (hcoll r hr)
  · have hleft : Counts (c.without (targetHit db c.id t) db.resources) (replaced db c t now) := by
      apply counts_map hcounts (fun r _ => liveIn_tombstone c.id r) hout.live
      intro r
      split <;> rfl
    have hadd := counts_append hleft hnew
    have hlen : new.length = rows.length := List.length_map _
    have hsize : new.map Resource.size = rows.map Resource.size := by
      rw [List.map_map]
      rfl
    rw [hlen, hsize] at hadd
    exact ⟨hadd.count, hadd.bytes⟩
  · apply SameElsewhere.trans _ (sameElsewhere_append hcoll)
    apply sameElsewhere_map (fun r _ id => liveIn_tombstone id r) hout.live
    intro r
    split <;> rfl

end Copies

theorem inv_ensureCollection (hinv : Inv db) {tenant : String} {name : List Char} {id : String}
    (h : db.ensureCollection tenant name id = .ok db') : Inv db' := by
  rcases ensureCollection_ok h with rfl | ⟨hfresh, rfl⟩
  · exact hinv
  have hnone : db.resources.filter (Resource.liveIn id) = [] := by
    apply List.filter_eq_nil_iff.mpr
    intro r hr hlive
    obtain ⟨c, hc, hid⟩ := hinv.known r hr
    exact hfresh c hc (hid.trans (liveIn_iff.mp hlive).1)
  refine ⟨⟨hinv.tree, ?_⟩, ?_, ?_⟩
  · intro c hc
    rcases List.mem_append.mp hc with hc | hc
    · exact hinv.counts c hc
    · rw [List.mem_singleton.mp hc]
      refine ⟨?_, ?_⟩
      · rw [liveCount, hnone]
        rfl
      · rw [liveBytes, hnone]
        rfl
  · exact nodup_insert hinv.ids hfresh
  · intro r hr
    obtain ⟨c, hc, hid⟩ := hinv.known r hr
    exact ⟨c, List.mem_append_left _ hc, hid⟩

theorem inv_deleteCollection (hinv : Inv db) {tenant : String} {name : List Char} {force : Bool}
    {now : Int} (h : db.deleteCollection tenant name force now = .ok db') : Inv db' := by
  rcases deleteCollection_ok h with rfl | ⟨c, hc, -, rfl⟩
  · exact hinv
  have hout : Uprooted db.resources c.id (Resource.liveIn c.id) :=
    ⟨fun _ _ h => h, fun r _ hr _ _ _ => hr⟩
  have hnone : (update (Resource.liveIn c.id) (Resource.tombstone (c.syncToken + 1) now)
      db.resources).filter (Resource.liveIn c.id) = [] := by
    rw [filter_update_tombstone _ fun _ h => live_of_liveIn h]
    apply List.filter_eq_nil_iff.mpr
    intro r _
    simp
  refine hinv.change hc (fun _ => rfl) (hinv.tree.tombstone hout) ?_ (fun row hrow => ⟨?_, ?_⟩) ?_
  · intro r' hr'
    obtain ⟨r, hr, rfl⟩ := mem_update.mp hr'
    refine .inr ⟨r, hr, ?_⟩
    split <;> rfl
  · change (0 : Int) = liveCount _ row.id
    rw [hrow, liveCount, hnone]
    rfl
  · change (0 : Int) = liveBytes _ row.id
    rw [hrow, liveBytes, hnone]
    rfl
  · apply sameElsewhere_map (fun r _ id => liveIn_tombstone id r) hout.live
    intro r
    split <;> rfl

end Calls

/-- No move renames rows by a length in bytes that is not one in characters, nor the directory its
target stands in. -/
def MovesCleanly (cfg : Config) (db : Index) : Call → Prop
  | .move collID source target _ _ => ∀ s t src,
      checkMoveCopyPaths cfg.nfc source target = .ok (s, t) → db.getResource collID s = some src →
        Movable db collID src s t
  | _ => True

theorem inv_call {cfg : Config} {db db' : Index} (hinv : Inv db) {call : Call}
    (hclean : MovesCleanly cfg db call) (h : db.call cfg call = .ok db') : Inv db' := by
  cases call with
  | ensureCollection tenant name id => exact inv_ensureCollection hinv h
  | deleteCollection tenant name force now => exact inv_deleteCollection hinv h
  | put collID p size body opts newID key =>
    obtain ⟨q, n, hq, hcommit⟩ := put_ok h
    exact inv_putCommit hinv hq hcommit
  | mkdir collID p id => exact inv_mkdir hinv h
  | delete collID p opts now =>
    obtain ⟨q, hdelete⟩ := delete_ok h
    apply inv_deleteWhere hinv _ hdelete
    intro cur hcur
    obtain ⟨hmem, hlive, -⟩ := getResource_some hcur
    exact ⟨hmem, hlive⟩
  | deleteByID collID resID opts now =>
    apply inv_deleteWhere hinv _ h
    intro cur hcur
    have hmatch := List.find?_some hcur
    rw [Bool.and_eq_true] at hmatch
    exact ⟨List.mem_of_find?_eq_some hcur, hmatch.1⟩
  | move collID source target overwrite now => exact inv_move hinv hclean h
  | copyBetween srcID source collID target overwrite copies now =>
    obtain ⟨s, t, -, ht, hcommit⟩ := copyBetween_ok h
    exact inv_copyCommit hinv ht hcommit

theorem inv_step {cfg : Config} {db : Index} (hinv : Inv db) {call : Call}
    (hclean : MovesCleanly cfg db call) : Inv (db.step cfg call) := by
  rw [Index.step]
  split
  · next db' h => exact inv_call hinv hclean h
  · exact hinv

theorem inv_empty : Inv .empty where
  tree := ⟨⟨List.nodup_nil, List.nodup_nil⟩, fun _ h => absurd h List.not_mem_nil,
    fun _ h => absurd h List.not_mem_nil⟩
  counts _ h := absurd h List.not_mem_nil
  ids := List.nodup_nil
  known _ h := absurd h List.not_mem_nil

def Index.next (cfg : Config) (db : Index) (call : Call) : Option Index :=
  some (db.step cfg call)

/-- In every state of a run whose moves are clean, the index is consistent. -/
theorem consistent_along (cfg : Config) (calls : List Call)
    (h : Along (Index.next cfg) (MovesCleanly cfg) .empty calls) :
    Along (Index.next cfg) (fun db call => Consistent (db.step cfg call)) .empty calls := by
  refine Along.of_invariant (I := Inv) ?_ ?_ inv_empty h
  · intro db call db' hinv hclean hnext
    cases hnext
    exact inv_step hinv hclean
  · exact fun db call hinv hclean => (inv_step hinv hclean).toConsistent

section Runs

theorem movesCleanly_move {cfg : Config} {db : Index} {collID : String}
    {source target : Option Path} {overwrite : Bool} {now : Int} {s t : Path}
    (hpaths : checkMoveCopyPaths cfg.nfc source target = .ok (s, t)) (hlen : byteLen s = s.length)
    (hparent : likeBelow s (parentOf t) = false) :
    MovesCleanly cfg db (.move collID source target overwrite now) := by
  intro s' t' src hpaths' _
  rw [hpaths] at hpaths'
  cases hpaths'
  exact ⟨fun _ _ _ => hlen, fun _ => hparent⟩

def unlimited : Config :=
  ⟨id, ⟨0, 0, 0⟩⟩

/-- A directory with a file in it is renamed. -/
def renames (dir : Path) : List Call :=
  [.ensureCollection "acme" ['m', 'a', 'i', 'n'] "dc_1", .mkdir "dc_1" (some dir) "dr_1",
    .put "dc_1" (some (dir ++ ['/', 'x'])) 3 ⟨3, ['e']⟩ ⟨[], []⟩ "dr_2" "k",
    .move "dc_1" (some dir) (some ['b']) false 0]

theorem consistent_renames :
    Along (Index.next unlimited) (fun db call => Consistent (db.step unlimited call)) .empty
      (renames docs) :=
  consistent_along unlimited (renames docs) (by
    refine ⟨trivial, fun _ h₁ => ?_⟩
    cases h₁
    refine ⟨trivial, fun _ h₂ => ?_⟩
    cases h₂
    refine ⟨trivial, fun _ h₃ => ?_⟩
    cases h₃
    refine ⟨movesCleanly_move (s := docs) (t := ['b']) ?_ ?_ ?_, fun _ _ => trivial⟩
    · decide
    · decide
    · decide)

/-- A directory of one letter in two bytes: its file lands beside the target. -/
theorem not_consistent_renames :
    ¬Along (Index.next unlimited) (fun db call => Consistent (db.step unlimited call)) .empty
      (renames ['é']) := by
  intro h
  let db := (renames ['é']).foldl (Index.step unlimited) .empty
  have hlast : Consistent db := along_iff.mp h 3 _ _ rfl rfl
  obtain ⟨r, hr, hwrong⟩ : ∃ r ∈ db.resources,
      (r.live && r.path == ['b', 'x'] && r.parentPath == ['b']) = true := by
    decide
  simp only [Bool.and_eq_true, beq_iff_eq] at hwrong
  have hplace := (hlast.tree.place r hr hwrong.1.1).2.1
  rw [hwrong.2, hwrong.1.2] at hplace
  cases hplace

end Runs

end ThanksComputer.Drive
