import ThanksComputer.Admin.Drafts

/-! The files of a version that has been activated. -/

namespace ThanksComputer.Admin

open Net Lib.Runs

variable (E : Engine) (w : World)

/-- A step leaves the files of every activated version. -/
def World.Frozen (e : Event) : Prop :=
  ∀ w', w.next E e = some w' → ∀ v ∈ w.versions, v.activated = true →
    ∃ v' ∈ w'.versions, v'.id = v.id ∧ v'.activated = true ∧ v'.files = v.files

/-- A patch or delete whose transaction runs still finds its version not activated. -/
def World.StillDraft : Event → Prop
  | .commit i => ∀ p ∈ w.pending[i]?, ∀ v ∈ w.byId p.1, v.activated = false
  | _ => True

instance : DecidablePred w.StillDraft
  | .commit i =>
    inferInstanceAs (Decidable (∀ p ∈ w.pending[i]?, ∀ v ∈ w.byId p.1, v.activated = false))
  | .draft _ | .put _ _ _ | .check _ _ | .drop _ | .activate _ _ | .diff _ _ => .isTrue trivial

variable {E w}

theorem Rewrites.files (hinv : w.Inv) {e : Event} (hdraft : w.StillDraft e) {v v' : Version}
    (hmem : v ∈ w.versions) (h : Rewrites E w e v v') (hactivated : v.activated = true) :
      v'.activated = true ∧ v'.files = v.files := by
  cases h with
  | put _ hstatus _ =>
    rw [hinv.draft v hmem hstatus] at hactivated
    cases hactivated
  | mutate hpending hfound _ =>
    rw [hdraft _ hpending v hfound] at hactivated
    cases hactivated
  | activate => exact ⟨rfl, rfl⟩

theorem World.Inv.frozen (h : w.Inv) {e : Event} (hdraft : w.StillDraft e) : w.Frozen E e := by
  intro w' hnext v hv hactivated
  cases next_steps hnext with
  | same hversions _ => exact ⟨v, hversions ▸ hv, rfl, hactivated, rfl⟩
  | adds u _ hversions _ =>
    rw [hversions]
    exact ⟨v, List.mem_append_left _ hv, rfl, hactivated, rfl⟩
  | rewrites u u' hu hrewrites hversions _ =>
    rw [hversions]
    by_cases hid : v.id = u'.id
    · obtain rfl : v = u := List.inj_on_of_nodup_map h.nodup hv hu (hid.trans hrewrites.id)
      obtain ⟨hactivated', hfiles⟩ := hrewrites.files h hdraft hu hactivated
      exact ⟨u', mem_write.mpr ⟨v, hv, if_pos hid⟩, hrewrites.id, hactivated', hfiles⟩
    · exact ⟨v, mem_write.mpr ⟨v, hv, if_neg hid⟩, rfl, hactivated, rfl⟩

/-- Where no version is activated between a patch's or delete's check and its transaction, the files
of a version never change once it has been activated. -/
theorem frozen_along {old : List Backfilled} {active : Option Nat} {events : List Event}
    (h : Along (World.next E) World.StillDraft (World.start old active) events) :
    Along (World.next E) (World.Frozen E) (World.start old active) events :=
  Along.of_invariant (I := World.Inv) (fun _ _ _ hw _ hnext => hw.next hnext)
    (fun _ _ hw hdraft => hw.frozen hdraft)
    (World.start_inv old active) h

/-- A draft is put, patched and activated, one after another. -/
theorem frozen_patched :
    let E : Engine := ⟨fun s => 'h' :: s, fun _ => ['m'], true⟩
    let events : List Event := [.draft none, .put 1 .all [⟨"1/a.txcl".toList, "x".toList, none⟩],
      .check 1 ⟨"1/a.txcl".toList, "hx".toList, some "y".toList⟩, .commit 0, .activate 1 none,
        .draft none,
      .check 2 ⟨"1/a.txcl".toList, "hy".toList, none⟩, .commit 0]
    ((events.foldlM (World.next E) (World.start [] none)).map fun w => w.versions.map (·.files)) =
        some [[⟨"1/a.txcl".toList, "y".toList, "hy".toList⟩], []] ∧
      Along (World.next E) (World.Frozen E) (World.start [] none) events :=
  ⟨by decide, frozen_along (by decide)⟩

/-- An activation between the check of a patch and its transaction: the patch changes the active
version. -/
theorem not_frozen_activated :
    let E : Engine := ⟨fun s => 'h' :: s, fun _ => ['m'], true⟩
    ¬Along (World.next E) (World.Frozen E) (World.start [] none)
      [.draft none, .put 1 .all [⟨"1/a.txcl".toList, "x".toList, none⟩],
        .check 1 ⟨"1/a.txcl".toList, "hx".toList, some "y".toList⟩, .activate 1 none,
          .commit 0] := by
  intro E h
  have hbad : (([.draft none, .put 1 .all [⟨"1/a.txcl".toList, "x".toList, none⟩],
      .check 1 ⟨"1/a.txcl".toList, "hx".toList, some "y".toList⟩, .activate 1 none] : List
        Event).foldlM
        (World.next E) (World.start [] none)).any (fun w => (w.next E (.commit 0)).any fun w' =>
          w.versions.any fun v => v.activated && w'.versions.all fun v' =>
            decide (v'.id = v.id → v'.files ≠ v.files)) = true := by
    decide
  obtain ⟨w, hw, hbad⟩ := (Option.any_eq_true _ _).mp hbad
  obtain ⟨w', hw', hbad⟩ := (Option.any_eq_true _ _).mp hbad
  obtain ⟨v, hv, hbad⟩ := List.any_eq_true.mp hbad
  obtain ⟨hactivated, hall⟩ := Bool.and_eq_true_iff.mp hbad
  obtain ⟨v', hv', hid, -, hfiles⟩ := along_iff.mp h 4 (.commit 0) w rfl hw w' hw' v hv hactivated
  exact of_decide_eq_true (List.all_eq_true.mp hall v' hv') hid hfiles

end ThanksComputer.Admin
