import ThanksComputer.Lib.Runs
import ThanksComputer.Search.Sequenced

/-! The delivery of a log of mutations to one collection, in order, with crashes, retries and
redeliveries. -/

namespace ThanksComputer.Search

open Lib.Assoc Lib.Runs

variable {V F : Type}

section Meaning

variable (E : Engine V F)

def once : Option (Records V) → Mutation V F → Option (Records V)
  | r, .ensure _ _ => some (r.getD [])
  | r, .upsert items => r.map (upsertAll items)
  | r, .delete s => r.map fun r => r.filter fun e => !E.selects s e
  | r, .update f ch => r.map fun r => r.map fun e =>
    if E.admits f e.1 e.2 then (e.1, ch.apply e.2) else e
  | _, .drop => none

/-- The first `n` mutations, once each. -/
def onceEach (log : List (Mutation V F)) (n : Nat) : Option (Records V) :=
  (log.take n).foldl (once E) none

variable {E} {log : List (Mutation V F)} {n : Nat} {m : Mutation V F} {r : Records V}

theorem onceEach_succ (h : log[n]? = some m) :
    onceEach E log (n + 1) = once E (onceEach E log n) m := by
  rw [onceEach, List.take_add_one, h, List.foldl_append]
  rfl

theorem keys_once_nodup {o : Option (Records V)} (ho : ∀ r, o = some r → (keys r).Nodup)
    (h : once E o m = some r) : (keys r).Nodup := by
  cases m with
  | ensure analyzer scoring =>
    cases h
    cases o with
    | none => exact List.nodup_nil
    | some r => exact ho r rfl
  | upsert items =>
    obtain ⟨r', rfl, rfl⟩ := Option.map_eq_some_iff.mp h
    refine foldl_invariant (I := fun r : Records V => (keys r).Nodup) (R := fun _ => True) ?_
      (ho r' rfl) ?_
    · exact fun r e hr _ => keys_upsert_nodup e.1 (fun _ => e.2) hr
    · exact fun _ _ => trivial
  | delete s =>
    obtain ⟨r', rfl, rfl⟩ := Option.map_eq_some_iff.mp h
    exact (ho r' rfl).sublist (List.filter_sublist.map Prod.fst)
  | update f ch =>
    obtain ⟨r', rfl, rfl⟩ := Option.map_eq_some_iff.mp h
    have hkeys : keys (r'.map fun e => if E.admits f e.1 e.2 then (e.1, ch.apply e.2) else e) =
      keys r' := by
      rw [keys, keys, List.map_map]
      refine List.map_congr_left fun e _ => ?_
      rw [Function.comp_apply]
      split
      · rfl
      · rfl
    rw [hkeys]
    exact ho r' rfl
  | drop => cases h

theorem keys_onceEach_nodup (h : onceEach E log n = some r) : (keys r).Nodup := by
  induction n generalizing r with
  | zero => cases h
  | succ n ih =>
    cases hm : log[n]? with
    | none =>
      rw [onceEach, List.take_add_one, hm, Option.toList_none, List.append_nil] at h
      exact ih h
    | some m =>
      rw [onceEach_succ hm] at h
      exact keys_once_nodup (fun r hr => ih hr) h

end Meaning

section Toward

variable (E : Engine V F)

def Partly (f : F) (ch : Change V) (r r' : Records V) : Prop :=
  List.Forall₂ (fun e e' => e' = e ∨ E.admits f e.1 e.2 = true ∧ e' = (e.1, ch.apply e.2)) r r'

def Toward (m : Mutation V F) (r r' : Records V) : Prop :=
  match m with
  | .update f ch => Partly E f ch r r'
  | _ => r' = r

variable {E} {f : F} {ch : Change V} {r r' : Records V}

theorem Partly.refl (r : Records V) : Partly E f ch r r :=
  List.forall₂_same.mpr fun _ _ => .inl rfl

theorem Toward.refl (m : Mutation V F) (r : Records V) : Toward E m r r := by
  cases m with
  | update f ch => exact Partly.refl r
  | ensure | upsert | delete | drop => rfl

theorem Partly.keys_eq (h : Partly E f ch r r') : keys r' = keys r := by
  induction h with
  | nil => rfl
  | cons hd _ ih =>
    rw [keys_cons, keys_cons, ih]
    rcases hd with rfl | ⟨-, rfl⟩
    · rfl
    · rfl

theorem mem_matchingIDs {q : String × Item V → Bool} (hkeys : (keys r).Nodup) {e : String × Item V}
    (he : e ∈ r) :
    e.1 ∈ matchingIDs q r ↔ q e = true := by
  rw [matchingIDs, List.mem_insertionSort, keys, List.mem_map]
  constructor
  · rintro ⟨e', he', hkey⟩
    obtain ⟨hmem, hq⟩ := List.mem_filter.mp he'
    obtain rfl : e' = e := List.inj_on_of_nodup_map hkeys hmem he hkey
    exact hq
  · exact fun hq => ⟨e, List.mem_filter.mpr ⟨he, hq⟩, rfl⟩

theorem Partly.rewrite (h : Partly E f ch r r') {ids : List String}
    (hids : ∀ e ∈ r', e.1 ∈ ids → E.admits f e.1 e.2 = true) :
      Partly E f ch r (rewriteAll ch r' ids) := by
  induction h with
  | nil => exact .nil
  | @cons e e' r r' hd _ ih =>
    rw [List.forall_mem_cons] at hids
    refine .cons ?_ (ih hids.2)
    dsimp only
    split
    · next hmem =>
      have hadmitted := hids.1 (List.contains_iff_mem.mp hmem)
      rcases hd with rfl | ⟨hold, rfl⟩
      · exact .inr ⟨hadmitted, rfl⟩
      · exact .inr ⟨hold, by rw [apply_apply]⟩
    · exact hd

theorem Partly.complete (h : Partly E f ch r r') {ids : List String}
    (hids : ∀ e ∈ r', e.1 ∈ ids ↔ E.admits f e.1 e.2 = true) :
    rewriteAll ch r' ids = r.map fun e => if E.admits f e.1 e.2 then (e.1, ch.apply e.2)
      else e := by
  induction h with
  | nil => rfl
  | @cons e e' r r' hd _ ih =>
    rw [List.forall_mem_cons] at hids
    have htail := ih hids.2
    rw [rewriteAll] at htail
    rw [rewriteAll, List.map_cons, List.map_cons, htail]
    congr 1
    simp only [List.contains_iff_mem, hids.1]
    rcases hd with rfl | ⟨hold, rfl⟩
    · rfl
    · rw [if_pos hold, apply_apply, ite_self]

variable {m : Mutation V F} {seq : Nat} {c : Col V}

theorem apply_dropLast (hkeys : (keys r).Nodup) (h : Toward E m r c.records) {st : Option (Col V)}
    (hst : st ∈ (E.apply seq c m).states.dropLast) :
      ∃ r', Toward E m r r' ∧ st = some ⟨r', c.seq⟩ := by
  cases m with
  | update f ch =>
    obtain ⟨ids, hids, rfl⟩ := updateStates_dropLast hst
    rw [flatten_pages (Nat.le_refl _)] at hids
    refine ⟨_, Partly.rewrite h fun e he hmem => ?_, rfl⟩
    exact (mem_matchingIDs (h.keys_eq ▸ hkeys) he).mp (hids hmem)
  | ensure | upsert | delete | drop => cases hst

theorem apply_getLast? (hkeys : (keys r).Nodup) (h : Toward E m r c.records) :
    (E.apply seq c m).states.getLast? = some ((once E (some r) m).map fun r => ⟨r, seq⟩) := by
  cases m with
  | ensure analyzer scoring =>
    obtain rfl : c.records = r := h
    rfl
  | upsert items =>
    obtain rfl : c.records = r := h
    rfl
  | delete s =>
    obtain rfl : c.records = r := h
    have hdelete : deleteAll (matchingIDs (E.selects s) c.records) c.records =
        c.records.filter fun e => !E.selects s e := by
      refine List.filter_congr fun e he => ?_
      rw [Bool.not_inj_iff, Bool.eq_iff_iff, List.contains_iff_mem, mem_matchingIDs hkeys he]
    rw [Engine.apply, hdelete]
    rfl
  | update f ch =>
    have hupdate := Partly.complete h fun e he =>
      mem_matchingIDs (q := fun e => E.admits f e.1 e.2) (h.keys_eq ▸ hkeys) he
    rw [Engine.apply, updateStates_getLast?, flatten_pages (Nat.le_refl _), hupdate]
    rfl
  | drop => rfl

end Toward

section Deliveries

/-- A delivery of a position, which may stop behind some of its batches. -/
structure Delivery where
  position : Nat
  stop : Option Nat
  deriving DecidableEq

/-- `done` positions were delivered to their end without an error; the next one may be begun. -/
structure World (V : Type) where
  disk : Option (Col V)
  done : Nat
  begun : Bool

def World.deliver (w : World V) (a : Applied V) (d : Delivery) : World V :=
  match d.stop with
  | some j => ⟨(a.states.take j).getLastD w.disk, w.done, w.begun || d.position == w.done + 1⟩
  | none =>
    if a.error = none ∧ d.position = w.done + 1 then ⟨a.states.getLastD w.disk, d.position, false⟩
    else ⟨a.states.getLastD w.disk, w.done, w.begun⟩

variable (E : Engine V F) (log : List (Mutation V F))

/-- In order: the next position, or one that is done. -/
def World.next (w : World V) (d : Delivery) : Option (World V) :=
  if d.position = 0 ∨ w.done + 1 < d.position then none
  else (log[d.position - 1]?).map fun m => w.deliver (E.applyAt w.disk d.position m) d

def World.start : World V :=
  ⟨none, 0, false⟩

/-- At or below its position a collection is left alone; and where no position is begun, the records
are those of the positions that are done. -/
def ExactlyOnce (w : World V) (d : Delivery) : Prop :=
  ∀ m w', log[d.position - 1]? = some m → w.next E log d = some w' →
    (∀ c, w.disk = some c → d.position ≤ c.seq →
      w'.disk = w.disk ∧ (E.applyAt w.disk d.position m).applied = false) ∧
    (w'.begun = false → w'.disk.map Col.records = onceEach E log w'.done)

/-- What is redelivered is no ensure where there is no collection, and no drop and nothing past its
position where there is one. -/
def Orderly (w : World V) (d : Delivery) : Prop :=
  d.position ≤ w.done → match w.disk with
    | none => log[d.position - 1]?.all (fun m => !m.isEnsure) = true
    | some c => log[d.position - 1]?.all (fun m => !m.isDrop) = true ∧ d.position ≤ c.seq

end Deliveries

section Calls

variable {E : Engine V F} {m : Mutation V F} {seq : Nat} {c : Col V}

theorem applyAt_of_le (hdrop : m.isDrop = false) (h : seq ≤ c.seq) :
    (E.applyAt (some c) seq m).states = [] ∧ (E.applyAt (some c) seq m).applied = false := by
  cases m with
  | drop => cases hdrop
  | ensure analyzer scoring =>
    cases href : E.refusal (.ensure analyzer scoring) with
    | some why =>
      simp only [Engine.applyAt, href]
      exact ⟨rfl, rfl⟩
    | none =>
      simp only [Engine.applyAt, href, if_pos h]
      exact ⟨rfl, rfl⟩
  | upsert | delete | update =>
    simp only [Engine.applyAt, if_pos h]
    exact ⟨rfl, rfl⟩

theorem applyAt_of_lt (h : c.seq < seq) :
    E.applyAt (some c) seq m = E.apply seq c m ∨ ∃ why, E.applyAt (some c) seq m = refused why := by
  have hnot : ¬seq ≤ c.seq := Nat.not_le.mpr h
  cases m with
  | drop => exact .inl rfl
  | ensure analyzer scoring =>
    cases href : E.refusal (.ensure analyzer scoring) with
    | some why =>
      simp only [Engine.applyAt, href]
      exact .inr ⟨why, rfl⟩
    | none =>
      simp only [Engine.applyAt, href, if_neg hnot]
      exact .inl trivial
  | upsert | delete | update =>
    simp only [Engine.applyAt, if_neg hnot]
    split
    · next why _ => exact .inr ⟨why, rfl⟩
    · exact .inl rfl

theorem applyAt_none (hensure : m.isEnsure = false) : (E.applyAt none seq m).states = [] := by
  cases m with
  | ensure => cases hensure
  | upsert | delete | update | drop => rfl

theorem once_eq_none {r : Records V} (h : once E (some r) m = none) : m = .drop := by
  cases m with
  | drop => rfl
  | ensure | upsert | delete | update => cases h

theorem getLastD_take {α : Type} (l : List α) (j : Nat) (d : α) :
    (l.take j).getLastD d = d ∨ (l.take j).getLastD d ∈ l.dropLast ∨
    l.getLast? = some ((l.take j).getLastD d) := by
  rw [List.getLastD_eq_getLast?]
  rcases Nat.lt_or_ge j l.length with hj | hj
  · cases hlast : (l.take j).getLast? with
    | none => exact .inl rfl
    | some x =>
      refine .inr (.inl ?_)
      have hmem := List.mem_of_getLast? hlast
      rw [List.dropLast_eq_take]
      exact List.take_subset_take_left l (by omega) hmem
  · rw [List.take_of_length_le hj]
    cases hlast : l.getLast? with
    | none => exact .inl rfl
    | some x => exact .inr (.inr rfl)

end Calls

section Phases

variable (E : Engine V F) (log : List (Mutation V F))

/-- What the disk may be behind `n` positions, the next one begun or not. -/
inductive Phase (n : Nat) : Option (Col V) → Bool → Prop
  | settled {disk : Option (Col V)} (begun : Bool) (h : disk.map Col.records = onceEach E log n)
      (hseq : ∀ c, disk = some c → c.seq = n) : Phase n disk begun
  | midway {m : Mutation V F} {r r' : Records V} (hm : log[n]? = some m)
    (hr : onceEach E log n = some r)
      (h : Toward E m r r') : Phase n (some ⟨r', n⟩) true
  | created {analyzer scoring : String} (hm : log[n]? = some (.ensure analyzer scoring))
      (h : onceEach E log n = none) : Phase n (some ⟨[], 0⟩) true
  | landed {m : Mutation V F} {disk : Option (Col V)} (hm : log[n]? = some m)
      (h : disk.map Col.records = onceEach E log (n + 1)) (hseq : ∀ c, disk = some c →
        c.seq = n + 1)
      (hdrop : disk = none → m = .drop) : Phase n disk true

variable {E log} {n : Nat} {m : Mutation V F} {c : Col V} {r : Records V}

structure Advances (E : Engine V F) (log : List (Mutation V F)) (n : Nat) (disk : Option (Col V))
    (a : Applied V) : Prop where
  stops : ∀ j, Phase E log n ((a.states.take j).getLastD disk) true
  ends : a.error = none → Phase E log (n + 1) (a.states.getLastD disk) false
  fails : a.error ≠ none → a.states = []

theorem advances_of_error {disk : Option (Col V)} (h : Phase E log n disk true) {a : Applied V}
    (hstates : a.states = []) (herror : a.error ≠ none) : Advances E log n disk a := by
  refine ⟨fun j => ?_, fun hnone => absurd hnone herror, fun _ => hstates⟩
  rw [hstates, List.take_nil]
  exact h

theorem settled_of_target (hm : log[n]? = some m) (hr : onceEach E log n = some r) :
    Phase E log (n + 1) ((once E (some r) m).map fun r => ⟨r, n + 1⟩) false := by
  refine .settled false ?_ fun c hc => ?_
  · rw [onceEach_succ hm, hr, Option.map_map]
    exact Option.map_id'
  · obtain ⟨r', -, rfl⟩ := Option.map_eq_some_iff.mp hc
    rfl

theorem landed_of_target (hm : log[n]? = some m) (hr : onceEach E log n = some r) :
    Phase E log n ((once E (some r) m).map fun r => ⟨r, n + 1⟩) true := by
  refine .landed hm ?_ (fun c hc => ?_) fun hnone => once_eq_none (Option.map_eq_none_iff.mp hnone)
  · rw [onceEach_succ hm, hr, Option.map_map]
    exact Option.map_id'
  · obtain ⟨r', -, rfl⟩ := Option.map_eq_some_iff.mp hc
    rfl

theorem advances_midway (hm : log[n]? = some m) (hr : onceEach E log n = some r) {r' : Records V}
    (h : Toward E m r r') :
      Advances E log n (some ⟨r', n⟩) (E.applyAt (some ⟨r', n⟩) (n + 1) m) := by
  have hkeys := keys_onceEach_nodup hr
  rcases applyAt_of_lt (E := E) (m := m) (c := ⟨r', n⟩) (Nat.lt_succ_self n) with happly
    | ⟨why, hrefused⟩
  · rw [happly]
    have hlast : (E.apply (n + 1) ⟨r', n⟩ m).states.getLast? = _ := apply_getLast? hkeys h
    refine ⟨fun j => ?_, fun _ => ?_, fun herror => ?_⟩
    · rcases getLastD_take (E.apply (n + 1) ⟨r', n⟩ m).states j (some ⟨r', n⟩) with hstay
        | hmid | hend
      · rw [hstay]
        exact .midway hm hr h
      · obtain ⟨r'', htoward, heq⟩ := apply_dropLast hkeys h hmid
        rw [heq]
        exact .midway hm hr htoward
      · rw [hlast, Option.some.injEq] at hend
        rw [← hend]
        exact landed_of_target hm hr
    · rw [List.getLastD_eq_getLast?, hlast]
      exact settled_of_target hm hr
    · cases m <;> exact absurd rfl herror
  · rw [hrefused]
    exact advances_of_error (.midway hm hr h) rfl (by simp [refused])

theorem landed_empty (hm : log[n]? = some m) (h : onceEach E log (n + 1) = some []) :
    Phase E log n (some ⟨[], n + 1⟩) true := by
  refine .landed hm h.symm (fun c hc => ?_) fun hnone => by cases hnone
  cases hc
  rfl

theorem advances_none (hm : log[n]? = some m) (hr : onceEach E log n = none) :
    Advances E log n none (E.applyAt none (n + 1) m) := by
  have hsettled : Phase E log n (none : Option (Col V)) true := .settled true hr.symm fun c hc => by
    cases hc
  cases m with
  | drop =>
    refine ⟨fun j => ?_, fun _ => ?_, fun _ => rfl⟩
    · rw [Engine.applyAt, List.take_nil]
      exact hsettled
    · refine .settled false ?_ fun c hc => by cases hc
      rw [onceEach_succ hm]
      rfl
  | ensure analyzer scoring =>
    cases href : E.refusal (.ensure analyzer scoring) with
    | some why =>
      simp only [Engine.applyAt, href]
      exact advances_of_error hsettled rfl (by simp [refused])
    | none =>
      have honce : onceEach E log (n + 1) = some [] := by
        rw [onceEach_succ hm, hr]
        rfl
      have hcalls : E.applyAt (none : Option (Col V)) (n + 1) (.ensure analyzer scoring) =
          ⟨[some ⟨[], 0⟩, some ⟨[], n + 1⟩], 0, true, none⟩ := by
        simp only [Engine.applyAt, href]
        rw [if_neg (Nat.succ_ne_zero n)]
      rw [hcalls]
      refine ⟨fun j => ?_, fun _ => ?_, fun herror => absurd rfl herror⟩
      · rcases getLastD_take [some (⟨[], 0⟩ : Col V), some ⟨[], n + 1⟩] j none with hstay
          | hmid | hend
        · rw [hstay]
          exact hsettled
        · rw [List.mem_singleton.mp hmid]
          exact .created hm hr
        · rw [← Option.some.inj hend]
          exact landed_empty hm honce
      · refine .settled false honce.symm fun c hc => ?_
        cases hc
        rfl
  | upsert | delete | update => exact advances_of_error hsettled rfl (by simp [Engine.applyAt])

theorem advances_created {analyzer scoring : String}
    (hm : log[n]? = some (.ensure analyzer scoring)) (hr : onceEach E log n = none) :
    Advances E log n (some ⟨[], 0⟩)
      (E.applyAt (some ⟨[], 0⟩) (n + 1) (.ensure analyzer scoring)) := by
  have hcreated : Phase E log n (some ⟨[], 0⟩) true := .created hm hr
  rcases applyAt_of_lt (E := E) (m := .ensure analyzer scoring) (c := ⟨[], 0⟩) (Nat.succ_pos n) with
    happly | ⟨why, hrefused⟩
  · have honce : onceEach E log (n + 1) = some [] := by
      rw [onceEach_succ hm, hr]
      rfl
    rw [happly]
    refine ⟨fun j => ?_, fun _ => ?_, fun herror => absurd rfl herror⟩
    · change Phase E log n (([some (⟨[], n + 1⟩ : Col V)].take j).getLastD (some ⟨[], 0⟩)) true
      rcases getLastD_take [some (⟨[], n + 1⟩ : Col V)] j (some ⟨[], 0⟩) with hstay | hmid | hend
      · rw [hstay]
        exact hcreated
      · cases hmid
      · rw [← Option.some.inj hend]
        exact landed_empty hm honce
    · refine .settled false honce.symm fun c hc => ?_
      cases hc
      rfl
  · rw [hrefused]
    exact advances_of_error hcreated rfl (by simp [refused])

theorem advances_landed {disk : Option (Col V)} (hm : log[n]? = some m)
    (h : disk.map Col.records = onceEach E log (n + 1)) (hseq : ∀ c, disk = some c → c.seq = n + 1)
    (hdrop : disk = none → m = .drop) : Advances E log n disk (E.applyAt disk (n + 1) m) := by
  have hlanded : Phase E log n disk true := .landed hm h hseq hdrop
  have hstates : (E.applyAt disk (n + 1) m).states = [] := by
    cases disk with
    | none =>
      rw [hdrop rfl]
      rfl
    | some c =>
      refine (applyAt_of_le ?_ (hseq c rfl).ge).1
      cases m with
      | drop =>
        rw [onceEach_succ hm] at h
        cases h
      | ensure | upsert | delete | update => rfl
  refine ⟨fun j => ?_, fun _ => ?_, fun _ => hstates⟩
  · rw [hstates, List.take_nil]
    exact hlanded
  · rw [hstates]
    exact .settled false h hseq

theorem Phase.advances {disk : Option (Col V)} {b : Bool} (h : Phase E log n disk b)
    (hm : log[n]? = some m) :
    Advances E log n disk (E.applyAt disk (n + 1) m) := by
  cases h with
  | settled _ h hseq =>
    cases disk with
    | none => exact advances_none hm h.symm
    | some c =>
      obtain ⟨r, seq⟩ := c
      obtain rfl : seq = n := hseq _ rfl
      exact advances_midway hm h.symm (.refl m r)
  | midway hm' hr h =>
    cases hm.symm.trans hm'
    exact advances_midway hm hr h
  | created hm' hr =>
    cases hm.symm.trans hm'
    exact advances_created hm hr
  | landed hm' h hseq hdrop =>
    cases hm.symm.trans hm'
    exact advances_landed hm h hseq hdrop

end Phases

section Runs

variable {E : Engine V F} {log : List (Mutation V F)} {w w' : World V} {d : Delivery}
    {m : Mutation V F}

inductive Delivered (E : Engine V F) (log : List (Mutation V F)) (w : World V) (d : Delivery) :
    World V → Prop
  | again {m : Mutation V F} (hle : d.position ≤ w.done) (hm : log[d.position - 1]? = some m) :
      Delivered E log w d (w.deliver (E.applyAt w.disk d.position m) d)
  | next {m : Mutation V F} (heq : d.position = w.done + 1) (hm : log[w.done]? = some m) :
      Delivered E log w d (w.deliver (E.applyAt w.disk (w.done + 1) m) d)

theorem delivered_of_next (h : w.next E log d = some w') : Delivered E log w d w' := by
  rw [World.next] at h
  split at h
  · cases h
  next hpos =>
  rw [not_or, Nat.not_lt] at hpos
  obtain ⟨m, hm, rfl⟩ := Option.map_eq_some_iff.mp h
  rcases Nat.lt_or_ge w.done d.position with hlt | hle
  · have heq : d.position = w.done + 1 := by omega
    rw [heq] at hm ⊢
    exact .next heq hm
  · exact .again hle hm

theorem applyAt_orderly (h : Orderly log w d) (hle : d.position ≤ w.done)
    (hm : log[d.position - 1]? = some m) :
    (E.applyAt w.disk d.position m).states = [] := by
  have h := h hle
  rw [hm] at h
  cases hdisk : w.disk with
  | none =>
    rw [hdisk] at h
    exact applyAt_none (by simpa using h)
  | some c =>
    rw [hdisk] at h
    exact (applyAt_of_le (by simpa using h.1) h.2).1

theorem deliver_of_nil {a : Applied V} (h : a.states = []) : (w.deliver a d).disk = w.disk := by
  rw [World.deliver]
  split
  · rw [h, List.take_nil]
    rfl
  · rw [h]
    split
    · rfl
    · rfl

theorem deliver_again {a : Applied V} (h : d.position ≤ w.done) :
    (w.deliver a d).done = w.done ∧ (w.deliver a d).begun = w.begun := by
  have hne : d.position ≠ w.done + 1 := by omega
  rw [World.deliver]
  split
  · exact ⟨rfl, by rw [beq_eq_false_iff_ne.mpr hne, Bool.or_false]⟩
  · rw [if_neg fun hboth => hne hboth.2]
    exact ⟨rfl, rfl⟩

theorem phase_deliver_next {a : Applied V} (h : Phase E log w.done w.disk w.begun)
    (ha : Advances E log w.done w.disk a) (heq : d.position = w.done + 1) :
    Phase E log (w.deliver a d).done (w.deliver a d).disk (w.deliver a d).begun := by
  rw [World.deliver]
  split
  · next j _ =>
    rw [beq_iff_eq.mpr heq, Bool.or_true]
    exact ha.stops j
  · split
    · next hboth =>
      rw [heq]
      exact ha.ends hboth.1
    · next hnot =>
      rw [ha.fails fun hnone => hnot ⟨hnone, heq⟩]
      exact h

theorem phase_next (h : Phase E log w.done w.disk w.begun) (hd : Orderly log w d)
    (hnext : w.next E log d = some w') : Phase E log w'.done w'.disk w'.begun := by
  cases delivered_of_next hnext with
  | again hle hm =>
    obtain ⟨hdone, hbegun⟩ := deliver_again (a := E.applyAt w.disk d.position _) hle
    rw [hdone, hbegun, deliver_of_nil (applyAt_orderly hd hle hm)]
    exact h
  | next heq hm => exact phase_deliver_next h (h.advances hm) heq

theorem Phase.not_drop {n : Nat} {c : Col V} {b : Bool} (h : Phase E log n (some c) b)
    (hm : log[n]? = some m) (hlt : n < c.seq) : m.isDrop = false := by
  cases h with
  | settled _ _ hseq => exact absurd (hseq c rfl) (Nat.ne_of_gt hlt)
  | midway => exact absurd hlt (Nat.lt_irrefl n)
  | created => exact absurd hlt (Nat.not_lt_zero n)
  | landed hm' h _ _ =>
    cases m with
    | drop =>
      rw [onceEach_succ hm] at h
      cases h
    | ensure | upsert | delete | update => rfl

theorem Phase.records {n : Nat} {disk : Option (Col V)} (h : Phase E log n disk false) :
    disk.map Col.records = onceEach E log n := by
  cases h with
  | settled _ h _ => exact h

theorem exactlyOnce_of_phase (h : Phase E log w.done w.disk w.begun) (hd : Orderly log w d) :
    ExactlyOnce E log w d := by
  intro m w' hm hnext
  constructor
  · intro c hc hle
    have hstill : (E.applyAt w.disk d.position m).states = [] ∧
      (E.applyAt w.disk d.position m).applied = false := by
      rw [hc] at h ⊢
      refine applyAt_of_le ?_ hle
      rcases Nat.lt_or_ge w.done d.position with hlt | hge
      · cases delivered_of_next hnext with
        | again hge _ => omega
        | next heq hm' =>
          rw [heq] at hm
          exact h.not_drop hm (by omega)
      · have horder := hd hge
        rw [hc, hm] at horder
        simpa using horder.1
    refine ⟨?_, hstill.2⟩
    cases delivered_of_next hnext with
    | again _ hm' =>
      cases hm.symm.trans hm'
      exact deliver_of_nil hstill.1
    | next heq hm' =>
      rw [heq] at hm hstill
      cases hm.symm.trans hm'
      exact deliver_of_nil hstill.1
  · intro hbegun
    have hphase := phase_next h hd hnext
    rw [hbegun] at hphase
    exact hphase.records

/-- A log that is delivered in order, and again only where that is orderly, is applied exactly
once. -/
theorem applied_once_along (E : Engine V F) (log : List (Mutation V F)) (ds : List Delivery)
    (h : Along (World.next E log) (Orderly log) .start ds) :
    Along (World.next E log) (ExactlyOnce E log) .start ds := by
  refine h.of_invariant (I := fun w => Phase E log w.done w.disk w.begun)
    (fun w d w' hw hd hnext => phase_next hw hd hnext)
      (fun w d hw hd => exactlyOnce_of_phase hw hd) ?_
  exact .settled false rfl fun c hc => by cases hc

end Runs

section Scenes

instance (log : List (Mutation V F)) (w : World V) (d : Delivery) : Decidable (Orderly log w d) :=
  match h : w.disk with
  | none =>
    decidable_of_iff (d.position ≤ w.done → log[d.position - 1]?.all (fun m => !m.isEnsure) = true)
      (by rw [Orderly, h])
  | some c => decidable_of_iff (d.position ≤ w.done →
      log[d.position - 1]?.all (fun m => !m.isDrop) = true ∧ d.position ≤ c.seq)
        (by rw [Orderly, h])

/-- Filters by one metadata field. -/
def byField : Engine String (String × String) where
  admits f _ it := it.metadata f.1 == some f.2
  refusal _ := none

def team (text : String) : Item String :=
  ⟨text, "", "", "", [], fun k => if k = "audience" then some "team" else none⟩

def publish : Change String :=
  ⟨fun k => if k = "audience" then some (some "anyone") else none, ⟨none, none, none⟩⟩

def rota : List (Mutation String (String × String)) :=
  [.ensure "" "", .upsert [("a", team "pool pump manual")], .update ("audience", "team") publish,
    .drop,
    .ensure "" "", .upsert [("b", team "pool rota")]]

/-- Crashes in the first ensure and behind the update, whose retry finds it done; then the rest, and
the last upsert once more. -/
def bumpy : List Delivery :=
  [⟨1, some 1⟩, ⟨1, none⟩, ⟨2, none⟩, ⟨3, some 1⟩, ⟨2, none⟩, ⟨3, none⟩, ⟨4, none⟩, ⟨2, none⟩,
    ⟨5, none⟩, ⟨6, none⟩,
    ⟨6, none⟩]

theorem exactlyOnce_bumpy :
    Along (World.next byField rota) (Orderly rota) .start bumpy ∧
      Along (World.next byField rota) (ExactlyOnce byField rota) .start bumpy := by
  have horderly : Along (World.next byField rota) (Orderly rota) .start bumpy := by decide
  exact ⟨horderly, applied_once_along byField rota bumpy horderly⟩

def straight : List Delivery :=
  [⟨1, none⟩, ⟨2, none⟩, ⟨3, none⟩, ⟨4, none⟩, ⟨5, none⟩, ⟨6, none⟩]

/-- The drop is delivered once more when the collection is there again. -/
theorem not_exactlyOnce_drop :
    ¬∀ (E : Engine String (String × String)) (log : List (Mutation String (String × String)))
      (ds : List Delivery),
      Along (World.next E log) (ExactlyOnce E log) .start ds := by
  intro h
  have hrun : (straight.foldlM (World.next byField rota) .start).any (fun w => w.disk.any fun c =>
      c.seq == 6 && ((w.next byField rota ⟨4, none⟩).any fun w' => w'.disk.isNone)) =
        true := by decide
  obtain ⟨w, hw, hlost⟩ := (Option.any_eq_true _ _).mp hrun
  obtain ⟨c, hc, hlost⟩ := (Option.any_eq_true _ _).mp hlost
  rw [Bool.and_eq_true, beq_iff_eq] at hlost
  obtain ⟨w', hw', hnone⟩ := (Option.any_eq_true _ _).mp hlost.2
  have honce := ((h byField rota (straight ++ [⟨4, none⟩])).after hw _ w' rfl hw').1 c hc
    (by rw [hlost.1]; decide)
  rw [honce.1, hc] at hnone
  cases hnone

end Scenes

end ThanksComputer.Search
