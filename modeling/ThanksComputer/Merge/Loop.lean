import ThanksComputer.Lib.Runs
import ThanksComputer.Merge.Cell

/-! `runLoop` of loop.go without a `LOOP SET`: every pass is merged into the accumulator, which is
the op's contribution, and into the view, which the predicate and the next pass read. -/

universe u

namespace ThanksComputer

open Lib.Assoc

variable {F : Type u}

namespace Merge

section Model

inductive StopReason
  | done
  | max
  | fuel
  | timeout
  | aborted
  | halted
  | error
  deriving DecidableEq

structure LoopState (F : Type u) where
  acc : Text F
  view : Text F

/-- What the loop meets around one pass: the end of its context in the pause, the failure of `WITH`,
the answer of the dispatch after the post-exec tail, and what is checked once it is merged. -/
structure Turn (F : Type u) where
  pauseCut : Option StopReason
  withErr : Option String
  answer : Except String (Text F)
  failCut : Option StopReason
  fuelExceeded : Bool
  cut : Option StopReason

structure LoopRule (F : Type u) where
  /-- The predicate of `UNTIL`. -/
  holds : Text F → Bool
  max : Nat

structure LoopEnd (F : Type u) where
  state : LoopState F
  passes : Nat
  stop : StopReason
  errText : String

variable (L : JsonLib F)

def isBlankOutput (out : Text F) : Bool :=
  bytes out == "" || bytes out == "\x7b\x7d"

/-- A merge that fails is logged, and what was there stays. -/
def mergeOrKeep (t out : Text F) : Text F :=
  match mergeJSON L t out with
  | (merged, none) => merged
  | (_, some _) => t

def loopPass (s : LoopState F) (out : Text F) : LoopState F :=
  if isBlankOutput out then s else ⟨mergeOrKeep L s.acc out, mergeOrKeep L s.view out⟩

/-- What stops the loop before a pass; the first one has neither a pause nor a new `WITH`. -/
def stopBefore (passes : Nat) (turn : Turn F) : Option (StopReason × String) :=
  if passes = 0 then none
  else
    match turn.pauseCut, turn.withErr with
    | some stop, _ => some (stop, "")
    | none, some err => some (.error, err)
    | none, none => none

def stopAfter (rule : LoopRule F) (passes : Nat) (s : LoopState F) (turn : Turn F) :
    Option StopReason :=
  if turn.fuelExceeded then some .fuel
  else
    match turn.cut with
    | some stop => some stop
    | none =>
      if rule.holds s.view then some .done else if rule.max ≤ passes then some .max else none

def loopFrom (rule : LoopRule F) : Nat → LoopState F → List (Turn F) → Option (LoopEnd F)
  | _, _, [] => none
  | passes, s, turn :: turns =>
    match stopBefore passes turn with
    | some (stop, err) => some ⟨s, passes, stop, err⟩
    | none =>
      match turn.answer with
      | .error err =>
        match turn.failCut with
        | some stop => some ⟨s, passes + 1, stop, ""⟩
        | none => some ⟨s, passes + 1, .error, err⟩
      | .ok out =>
        match stopAfter rule (passes + 1) (loopPass L s out) turn with
        | some stop => some ⟨loopPass L s out, passes + 1, stop, ""⟩
        | none => loopFrom rule (passes + 1) (loopPass L s out) turns

def loopStart (env : Text F) : LoopState F :=
  ⟨JsonLib.emptyObj.render, env⟩

/-- The loop over an envelope; `none` where the turns end before it does. -/
def runLoop (rule : LoopRule F) (env : Text F) (turns : List (Turn F)) : Option (LoopEnd F) :=
  loopFrom L rule 0 (loopStart env) turns

def outputs : List (Turn F) → List (Text F)
  | [] => []
  | turn :: turns =>
    match turn.answer with
    | .ok out => out :: outputs turns
    | .error _ => []

end Model

section Runs

variable {L : JsonLib F}

theorem loopFrom_isSome (rule : LoopRule F) {passes : Nat} (s : LoopState F) {turns : List (Turn F)}
    (hne : turns ≠ []) (hmax : rule.max ≤ passes + turns.length) :
      (loopFrom L rule passes s turns).isSome = true := by
  induction turns generalizing passes s with
  | nil => exact absurd rfl hne
  | cons turn turns ih =>
    rw [loopFrom]
    split
    · rfl
    · split
      · split <;> rfl
      · split
        · rfl
        · next out _ hstop =>
          rw [List.length_cons] at hmax
          refine ih _ ?_ (by omega)
          -- the last turn reaches the ceiling
          rintro rfl
          unfold stopAfter at hstop
          have hceiling : rule.max ≤ passes + 1 := by simpa using hmax
          rw [if_pos hceiling] at hstop
          split at hstop
          · cases hstop
          · split at hstop
            · cases hstop
            · split at hstop <;> cases hstop

theorem loopFrom_state {rule : LoopRule F} {passes : Nat} {s : LoopState F} {turns : List (Turn F)}
    {fin : LoopEnd F} (h : loopFrom L rule passes s turns = some fin) :
    ∃ outs, outs <+: outputs turns ∧ fin.state = outs.foldl (loopPass L) s := by
  induction turns generalizing passes s with
  | nil => cases h
  | cons turn turns ih =>
    rw [loopFrom] at h
    split at h
    · cases h
      exact ⟨[], List.nil_prefix, rfl⟩
    · split at h
      · split at h <;> cases h <;> exact ⟨[], List.nil_prefix, rfl⟩
      · next out hanswer =>
        have houts : outputs (turn :: turns) = out :: outputs turns := by rw [outputs, hanswer]
        rw [houts]
        split at h
        · cases h
          exact ⟨[out], List.prefix_cons_inj out |>.mpr List.nil_prefix, rfl⟩
        · obtain ⟨outs, hprefix, hstate⟩ := ih h
          exact ⟨out :: outs, (List.prefix_cons_inj out).mpr hprefix, hstate⟩

end Runs

section Statement

variable (L : JsonLib F)

def SameValue (t t' : Text F) : Prop :=
  ∃ o o' : ObjText F, parse t = some o ∧ parse t' = some o' ∧
    ∀ k, column k o.entries = column k o'.entries

/-- The contribution, merged into the envelope, is the view. -/
def Agrees (env : Text F) (s : LoopState F) : Prop :=
  ∃ t, mergeJSON L env s.acc = (t, none) ∧ SameValue t s.view

/-- Both merges of a pass go through. -/
def Merges (s : LoopState F) (out : Text F) : Prop :=
  isBlankOutput out = true ∨ (mergeJSON L s.acc out).2 = none ∧ (mergeJSON L s.view out).2 = none

def MembersFit (env : Text F) : Text F → List (String × Json F) → Prop
  | _, [] => True
  | acc, (k, x) :: ms =>
    Fits L.dup (L.get env k) (L.get acc k) x ∧ ∀ acc', mergeMember L acc k x = some acc' →
      MembersFit env acc' ms

def PassFits (env : Text F) (s : LoopState F) (out : Text F) : Prop :=
  isBlankOutput out = true ∨ MembersFit L env s.acc (L.each out)

/-- The members that a merge can write under their names: the paths lead there, and the numbers can
be written. -/
def Writable (out : Text F) : Prop :=
  ∀ e ∈ L.each out, L.Addressed e.1 ∧ e.2.finite L.fin = true

/-- Something holds at every pass over these outputs. -/
def AlongPasses (P : LoopState F → Text F → Prop) (s : LoopState F) (outs : List (Text F)) : Prop :=
  Lib.Runs.Along (fun s out => some (loopPass L s out)) P s outs

end Statement

section Tracking

variable {L : JsonLib F}

structure Tracks (L : JsonLib F) (a v : ObjText F) : Prop where
  accFinite : a.finite L.fin = true
  viewFinite : v.finite L.fin = true
  names : ∀ e ∈ a.entries, L.Addressed e.1
  once : (keys a.entries).Nodup
  unique : ∀ e ∈ a.entries, e.2.Unique

def JoinsTo (L : JsonLib F) (env a v : ObjText F) : Prop :=
  ∀ k, joined L.dup (a.entries.lookup k) (column k env.entries) = some (column k v.entries)

variable {env a v : ObjText F} {k : String} {x y z : Json F}

theorem agrees_iff (h : Tracks L a v) (henv : env.finite L.fin = true) :
    Agrees L env.render ⟨a.render, v.render⟩ ↔ JoinsTo L env a v := by
  have hes : ∀ e ∈ a.entries, L.Addressed e.1 ∧ e.2.finite L.fin = true :=
    fun e he => ⟨h.names e he, (a.finite_iff L.fin).mp h.accFinite e he⟩
  have hmerge := mergeMembers_render henv hes h.once
  simp only [Agrees, SameValue, mergeJSON_render, parse_eq_some_iff]
  constructor
  · rintro ⟨t, ht, o, o', rfl, ho', hcols⟩ k
    obtain rfl : v = o' := Option.some.inj ((parse_render v).symm.trans (parse_eq_some_iff.mpr ho'))
    rcases hmerge with ⟨o₁, ho₁, hjoined⟩ | ⟨herr, -⟩
    · obtain rfl : o = o₁ := by
        have hrender := congrArg Prod.fst (ht.symm.trans ho₁)
        exact Option.some.inj ((parse_render o).symm.trans (parse_eq_some_iff.mpr hrender))
      rw [hjoined k, hcols k]
    · rw [ht] at herr
      exact absurd rfl herr
  · intro hjoins
    rcases hmerge with ⟨o, ho, hjoined⟩ | ⟨-, k, hnone⟩
    · exact ⟨_, ho, o, v, rfl, rfl, fun k => Option.some.inj ((hjoined k).symm.trans (hjoins k))⟩
    · rw [hjoins k] at hnone
      cases hnone

theorem Tracks.write (h : Tracks L a v) (hk : L.Addressed k) (hx : x.finite L.fin = true)
    (hy : memberValue L.dup x (a.entries.lookup k) = some y)
    (hz : memberValue L.dup x (v.entries.lookup k) = some z) :
    Tracks L (write L a k y) (write L v k z) where
  accFinite :=
    finite_write h.accFinite (finite_memberValue hx (fun _ _ hw => finite_lookup h.accFinite hw) hy)
  viewFinite :=
    finite_write h.viewFinite
      (finite_memberValue hx (fun _ _ hw => finite_lookup h.viewFinite hw) hz)
  names e he := by
    rcases mem_write he with rfl | he
    · exact hk
    · exact h.names e he
  once := nodup_write h.once
  unique e he := by
    rcases mem_write he with rfl | he
    · exact unique_memberValue hy
    · exact h.unique e he

theorem joinsTo_write_iff (h : Tracks L a v) (hjoins : JoinsTo L env a v)
    (hy : memberValue L.dup x (a.entries.lookup k) = some y)
    (hz : memberValue L.dup x (v.entries.lookup k) = some z) :
    JoinsTo L env (Merge.write L a k y) (Merge.write L v k z) ↔
      Fits L.dup (env.entries.lookup k) (a.entries.lookup k) x := by
  have hkeep (k' : String) (hne : k' ≠ k) : joined L.dup ((Merge.write L a k y).entries.lookup k')
      (column k' env.entries) = some (column k' (Merge.write L v k z).entries) := by
    rw [lookup_write_of_ne hne, column_write_of_ne hne]
    exact hjoins k'
  have hself : JoinsTo L env (Merge.write L a k y) (Merge.write L v k z) ↔
      (memberValue L.dup y (env.entries.lookup k)).map (· :: (column k env.entries).tail) =
        some (z :: (column k v.entries).tail) := by
    rw [← head?_column, ← column_write_self (L := L)]
    constructor
    · intro hall
      have hall := hall k
      rwa [lookup_write_self] at hall
    · intro hone k'
      by_cases hne : k' = k
      · subst hne
        rwa [lookup_write_self]
      · exact hkeep k' hne
  rw [hself]
  have hcol := hjoins k
  cases hacc : a.entries.lookup k with
  | none =>
    rw [hacc] at hcol hy
    have hcol : column k env.entries = column k v.entries := Option.some.inj hcol
    have hlookup : env.entries.lookup k = v.entries.lookup k := by
      rw [← head?_column, hcol, head?_column]
    rw [memberValue_again hy, hlookup, hz, hcol]
    refine iff_of_true rfl fun _ _ _ ha => ?_
    cases ha
  | some b =>
    rw [hacc] at hcol hy
    obtain ⟨w, hw, hcol⟩ := Option.map_eq_some_iff.mp hcol
    rw [head?_column] at hw
    have hlookup : v.entries.lookup k = some w := by rw [← head?_column, ← hcol, List.head?_cons]
    have htail : (column k v.entries).tail = (column k env.entries).tail := by
      rw [← hcol, List.tail_cons]
    rw [hlookup] at hz
    rw [← memberValue_comm_iff (h.unique _ (mem_of_lookup hacc)) hw hy hz, htail]
    constructor
    · intro hmap
      obtain ⟨u, hu, heq⟩ := Option.map_eq_some_iff.mp hmap
      rw [hu, (List.cons.inj heq).1]
    · intro hu
      rw [hu, Option.map_some]

def writes (L : JsonLib F) (o : ObjText F) (ms : List (String × Json F)) : Option (ObjText F) :=
  ms.foldlM (fun o e => (memberValue L.dup e.2 (o.entries.lookup e.1)).map (Merge.write L o e.1)) o

theorem writes_cons (o : ObjText F) (e : String × Json F) (ms : List (String × Json F)) :
    writes L o (e :: ms) =
      (memberValue L.dup e.2 (o.entries.lookup e.1)).bind fun v =>
        writes L (Merge.write L o e.1 v) ms := by
  rw [writes, List.foldlM_cons]
  cases memberValue L.dup e.2 (o.entries.lookup e.1) <;> rfl

variable {ms : List (String × Json F)} {a' v' o o' : ObjText F}

theorem mergeMembers_eq_writes (ho : o.finite L.fin = true)
    (hms : ∀ e ∈ ms, L.Addressed e.1 ∧ e.2.finite L.fin = true)
    (h : (mergeMembers L o.render ms).2 = none) :
    ∃ o', writes L o ms = some o' ∧ mergeMembers L o.render ms = (o'.render, none) := by
  induction ms generalizing o with
  | nil => exact ⟨o, rfl, rfl⟩
  | cons e ms ih =>
    obtain ⟨k, x⟩ := e
    rw [List.forall_mem_cons] at hms
    rw [mergeMembers, mergeMember_render hms.1.1 ho hms.1.2] at h ⊢
    rw [writes_cons]
    cases hv : memberValue L.dup x (o.entries.lookup k) with
    | none =>
      rw [hv] at h
      cases h
    | some v =>
      rw [hv] at h
      have hfinite := finite_memberValue hms.1.2 (fun _ _ hw => finite_lookup ho hw) hv
      exact ih (finite_write ho hfinite) hms.2 h

theorem Tracks.writes (h : Tracks L a v) (hms : ∀ e ∈ ms, L.Addressed e.1 ∧ e.2.finite L.fin = true)
    (ha : writes L a ms = some a') (hv : writes L v ms = some v') : Tracks L a' v' := by
  induction ms generalizing a v with
  | nil =>
    cases ha
    cases hv
    exact h
  | cons e ms ih =>
    rw [List.forall_mem_cons] at hms
    rw [writes_cons, Option.bind_eq_some_iff] at ha hv
    obtain ⟨y, hy, ha⟩ := ha
    obtain ⟨z, hz, hv⟩ := hv
    exact ih (h.write hms.1.1 hms.1.2 hy hz) hms.2 ha hv

theorem column_writes (h : writes L o ms = some o') (hk : k ∉ keys ms) :
    column k o'.entries = column k o.entries := by
  induction ms generalizing o with
  | nil =>
    cases h
    rfl
  | cons e ms ih =>
    rw [keys_cons, List.mem_cons, not_or] at hk
    rw [writes_cons, Option.bind_eq_some_iff] at h
    obtain ⟨v, -, h⟩ := h
    rw [ih h hk.2, column_write_of_ne hk.1]

theorem membersFit_cons (ha : a.finite L.fin = true) {e : String × Json F}
    (he : L.Addressed e.1 ∧ e.2.finite L.fin = true)
    (hy : memberValue L.dup e.2 (a.entries.lookup e.1) = some y) :
    MembersFit L env.render a.render (e :: ms) ↔
      Fits L.dup (env.entries.lookup e.1) (a.entries.lookup e.1) e.2 ∧
        MembersFit L env.render (Merge.write L a e.1 y).render ms := by
  rw [MembersFit, he.1.get, he.1.get, mergeMember_render he.1 ha he.2, hy]
  simp

theorem joinsTo_of_membersFit (h : Tracks L a v)
    (hms : ∀ e ∈ ms, L.Addressed e.1 ∧ e.2.finite L.fin = true) (ha : writes L a ms = some a')
    (hv : writes L v ms = some v') (hjoins : JoinsTo L env a v)
    (hfit : MembersFit L env.render a.render ms) : JoinsTo L env a' v' := by
  induction ms generalizing a v with
  | nil =>
    cases ha
    cases hv
    exact hjoins
  | cons e ms ih =>
    rw [List.forall_mem_cons] at hms
    rw [writes_cons, Option.bind_eq_some_iff] at ha hv
    obtain ⟨y, hy, ha⟩ := ha
    obtain ⟨z, hz, hv⟩ := hv
    rw [membersFit_cons h.accFinite hms.1 hy] at hfit
    exact ih (h.write hms.1.1 hms.1.2 hy hz) hms.2 ha hv
      ((joinsTo_write_iff h hjoins hy hz).mpr hfit.1) hfit.2

theorem membersFit_of_joinsTo (h : Tracks L a v)
    (hms : ∀ e ∈ ms, L.Addressed e.1 ∧ e.2.finite L.fin = true) (honce : (keys ms).Nodup)
    (ha : writes L a ms = some a') (hv : writes L v ms = some v') (hjoins : JoinsTo L env a v)
    (hend : JoinsTo L env a' v') : MembersFit L env.render a.render ms := by
  induction ms generalizing a v with
  | nil => trivial
  | cons e ms ih =>
    rw [List.forall_mem_cons] at hms
    rw [keys_cons, List.nodup_cons] at honce
    rw [writes_cons, Option.bind_eq_some_iff] at ha hv
    obtain ⟨y, hy, ha⟩ := ha
    obtain ⟨z, hz, hv⟩ := hv
    have hnext : JoinsTo L env (Merge.write L a e.1 y) (Merge.write L v e.1 z) := by
      intro k
      by_cases hk : k = e.1
      · subst hk
        rw [← head?_column, ← column_writes ha honce.1, ← column_writes hv honce.1, head?_column]
        exact hend e.1
      · rw [lookup_write_of_ne hk, column_write_of_ne hk]
        exact hjoins k
    rw [membersFit_cons h.accFinite hms.1 hy]
    exact ⟨(joinsTo_write_iff h hjoins hy hz).mp hnext,
      ih (h.write hms.1.1 hms.1.2 hy hz) hms.2 honce.2 ha hv hnext⟩

end Tracking

section Passes

variable {L : JsonLib F} {env a v : ObjText F} {out : Text F} {outs : List (Text F)}

theorem mergeJSON_members {o : ObjText F} (hblank : isBlankOutput out = false)
    (h : (mergeJSON L o.render out).2 = none) :
    mergeJSON L o.render out = mergeMembers L o.render (L.each out) := by
  have hout : out.isEmpty = false := by
    cases out with
    | nil => cases hblank
    | cons => rfl
  have ho : o.render.isEmpty = false := by simp [ObjText.render]
  rw [mergeJSON_eq_slow] at h ⊢
  simp only [mergeJSONSlow, hout, ho, isObjectText_render, Bool.not_true, Bool.or_false,
    Bool.not_eq_true',
    Bool.false_eq_true, if_false] at h ⊢
  split at h
  · cases h
  · next hobject => rw [if_neg hobject]

theorem Tracks.pass (env : ObjText F) (h : Tracks L a v) (hout : Writable L out)
    (hmerge : Merges L ⟨a.render, v.render⟩ out) :
    ∃ a' v' : ObjText F, loopPass L ⟨a.render, v.render⟩ out = ⟨a'.render, v'.render⟩ ∧
      Tracks L a' v' ∧
      (JoinsTo L env a v → PassFits L env.render ⟨a.render, v.render⟩ out → JoinsTo L env a' v') ∧
      ((keys (L.each out)).Nodup → JoinsTo L env a v → JoinsTo L env a' v' →
        PassFits L env.render ⟨a.render, v.render⟩ out) := by
  cases hblank : isBlankOutput out with
  | true =>
    refine ⟨a, v, ?_, h, fun hjoins _ => hjoins, fun _ _ _ => .inl hblank⟩
    rw [loopPass, if_pos hblank]
  | false =>
    obtain ⟨hacc, hview⟩ := hmerge.resolve_left (by simp [hblank])
    have heqAcc := mergeJSON_members hblank hacc
    have heqView := mergeJSON_members hblank hview
    rw [heqAcc] at hacc
    rw [heqView] at hview
    obtain ⟨a', ha, hacc⟩ := mergeMembers_eq_writes h.accFinite hout hacc
    obtain ⟨v', hv, hview⟩ := mergeMembers_eq_writes h.viewFinite hout hview
    refine ⟨a', v', ?_, h.writes hout ha hv, fun hjoins hfit => ?_, fun honce hjoins hend => ?_⟩
    · simp only [loopPass, hblank, Bool.false_eq_true, if_false, mergeOrKeep, heqAcc, heqView,
        hacc, hview]
    · exact joinsTo_of_membersFit h hout ha hv hjoins (hfit.resolve_left (by simp [hblank]))
    · exact .inr (membersFit_of_joinsTo h hout honce ha hv hjoins hend)

theorem Tracks.start (henv : env.finite L.fin = true) : Tracks L JsonLib.emptyObj env where
  accFinite := rfl
  viewFinite := henv
  names := List.forall_mem_nil _
  once := List.nodup_nil
  unique := List.forall_mem_nil _

theorem joinsTo_start : JoinsTo L env JsonLib.emptyObj env :=
  fun _ => rfl

theorem alongPasses_cons {P : LoopState F → Text F → Prop} {s : LoopState F} :
    AlongPasses L P s (out :: outs) ↔ P s out ∧ AlongPasses L P (loopPass L s out) outs := by
  simp [AlongPasses, Lib.Runs.Along]

theorem joinsTo_of_passes (h : Tracks L a v) (hout : ∀ out ∈ outs, Writable L out)
    (hmerge : AlongPasses L (Merges L) ⟨a.render, v.render⟩ outs) (hjoins : JoinsTo L env a v)
    (hfit : AlongPasses L (PassFits L env.render) ⟨a.render, v.render⟩ outs) :
    ∃ a' v' : ObjText F, outs.foldl (loopPass L) ⟨a.render, v.render⟩ = ⟨a'.render, v'.render⟩ ∧
      Tracks L a' v' ∧
      JoinsTo L env a' v' := by
  induction outs generalizing a v with
  | nil => exact ⟨a, v, rfl, h, hjoins⟩
  | cons out outs ih =>
    rw [List.forall_mem_cons] at hout
    rw [alongPasses_cons] at hmerge hfit
    obtain ⟨a', v', hpass, htracks, hstep, -⟩ := h.pass env hout.1 hmerge.1
    rw [hpass] at hmerge hfit
    rw [List.foldl_cons, hpass]
    exact ih htracks hout.2 hmerge.2 (hstep hjoins hfit.1) hfit.2

theorem passFits_of_agrees (henv : env.finite L.fin = true) (h : Tracks L a v)
    (hout : ∀ out ∈ outs, Writable L out) (honce : ∀ out ∈ outs, (keys (L.each out)).Nodup)
    (hmerge : AlongPasses L (Merges L) ⟨a.render, v.render⟩ outs) (hjoins : JoinsTo L env a v)
    (hagrees : AlongPasses L (fun s out => Agrees L env.render (loopPass L s out))
      ⟨a.render, v.render⟩ outs) :
    AlongPasses L (PassFits L env.render) ⟨a.render, v.render⟩ outs := by
  induction outs generalizing a v with
  | nil => trivial
  | cons out outs ih =>
    rw [List.forall_mem_cons] at hout honce
    rw [alongPasses_cons] at hmerge hagrees ⊢
    obtain ⟨a', v', hpass, htracks, -, hfit⟩ := h.pass env hout.1 hmerge.1
    rw [hpass] at hmerge hagrees ⊢
    have hend := (agrees_iff htracks henv).mp hagrees.1
    exact ⟨hfit honce.1 hjoins hend, ih htracks hout.2 honce.2 hmerge.2 hend hagrees.2⟩

theorem alongPasses_append {P : LoopState F → Text F → Prop} {s : LoopState F}
    {rest : List (Text F)} (h : AlongPasses L P s (outs ++ rest)) : AlongPasses L P s outs := by
  induction outs generalizing s with
  | nil => trivial
  | cons out outs ih =>
    rw [List.cons_append, alongPasses_cons] at h
    rw [alongPasses_cons]
    exact ⟨h.1, ih h.2⟩

theorem runLoop_agrees {rule : LoopRule F} {turns : List (Turn F)} {fin : LoopEnd F}
    (hrun : runLoop L rule env.render turns = some fin) (henv : env.finite L.fin = true)
    (hout : ∀ out ∈ outputs turns, Writable L out)
    (hmerge : AlongPasses L (Merges L) (loopStart env.render) (outputs turns))
    (hfit : AlongPasses L (PassFits L env.render) (loopStart env.render) (outputs turns)) :
    Agrees L env.render fin.state := by
  obtain ⟨outs, ⟨rest, hrest⟩, hstate⟩ := loopFrom_state hrun
  rw [← hrest] at hout hmerge hfit
  obtain ⟨a, v, hend, htracks, hjoins⟩ := joinsTo_of_passes (.start henv)
    (fun out hmem => hout out (List.mem_append_left rest hmem)) (alongPasses_append hmerge)
      joinsTo_start
    (alongPasses_append hfit)
  rw [hstate, show outs.foldl (loopPass L) (loopStart env.render) = _ from hend]
  exact (agrees_iff htracks henv).mpr hjoins

/-- Over outputs that fit, the contribution merged into the envelope is the view; and where it is so
after every pass, the outputs that name each member once fitted. -/
theorem loop_agrees (env : ObjText F) (henv : env.finite L.fin = true) (outs : List (Text F))
    (hout : ∀ out ∈ outs, Writable L out)
    (hmerge : AlongPasses L (Merges L) (loopStart env.render) outs) :
    (AlongPasses L (PassFits L env.render) (loopStart env.render) outs →
      Agrees L env.render (outs.foldl (loopPass L) (loopStart env.render))) ∧
    ((∀ out ∈ outs, (keys (L.each out)).Nodup) →
      AlongPasses L (fun s out => Agrees L env.render (loopPass L s out))
        (loopStart env.render) outs →
        AlongPasses L (PassFits L env.render) (loopStart env.render) outs) := by
  constructor
  · intro hfit
    obtain ⟨a, v, hstate, htracks, hjoins⟩ :=
      joinsTo_of_passes (.start henv) hout hmerge joinsTo_start hfit
    rw [show outs.foldl (loopPass L) (loopStart env.render) = _ from hstate]
    exact (agrees_iff htracks henv).mpr hjoins
  · intro honce hagrees
    exact passFits_of_agrees henv (.start henv) hout honce hmerge joinsTo_start hagrees

/-- An object with one member `x`. -/
def oneMember (x : Json Int) : ObjText Int :=
  (intLib .first).ofEntries [("x", x)]

theorem writable_oneMember (x : Json Int) (hx : x.finite (fun _ => true) = true) :
    Writable (intLib .first) (oneMember x).render := by
  have hplain : plainMergeKey "x" = true := by decide
  intro e he
  rw [JsonLib.each, parse_render] at he
  obtain rfl := List.mem_singleton.mp he
  exact ⟨JsonLib.addressed_of_plain hplain, hx⟩

/-- Two arrays that a loop appends to the envelope's. -/
theorem loop_agrees_appended :
    Agrees (intLib .first) (oneMember (.arr [.num 1])).render
      ([(oneMember (.arr [.num 2])).render, (oneMember (.arr [.num 3])).render].foldl
        (loopPass (intLib .first)) (loopStart (oneMember (.arr [.num 1])).render)) := by
  refine (loop_agrees (L := intLib .first) _ rfl _ ?_ ?_).1 ?_
  · intro out hout
    simp only [List.mem_cons, List.not_mem_nil, or_false] at hout
    rcases hout with rfl | rfl <;> exact writable_oneMember _ rfl
  · simp only [alongPasses_cons]
    refine ⟨.inr ⟨?_, ?_⟩, .inr ⟨?_, ?_⟩, trivial⟩ <;> decide
  · simp only [alongPasses_cons]
    refine ⟨.inr ⟨?_, fun _ _ => trivial⟩, .inr ⟨?_, fun _ _ => trivial⟩, trivial⟩
    · intro _ _ _ ha
      cases ha
    · intro _ _ a ha
      cases ha
      exact ⟨fun _ => .inl rfl, fun hobject => Bool.noConfusion hobject⟩

/-- The arrays at `x`, by their lengths. -/
def arrayLengths (t : Text Int) : List Nat :=
  (parse t).elim [] fun o => (column "x" o.entries).map fun
    | .arr xs => xs.length
    | _ => 0

theorem arrayLengths_of_same {t t' : Text Int} (h : SameValue t t') :
    arrayLengths t = arrayLengths t' := by
  obtain ⟨o, o', ho, ho', hcols⟩ := h
  simp only [arrayLengths, ho, ho', Option.elim_some, hcols]

/-- A string between two arrays: the view has the second array only, and the merged contribution
both. -/
theorem not_loop_agrees_string : ¬∀ (env : ObjText Int) (outs : List (Text Int)),
    AlongPasses (intLib .first) (Merges (intLib .first)) (loopStart env.render) outs →
      Agrees (intLib .first) env.render
        (outs.foldl (loopPass (intLib .first)) (loopStart env.render)) := by
  intro h
  have hmerge : AlongPasses (intLib .first) (Merges (intLib .first))
    (loopStart (oneMember (.arr [.num 1])).render)
      [(oneMember (.str "s")).render, (oneMember (.arr [.num 2])).render] := by
    simp only [alongPasses_cons]
    refine ⟨.inr ⟨?_, ?_⟩, .inr ⟨?_, ?_⟩, trivial⟩ <;> decide
  obtain ⟨t, ht, hsame⟩ := h _ _ hmerge
  have hlength := arrayLengths_of_same hsame
  rw [show t = _ from (congrArg Prod.fst ht).symm] at hlength
  exact absurd hlength (by decide)

end Passes

end Merge

end ThanksComputer
