import ThanksComputer.Ops.Table

/-! The scopes a run visits when some rule resonates at each of them and none jumps or halts: which
scopes of the stack and of its ancestors it reaches, and whose rules it consults there. -/

namespace ThanksComputer.Ops

open Lib.Layers

/-- `ResonatingOps` over a run whose every scope has a resonating rule; the number is the hop, which
stands for the envelope of that scope. -/
structure Resonance where
  pick : Nat → List Row → List Row
  subset : ∀ n rows, pick n rows ⊆ rows
  nonempty : ∀ n rows, rows ≠ [] → pick n rows ≠ []

/-- The scope of `Itoa(scope + 1)`: past the largest `int` it wraps and no longer parses. -/
def succScope (x : Nat) : Option Nat :=
  if x < maxInt then some (x + 1) else none

def lookupAfter (t : List Row) (s : Stack) (x : Nat) : List Row :=
  match succScope x with
  | some floor => opsForStage t s floor
  | none => []

def ranScope (ops : List Row) : Nat :=
  ops.foldl (fun m r => max m r.scope) 0

/-- `Run` sets the stage to the one of the last op it starts. -/
def ranStack (s : Stack) (ops : List Row) : Stack :=
  match ops.getLast? with
  | some r => r.stack
  | none => s

/-- The corrected look-ahead of `advanceAfterScope`, which keeps `Run`'s own when it does not
parse. -/
def nextOps (t : List Row) (s : Stack) (x : Nat) (ops : List Row) : List Row :=
  match succScope (ranScope ops) with
  | some floor => opsForStage t (ranStack s ops) floor
  | none => lookupAfter t s x

structure Visit where
  scope : Nat
  rules : List Row
  deriving DecidableEq

/-- The visits of a run that enters the stage; `none` when the hops given do not suffice. -/
def runFrom (t : List Row) (R : Resonance) : Nat → Nat → Stack → Nat → Option (List Visit)
  | 0, _, _, _ => none
  | n + 1, hop, s, x =>
    let rules := opsForStage t s x
    if rules.isEmpty then some []
    else
      let ops := R.pick hop rules
      match nextOps t s x ops with
      | [] => some [⟨ranScope ops, rules⟩]
      | r :: _ =>
        (runFrom t R n (hop + 1) (ranStack s ops) r.scope).map (⟨ranScope ops, rules⟩ :: ·)

/-- The visits are the scopes of the stack and of its peelable ancestors, ascending and each once,
with the rules of the deepest stack that defines each. -/
structure Inherits (t : List Row) (s : Stack) (visits : List Visit) : Prop where
  ascending : (visits.map Visit.scope).Pairwise (· < ·)
  scopes : ∀ x, x ∈ visits.map Visit.scope ↔ ∃ a ∈ chain s, x ∈ scopesOf t a
  deepest : ∀ v ∈ visits, ∃ a, First (scopesOf t) (chain s) v.scope a ∧ v.rules = rowsAt t a v.scope

/-- There is a scope, and it is the largest `int` alone. -/
def OnlyMaxInt (t : List Row) (s : Stack) : Prop :=
  (∃ a ∈ chain s, scopesOf t a ≠ []) ∧ ∀ a ∈ chain s, ∀ x ∈ scopesOf t a, x = maxInt

theorem ranScope_eq {ops : List Row} {x : Nat} (hne : ops ≠ []) (h : ∀ r ∈ ops, r.scope = x) :
    ranScope ops = x := by
  have hfold : ∀ (ops : List Row) (m : Nat), m ≤ x → (∀ r ∈ ops, r.scope = x) →
      ops ≠ [] ∨ m = x → ops.foldl (fun m r => max m r.scope) m = x := by
    intro ops
    induction ops with
    | nil =>
      intro m _ _ hm
      simpa using hm
    | cons r ops ih =>
      intro m hm hops _
      have hr : r.scope = x := hops r List.mem_cons_self
      rw [List.foldl_cons, hr]
      exact ih (max m x) (Nat.max_le.mpr ⟨hm, Nat.le_refl x⟩)
        (fun q hq => hops q (List.mem_cons_of_mem _ hq)) (.inr (Nat.max_eq_right hm))
  exact hfold ops 0 (Nat.zero_le x) h (.inl hne)

theorem ranStack_mem (s : Stack) {ops : List Row} (hne : ops ≠ []) :
    ∃ r ∈ ops, ranStack s ops = r.stack := by
  rw [ranStack, List.getLast?_eq_some_getLast hne]
  exact ⟨_, List.getLast_mem hne, rfl⟩

/-- The chain up to the case of letters, which is all a lookup sees of it. -/
def classes (s : Stack) : List Stack :=
  (chain s).map foldCase

theorem classes_congr {a b : Stack} (h : like a b = true) : classes a = classes b := by
  induction a generalizing b with
  | nil =>
    cases b with
    | nil => rfl
    | cons seg b => cases length_eq_of_like h
  | cons seg a ih =>
    cases b with
    | nil => cases length_eq_of_like h
    | cons seg' b =>
      have hpeel := peelParent_isSome_congr h
      have hfold : foldCase (seg :: a) = foldCase (seg' :: b) := by simpa [like] using h
      have ih' := ih (like_cons h).2
      rw [classes, classes] at ih' ⊢
      rw [chain, chain]
      cases hp : peelParent (seg :: a) <;> cases hp' : peelParent (seg' :: b) <;>
        simp_all

theorem scopesOf_foldCase (t : List Row) (s : Stack) : scopesOf t (foldCase s) = scopesOf t s := by
  rw [scopesOf, scopesOf, rowsOf_congr (like_foldCase s)]

theorem rowsAt_congr {a b : Stack} (h : like a b = true) (t : List Row) (x : Nat) :
    rowsAt t a x = rowsAt t b x := by
  rw [rowsAt, rowsAt, rowsOf_congr h]

theorem descend_map_foldCase (t : List Row) (cs : List Stack) (floor : Nat) :
    descend (scopesOf t) (cs.map foldCase) floor =
      (descend (scopesOf t) cs floor).map fun r => (r.1.map foldCase, r.2) := by
  induction cs with
  | nil => rfl
  | cons a cs ih =>
    rw [List.map_cons, descend, descend, scopesOf_foldCase]
    cases lowest (scopesOf t a) floor with
    | some m => rfl
    | none => exact ih

theorem opsForStage_classes (t : List Row) (s : Stack) (floor : Nat) :
    opsForStage t s floor =
      match descend (scopesOf t) (classes s) floor with
      | some (a :: _, m) => rowsAt t a m
      | _ => [] := by
  rw [opsForStage_eq, classes, descend_map_foldCase]
  cases descend (scopesOf t) (chain s) floor with
  | none => rfl
  | some r =>
    obtain ⟨cs, m⟩ := r
    cases cs with
    | nil => rfl
    | cons a cs => exact rowsAt_congr (like_comm (like_foldCase a)) t m

theorem classes_of_mem_rowsAt {t : List Row} {s a : Stack} {pre post : List Stack}
    {m : Nat} {r : Row} (h : classes s = pre ++ a :: post) (hr : r ∈ rowsAt t a m) :
      classes r.stack = a :: post := by
  obtain ⟨pre', rest, hchain, hpre', hrest⟩ := List.map_eq_append_iff.mp h
  obtain ⟨b, post', rfl, rfl, hpost'⟩ := List.map_eq_cons_iff.mp hrest
  have hlike : like r.stack b = true :=
    like_trans (mem_rowsOf.mp (mem_rowsAt.mp hr).1).2 (like_foldCase b)
  rw [classes_congr hlike, classes, chain_suffix hchain, List.map_cons, hpost']

def toVisit (t : List Row) (p : Nat × Stack) : Visit :=
  ⟨p.1, rowsAt t p.2 p.1⟩

theorem hop_spec {t : List Row} (R : Resonance) (hop : Nat) {s a : Stack} {cs : List Stack}
    {x m : Nat} (h : descend (scopesOf t) (classes s) x = some (a :: cs, m)) :
    opsForStage t s x = rowsAt t a m ∧ rowsAt t a m ≠ [] ∧
      ranScope (R.pick hop (rowsAt t a m)) = m ∧
      classes (ranStack s (R.pick hop (rowsAt t a m))) = a :: cs := by
  have hops : opsForStage t s x = rowsAt t a m := by rw [opsForStage_classes, h]
  obtain ⟨pre, b, post, hcs, heq, hlow, -⟩ := descend_eq_some h
  cases heq
  have hne : rowsAt t a m ≠ [] := mem_scopesOf.mp (lowest_eq_some.mp hlow).1
  have hpick := R.nonempty hop _ hne
  have hscope : ∀ r ∈ R.pick hop (rowsAt t a m), r.scope = m := fun r hr =>
    (mem_rowsAt.mp (R.subset hop _ hr)).2
  obtain ⟨r, hr, hstack⟩ := ranStack_mem s hpick
  refine ⟨hops, hne, ranScope_eq hpick hscope, ?_⟩
  rw [hstack]
  exact classes_of_mem_rowsAt hcs (R.subset hop _ hr)

theorem le_maxInt_of_descend {t : List Row} {cs cs' : List Stack} {x m : Nat}
    (h : descend (scopesOf t) cs x = some (cs', m)) : m ≤ maxInt := by
  obtain ⟨pre, b, post, -, -, hlow, -⟩ := descend_eq_some h
  exact scope_le_maxInt (lowest_eq_some.mp hlow).1

theorem descend_succ_maxInt (t : List Row) (cs : List Stack) :
    descend (scopesOf t) cs (maxInt + 1) = none := by
  cases h : descend (scopesOf t) cs (maxInt + 1) with
  | none => rfl
  | some r =>
    obtain ⟨pre, b, post, -, -, hlow, -⟩ := descend_eq_some h
    obtain ⟨hmem, hle, -⟩ := lowest_eq_some.mp hlow
    have := scope_le_maxInt hmem
    omega

theorem opsForStage_of_descend_none {t : List Row} {s : Stack} {x : Nat}
    (h : descend (scopesOf t) (classes s) x = none) : opsForStage t s x = [] := by
  rw [opsForStage_classes, h]

/-- The run follows the walk over the layers, as long as it does not enter below the largest `int`
and find that scope. -/
theorem runFrom_of_walk {t : List Row} (R : Resonance) (hop : Nat) {l : List (Nat × Stack)}
    {s : Stack} {x : Nat} (h : Walk (scopesOf t) (classes s) x l)
    (hguard : ∀ cs m, descend (scopesOf t) (classes s) x = some (cs, m) → m = maxInt → x = maxInt) :
    runFrom t R (l.length + 1) hop s x = some (l.map (toVisit t)) := by
  induction l generalizing s x hop with
  | nil =>
    cases h with
    | stop hnone => simp [runFrom, opsForStage_of_descend_none hnone]
  | cons p l ih =>
    cases h with
    | @step _ cs a _ m _ hsome hrest =>
      obtain ⟨hops, hne, hscope, hcur⟩ := hop_spec R hop hsome
      rw [List.length_cons, runFrom]
      simp only [hops, List.isEmpty_iff, hne, if_false, hscope, List.map_cons]
      have hm := le_maxInt_of_descend hsome
      cases hrest with
      | stop hnone =>
        have hnext : nextOps t s x (R.pick hop (rowsAt t a m)) = [] := by
          rw [nextOps, hscope, succScope]
          split
          · next floor hfloor =>
            split at hfloor
            · cases hfloor
              exact opsForStage_of_descend_none (hcur ▸ hnone)
            · cases hfloor
          · next hnone' =>
            have hx : x = maxInt := hguard _ _ hsome (by
              split at hnone'
              · cases hnone'
              · omega)
            rw [lookupAfter, succScope, if_neg (by omega)]
        rw [hnext]
        rfl
      | @step _ cs' b _ m' l' hsome' hrest' =>
        have hlt : m < maxInt := by
          rcases Nat.lt_or_eq_of_le hm with hlt | heq
          · exact hlt
          · rw [heq, descend_succ_maxInt] at hsome'
            cases hsome'
        rw [← hcur] at hsome'
        obtain ⟨hops', hne', -, -⟩ := hop_spec R hop hsome'
        have hnext : nextOps t s x (R.pick hop (rowsAt t a m)) = rowsAt t b m' := by
          rw [nextOps, hscope, succScope, if_pos hlt]
          exact hops'
        rw [hnext]
        cases hrows : rowsAt t b m' with
        | nil => exact absurd hrows hne'
        | cons r rs =>
          have hr : r.scope = m' := by
            have hmem : r ∈ rowsAt t b m' := hrows ▸ List.mem_cons_self
            exact (mem_rowsAt.mp hmem).2
          have hagain := descend_again (le_of_descend hsome') (Nat.le_refl m') hsome'
          have hwalk := ih (hop + 1) (.step hagain hrest') (by
            intro cs₂ m₂ h₂ hmax
            rw [hagain] at h₂
            cases h₂
            exact hmax)
          simp only [hr]
          rw [hwalk]
          rfl

theorem runFrom_succ {t : List Row} {R : Resonance} {n hop : Nat} {s : Stack} {x : Nat}
    {visits : List Visit} (h : runFrom t R n hop s x = some visits) :
    runFrom t R (n + 1) hop s x = some visits := by
  induction n generalizing hop s x visits with
  | zero => cases h
  | succ n ih =>
    rw [runFrom] at h ⊢
    simp only at h ⊢
    split at h
    · next hempty => rw [if_pos hempty]; exact h
    · next hempty =>
      rw [if_neg hempty]
      split at h
      · exact h
      · next r rs hcons =>
        obtain ⟨rest, hrest, rfl⟩ := Option.map_eq_some_iff.mp h
        simp only [ih hrest, Option.map_some]

theorem runFrom_mono {t : List Row} {R : Resonance} {n m hop : Nat} {s : Stack} {x : Nat}
    {visits : List Visit} (hle : n ≤ m) (h : runFrom t R n hop s x = some visits) :
    runFrom t R m hop s x = some visits := by
  induction hle with
  | refl => exact h
  | step _ ih => exact runFrom_succ ih

theorem runFrom_unique {t : List Row} {R : Resonance} {n m hop : Nat} {s : Stack} {x : Nat}
    {visits visits' : List Visit} (h : runFrom t R n hop s x = some visits)
    (h' : runFrom t R m hop s x = some visits') : visits = visits' := by
  have hn := runFrom_mono (Nat.le_max_left n m) h
  have hm := runFrom_mono (Nat.le_max_right n m) h'
  exact Option.some.inj (hn.symm.trans hm)

theorem visible_classes {t : List Row} {s : Stack} {x : Nat} {b : Stack} :
    Visible (scopesOf t) (classes s) x b ↔
      ∃ a, b = foldCase a ∧ Visible (scopesOf t) (chain s) x a := by
  constructor
  · rintro ⟨pre, post, hcs, hx, hpre⟩
    obtain ⟨pre', rest, hchain, rfl, hrest⟩ := List.map_eq_append_iff.mp hcs
    obtain ⟨a, post', rfl, rfl, -⟩ := List.map_eq_cons_iff.mp hrest
    rw [scopesOf_foldCase] at hx
    refine ⟨a, rfl, pre', post', hchain, hx, fun c hc y hy => ?_⟩
    exact hpre (foldCase c) (List.mem_map_of_mem hc) y (by rwa [scopesOf_foldCase])
  · rintro ⟨a, rfl, pre, post, hchain, hx, hpre⟩
    refine ⟨pre.map foldCase, post.map foldCase, ?_, ?_, fun c hc y hy => ?_⟩
    · rw [classes, hchain, List.map_append, List.map_cons]
    · rwa [scopesOf_foldCase]
    · obtain ⟨c', hc', rfl⟩ := List.mem_map.mp hc
      rw [scopesOf_foldCase] at hy
      exact hpre c' hc' y hy

theorem map_scope_toVisit (t : List Row) (l : List (Nat × Stack)) :
    (l.map (toVisit t)).map Visit.scope = l.map Prod.fst := by
  rw [List.map_map]
  rfl

theorem inherits_of_walk_iff {t : List Row} {s : Stack} {l : List (Nat × Stack)}
    (h : Walk (scopesOf t) (classes s) 0 l) :
    Inherits t s (l.map (toVisit t)) ↔ Layered (scopesOf t) (chain s) := by
  constructor
  · intro hin a ha x hx
    have hmem := (hin.scopes x).mpr ⟨a, ha, hx⟩
    rw [map_scope_toVisit] at hmem
    obtain ⟨p, hp, rfl⟩ := List.mem_map.mp hmem
    obtain ⟨b, -, hb⟩ := visible_classes.mp ((h.mem_iff p.1 p.2).mp hp).2
    exact ⟨b, hb⟩
  · intro hlay
    constructor
    · rw [map_scope_toVisit]
      exact h.pairwise
    · intro x
      rw [map_scope_toVisit]
      constructor
      · intro hx
        obtain ⟨p, hp, rfl⟩ := List.mem_map.mp hx
        obtain ⟨a, -, pre, post, hchain, hxa, -⟩ := visible_classes.mp ((h.mem_iff p.1 p.2).mp hp).2
        exact ⟨a, by simp [hchain], hxa⟩
      · rintro ⟨a, ha, hx⟩
        obtain ⟨b, hb⟩ := hlay a ha x hx
        have hvis := visible_classes.mpr ⟨b, rfl, hb⟩
        exact List.mem_map_of_mem ((h.mem_iff x _).mpr ⟨Nat.zero_le x, hvis⟩)
    · intro v hv
      obtain ⟨p, hp, rfl⟩ := List.mem_map.mp hv
      obtain ⟨a, hpa, ha⟩ := visible_classes.mp ((h.mem_iff p.1 p.2).mp hp).2
      refine ⟨a, ha.first, ?_⟩
      rw [toVisit, hpa]
      exact rowsAt_congr (like_foldCase a) t p.1

theorem exists_walk (t : List Row) (cs : List Stack) (floor : Nat) :
    ∃ l, Walk (scopesOf t) cs floor l :=
  Walk.exists_of_bounded maxInt cs (fun _ _ _ hx => scope_le_maxInt hx) floor

theorem onlyMaxInt_of_layered {t : List Row} {s : Stack} {cs : List Stack}
    (h : descend (scopesOf t) (classes s) 0 = some (cs, maxInt))
    (hlay : Layered (scopesOf t) (chain s)) : OnlyMaxInt t s := by
  obtain ⟨pre, a, post, hcs, rfl, hlow, -⟩ := descend_eq_some h
  constructor
  · obtain ⟨pre', rest, hchain, -, hrest⟩ := List.map_eq_append_iff.mp hcs
    obtain ⟨b, post', rfl, rfl, -⟩ := List.map_eq_cons_iff.mp hrest
    refine ⟨b, by simp [hchain], List.ne_nil_of_mem (a := maxInt) ?_⟩
    rw [← scopesOf_foldCase]
    exact (lowest_eq_some.mp hlow).1
  · intro c hc x hx
    obtain ⟨b, hb⟩ := hlay c hc x hx
    have hvis := visible_classes.mpr ⟨b, rfl, hb⟩
    rcases (visible_descend h x _).mp ⟨Nat.zero_le x, hvis⟩ with ⟨hx', -⟩ | ⟨hx', -⟩
    · exact hx'
    · have := scope_le_maxInt hx
      omega

theorem descend_of_onlyMaxInt {t : List Row} {s : Stack} (h : OnlyMaxInt t s) :
    ∃ cs, descend (scopesOf t) (classes s) 0 = some (cs, maxInt) := by
  obtain ⟨⟨a, ha, hne⟩, hall⟩ := h
  obtain ⟨x, hx⟩ := List.exists_mem_of_ne_nil _ hne
  have hmem : foldCase a ∈ classes s := List.mem_map_of_mem ha
  have hx' : x ∈ scopesOf t (foldCase a) := by rwa [scopesOf_foldCase]
  have hsome := descend_isSome_of hmem hx' (Nat.zero_le x)
  obtain ⟨⟨cs, m⟩, hcs⟩ := Option.ne_none_iff_exists'.mp hsome
  obtain ⟨pre, b, post, hclasses, -, hlow, -⟩ := descend_eq_some hcs
  have hb : b ∈ classes s := by simp [hclasses]
  obtain ⟨c, hc, rfl⟩ := List.mem_map.mp hb
  have hm := (lowest_eq_some.mp hlow).1
  rw [scopesOf_foldCase] at hm
  rw [hall c hc m hm] at hcs
  exact ⟨cs, hcs⟩

theorem runFrom_maxInt_twice {t : List Row} (R : Resonance) {s : Stack} {cs : List Stack}
    (h : descend (scopesOf t) (classes s) 0 = some (cs, maxInt)) :
    ∃ n v v' visits, runFrom t R n 0 s 0 = some (v :: v' :: visits) ∧ v.scope = v'.scope := by
  obtain ⟨pre, a, post, -, rfl, -, -⟩ := descend_eq_some h
  obtain ⟨hops, hne, hscope, hcur⟩ := hop_spec R 0 h
  have hagain : descend (scopesOf t) (classes s) 1 = some (a :: post, maxInt) :=
    descend_again (Nat.zero_le 1) (by decide) h
  have hnext : nextOps t s 0 (R.pick 0 (rowsAt t a maxInt)) = rowsAt t a maxInt := by
    rw [nextOps, hscope, succScope, if_neg (Nat.lt_irrefl maxInt), lookupAfter, succScope,
      if_pos (by decide)]
    exact (hop_spec R 0 hagain).1
  obtain ⟨l, hl⟩ := exists_walk t (a :: post) (maxInt + 1)
  have hlow : descend (scopesOf t) (a :: post) maxInt = some (a :: post, maxInt) :=
    descend_self (descend_again (Nat.zero_le _) (Nat.le_refl _) h)
  have hrun := runFrom_of_walk R 1 (s := ranStack s (R.pick 0 (rowsAt t a maxInt)))
    (hcur ▸ Walk.step hlow hl) (fun _ _ _ _ => rfl)
  obtain ⟨r, rs, hrows⟩ := List.exists_cons_of_ne_nil hne
  have hr : r.scope = maxInt := by
    have hmem : r ∈ rowsAt t a maxInt := hrows ▸ List.mem_cons_self
    exact (mem_rowsAt.mp hmem).2
  refine ⟨l.length + 1 + 1 + 1, ⟨maxInt, rowsAt t a maxInt⟩, toVisit t (maxInt, a),
    l.map (toVisit t), ?_, rfl⟩
  rw [runFrom]
  simp only [hops, List.isEmpty_iff, hne, if_false, hscope, hnext.trans hrows, hr]
  rw [List.length_cons] at hrun
  rw [Nat.zero_add, hrun]
  rfl

/-- A run that enters the stack at scope 0 visits what the stack inherits exactly when no ancestor
has a scope below the end of a deeper stack that does not define it, and the largest `int` is not
the only scope. -/
theorem run_inherits_iff (t : List Row) (R : Resonance) (s : Stack) :
    (∃ n visits, runFrom t R n 0 s 0 = some visits ∧ Inherits t s visits) ↔
      Layered (scopesOf t) (chain s) ∧ ¬OnlyMaxInt t s := by
  by_cases hmax : ∃ cs, descend (scopesOf t) (classes s) 0 = some (cs, maxInt)
  · obtain ⟨cs, hcs⟩ := hmax
    constructor
    · rintro ⟨n, visits, hrun, hin⟩
      obtain ⟨n', v, v', rest, hrun', heq⟩ := runFrom_maxInt_twice R hcs
      rw [runFrom_unique hrun hrun'] at hin
      have hasc := hin.ascending
      rw [List.map_cons, List.map_cons, List.pairwise_cons] at hasc
      have hlt := hasc.1 v'.scope List.mem_cons_self
      rw [heq] at hlt
      exact absurd hlt (Nat.lt_irrefl _)
    · rintro ⟨hlay, hnot⟩
      exact absurd (onlyMaxInt_of_layered hcs hlay) hnot
  · obtain ⟨l, hl⟩ := exists_walk t (classes s) 0
    have hrun := runFrom_of_walk R 0 hl (by
      rintro cs m hcs rfl
      exact absurd ⟨cs, hcs⟩ hmax)
    have hnot : ¬OnlyMaxInt t s := fun h => hmax (descend_of_onlyMaxInt h)
    constructor
    · rintro ⟨n, visits, hrun', hin⟩
      rw [runFrom_unique hrun' hrun, inherits_of_walk_iff hl] at hin
      exact ⟨hin, hnot⟩
    · rintro ⟨hlay, -⟩
      exact ⟨_, _, hrun, (inherits_of_walk_iff hl).mpr hlay⟩

def everyRule : Resonance where
  pick _ rows := rows
  subset _ _ := fun _ h => h
  nonempty _ _ h := h

def website : Stack :=
  ["website".toList]

def canary : Stack :=
  ["canary".toList, "website".toList]

/-- A canary that overrides scope 100 of a website with scopes 50, 100 and 500. -/
def canaryTable : List Row :=
  [⟨canary, 100, "", "", by decide⟩, ⟨website, 50, "", "", by decide⟩,
    ⟨website, 100, "", "", by decide⟩, ⟨website, 500, "", "", by decide⟩]

/-- Scope 50 of the website is not inherited: the canary's 100 is found first. -/
theorem canary_skips_inherited_scope :
    (runFrom canaryTable everyRule 3 0 canary 0).map (·.map Visit.scope) = some [100, 500] ∧
      50 ∈ scopesOf canaryTable website ∧ website ∈ chain canary ∧
      ¬∃ n visits, runFrom canaryTable everyRule n 0 canary 0 = some visits ∧
        Inherits canaryTable canary visits := by
  have hscopes : (runFrom canaryTable everyRule 3 0 canary 0).map (·.map Visit.scope) =
      some [100, 500] := by decide
  have hmem : 50 ∈ scopesOf canaryTable website := by decide
  have hchain : website ∈ chain canary := by decide
  refine ⟨hscopes, hmem, hchain, ?_⟩
  rintro ⟨n, visits, hrun, hin⟩
  obtain ⟨visits', hrun', hscopes'⟩ := Option.map_eq_some_iff.mp hscopes
  rw [runFrom_unique hrun hrun'] at hin
  have hvisited := (hin.scopes 50).mpr ⟨website, hchain, hmem⟩
  rw [hscopes'] at hvisited
  revert hvisited
  decide

end ThanksComputer.Ops
