import Mathlib.Algebra.BigOperators.Group.List.Basic
import ThanksComputer.Lib.Process

/-! An invariant of a pool of processes may speak of tokens that the processes hold, no token in two
hands.  A program is safe when each of its operations keeps the invariant, whatever the others have
done to the store and hold in the meantime, and the tasks it starts are given the tokens they
ask for. -/

namespace ThanksComputer.Lib.Ownership

open CreateOnce Process

variable {κ : Type} {Doc : κ → Type} {ε τ R : Type} [DecidableEq κ] [AddCommMonoid R]

/-- `inv` is the invariant of the store and of all tokens held, `pre` what a task needs to start. -/
structure Discipline (Doc : κ → Type) (ε τ R : Type) where
  inv : Store Doc ε → R → Prop
  pre : τ → Store Doc ε → R → Prop
  pre_grows : ∀ t s s' r, Grows s s' → pre t s r → pre t s' r

variable (D : Discipline Doc ε τ R) {α β : Type}

/-- The program, holding `r` in the store `s` or a later one, keeps the invariant at each of its
operations and ends as `Q` says. -/
def Safe : Prog Doc ε τ α → (α → Store Doc ε → R → Prop) → Store Doc ε → R → Prop
  | .pure a, Q, s, r => Q a s r
  | .create k d next, Q, s, r =>
    ∀ s' f, Grows s s' → D.inv s' (r + f) →
      ∃ r', D.inv (s'.create k d) (r' + f) ∧ Safe (next (!s'.has k)) Q (s'.create k d) r'
  | .read g next, Q, s, r =>
    ∀ s' f, Grows s s' → D.inv s' (r + f) →
      ∃ r', D.inv s' (r' + f) ∧ Safe (next (g s')) Q s' r'
  | .note e next, Q, s, r =>
    ∀ s' f, Grows s s' → D.inv s' (r + f) →
      ∃ r', D.inv (s'.note e) (r' + f) ∧ Safe next Q (s'.note e) r'
  | .fork t next, Q, s, r =>
    ∀ s' f, Grows s s' → D.inv s' (r + f) →
      ∃ r₁ r₂, D.inv s' (r₁ + r₂ + f) ∧ D.pre t s' r₁ ∧ Safe next Q s' r₂
  | .await g next, Q, s, r =>
    ∀ s' f, Grows s s' → D.inv s' (r + f) → g s' = true →
      ∃ r', D.inv s' (r' + f) ∧ Safe next Q s' r'
  | .goto ts, _, s, r =>
    ∀ s' f, Grows s s' → D.inv s' (r + f) → ∀ t, ts t = true →
      ∃ r', D.inv s' (r' + f) ∧ D.pre t s' r'

def Ended (_ : Unit) (_ : Store Doc ε) (r : R) : Prop :=
  r = 0

variable {D}

theorem Safe.grows {p : Prog Doc ε τ α} {Q : α → Store Doc ε → R → Prop} {s s' : Store Doc ε}
    {r : R} (hQ : ∀ a s s' r, Grows s s' → Q a s r → Q a s' r) (hs : Grows s s')
    (h : Safe D p Q s r) :
    Safe D p Q s' r := by
  cases p with
  | pure a => exact hQ a s s' r hs h
  | create | read | note | fork | await | goto => exact fun s'' f hs'' => h s'' f (hs.trans hs'')

theorem Safe.bind {p : Prog Doc ε τ α} {g : α → Prog Doc ε τ β} {Q : β → Store Doc ε → R → Prop}
    {s : Store Doc ε} {r : R} (h : Safe D p (fun a s r => Safe D (g a) Q s r) s r) :
    Safe D (p.bind g) Q s r := by
  induction p generalizing s r with
  | pure a => exact h
  | create k d next ih =>
    intro s' f hs hinv
    obtain ⟨r', hinv', hnext⟩ := h s' f hs hinv
    exact ⟨r', hinv', ih _ hnext⟩
  | read g next ih =>
    intro s' f hs hinv
    obtain ⟨r', hinv', hnext⟩ := h s' f hs hinv
    exact ⟨r', hinv', ih _ hnext⟩
  | note e next ih =>
    intro s' f hs hinv
    obtain ⟨r', hinv', hnext⟩ := h s' f hs hinv
    exact ⟨r', hinv', ih hnext⟩
  | fork t next ih =>
    intro s' f hs hinv
    obtain ⟨r₁, r₂, hinv', hpre, hnext⟩ := h s' f hs hinv
    exact ⟨r₁, r₂, hinv', hpre, ih hnext⟩
  | await g next ih =>
    intro s' f hs hinv hg
    obtain ⟨r', hinv', hnext⟩ := h s' f hs hinv hg
    exact ⟨r', hinv', ih hnext⟩
  | goto ts => exact h

theorem Safe.mono {p : Prog Doc ε τ α} {Q Q' : α → Store Doc ε → R → Prop} {s : Store Doc ε} {r : R}
    (h : Safe D p Q s r) (hQ : ∀ a s r, Q a s r → Q' a s r) : Safe D p Q' s r := by
  induction p generalizing s r with
  | pure a => exact hQ a s r h
  | create k d next ih =>
    intro s' f hs hinv
    obtain ⟨r', hinv', hnext⟩ := h s' f hs hinv
    exact ⟨r', hinv', ih _ hnext⟩
  | read g next ih =>
    intro s' f hs hinv
    obtain ⟨r', hinv', hnext⟩ := h s' f hs hinv
    exact ⟨r', hinv', ih _ hnext⟩
  | note e next ih =>
    intro s' f hs hinv
    obtain ⟨r', hinv', hnext⟩ := h s' f hs hinv
    exact ⟨r', hinv', ih hnext⟩
  | fork t next ih =>
    intro s' f hs hinv
    obtain ⟨r₁, r₂, hinv', hpre, hnext⟩ := h s' f hs hinv
    exact ⟨r₁, r₂, hinv', hpre, ih hnext⟩
  | await g next ih =>
    intro s' f hs hinv hg
    obtain ⟨r', hinv', hnext⟩ := h s' f hs hinv hg
    exact ⟨r', hinv', ih hnext⟩
  | goto ts => exact h

variable {code : τ → Prog Doc ε τ Unit}

/-- Every task is safe from what it needs to start. -/
def Sound (D : Discipline Doc ε τ R) (code : τ → Prog Doc ε τ Unit) : Prop :=
  ∀ t s r, D.pre t s r → Safe D (code t) Ended s r

/-- The tokens can be dealt out to the processes so that each is safe with its own. -/
structure Held (D : Discipline Doc ε τ R) (c : Pool Doc ε τ) (hands : List (Proc Doc ε τ × R)) :
    Prop where
  procs : hands.map Prod.fst = c.procs
  inv : D.inv c.store (hands.map Prod.snd).sum
  safe : ∀ h ∈ hands, Safe D h.1.prog Ended c.store h.2

theorem act_safe (hD : Sound D code) {s s' : Store Doc ε} {p p' : Proc Doc ε τ}
    {forked : List (Proc Doc ε τ)} {r f : R} (hact : Act code s p s' p' forked)
    (hsafe : Safe D p.prog Ended s r) (hinv : D.inv s (r + f)) :
    ∃ (r' : R) (hands : List (Proc Doc ε τ × R)), hands.map Prod.fst = forked ∧
      D.inv s' (r' + (f + (hands.map Prod.snd).sum)) ∧
      Safe D p'.prog Ended s' r' ∧ ∀ h ∈ hands, Safe D h.1.prog Ended s' h.2 := by
  cases hact with
  | create t k d next =>
    obtain ⟨r', hinv', hnext⟩ := hsafe s f (Grows.refl s) hinv
    exact ⟨r', [], rfl, by simpa using hinv', hnext, by simp⟩
  | read t g next =>
    obtain ⟨r', hinv', hnext⟩ := hsafe s f (Grows.refl s) hinv
    exact ⟨r', [], rfl, by simpa using hinv', hnext, by simp⟩
  | note t e next =>
    obtain ⟨r', hinv', hnext⟩ := hsafe s f (Grows.refl s) hinv
    exact ⟨r', [], rfl, by simpa using hinv', hnext, by simp⟩
  | fork t u next =>
    obtain ⟨r₁, r₂, hinv', hpre, hnext⟩ := hsafe s f (Grows.refl s) hinv
    refine ⟨r₂, [(start code u, r₁)], rfl, ?_, hnext, ?_⟩
    · have hsum : r₁ + r₂ + f = r₂ + (f + ([(start code u, r₁)].map Prod.snd).sum) := by
        rw [List.map_cons, List.map_nil, List.sum_singleton, add_comm r₁ r₂, add_assoc,
          add_comm r₁ f]
      rw [← hsum]
      exact hinv'
    · intro h hh
      cases List.mem_singleton.mp hh
      exact hD u s r₁ hpre
  | await t g next hg =>
    obtain ⟨r', hinv', hnext⟩ := hsafe s f (Grows.refl s) hinv hg
    exact ⟨r', [], rfl, by simpa using hinv', hnext, by simp⟩
  | goto t u ts hu =>
    obtain ⟨r', hinv', hpre⟩ := hsafe s f (Grows.refl s) hinv u hu
    exact ⟨r', [], rfl, by simpa using hinv', hD u s r' hpre, by simp⟩

theorem Held.step (hD : Sound D code) {c c' : Pool Doc ε τ} {hands : List (Proc Doc ε τ × R)}
    (h : Held D c hands) (hstep : Step code c c') : ∃ hands', Held D c' hands' := by
  cases hstep with
  | act pre post hact =>
    rename_i s s' p p' forked
    obtain ⟨hpre, hrest, hhands, hmpre, hmrest⟩ := List.map_eq_append_iff.mp h.procs
    obtain ⟨⟨q, r⟩, hpost, rfl, hq, hmpost⟩ := List.map_eq_cons_iff.mp hmrest
    cases hq
    subst hhands
    have hinv := h.inv
    simp only [List.map_append, List.map_cons, List.sum_append, List.sum_cons] at hinv
    rw [add_left_comm] at hinv
    have hsafe := h.safe (q, r) (by simp)
    obtain ⟨r', hforked, hmforked, hinv', hsafe', hsforked⟩ := act_safe hD hact hsafe hinv
    refine ⟨hpre ++ (p', r') :: (hpost ++ hforked), ?_, ?_, ?_⟩
    · simp [hmpre, hmpost, hmforked]
    · simp only [List.map_append, List.map_cons, List.sum_append, List.sum_cons]
      rw [add_left_comm, ← add_assoc (List.sum _) (List.sum _) (List.sum _)]
      exact hinv'
    · intro hd hhd
      simp only [List.mem_append, List.mem_cons] at hhd
      have hold : hd ∈ hpre ++ (q, r) :: hpost → Safe D hd.1.prog Ended s' hd.2 := fun hmem =>
        Safe.grows (fun _ _ _ _ _ hend => hend) hact.grows (h.safe hd hmem)
      rcases hhd with hmem | rfl | hmem | hmem
      · exact hold (by simp [hmem])
      · exact hsafe'
      · exact hold (by simp [hmem])
      · exact hsforked hd hmem

theorem Held.reach (hD : Sound D code) {c c' : Pool Doc ε τ} (hreach : Reach code c c')
    (h : ∃ hands, Held D c hands) : ∃ hands, Held D c' hands := by
  induction hreach with
  | refl => exact h
  | tail _ hstep ih =>
    obtain ⟨hands, hheld⟩ := ih
    exact hheld.step hD hstep

theorem held_start (hD : Sound D code) {s : Store Doc ε} (ts : List (τ × R))
    (hinv : D.inv s (ts.map Prod.snd).sum) (hpre : ∀ t ∈ ts, D.pre t.1 s t.2) :
    Held D ⟨s, ts.map fun t => start code t.1⟩ (ts.map fun t => (start code t.1, t.2)) := by
  refine ⟨by simp [Function.comp_def], ?_, ?_⟩
  · rw [List.map_map]
    exact hinv
  · intro h hh
    obtain ⟨t, ht, rfl⟩ := List.mem_map.mp hh
    exact hD t.1 s t.2 (hpre t ht)

theorem inv_of_reach (hD : Sound D code) {c c' : Pool Doc ε τ} (h : ∃ hands, Held D c hands)
    (hreach : Reach code c c') : ∃ r, D.inv c'.store r := by
  obtain ⟨hands, hheld⟩ := Held.reach hD hreach h
  exact ⟨_, hheld.inv⟩

theorem inv_of_idle (hD : Sound D code) {c c' : Pool Doc ε τ} (h : ∃ hands, Held D c hands)
    (hreach : Reach code c c') (hidle : c'.idle = true) : D.inv c'.store 0 := by
  obtain ⟨hands, hheld⟩ := Held.reach hD hreach h
  have hzero : ∀ r ∈ hands.map Prod.snd, r = 0 := by
    intro r hr
    obtain ⟨hd, hmem, rfl⟩ := List.mem_map.mp hr
    have hproc : hd.1 ∈ c'.procs := by
      rw [← hheld.procs]
      exact List.mem_map_of_mem hmem
    have hpure := List.all_eq_true.mp hidle hd.1 hproc
    have hsafe := hheld.safe hd hmem
    obtain ⟨⟨t, prog⟩, r⟩ := hd
    cases prog with
    | pure a => exact hsafe
    | create | read | note | fork | await | goto => cases hpure
  have hsum := List.sum_eq_zero hzero
  rw [← hsum]
  exact hheld.inv

end ThanksComputer.Lib.Ownership
