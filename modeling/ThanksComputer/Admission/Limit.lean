import ThanksComputer.Admission.Slots

/-! A tenant whose limit every reload keeps never has more slots taken than the limit. -/

namespace ThanksComputer.Admission

open Lib.Assoc

variable {s : Node} {t : String} {L : Nat}

def Stage.limited : Stage → Option (Nat × Int)
  | .load p n | .swap p n _ => some (p, n)
  | .lookup | .limit _ | .register _ | .returned _ => none

/-- A reload in which the tenant has a limit, of at most `L`. -/
structure Reloads (t : String) (L : Nat) (y : Sync) : Prop where
  row : ∃ n, y.rows.lookup t = some n ∧ 0 < n
  configured : ∀ rest n, y.pass = .configure rest → (t, n) ∈ rest → n ≤ L
  loaded : ∀ slug rest, y.pass = .load slug rest → slug ≠ t
  dropped : ∀ slug rest, y.pass = .drop slug rest → slug ≠ t

/-- The tenant's counter stays its own, and within the limit. -/
structure Bounded (t : String) (L : Nat) (s : Node) : Prop where
  counted : Counted s
  own : ∀ c ∈ s.calls, c.tenant = t → ∀ p, c.stage.cell = some p → s.cc.lookup t = some p
  limits : ∀ c ∈ s.calls, ∀ p limit, c.stage.limited = some (p, limit) → s.cc.lookup t = some p →
    limit ≤ L
  below : ∀ c ∈ s.calls, ∀ p limit cur, c.stage = .swap p limit cur → cur < limit
  slots : s.held (fun x => x.tenant == t && s.cc.lookup t != some x.cell) = 0
  cap : ∀ p, s.cc.lookup t = some p → (s.cells p).cap ≤ L
  full : ∀ p, s.cc.lookup t = some p → (s.cells p).inFlight ≤ L
  apart : ∀ slug p, s.cc.lookup slug = some p → s.cc.lookup t = some p → slug = t
  sync : ∀ y, s.sync = some y → Reloads t L y

/-- A reload of the rows leaves the tenant its limit. -/
def Keeps (t : String) (L : Nat) : Event → Prop
  | .rebuild rows => ∃ n, (dedup .last rows).lookup t = some n ∧ 0 < n ∧ n ≤ L
  | _ => True

theorem Bounded.entry (h : Bounded t L s) (e : Event) :
    (step s e).cc.lookup t = s.cc.lookup t ∨
    s.cc.lookup t = none ∧ (step s e).cc.lookup t = some s.next := by
  cases (step_cases s e).map with
  | keep hcc _ => exact .inl (by rw [hcc])
  | made slug hnone hcc _ =>
    rw [hcc, List.lookup_append]
    by_cases hslug : t = slug
    · subst hslug
      rw [hnone]
      exact .inr ⟨rfl, by rw [Option.none_or, List.lookup_cons_self]⟩
    · rw [lookup_cons_of_ne hslug]
      exact .inl (by cases s.cc.lookup t <;> rfl)
  | dropped y slug rest hsync hpass hcc _ =>
    rw [hcc]
    exact .inl (lookup_filter_of_ne (Ne.symm ((h.sync y hsync).dropped slug rest hpass)) s.cc)

theorem Bounded.entry_of_lt (h : Bounded t L s) (e : Event) {p : Nat}
    (hp : (step s e).cc.lookup t = some p) (hlt : p < s.next) : s.cc.lookup t = some p := by
  rcases h.entry e with heq | ⟨-, heq⟩
  · rwa [heq] at hp
  · rw [heq] at hp
    cases hp
    exact absurd hlt (Nat.lt_irrefl _)

theorem Bounded.entry_some (h : Bounded t L s) (e : Event) {p : Nat} (hp : s.cc.lookup t = some p) :
    (step s e).cc.lookup t = some p := by
  rcases h.entry e with heq | ⟨hnone, -⟩
  · rw [heq, hp]
  · rw [hnone] at hp
    cases hp

theorem held_mono (s : Node) {q q' : Slot → Bool} (h : ∀ x, q x = true → q' x = true) :
    s.held q ≤ s.held q' := by
  rw [held_eq, held_eq]
  exact List.countP_mono_left fun x _ => h x

theorem Bounded.slots_step (h : Bounded t L s) (e : Event) :
    (step s e).held (fun x => x.tenant == t && (step s e).cc.lookup t != some x.cell) = 0 := by
  -- the slots by the entry the tenant had before
  have hold : (Admission.step s e).held (fun x => x.tenant == t && s.cc.lookup t != some x.cell) =
    0 := by
    have hzero := h.slots
    cases (step_cases s e).change with
    | keep hheld _ _ => rw [hheld, hzero]
    | made hheld _ _ _ => rw [hheld, hzero]
    | taken x hheld _ htaker _ =>
      obtain ⟨c, hc, htenant, limit, hstage⟩ := htaker
      rw [hheld, hzero, List.countP_singleton, if_neg]
      rw [Bool.and_eq_true, beq_iff_eq, bne_iff_ne]
      rintro ⟨hx, hcell⟩
      exact hcell (h.own c hc (htenant.trans hx) x.cell (by rw [hstage]; rfl))
    | freed x hheld _ _ =>
      have := hheld fun x => x.tenant == t && s.cc.lookup t != some x.cell
      omega
  refine Nat.eq_zero_of_le_zero (hold ▸ held_mono _ fun x hx => ?_)
  rcases h.entry e with heq | ⟨hnone, -⟩
  · rwa [heq] at hx
  · rw [Bool.and_eq_true] at hx
    rw [hnone, hx.1]
    rfl

theorem Bounded.full_step (h : Bounded t L s) (e : Event) {p : Nat}
    (hp : (step s e).cc.lookup t = some p) :
    ((step s e).cells p).inFlight ≤ L := by
  have hold : (s.cells p).inFlight ≤ L := by
    rcases h.entry e with heq | ⟨-, heq⟩
    · exact h.full p (heq ▸ hp)
    · rw [heq] at hp
      cases hp
      rw [h.counted.count, h.counted.fresh s.next (Nat.le_refl _)]
      exact Int.natCast_nonneg L
  cases (step_cases s e).change with
  | keep _ hcells _ => rw [hcells]; exact hold
  | made _ hcells hzero _ =>
    by_cases hnext : p = s.next
    · rw [hnext, hzero]
      exact Int.natCast_nonneg L
    · rw [hcells p hnext]
      exact hold
  | taken x _ hcells htaker _ =>
    obtain ⟨c, hc, -, limit, hstage⟩ := htaker
    rw [hcells, countP_one]
    split
    · next hx =>
      subst hx
      have hlt : x.cell < s.next := h.counted.made.calls c hc x.cell (by rw [hstage]; rfl)
      have hlimit := h.limits c hc x.cell limit (by rw [hstage]; rfl) (h.entry_of_lt e hp hlt)
      have hbelow := h.below c hc _ _ _ hstage
      push_cast
      omega
    · simpa using hold
  | freed x _ hcells _ =>
    have := hcells p
    omega

theorem Bounded.apart_step (h : Bounded t L s) (e : Event) (slug : String) (p : Nat)
    (hslug : (step s e).cc.lookup slug = some p) (ht : (step s e).cc.lookup t = some p) :
      slug = t := by
  cases (step_cases s e).map with
  | keep hcc _ =>
    rw [hcc] at hslug ht
    exact h.apart slug p hslug ht
  | made slug' _ hcc _ =>
    rw [hcc] at hslug ht
    rcases lookup_snoc hslug with hslug | ⟨-, hslug, hp⟩
    · rcases lookup_snoc ht with ht | ⟨-, -, hp⟩
      · exact h.apart slug p hslug ht
      · exact absurd (h.counted.made.cc slug p hslug) (by omega)
    · rcases lookup_snoc ht with ht | ⟨-, ht, -⟩
      · exact absurd (h.counted.made.cc t p ht) (by omega)
      · exact hslug.trans ht.symm
  | dropped y slug' rest _ _ hcc _ =>
    rw [hcc] at hslug ht
    exact h.apart slug p (lookup_dropped hslug).2 (lookup_dropped ht).2

theorem cap_of_update {cells : Nat → ConcState} {p p' : Nat} {cell : ConcState} {b : Int}
    (hcell : p' = p → cell.cap ≤ b) (hold : p' ≠ p → (cells p').cap ≤ b) :
    (Function.update cells p cell p').cap ≤ b := by
  by_cases h : p' = p
  · rw [h, Function.update_self]
    exact hcell h
  · rw [Function.update_of_ne h]
    exact hold h

theorem Bounded.cap_step (h : Bounded t L s) {e : Event} {s' : Node} (hstep : Steps s e s')
    {p : Nat} (hp : s'.cc.lookup t = some p) : (s'.cells p).cap ≤ L := by
  cases hstep with
  | idle | newLease | called | moved _ _ _ | left _ _ | handed _ _ _ | released _ | rebuilt
  | turned _ _ =>
    exact h.cap p hp
  | took _ _ | freed _ => exact cap_of_update (fun hpp => hpp ▸ h.cap p hp) fun _ => h.cap p hp
  | @configured order y slug n rest p' hy hpass hcc =>
    refine cap_of_update (fun hpp => ?_) fun _ => h.cap p hp
    have hslug := h.apart slug p' hcc (hpp ▸ hp)
    exact (h.sync y hy).configured _ n hpass (hslug ▸ List.mem_cons_self)
  | @made order y slug n rest hy hpass _ =>
    rcases lookup_snoc hp with hp | ⟨-, ht, hpp⟩
    · have hlt := h.counted.made.cc t p hp
      exact cap_of_update (fun hpp => absurd hlt (by omega)) fun _ => h.cap p hp
    · refine cap_of_update (fun _ => ?_) fun hne => absurd hpp hne
      exact (h.sync y hy).configured _ n hpass (ht ▸ List.mem_cons_self)
  | lifted _ _ _ => exact cap_of_update (fun _ => Int.natCast_nonneg L) fun _ => h.cap p hp
  | dropped _ _ => exact h.cap p (lookup_dropped hp).2

theorem Reloads.visit {y : Sync} (h : Reloads t L y) (rest : List String) :
    Reloads t L { y with pass := .visit rest } :=
  ⟨h.row, fun _ _ hpass => (by cases hpass), fun _ _ hpass => (by cases hpass), fun _ _ hpass =>
    (by cases hpass)⟩

theorem Reloads.configure {y : Sync} (h : Reloads t L y) {row : String × Int}
    {rest : List (String × Int)} (hpass : y.pass = .configure (row :: rest)) :
      Reloads t L { y with pass := .configure rest } := by
  refine ⟨h.row, fun rest' n hrest hn => ?_, fun _ _ hpass => (by cases hpass), fun _ _ hpass =>
    (by cases hpass)⟩
  cases hrest
  exact h.configured _ n hpass (List.mem_cons_of_mem row hn)

theorem Reloads.turn {y y' : Sync} (h : Reloads t L y) (hturn : Turns y (some y')) :
    Reloads t L y' := by
  cases hturn with
  | skipped hpass => exact h.configure hpass
  | visits rest => exact h.visit rest
  | drained hpass =>
    refine ⟨h.row, fun _ _ hpass => (by cases hpass), fun _ _ hpass => (by cases hpass),
      fun slug' rest' hdrop => ?_⟩
    cases hdrop
    exact h.loaded _ _ hpass

theorem Reloads.lift {y : Sync} (h : Reloads t L y) {slug : String} {rest : List String}
    (hrow : (y.rows.lookup slug).any (0 < ·) = false) :
      Reloads t L { y with pass := .load slug rest } := by
  refine ⟨h.row, fun _ _ hpass => (by cases hpass), fun slug' rest' hload => ?_, fun _ _ hpass =>
    (by cases hpass)⟩
  cases hload
  rintro rfl
  obtain ⟨n, hn, hpos⟩ := h.row
  rw [hn, Option.any_some, decide_eq_false_iff_not] at hrow
  exact hrow hpos

theorem Keeps.reloads {rows : List (String × Int)} (h : Keeps t L (.rebuild rows)) :
    Reloads t L ⟨dedup .last rows, .configure (dedup .last rows)⟩ := by
  obtain ⟨n, hrow, hpos, hle⟩ := h
  refine ⟨⟨n, hrow, hpos⟩, fun rest n' hpass hn' => ?_, fun _ _ hpass => (by cases hpass),
    fun _ _ hpass => (by cases hpass)⟩
  cases hpass
  have heq := lookup_of_mem (keys_dedup_nodup .last rows) hn'
  rw [hrow] at heq
  cases heq
  exact hle

theorem Bounded.sync_step (h : Bounded t L s) {e : Event} (hkeeps : Keeps t L e) {s' : Node}
    (hstep : Steps s e s') (y' : Sync) (h' : s'.sync = some y') : Reloads t L y' := by
  cases hstep with
  | idle | newLease | called | moved _ _ _ | took _ _ | left _ _ | handed _ _ _ | released _
  | freed _ =>
    exact h.sync y' h'
  | rebuilt =>
    cases h'
    exact hkeeps.reloads
  | turned hy hturn =>
    subst h'
    exact (h.sync _ hy).turn hturn
  | configured hy hpass _ | made hy hpass _ =>
    cases h'
    exact (h.sync _ hy).configure hpass
  | lifted hy _ hrow =>
    cases h'
    exact (h.sync _ hy).lift hrow
  | dropped hy _ =>
    cases h'
    exact (h.sync _ hy).visit _

theorem Bounded.own_step (h : Bounded t L s) (e : Event) {c' : Call} (hc' : c' ∈ (step s e).calls)
    (ht : c'.tenant = t) {p : Nat} (hp : c'.stage.cell = some p) :
      (step s e).cc.lookup t = some p := by
  refine h.entry_some e ?_
  cases (step_cases s e).calls hc' with
  | old hc => exact h.own c' hc ht p hp
  | new hstage =>
    rw [hstage] at hp
    cases hp
  | moved c stage hc hmoves heq =>
    subst heq
    rcases hmoves.cell hp with hp | hp
    · exact h.own c hc ht p hp
    · rw [← ht]
      exact hp
  | took c p' limit hc hstage heq =>
    subst heq
    cases hp
    exact h.own c hc ht p (by rw [hstage]; rfl)

theorem Stage.cell_of_limited {stage : Stage} {p : Nat} {n : Int}
    (h : stage.limited = some (p, n)) :
    stage.cell = some p := by
  cases stage with
  | load p' n' | swap p' n' cur =>
    cases h
    rfl
  | lookup | limit | register | returned => cases h

theorem Bounded.limits_step (h : Bounded t L s) (e : Event) {c' : Call}
    (hc' : c' ∈ (step s e).calls) {p : Nat} {n : Int} (hn : c'.stage.limited = some (p, n))
    (hp : (step s e).cc.lookup t = some p) : n ≤ L := by
  have hfrom := (step_cases s e).calls hc'
  have hp' : s.cc.lookup t = some p :=
    h.entry_of_lt e hp (hfrom.lt h.counted.made (Stage.cell_of_limited hn))
  cases hfrom with
  | old hc => exact h.limits c' hc p n hn hp'
  | new hstage =>
    rw [hstage] at hn
    cases hn
  | moved c stage hc hmoves heq =>
    subst heq
    cases hmoves with
    | returned ok | found _ => cases hn
    | limited hstage =>
      cases hn
      exact h.cap p hp'
    | loaded hstage _ | again hstage =>
      cases hn
      exact h.limits c hc p n (by rw [hstage]; rfl) hp'
  | took c p' limit hc hstage heq =>
    subst heq
    cases hn

theorem Bounded.below_step (h : Bounded t L s) (e : Event) {c' : Call} (hc' : c' ∈ (step s e).calls)
    {p : Nat} {limit cur : Int} (hswap : c'.stage = .swap p limit cur) : cur < limit := by
  cases (step_cases s e).calls hc' with
  | old hc => exact h.below c' hc p limit cur hswap
  | new hstage =>
    rw [hstage] at hswap
    cases hswap
  | moved c stage hc hmoves heq =>
    subst heq
    cases hmoves with
    | returned ok | found _ | limited _ | again _ => cases hswap
    | loaded _ hlt =>
      cases hswap
      exact hlt
  | took c p' limit' hc hstage heq =>
    subst heq
    cases hswap

theorem Bounded.step (h : Bounded t L s) {e : Event} (hkeeps : Keeps t L e) :
    Bounded t L (step s e) where
  counted := h.counted.step e
  own _ hc ht _ hp := h.own_step e hc ht hp
  limits _ hc _ _ hn hp := h.limits_step e hc hn hp
  below _ hc _ _ _ hswap := h.below_step e hc hswap
  slots := h.slots_step e
  cap _ hp := h.cap_step (step_cases s e) hp
  full _ hp := h.full_step e hp
  apart := h.apart_step e
  sync := h.sync_step hkeeps (step_cases s e)

theorem bounded_start (t : String) (L : Nat) : Bounded t L .start where
  counted := counted_start
  own := List.forall_mem_nil _
  limits := List.forall_mem_nil _
  below := List.forall_mem_nil _
  slots := rfl
  cap _ hp := by cases hp
  full _ hp := by cases hp
  apart _ _ hp := by cases hp
  sync _ hy := by cases hy

theorem held_le_add (s : Node) {a b c : Slot → Bool}
    (h : ∀ x, a x = true → b x = true ∨ c x = true) :
    s.held a ≤ s.held b + s.held c := by
  simp only [held_eq]
  induction s.slots with
  | nil => rfl
  | cons x xs ih =>
    simp only [List.countP_cons]
    have hx := h x
    cases hax : a x with
    | false =>
      simp only [Bool.false_eq_true, if_false]
      omega
    | true =>
      simp only [hax, forall_const] at hx
      rcases hx with hbx | hcx
      · simp only [hbx, if_true]
        omega
      · simp only [hcx, if_true]
        omega

theorem Bounded.count_le (h : Bounded t L s) : (s.slots.countP (·.tenant == t) : Int) ≤ L := by
  rw [← held_eq]
  cases hcc : s.cc.lookup t with
  | none =>
    have hzero : s.held (·.tenant == t) ≤ 0 := by
      rw [← h.slots]
      refine held_mono s fun x hx => ?_
      rw [hcc, hx]
      rfl
    omega
  | some p =>
    have hcell : s.held (·.tenant == t) ≤ s.held (·.cell == p) := by
      have hsplit : s.held (·.tenant == t) ≤
          s.held (·.cell == p) +
            s.held (fun x => x.tenant == t && s.cc.lookup t != some x.cell) := by
        refine held_le_add s fun x hx => ?_
        by_cases hxp : x.cell = p
        · left
          simpa using hxp
        · right
          rw [hx, hcc]
          simpa using Ne.symm hxp
      rw [h.slots] at hsplit
      exact hsplit
    have hfull := h.full p hcc
    rw [h.counted.count] at hfull
    omega

/-- While every reload gives a tenant a limit of at most `L`, never more than `L` of its slots are
taken, however requests, releases and reloads interleave. -/
theorem slots_le_limit (t : String) (L : Nat) (es : List Event) (hkeeps : ∀ e ∈ es, Keeps t L e) :
    (run es).slots.countP (·.tenant == t) ≤ L := by
  have h : Bounded t L (run es) :=
    @Lib.Runs.foldl_invariant _ _ (Bounded t L) step (Keeps t L)
      (fun _ _ h hkeeps => h.step hkeeps) _
      (bounded_start t L) es hkeeps
  have := h.count_le
  omega

/-- Two requests of a tenant with one slot: the second is turned away while the first has it. -/
def crowded : List Event :=
  [.rebuild [("acme", 1)], .sync [], .sync ["acme"], .sync [], .sync [], .newLease, .newLease,
    .call "acme" (some 0), .call "acme" (some 1), .go 0, .go 1, .go 0, .go 1, .go 0, .go 1, .go 0,
      .go 1, .go 0, .go 1]

theorem slots_le_limit_crowded :
    (run crowded).slots = [⟨0, "acme"⟩] ∧ (run crowded).slots.countP (·.tenant == "acme") ≤ 1 := by
  refine ⟨rfl, slots_le_limit "acme" 1 crowded ?_⟩
  refine List.forall_mem_cons.mpr ⟨⟨1, by decide, by decide, by decide⟩, ?_⟩
  simp [Keeps]

end ThanksComputer.Admission
