import ThanksComputer.Lib.Builtin
import ThanksComputer.Lib.Windows

/-! The throttle of the unsigned endpoints (auth/throttle): a counter per key that starts over with
the first attempt after its window.  Times are nanoseconds. -/

namespace ThanksComputer.Auth.Throttling

open Lib (second)
open Lib.Windows

structure Bucket where
  count : Nat
  resetAt : Int

structure Throttle where
  buckets : String → Option Bucket
  limit : Nat
  window : Int

def new (limit : Int) (window : Int) : Throttle where
  buckets := fun _ => none
  limit := limit.toNat
  window := if 0 < limit ∧ window ≤ 0 then second else window

/-- `gcLocked`. -/
def gc (t : Throttle) (now : Int) : Throttle :=
  { t with buckets := fun k => (t.buckets k).filter fun b => !decide (b.resetAt < now - t.window) }

def put (t : Throttle) (key : String) (b : Bucket) : Throttle :=
  { t with buckets := fun k => if k = key then some b else t.buckets k }

@[simp] theorem put_self (t : Throttle) (key : String) (b : Bucket) :
    (put t key b).buckets key = some b :=
  if_pos rfl

theorem put_of_ne (t : Throttle) {key k : String} (h : k ≠ key) (b : Bucket) :
    (put t key b).buckets k = t.buckets k :=
  if_neg h

/-- What `Allow` answers: whether the attempt is admitted, else how long to wait. -/
structure Answer where
  ok : Bool
  retryAfter : Int

/-- `Allow`, at the time `now`. -/
def allow (t : Throttle) (now : Int) (key : String) : Throttle × Answer :=
  if t.limit = 0 then (t, ⟨true, 0⟩)
  else
    match (gc t now).buckets key with
    | none => (put (gc t now) key ⟨1, now + t.window⟩, ⟨true, 0⟩)
    | some b =>
      if b.resetAt < now then (put (gc t now) key ⟨1, now + t.window⟩, ⟨true, 0⟩)
      else if t.limit ≤ b.count then (gc t now, ⟨false, b.resetAt - now⟩)
      else (put (gc t now) key ⟨b.count + 1, b.resetAt⟩, ⟨true, 0⟩)

/-- An attempt and whether it was admitted. -/
structure Attempt where
  time : Int
  key : String
  ok : Bool

/-- The throttle after some calls, and the attempts they made, newest first. -/
def run (t : Throttle) : List (Int × String) → Throttle × List Attempt
  | [] => (t, [])
  | (now, key) :: calls =>
    ((allow (run t calls).1 now key).1, ⟨now, key, (allow (run t calls).1 now key).2.ok⟩ ::
      (run t calls).2)

/-- The times at which a key was admitted. -/
def admitted (key : String) (attempts : List Attempt) : List Int :=
  (attempts.filter fun a => a.ok && a.key == key).map Attempt.time

section Step

variable {t : Throttle} {now : Int} {key k : String} {b : Bucket}

theorem allow_limit (t : Throttle) (now : Int) (key : String) :
    (allow t now key).1.limit = t.limit := by
  rw [allow]
  split
  · rfl
  · split
    · rfl
    · split
      · rfl
      · split
        · rfl
        · rfl

theorem allow_window (t : Throttle) (now : Int) (key : String) :
    (allow t now key).1.window = t.window := by
  rw [allow]
  split
  · rfl
  · split
    · rfl
    · split
      · rfl
      · split
        · rfl
        · rfl

theorem gc_some :
    (gc t now).buckets k = some b ↔ t.buckets k = some b ∧ now - t.window ≤ b.resetAt := by
  rw [gc, Option.filter_eq_some_iff]
  simp

/-- What a call does to the bucket of its key: a window that is over is replaced, one that is full
refuses, another counts. -/
theorem allow_cases (hlimit : 0 < t.limit) (hwindow : 0 < t.window) (now : Int) (key : String) :
    ((∀ b, t.buckets key = some b → b.resetAt < now) ∧ (allow t now key).2.ok = true ∧
        (allow t now key).1.buckets = (put (gc t now) key ⟨1, now + t.window⟩).buckets) ∨
      ∃ b, t.buckets key = some b ∧ now ≤ b.resetAt ∧
        (t.limit ≤ b.count ∧ (allow t now key).2.ok = false ∧
        (allow t now key).1.buckets = (gc t now).buckets ∨
          b.count < t.limit ∧ (allow t now key).2.ok = true ∧
            (allow t now key).1.buckets =
              (put (gc t now) key ⟨b.count + 1, b.resetAt⟩).buckets) := by
  have hzero : ¬t.limit = 0 := Nat.ne_of_gt hlimit
  cases hgc : (gc t now).buckets key with
  | none =>
    have hover : ∀ b, t.buckets key = some b → b.resetAt < now := by
      intro b hb
      by_contra hnot
      have : (gc t now).buckets key = some b := gc_some.mpr ⟨hb, by omega⟩
      rw [hgc] at this
      cases this
    refine .inl ⟨hover, ?_, ?_⟩
    · simp only [allow, hzero, if_false, hgc]
    · simp only [allow, hzero, if_false, hgc]
  | some b =>
    have hb := (gc_some.mp hgc).1
    by_cases hover : b.resetAt < now
    · refine .inl ⟨?_, ?_, ?_⟩
      · intro b' hb'
        rw [hb] at hb'
        cases hb'
        exact hover
      · simp only [allow, hzero, if_false, hgc, hover, if_true]
      · simp only [allow, hzero, if_false, hgc, hover, if_true]
    · refine .inr ⟨b, hb, by omega, ?_⟩
      by_cases hfull : t.limit ≤ b.count
      · refine .inl ⟨hfull, ?_, ?_⟩
        · simp only [allow, hzero, if_false, hgc, hover, hfull, if_true]
        · simp only [allow, hzero, if_false, hgc, hover, hfull, if_true]
      · refine .inr ⟨by omega, ?_, ?_⟩
        · simp only [allow, hzero, if_false, hgc, hover, hfull]
        · simp only [allow, hzero, if_false, hgc, hover, hfull]

end Step

section Windows

variable {limit : Nat} {len last now : Int} {b : Bucket} {bucket : Option Bucket} {ws : List Window}

/-- A bucket and the windows of its key: it counts the newest one, and where it is gone that window
is over. -/
structure Tracked (limit : Nat) (len last : Int) (bucket : Option Bucket) (ws : List Window) :
    Prop where
  spaced : Spaced limit len ws
  past : ∀ w ∈ ws, w.start ≤ last ∧ ∀ t ∈ w.events, t ≤ last
  counts : ∀ b, bucket = some b → ∃ w rest, ws = w :: rest ∧ b.resetAt = w.start + len ∧
    b.count = w.events.length
  closed : bucket = none → ∀ w ∈ ws, w.start + len < last

theorem Tracked.later (h : Tracked limit len last bucket ws) (hle : last ≤ now) :
    Tracked limit len now bucket ws where
  spaced := h.spaced
  past w hw := by
    obtain ⟨hstart, hevents⟩ := h.past w hw
    exact ⟨by omega, fun t ht => Int.le_trans (hevents t ht) hle⟩
  counts := h.counts
  closed hnone w hw := Int.lt_of_lt_of_le (h.closed hnone w hw) hle

theorem Tracked.all_over (h : Tracked limit len now bucket ws) (hlen : 0 < len)
    (hover : ∀ b, bucket = some b → b.resetAt < now) : ∀ w ∈ ws, w.start + len < now := by
  cases bucket with
  | none => exact h.closed rfl
  | some b =>
    obtain ⟨w, rest, rfl, hreset, -⟩ := h.counts b rfl
    have hlt := hover b rfl
    have hspaced := h.spaced
    cases hspaced with
    | cons _ _ hnext _ =>
      refine List.forall_mem_cons.mpr ⟨by omega, fun v hv => ?_⟩
      have := hnext v hv
      omega

theorem Tracked.sweep (h : Tracked limit len now bucket ws) (hlen : 0 < len) :
    Tracked limit len now (bucket.filter fun b => !decide (b.resetAt < now - len)) ws where
  spaced := h.spaced
  past := h.past
  counts b hb := h.counts b (Option.filter_eq_some_iff.mp hb).1
  closed hnone := by
    refine h.all_over hlen fun b hb => ?_
    rw [hb, Option.filter_some] at hnone
    split at hnone
    · cases hnone
    · next hold =>
      simp at hold
      omega

theorem Tracked.open_window (h : Tracked limit len now bucket ws) (hlimit : 0 < limit)
    (hlen : 0 < len) (hover : ∀ b, bucket = some b → b.resetAt < now) :
    Tracked limit len now (some ⟨1, now + len⟩) (⟨now, [now]⟩ :: ws) where
  spaced := by
    refine .cons hlimit (fun t ht => ?_) (h.all_over hlen hover) h.spaced
    rw [List.mem_singleton.mp ht]
    exact ⟨Int.le_refl now, show now ≤ now + len by omega⟩
  past := by
    refine List.forall_mem_cons.mpr ⟨⟨Int.le_refl now, fun t ht => ?_⟩, h.past⟩
    exact Int.le_of_eq (List.mem_singleton.mp ht)
  counts b hb := by
    cases hb
    exact ⟨_, _, rfl, rfl, rfl⟩
  closed hnone := by cases hnone

theorem Tracked.count_event (h : Tracked limit len now (some b) ws) (hnow : now ≤ b.resetAt)
    (hcount : b.count < limit) :
    ∃ ws', Tracked limit len now (some ⟨b.count + 1, b.resetAt⟩) ws' ∧
      events ws' = now :: events ws := by
  obtain ⟨w, rest, rfl, hreset, hlength⟩ := h.counts b rfl
  have hpast := List.forall_mem_cons.mp h.past
  have hspaced := h.spaced
  refine ⟨⟨w.start, now :: w.events⟩ :: rest, ⟨?_, ?_, ?_, ?_⟩, rfl⟩
  · cases hspaced with
    | cons _ hevents hnext hrest =>
      refine .cons ?_ ?_ hnext hrest
      · rw [List.length_cons]
        omega
      · exact List.forall_mem_cons.mpr ⟨⟨hpast.1.1, show now ≤ w.start + len by omega⟩, hevents⟩
  · refine List.forall_mem_cons.mpr ⟨⟨hpast.1.1, ?_⟩, hpast.2⟩
    exact List.forall_mem_cons.mpr ⟨Int.le_refl now, hpast.1.2⟩
  · intro b' hb'
    cases hb'
    exact ⟨_, _, rfl, hreset, by rw [hlength, List.length_cons]⟩
  · intro hnone
    cases hnone

theorem Tracked.full (h : Tracked limit len now (some b) ws) (hnow : now ≤ b.resetAt) :
    b.count ≤ within len (now - len) (events ws) := by
  obtain ⟨w, rest, rfl, hreset, hlength⟩ := h.counts b rfl
  have hpast := List.forall_mem_cons.mp h.past
  have hspaced := h.spaced
  cases hspaced with
  | cons _ hevents _ _ =>
    have hall : within len (now - len) w.events = w.events.length := by
      rw [within, List.countP_eq_length]
      intro t ht
      have hin := hevents t ht
      have hle := hpast.1.2 t ht
      simp only [decide_eq_true_eq]
      omega
    rw [events, List.flatMap_cons, within_append, hall, hlength]
    exact Nat.le_add_right _ _

end Windows

section Run

variable {t : Throttle} {calls : List (Int × String)} {last now : Int} {key : String}

def Inv (last : Int) (t : Throttle) (attempts : List Attempt) : Prop :=
  ∀ k, ∃ ws, Tracked t.limit t.window last (t.buckets k) ws ∧ events ws = admitted k attempts

theorem admitted_cons (k : String) (a : Attempt) (attempts : List Attempt) :
    admitted k (a :: attempts) =
      if a.ok = true ∧ a.key = k then a.time :: admitted k attempts else admitted k attempts := by
  rw [admitted, List.filter_cons]
  simp only [Bool.and_eq_true, beq_iff_eq]
  split
  · rfl
  · rfl

theorem Inv.step (hlimit : 0 < t.limit) (hwindow : 0 < t.window) {attempts : List Attempt}
    (h : Inv last t attempts) (hle : last ≤ now) (key : String) :
    Inv now (allow t now key).1 (⟨now, key, (allow t now key).2.ok⟩ :: attempts) := by
  intro k
  obtain ⟨ws, htracked, hevents⟩ := h k
  have hnow := htracked.later hle
  have hswept : Tracked t.limit t.window now ((gc t now).buckets k) ws := hnow.sweep hwindow
  rw [allow_limit, allow_window, admitted_cons]
  rcases allow_cases hlimit hwindow now key with ⟨hover, hok, hbuckets⟩ | ⟨b, hb, hreset, hrest⟩
  · rw [hok, hbuckets]
    by_cases hk : k = key
    · subst hk
      rw [if_pos ⟨rfl, rfl⟩, put_self, ← hevents]
      exact ⟨_, hnow.open_window hlimit hwindow hover, rfl⟩
    · rw [if_neg fun hkey => hk hkey.2.symm, put_of_ne _ hk]
      exact ⟨ws, hswept, hevents⟩
  · rcases hrest with ⟨hfull, hok, hbuckets⟩ | ⟨hroom, hok, hbuckets⟩
    · rw [hok, hbuckets, if_neg fun hkey => Bool.false_ne_true hkey.1]
      exact ⟨ws, hswept, hevents⟩
    · rw [hok, hbuckets]
      by_cases hk : k = key
      · subst hk
        rw [if_pos ⟨rfl, rfl⟩, put_self, ← hevents]
        rw [hb] at hnow
        exact hnow.count_event hreset hroom
      · rw [if_neg fun hkey => hk hkey.2.symm, put_of_ne _ hk]
        exact ⟨ws, hswept, hevents⟩

theorem run_limit (t : Throttle) (calls : List (Int × String)) :
    (run t calls).1.limit = t.limit := by
  induction calls with
  | nil => rfl
  | cons c calls ih => rw [run, allow_limit, ih]

theorem run_window (t : Throttle) (calls : List (Int × String)) :
    (run t calls).1.window = t.window := by
  induction calls with
  | nil => rfl
  | cons c calls ih => rw [run, allow_window, ih]

theorem inv_run (hlimit : 0 < t.limit) (hwindow : 0 < t.window) (hempty : ∀ k, t.buckets k = none)
    (hcalls : calls.Pairwise fun later earlier => earlier.1 ≤ later.1)
    (hlast : ∀ c ∈ calls, c.1 ≤ last) :
    Inv last (run t calls).1 (run t calls).2 := by
  induction calls generalizing last with
  | nil =>
    intro k
    refine ⟨[], ⟨.nil, by simp, ?_, by simp⟩, rfl⟩
    intro b hb
    rw [run, hempty] at hb
    cases hb
  | cons c calls ih =>
    rw [List.pairwise_cons] at hcalls
    rw [List.forall_mem_cons] at hlast
    have hprev := ih hcalls.2 hcalls.1
    have hstep := hprev.step (by rw [run_limit]; exact hlimit) (by rw [run_window]; exact hwindow)
      (Int.le_refl c.1) c.2
    intro k
    obtain ⟨ws, htracked, hevents⟩ := hstep k
    exact ⟨ws, htracked.later hlast.1, hevents⟩

end Run

theorem allow_keeps {t : Throttle} (hlimit : 0 < t.limit) (hwindow : 0 < t.window) {now : Int}
    {k : String} {b : Bucket} (hb : t.buckets k = some b) (hnow : now ≤ b.resetAt) (key : String) :
    ∃ b', (allow t now key).1.buckets k = some b' ∧ b'.resetAt = b.resetAt ∧
      b.count ≤ b'.count := by
  have hgc : (gc t now).buckets k = some b := gc_some.mpr ⟨hb, by omega⟩
  by_cases hk : k = key
  · subst hk
    rcases allow_cases hlimit hwindow now k with ⟨hover, -, -⟩ | ⟨b', hb', -, hrest⟩
    · have := hover b hb
      omega
    · rw [hb] at hb'
      cases hb'
      rcases hrest with ⟨-, -, hbuckets⟩ | ⟨-, -, hbuckets⟩
      · exact ⟨b, by rw [hbuckets, hgc], rfl, Nat.le_refl _⟩
      · exact ⟨⟨b.count + 1, b.resetAt⟩, by rw [hbuckets, put_self], rfl, Nat.le_succ _⟩
  · refine ⟨b, ?_, rfl, Nat.le_refl _⟩
    rcases allow_cases hlimit hwindow now key with ⟨-, -, hbuckets⟩ | ⟨b', -, -, hrest⟩
    · rw [hbuckets, put_of_ne _ hk, hgc]
    · rcases hrest with ⟨-, -, hbuckets⟩ | ⟨-, -, hbuckets⟩
      · rw [hbuckets, hgc]
      · rw [hbuckets, put_of_ne _ hk, hgc]

/-- For calls at times that do not decrease (newest first): a key is admitted at most twice the
limit in any interval of the window's length; a refused call had the limit admitted in the window
before it; and no call forgets or resets a window that is still counting. -/
theorem allow_windows {limit window : Int} (hlimit : 0 < limit) (hwindow : 0 < window)
    {calls : List (Int × String)}
    (hcalls : calls.Pairwise fun later earlier => earlier.1 ≤ later.1) :
    (∀ key a, within window a (admitted key (run (new limit window) calls).2) ≤ 2 * limit.toNat) ∧
      (∀ now key, (∀ c ∈ calls, c.1 ≤ now) →
        (allow (run (new limit window) calls).1 now key).2.ok = false →
        limit.toNat ≤ within window (now - window)
          (admitted key (run (new limit window) calls).2)) ∧
      ∀ now key k b, (run (new limit window) calls).1.buckets k = some b → now ≤ b.resetAt →
        ∃ b', (allow (run (new limit window) calls).1 now key).1.buckets k = some b' ∧
          b'.resetAt = b.resetAt ∧ b.count ≤ b'.count := by
  have hlim : (run (new limit window) calls).1.limit = limit.toNat := run_limit _ _
  have hwin : (run (new limit window) calls).1.window = window := by
    rw [run_window]
    exact if_neg (by omega)
  have hpos : 0 < (run (new limit window) calls).1.limit := by omega
  have hwpos : 0 < (run (new limit window) calls).1.window := by omega
  have hinv : ∀ last, (∀ c ∈ calls, c.1 ≤ last) →
      Inv last (run (new limit window) calls).1 (run (new limit window) calls).2 := by
    intro last hlast
    refine inv_run ?_ ?_ (fun _ => rfl) hcalls hlast
    · show 0 < limit.toNat
      omega
    · have : (new limit window).window = window := if_neg (by omega)
      omega
  have hbound : ∃ last, ∀ c ∈ calls, c.1 ≤ last := by
    cases calls with
    | nil => exact ⟨0, by simp⟩
    | cons c calls =>
      rw [List.pairwise_cons] at hcalls
      exact ⟨c.1, List.forall_mem_cons.mpr ⟨Int.le_refl _, hcalls.1⟩⟩
  refine ⟨fun key a => ?_, fun now key hnow hrefused => ?_, fun now key k b hb hreset => ?_⟩
  · obtain ⟨last, hlast⟩ := hbound
    obtain ⟨ws, htracked, hevents⟩ := hinv last hlast key
    rw [hlim, hwin] at htracked
    rw [← hevents]
    exact htracked.spaced.within_le a
  · obtain ⟨ws, htracked, hevents⟩ := hinv now hnow key
    rcases allow_cases hpos hwpos now key with ⟨-, hok, -⟩ | ⟨b, hb, hreset, hrest⟩
    · rw [hok] at hrefused
      cases hrefused
    · rcases hrest with ⟨hfull, -, -⟩ | ⟨-, hok, -⟩
      · rw [hb] at htracked
        have hcount := htracked.full hreset
        rw [hwin, hevents] at hcount
        omega
      · rw [hok] at hrefused
        cases hrefused
  · exact allow_keeps hpos hwpos hb hreset key

/-- The third attempt within ten nanoseconds is refused. -/
theorem allow_windows_third :
    (allow (run (new 2 10) [(5, "a"), (0, "a")]).1 9 "a").2.ok = false ∧
      2 ≤ within 10 (9 - 10) (admitted "a" (run (new 2 10) [(5, "a"), (0, "a")]).2) := by
  have hrefused : (allow (run (new 2 10) [(5, "a"), (0, "a")]).1 9 "a").2.ok = false := by decide
  refine ⟨hrefused, ?_⟩
  exact (allow_windows (by decide) (by decide) (by decide)).2.1 9 "a" (by decide) hrefused

end ThanksComputer.Auth.Throttling
