import Mathlib.Algebra.Ring.Nat
import Mathlib.Data.List.Sort
import Mathlib.Logic.Function.Basic
import ThanksComputer.Dns.Zone

/-! The two stores of ACME challenges (`server/personality/dns/challenge.go` and `challenge_kv.go`):
in memory, and in the key-value store that all heads share.  Times are whole seconds. -/

namespace ThanksComputer.Dns.Acme

open Lib (byteLen)
open Net Guard

/-- A published value and the second it expires (`challengeEntry`, `kvChallengeEntry`). -/
structure Entry where
  value : Str
  expires : Nat
  deriving DecidableEq

def challengeStoreTTL : Nat := 600
def challengeKeyMax : Nat := 256
def challengeMaxValueBytes : Nat := 2048
def challengeMaxEntries : Nat := 8
def challengeCASRounds : Nat := 5
def challengeTombstoneTTL : Nat := 5

section Names

variable (E : Externals)

def badChar (c : Char) : Bool :=
  c == '/' || decide (c.toNat < 0x20) || c.toNat == 0x7f

def challengeKey (fqdn : Str) : Option Str :=
  let k := E.lower (trimSpace fqdn)
  if k = [] then none
  else
    let k := E.fqdn k
    if challengeKeyMax < byteLen k then none
    else if k.any badChar then none
    else some k

/-- `segOK` of kv/kv.go. -/
def segOK (s : Str) : Bool :=
  decide (s ≠ []) && decide (byteLen s ≤ 256) && !s.any badChar

theorem segOK_of_challengeKey (hfqdn : ∀ s, s ≠ [] → E.fqdn s ≠ []) {fqdn k : Str}
    (h : challengeKey E fqdn = some k) : segOK k = true := by
  simp only [challengeKey] at h
  split_ifs at h with hempty hlong hbad
  cases h
  have hne := hfqdn _ hempty
  rw [challengeKeyMax, Nat.not_lt] at hlong
  rw [Bool.not_eq_true] at hbad
  simp only [segOK, hne, hlong, hbad, ne_eq, not_false_eq_true, decide_true, Bool.not_false,
    Bool.and_self]

end Names

section Entries

def prune (now : Nat) (entries : List Entry) : List Entry :=
  entries.filter fun e => decide (now < e.expires)

/-- `liveChallengeEntries`: empty values are dropped too. -/
def liveChallengeEntries (now : Nat) (entries : List Entry) : List Entry :=
  entries.filter fun e => decide (e.value ≠ []) && decide (now < e.expires)

/-- The expiry of a value set: of the one that is there, or of a new entry at the end. -/
def refresh (value : Str) (expires : Nat) : List Entry → List Entry
  | [] => [⟨value, expires⟩]
  | e :: live =>
    if e.value = value then ⟨value, expires⟩ :: live else e :: refresh value expires live

def remove (value : Str) (live : List Entry) : List Entry :=
  live.filter fun e => decide (e.value ≠ value)

/-- `sort.SliceStable` by the expiry. -/
def byExpiry (entries : List Entry) : List Entry :=
  entries.insertionSort fun a b => a.expires ≤ b.expires

def evicted (entries : List Entry) : List Entry :=
  (byExpiry entries).take (entries.length - challengeMaxEntries)

def capped (entries : List Entry) : List Entry :=
  if challengeMaxEntries < entries.length then
    (byExpiry entries).drop (entries.length - challengeMaxEntries)
  else entries

/-- A write to an owner. -/
inductive Op
  | present (value : Str)
  | cleanUp (value : Str)
  | clearAll
  deriving DecidableEq

def Op.mutation (now : Nat) (live : List Entry) : Op → Option (List Entry)
  | .present value =>
    let expires := now + challengeStoreTTL
    if live.any fun e => e.value == value then some (refresh value expires live)
    else some (capped (live ++ [⟨value, expires⟩]))
  | .cleanUp value => if live.any fun e => e.value == value then some (remove value live) else none
  | .clearAll => if live ≠ [] then some [] else none

def maxChallengeRemaining (now : Nat) (entries : List Entry) : Nat :=
  max (entries.foldl (fun m e => max m e.expires) 0 - now) 1

def keyTTL (now : Nat) (entries : List Entry) : Nat :=
  if entries = [] then challengeTombstoneTTL else maxChallengeRemaining now entries

end Entries

section Cells

/-- The wrapper of a stored list: JSON of the entries is taken for the entries. -/
structure Cell where
  entries : List Entry
  exp : Nat
  deriving DecidableEq

/-- The `float64` that a number decodes to: beyond 53 bits the nearest one. -/
def float64 (n : Nat) : Nat :=
  if n < 2 ^ 53 then n
  else
    let unit := 2 ^ (n.log2 - 52)
    let q := n / unit
    let r := n % unit
    if unit < 2 * r ∨ 2 * r = unit ∧ q % 2 = 1 then (q + 1) * unit else q * unit

/-- `jsonEqual` on the texts of two lists. -/
def jsonEqual (a b : List Entry) : Bool :=
  a.map (fun e => (e.value, float64 e.expires)) == b.map fun e => (e.value, float64 e.expires)

/-- The list at a key as a reader sees it; an expired one is not there. -/
def readCell (now : Nat) : Option Cell → Option (List Entry)
  | none => none
  | some c => if c.exp ≤ now then none else some c.entries

/-- `Get`: an expired cell is deleted. -/
def getCell (now : Nat) (cell : Option Cell) : Option (List Entry) × Option Cell :=
  match readCell now cell with
  | none => (none, none)
  | some entries => (some entries, cell)

/-- Whether the check of a `CAS` passes: on a key expected to be absent, or to hold the list. -/
def casPasses (now : Nat) (cell : Option Cell) : Option (List Entry) → Bool
  | none => (readCell now cell).isNone
  | some expected =>
    match readCell now cell with
    | none => false
    | some entries => jsonEqual entries expected

/-- `CAS`: the cell written, or what is there instead of what was expected. -/
def casCell (now : Nat) (cell : Option Cell) (expected : Option (List Entry)) (next : List Entry)
    (ttl : Nat) :
    Cell ⊕ Option (List Entry) :=
  if casPasses now cell expected then .inl ⟨next, now + ttl⟩ else .inr (readCell now cell)

/-- The rounds of `mutate` at one time, from what was read. -/
def mutateRounds (now : Nat) (op : Op) (cell : Option Cell) :
    Nat → Option (List Entry) → Option Cell
  | 0, _ => cell
  | n + 1, raw =>
    match op.mutation now (liveChallengeEntries now (raw.getD [])) with
    | none => cell
    | some next =>
      match casCell now cell raw next (keyTTL now next) with
      | .inl cell' => some cell'
      | .inr current => mutateRounds now op cell n current

/-- `mutate`, by the only head. -/
def mutate (now : Nat) (op : Op) (cell : Option Cell) : Option Cell :=
  mutateRounds now op (getCell now cell).2 challengeCASRounds (getCell now cell).1

end Cells

section Stores

variable (E : Externals)

/-- `rec` of the store in memory; a name without values has no entries. -/
abbrev MemStore := Str → List Entry

/-- What the key-value store has under the names, in the namespace of the challenges. -/
abbrev KvStore := Str → Option Cell

inductive Call
  | write (fqdn : Str) (op : Op)
  | activeTXT (fqdn : Str)
  deriving DecidableEq

def MemStore.write (m : MemStore) (now : Nat) (key : Str) : Op → MemStore
  | .present value =>
    Function.update m key (refresh value (now + challengeStoreTTL) (prune now (m key)))
  | .cleanUp value => Function.update m key (remove value (prune now (m key)))
  | .clearAll => Function.update m key []

def MemStore.call (m : MemStore) (now : Nat) : Call → MemStore × List Str
  | .write fqdn op =>
    match challengeKey E fqdn with
    | none => (m, [])
    | some key => (m.write now key op, [])
  | .activeTXT fqdn =>
    match challengeKey E fqdn with
    | none => (m, [])
    | some key => (m, (prune now (m key)).map Entry.value)

/-- `Present` refuses a value that is empty or too long. -/
def Op.accepted : Op → Bool
  | .present value => decide (value ≠ []) && decide (byteLen value ≤ challengeMaxValueBytes)
  | .cleanUp _ | .clearAll => true

/-- A name that is no key of the store fails at the first read. -/
def KvStore.call (s : KvStore) (now : Nat) : Call → KvStore × List Str
  | .write fqdn op =>
    match challengeKey E fqdn with
    | none => (s, [])
    | some key =>
      if op.accepted && segOK key then (Function.update s key (mutate now op (s key)), [])
        else (s, [])
  | .activeTXT fqdn =>
    match challengeKey E fqdn with
    | none => (s, [])
    | some key =>
      if segOK key then
        (Function.update s key (getCell now (s key)).2,
          (liveChallengeEntries now ((getCell now (s key)).1.getD [])).map Entry.value)
      else (s, [])

/-- What the calls return, each made at its time. -/
def answers {σ : Type} (call : σ → Nat → Call → σ × List Str) (s : σ) :
    List (Nat × Call) → List (List Str)
  | [] => []
  | (now, c) :: rest => (call s now c).2 :: answers call (call s now c).1 rest

/-- A presented value is allowed, and leaves no more live values than the cap. -/
def Fits (allowed : Str → Prop) (m : MemStore) (now : Nat) : Call → Prop
  | .write fqdn (.present value) =>
    allowed value ∧ ∀ key ∈ challengeKey E fqdn,
      (m.write now key (.present value) key).length ≤ challengeMaxEntries
  | _ => True

/-- Calls at times that do not go back, within the limits. -/
def Admissible (allowed : Str → Prop) : MemStore → Nat → List (Nat × Call) → Prop
  | _, _, [] => True
  | m, before, (now, c) :: rest =>
    before ≤ now ∧ Fits E allowed m now c ∧ Admissible allowed (m.call E now c).1 now rest

/-- The limit of a value: its size. -/
def WithinSize (value : Str) : Prop :=
  byteLen value ≤ challengeMaxValueBytes

/-- A value that is not empty, within the size. -/
def Storable (value : Str) : Prop :=
  value ≠ [] ∧ byteLen value ≤ challengeMaxValueBytes

instance : DecidablePred WithinSize := fun value =>
  inferInstanceAs (Decidable (byteLen value ≤ challengeMaxValueBytes))

instance : DecidablePred Storable := fun value =>
  inferInstanceAs (Decidable (value ≠ [] ∧ byteLen value ≤ challengeMaxValueBytes))

variable {allowed : Str → Prop} [DecidablePred allowed]

instance (m : MemStore) (now : Nat) (c : Call) : Decidable (Fits E allowed m now c) :=
  match c with
  | .write _ (.present _) => inferInstanceAs (Decidable (_ ∧ ∀ key ∈ _, _))
  | .write _ (.cleanUp _) | .write _ .clearAll | .activeTXT _ => .isTrue trivial

instance Admissible.decidable : ∀ m before calls, Decidable (Admissible E allowed m before calls)
  | _, _, [] => .isTrue trivial
  | m, before, (now, c) :: rest =>
    haveI := Admissible.decidable (m.call E now c).1 now rest
    inferInstanceAs (Decidable (before ≤ now ∧ _ ∧ _))

end Stores

section Live

variable {now now' : Nat} {entries : List Entry} {value : Str} {expires : Nat}

theorem mem_prune {e : Entry} : e ∈ prune now entries ↔ e ∈ entries ∧ now < e.expires := by
  rw [prune, List.mem_filter, decide_eq_true_eq]

theorem mem_live {e : Entry} :
    e ∈ liveChallengeEntries now entries ↔ e ∈ entries ∧ e.value ≠ [] ∧ now < e.expires := by
  rw [liveChallengeEntries, List.mem_filter, Bool.and_eq_true, decide_eq_true_eq, decide_eq_true_eq]

theorem prune_prune (h : now ≤ now') : prune now' (prune now entries) = prune now' entries := by
  rw [prune, prune, prune, List.filter_filter]
  refine List.filter_congr fun e _ => ?_
  rw [← Bool.decide_and, decide_eq_decide]
  exact ⟨And.left, fun hlt => ⟨hlt, Nat.lt_of_le_of_lt h hlt⟩⟩

theorem prune_live (h : now ≤ now') :
    prune now' (liveChallengeEntries now entries) = liveChallengeEntries now' entries := by
  rw [prune, liveChallengeEntries, liveChallengeEntries, List.filter_filter]
  refine List.filter_congr fun e _ => ?_
  rw [← Bool.decide_and, ← Bool.decide_and, ← Bool.decide_and, decide_eq_decide]
  exact ⟨fun hboth => ⟨hboth.2.1, hboth.1⟩, fun hlive =>
    ⟨hlive.2, hlive.1, Nat.lt_of_le_of_lt h hlive.2⟩⟩

theorem prune_eq_self (h : ∀ e ∈ entries, now < e.expires) : prune now entries = entries :=
  List.filter_eq_self.mpr fun e he => decide_eq_true (h e he)

theorem live_eq_self (h : ∀ e ∈ entries, e.value ≠ [] ∧ now < e.expires) :
    liveChallengeEntries now entries = entries := by
  refine List.filter_eq_self.mpr fun e he => ?_
  rw [Bool.and_eq_true, decide_eq_true_eq, decide_eq_true_eq]
  exact h e he

theorem refresh_of_not_any (h : entries.any (fun e => e.value == value) = false) :
    refresh value expires entries = entries ++ [⟨value, expires⟩] := by
  induction entries with
  | nil => rfl
  | cons e entries ih =>
    rw [List.any_cons, Bool.or_eq_false_iff, beq_eq_false_iff_ne] at h
    rw [refresh, if_neg h.1, ih h.2, List.cons_append]

theorem mem_refresh {e : Entry} (h : e ∈ refresh value expires entries) :
    e = ⟨value, expires⟩ ∨ e ∈ entries := by
  induction entries with
  | nil => exact .inl (List.mem_singleton.mp h)
  | cons a entries ih =>
    rw [refresh] at h
    split at h
    · rcases List.mem_cons.mp h with rfl | h
      · exact .inl rfl
      · exact .inr (List.mem_cons_of_mem a h)
    · rcases List.mem_cons.mp h with rfl | h
      · exact .inr List.mem_cons_self
      · exact (ih h).imp_right (List.mem_cons_of_mem a)

theorem remove_of_not_any (h : entries.any (fun e => e.value == value) = false) :
    remove value entries = entries := by
  rw [List.any_eq_false] at h
  exact List.filter_eq_self.mpr fun e he => decide_eq_true (by simpa using h e he)

end Live

section Keys

variable {now now' : Nat} {entries : List Entry} {cell : Option Cell} {op : Op}

theorem le_foldl_max (m : Nat) : m ≤ entries.foldl (fun m e => max m e.expires) m ∧
    ∀ e ∈ entries, e.expires ≤ entries.foldl (fun m e => max m e.expires) m := by
  induction entries generalizing m with
  | nil => exact ⟨Nat.le_refl m, by simp⟩
  | cons a entries ih =>
    obtain ⟨hm, hall⟩ := ih (max m a.expires)
    rw [List.foldl_cons]
    refine ⟨by omega, List.forall_mem_cons.mpr ⟨by omega, hall⟩⟩

theorem expires_le_keyTTL (hnow : now ≤ now') {e : Entry} (he : e ∈ entries) :
    e.expires ≤ now' + keyTTL now entries := by
  have hne : entries ≠ [] := List.ne_nil_of_mem he
  have hle := (le_foldl_max 0).2 e he
  rw [keyTTL, if_neg hne, maxChallengeRemaining]
  omega

theorem readCell_getCell : readCell now (getCell now cell).2 = readCell now cell := by
  rw [getCell]
  split
  · next h => rw [h]; rfl
  · rfl

theorem casPasses_read : casPasses now cell (readCell now cell) = true := by
  cases h : readCell now cell with
  | none => simp [casPasses, h]
  | some entries => simp [casPasses, h, jsonEqual]

theorem getCell_fst : (getCell now cell).1 = readCell now cell := by
  rw [getCell]
  split
  · next h => rw [h]
  · next h => rw [h]

theorem mutate_eq_of_none {live : List Entry}
    (hlive : liveChallengeEntries now ((readCell now cell).getD []) = live)
    (h : op.mutation now live = none) : mutate now op cell = (getCell now cell).2 := by
  rw [mutate, challengeCASRounds, mutateRounds, getCell_fst, hlive, h]

theorem mutate_eq_of_some {live next : List Entry}
    (hlive : liveChallengeEntries now ((readCell now cell).getD []) = live)
    (h : op.mutation now live = some next) :
    mutate now op cell = some ⟨next, now + keyTTL now next⟩ := by
  have hpasses : casPasses now (getCell now cell).2 (readCell now cell) = true := by
    rw [← readCell_getCell]
    exact casPasses_read
  rw [mutate, challengeCASRounds, mutateRounds, getCell_fst, hlive, h]
  simp only [casCell, hpasses, if_true]

end Keys

section Simulation

variable {now now' : Nat} {key : Str} {op : Op}

def storedEntries (cell : Option Cell) : List Entry :=
  (cell.map Cell.entries).getD []

def Outlives (cell : Option Cell) : Prop :=
  ∀ c, cell = some c → ∀ e ∈ c.entries, e.expires ≤ c.exp

theorem live_readCell {cell : Option Cell} (h : Outlives cell) :
    liveChallengeEntries now ((readCell now cell).getD []) = liveChallengeEntries now
      (storedEntries cell) := by
  cases cell with
  | none => rfl
  | some c =>
    rw [readCell]
    split
    · next hexp =>
      symm
      rw [storedEntries, Option.getD_none, Option.map_some, Option.getD_some, liveChallengeEntries,
        liveChallengeEntries, List.filter_nil, List.filter_eq_nil_iff]
      intro e he
      have := h c rfl e he
      simp only [Bool.and_eq_true, decide_eq_true_eq, not_and, Nat.not_lt]
      intro _
      omega
    · rfl

theorem outlives_getCell {cell : Option Cell} (h : Outlives cell) :
    Outlives (getCell now cell).2 := by
  rw [getCell]
  split
  · intro c hc
    cases hc
  · exact h

theorem live_getCell {cell : Option Cell} (h : Outlives cell) :
    liveChallengeEntries now (storedEntries (getCell now cell).2) = liveChallengeEntries now
      (storedEntries cell) := by
  rw [← live_readCell (outlives_getCell h), readCell_getCell, live_readCell h]

/-- A cell and the entries in memory live for the same values until the same times. -/
structure Alike (now : Nat) (entries : List Entry) (cell : Option Cell) : Prop where
  outlives : Outlives cell
  values : ∀ e ∈ entries, e.value ≠ []
  live : liveChallengeEntries now (storedEntries cell) = prune now entries

theorem Alike.later {entries : List Entry} {cell : Option Cell} (h : Alike now entries cell)
    (hle : now ≤ now') :
    Alike now' entries cell := by
  have hlive := congrArg (prune now') h.live
  rw [prune_prune hle, prune_live hle] at hlive
  exact ⟨h.outlives, h.values, hlive⟩

theorem Alike.get {entries : List Entry} {cell : Option Cell} (h : Alike now entries cell) :
    Alike now entries (getCell now cell).2 :=
  ⟨outlives_getCell h.outlives, h.values, (live_getCell h.outlives).trans h.live⟩

theorem Alike.written {live next : List Entry} (hlive : ∀ e ∈ live, e.value ≠ [] ∧ now < e.expires)
    (hnext : ∀ e ∈ next, e ∈ live ∨ e.value ≠ [] ∧ now < e.expires) :
    Alike now next (some ⟨next, now + keyTTL now next⟩) := by
  have hall : ∀ e ∈ next, e.value ≠ [] ∧
    now < e.expires := fun e he => (hnext e he).elim (hlive e) id
  refine ⟨fun c hc e he => ?_, fun e he => (hall e he).1, ?_⟩
  · cases hc
    exact expires_le_keyTTL (Nat.le_refl now) he
  · rw [storedEntries, Option.map_some, Option.getD_some, live_eq_self hall,
      prune_eq_self fun e he => (hall e he).2]

theorem Alike.write {m : MemStore} {cell : Option Cell} (h : Alike now (m key) cell)
    (hvalue : ∀ value, op = .present value →
      value ≠ [] ∧ (m.write now key op key).length ≤ challengeMaxEntries) :
    Alike now (m.write now key op key) (mutate now op cell) := by
  have hread : liveChallengeEntries now ((readCell now cell).getD []) = prune now (m key) :=
    (live_readCell h.outlives).trans h.live
  have hall : ∀ e ∈ prune now (m key), e.value ≠ [] ∧ now < e.expires := by
    intro e he
    obtain ⟨he, hlive⟩ := mem_prune.mp he
    exact ⟨h.values e he, hlive⟩
  cases op with
  | present value =>
    obtain ⟨hne, hcap⟩ := hvalue value rfl
    rw [MemStore.write, Function.update_self] at hcap ⊢
    have hmutation : Op.mutation now (prune now (m key)) (.present value) =
        some (refresh value (now + challengeStoreTTL) (prune now (m key))) := by
      rw [Op.mutation]
      split
      · rfl
      · next hany =>
        rw [Bool.not_eq_true] at hany
        rw [refresh_of_not_any hany] at hcap ⊢
        rw [capped, if_neg (Nat.not_lt.mpr hcap)]
    rw [mutate_eq_of_some hread hmutation]
    refine Alike.written hall fun e he => ?_
    rcases mem_refresh he with rfl | he
    · exact .inr ⟨hne, by simp [challengeStoreTTL]⟩
    · exact .inl he
  | cleanUp value =>
    rw [MemStore.write, Function.update_self]
    by_cases hany : (prune now (m key)).any (fun e => e.value == value) = true
    · have hmutation : Op.mutation now (prune now (m key)) (.cleanUp value) =
        some (remove value (prune now (m key))) :=
        if_pos hany
      rw [mutate_eq_of_some hread hmutation]
      exact Alike.written hall fun e he => .inl (List.mem_filter.mp he).1
    · have hmutation : Op.mutation now (prune now (m key)) (.cleanUp value) = none := if_neg hany
      rw [Bool.not_eq_true] at hany
      rw [mutate_eq_of_none hread hmutation, remove_of_not_any hany]
      refine ⟨outlives_getCell h.outlives, fun e he => (hall e he).1, ?_⟩
      rw [live_getCell h.outlives, h.live, prune_prune (Nat.le_refl now)]
  | clearAll =>
    rw [MemStore.write, Function.update_self]
    by_cases hlive : prune now (m key) = []
    · have hmutation : Op.mutation now (prune now (m key)) .clearAll = none :=
        if_neg (not_not.mpr hlive)
      rw [mutate_eq_of_none hread hmutation]
      refine ⟨outlives_getCell h.outlives, by simp, ?_⟩
      rw [live_getCell h.outlives, h.live, hlive]
      rfl
    · have hmutation : Op.mutation now (prune now (m key)) .clearAll = some [] := if_pos hlive
      rw [mutate_eq_of_some hread hmutation]
      exact Alike.written hall (by simp)

end Simulation

section Runs

variable {E : Externals} {m : MemStore} {s : KvStore} {now : Nat}

def AllAlike (now : Nat) (m : MemStore) (s : KvStore) : Prop :=
  ∀ key, Alike now (m key) (s key)

theorem AllAlike.update (key : Str) {entries : List Entry} {cell : Option Cell}
    (h : AllAlike now m s) (hkey : Alike now entries cell) :
      AllAlike now (Function.update m key entries) (Function.update s key cell) := by
  intro k
  by_cases hk : k = key
  · subst hk
    rw [Function.update_self, Function.update_self]
    exact hkey
  · rw [Function.update_of_ne hk, Function.update_of_ne hk]
    exact h k

theorem write_eq_update (m : MemStore) (now : Nat) (key : Str) (op : Op) :
    m.write now key op = Function.update m key (m.write now key op key) := by
  cases op with
  | present value => simp [MemStore.write]
  | cleanUp value => simp [MemStore.write]
  | clearAll => simp [MemStore.write]

theorem AllAlike.call (hfqdn : ∀ s, s ≠ [] → E.fqdn s ≠ []) (h : AllAlike now m s) {c : Call}
    (hfits : Fits E Storable m now c) :
    AllAlike now (m.call E now c).1 (s.call E now c).1 ∧ (m.call E now c).2 =
      (s.call E now c).2 := by
  cases c with
  | write fqdn op =>
    rw [MemStore.call, KvStore.call]
    cases hkey : challengeKey E fqdn with
    | none => exact ⟨h, rfl⟩
    | some key =>
      have hvalue : ∀ value, op = .present value →
          Storable value ∧ (m.write now key op key).length ≤ challengeMaxEntries := by
        rintro value rfl
        exact ⟨hfits.1, hfits.2 key hkey⟩
      have haccepted : (op.accepted && segOK key) = true := by
        rw [segOK_of_challengeKey E hfqdn hkey, Bool.and_true]
        cases op with
        | present value => simpa [Op.accepted, Storable] using (hvalue value rfl).1
        | cleanUp value => rfl
        | clearAll => rfl
      simp only [haccepted, if_true, and_true]
      rw [write_eq_update]
      exact h.update key
        ((h key).write fun value hop => ⟨(hvalue value hop).1.1, (hvalue value hop).2⟩)
  | activeTXT fqdn =>
    rw [MemStore.call, KvStore.call]
    cases hkey : challengeKey E fqdn with
    | none => exact ⟨h, rfl⟩
    | some key =>
      simp only [segOK_of_challengeKey E hfqdn hkey, if_true]
      refine ⟨?_, ?_⟩
      · have hupdate := h.update key (h key).get
        rwa [Function.update_eq_self] at hupdate
      · rw [getCell_fst, live_readCell (h key).outlives, (h key).live]

theorem answers_eq (hfqdn : ∀ s, s ≠ [] → E.fqdn s ≠ []) (h : AllAlike now m s)
    {calls : List (Nat × Call)} (hcalls : Admissible E Storable m now calls) :
    answers (KvStore.call E) s calls = answers (MemStore.call E) m calls := by
  induction calls generalizing m s now with
  | nil => rfl
  | cons c calls ih =>
    obtain ⟨hle, hfits, hrest⟩ := hcalls
    have hlater : AllAlike c.1 m s := fun key => (h key).later hle
    obtain ⟨hnext, hsame⟩ := hlater.call hfqdn hfits
    rw [answers, answers, ← hsame, ih hnext hrest]

end Runs

/-- The calls of one head return the same values from both stores, as long as the values presented
are not empty. -/
theorem stores_agree (E : Externals) (hfqdn : ∀ s, s ≠ [] → E.fqdn s ≠ [])
    (calls : List (Nat × Call)) (hcalls : Admissible E Storable (fun _ => []) 0 calls) :
    answers (KvStore.call E) (fun _ => none) calls = answers (MemStore.call E)
      (fun _ => []) calls :=
  answers_eq hfqdn (fun _ => ⟨by rintro c ⟨⟩, by simp, rfl⟩) hcalls

/-- An order puts up two values, takes one down, and lets the other expire. -/
def twoValues : List (Nat × Call) :=
  [(100, .write "_acme-challenge.acme.test".toList (.present "one".toList)),
    (160, .write "_ACME-challenge.acme.test.".toList (.present "two".toList)),
    (200, .activeTXT "_acme-challenge.acme.test.".toList),
    (200, .write "_acme-challenge.acme.test.".toList (.cleanUp "one".toList)),
    (759, .activeTXT "_acme-challenge.acme.test.".toList),
    (760, .activeTXT "_acme-challenge.acme.test.".toList)]

theorem stores_agree_twoValues :
    answers (KvStore.call plain) (fun _ => none) twoValues = answers (MemStore.call plain)
      (fun _ => []) twoValues := by
  refine stores_agree plain ?_ twoValues (by decide +kernel)
  intro s hs
  change plainFqdn s ≠ []
  rw [plainFqdn]
  split
  · exact hs
  · simp

/-- An empty value, put up and asked for. -/
def emptyValue : List (Nat × Call) :=
  [(100, .write "_acme-challenge.acme.test.".toList (.present [])),
    (101, .activeTXT "_acme-challenge.acme.test.".toList)]

/-- It is served from memory, and not put in the key-value store. -/
theorem not_agree_emptyValue :
    Admissible plain WithinSize (fun _ => []) 0 emptyValue ∧
      answers (KvStore.call plain) (fun _ => none) emptyValue = [[], []] ∧
      answers (MemStore.call plain) (fun _ => []) emptyValue = [[], [[]]] := by
  decide +kernel

end ThanksComputer.Dns.Acme
