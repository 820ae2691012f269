import Mathlib.Data.List.TakeWhile
import ThanksComputer.Lib.Builtin
import ThanksComputer.Ops.Overlay

/-! Stages as the texts the chassis passes around: parsing one, writing the next one, and the lookup
of its rules. -/

namespace ThanksComputer.Ops

open Lib (wrapInt wrapInt_of_mem)
open Lib.Layers

abbrev StageText := List Char

/-- `strconv.Itoa`. -/
def itoa : Int → List Char
  | .ofNat n => Nat.toDigits 10 n
  | .negSucc n => '-' :: Nat.toDigits 10 (n + 1)

/-- `strconv.Atoi` on digits. -/
def atoi (digits : List Char) : Option Nat :=
  let n := Nat.ofDigitChars 10 digits 0
  if n ≤ maxInt then some n else none

/-- `StagePartsRE`: what stands before the last slash on its line, and the digits after it. -/
def stageParts (stage : StageText) : Option (StageText × List Char) :=
  match stage.reverse.dropWhile Char.isDigit with
  | '/' :: before =>
    match (stage.reverse.takeWhile Char.isDigit).reverse with
    | [] => none
    | d :: ds => some ((before.takeWhile (· != '\n')).reverse, d :: ds)
  | _ => none

def stageParse (stage : StageText) : Option (StageText × Nat) :=
  (stageParts stage).bind fun p => (atoi p.2).map fun n => (p.1, n)

def stageAt (stack : StageText) (scope : Int) : StageText :=
  stack ++ '/' :: itoa scope

def nextStageFor (stage : StageText) : StageText :=
  match stageParse stage with
  | some (stack, scope) => stageAt stack (wrapInt (scope + 1))
  | none => []

def segments (stack : StageText) : Stack :=
  (stack.splitOn '/').reverse

def stackText (s : Stack) : StageText :=
  ['/'].intercalate s.reverse

/-- `LIKE` with `%` as the one metacharacter. -/
def likeText : List Char → List Char → Bool
  | [], text => text.isEmpty
  | c :: p, text =>
    if c = '%' then text.tails.any (likeText p)
    else
      match text with
      | [] => false
      | d :: text => c.toLower == d.toLower && likeText p text

def wildcard (stack : StageText) : Bool :=
  stack.contains '%'

def floorRows (rows : List Row) (floor : Nat) : List Row :=
  match lowest (rows.map Row.scope) floor with
  | some x => rows.filter fun r => r.scope == x
  | none => []

/-- The rows `OpsForStage` finds.  A wildcard pattern never peels, nor does a call's frame. -/
def lookupStack (t : List Row) (peels : Bool) (stack : StageText) (floor : Nat) : List Row :=
  if wildcard stack then floorRows (t.filter fun r => likeText stack (stackText r.stack)) floor
  else if peels then opsForStage t (segments stack) floor
  else lookupOpsExact t (segments stack) floor

/-- `OpsForStage`; `none` is the parse error. -/
def lookupStage (t : List Row) (peels : Bool) (stage : StageText) : Option (List Row) :=
  (stageParse stage).map fun p => lookupStack t peels p.1 p.2

theorem lookupOpsExact_eq (t : List Row) (s : Stack) (floor : Nat) :
    lookupOpsExact t s floor = floorRows (rowsOf t s) floor := rfl

section Parse

theorem stackText_segments (stack : StageText) : stackText (segments stack) = stack := by
  rw [stackText, segments, List.reverse_reverse, List.intercalate_splitOn]

theorem takeWhile_append_cons {p : Char → Bool} {ds : List Char} (rest : List Char) {c : Char}
    (hds : ∀ d ∈ ds, p d = true) (hc : p c = false) :
    (ds ++ c :: rest).takeWhile p = ds ∧ (ds ++ c :: rest).dropWhile p = c :: rest := by
  rw [List.takeWhile_append_of_pos hds, List.dropWhile_append_of_pos hds]
  simp [hc]

theorem toDigits_isDigit {n : Nat} : ∀ d ∈ Nat.toDigits 10 n, d.isDigit = true :=
  fun _ hd => Nat.isDigit_of_mem_toDigits (by decide) (by decide) hd

theorem atoi_toDigits {n : Nat} (h : n ≤ maxInt) : atoi (Nat.toDigits 10 n) = some n := by
  rw [atoi, Nat.ofDigitChars_ten_toDigits]
  simp [h]

theorem reverse_stage (stack digits : List Char) (c : Char) :
    (stack ++ c :: digits).reverse = digits.reverse ++ c :: stack.reverse := by
  simp

theorem stageParts_of_stageParse {stage stack : StageText} {n : Nat}
    (h : stageParse stage = some (stack, n)) : ∃ ds, stageParts stage = some (stack, ds) := by
  rw [stageParse, Option.bind_eq_some_iff] at h
  obtain ⟨⟨stack', ds⟩, hparts, h⟩ := h
  obtain ⟨m, -, heq⟩ := Option.map_eq_some_iff.mp h
  cases heq
  exact ⟨ds, hparts⟩

theorem stageParts_stageAt {stack : StageText} (hline : '\n' ∉ stack) (n : Nat) :
    stageParts (stageAt stack n) = some (stack, Nat.toDigits 10 n) := by
  have hdigits : ∀ d ∈ (Nat.toDigits 10 n).reverse, d.isDigit = true := fun d hd =>
    toDigits_isDigit d (List.mem_reverse.mp hd)
  obtain ⟨htake, hdrop⟩ := takeWhile_append_cons stack.reverse hdigits
    (by decide : Char.isDigit '/' = false)
  have hstack : (stack.reverse.takeWhile (· != '\n')).reverse = stack := by
    rw [List.takeWhile_eq_self_iff.mpr, List.reverse_reverse]
    intro c hc
    have hne : c ≠ '\n' := fun he => hline (he ▸ List.mem_reverse.mp hc)
    simpa using hne
  have hitoa : itoa (n : Int) = Nat.toDigits 10 n := rfl
  rw [stageParts, stageAt, hitoa, reverse_stage, htake, hdrop, List.reverse_reverse]
  obtain ⟨d, ds, hds⟩ := List.exists_cons_of_ne_nil (Nat.toDigits_ne_nil (n := n) (b := 10))
  simp only [hds, hstack]

theorem stageParse_stageAt {stack : StageText} (hline : '\n' ∉ stack) {n : Nat} (hn : n ≤ maxInt) :
    stageParse (stageAt stack n) = some (stack, n) := by
  rw [stageParse, stageParts_stageAt hline, Option.bind_some, atoi_toDigits hn]
  rfl

theorem stageParse_negative (stack : StageText) (n : Nat) :
    stageParse (stageAt stack (.negSucc n)) = none := by
  have hdigits : ∀ d ∈ (Nat.toDigits 10 (n + 1)).reverse, d.isDigit = true := fun d hd =>
    toDigits_isDigit d (List.mem_reverse.mp hd)
  obtain ⟨-, hdrop⟩ := takeWhile_append_cons (stack ++ ['/']).reverse hdigits
    (by decide : Char.isDigit '-' = false)
  have hstage : stageAt stack (.negSucc n) = (stack ++ ['/']) ++ '-' ::
    Nat.toDigits 10 (n + 1) := by
    rw [stageAt, itoa, List.append_assoc]
    rfl
  rw [stageParse, stageParts, hstage, reverse_stage, hdrop]
  rfl

theorem line_of_stageParts {stage stack : StageText} {ds : List Char}
    (h : stageParts stage = some (stack, ds)) : '\n' ∉ stack := by
  rw [stageParts] at h
  split at h
  · next before _ =>
    split at h
    · cases h
    · cases h
      intro hmem
      have hne := List.mem_takeWhile_imp (List.mem_reverse.mp hmem)
      simp at hne
  · cases h

theorem stageParse_bounds {stage stack : StageText} {n : Nat}
    (h : stageParse stage = some (stack, n)) : '\n' ∉ stack ∧ n ≤ maxInt := by
  obtain ⟨⟨stack', ds⟩, hparts, h⟩ := Option.bind_eq_some_iff.mp h
  obtain ⟨m, hm, heq⟩ := Option.map_eq_some_iff.mp h
  cases heq
  refine ⟨line_of_stageParts hparts, ?_⟩
  rw [atoi] at hm
  simp only [Option.ite_none_right_eq_some, Option.some.injEq] at hm
  exact hm.2 ▸ hm.1

theorem wrapInt_succ_of_lt {n : Nat} (h : n < maxInt) :
    wrapInt ((n : Int) + 1) = ((n + 1 : Nat) : Int) := by
  rw [maxInt] at h
  exact wrapInt_of_mem (by omega)

theorem wrapInt_maxInt : wrapInt ((maxInt : Int) + 1) = Int.negSucc maxInt := by
  decide +kernel

theorem stageParse_next {stack : StageText} (hline : '\n' ∉ stack) {n : Nat} (hn : n ≤ maxInt) :
    stageParse (stageAt stack (wrapInt (n + 1))) = (succScope n).map (stack, ·) := by
  rw [succScope]
  split
  · next hlt =>
    rw [wrapInt_succ_of_lt hlt, stageParse_stageAt hline hlt]
    rfl
  · next hge =>
    rw [show n = maxInt by omega, wrapInt_maxInt]
    exact stageParse_negative stack maxInt

end Parse

section Lookup

variable {t : List Row} {peels : Bool} {stack : StageText}

structure FloorHit (look : Nat → List Row) (t : List Row) (floor : Nat) (r : Row) : Prop where
  mem : r ∈ t
  floor_le : floor ≤ r.scope
  same : ∀ q ∈ look floor, q.scope = r.scope
  again : look r.scope = look floor

theorem mem_floorRows {rows : List Row} {floor : Nat} {r : Row} (h : r ∈ floorRows rows floor) :
    lowest (rows.map Row.scope) floor = some r.scope ∧ r ∈ rows := by
  rw [floorRows] at h
  split at h
  · next x hx =>
    obtain ⟨hr, hscope⟩ := List.mem_filter.mp h
    rw [beq_iff_eq] at hscope
    exact ⟨hscope ▸ hx, hr⟩
  · cases h

theorem floorRows_hit {rows : List Row} (hsub : rows ⊆ t) {floor : Nat} {r : Row}
    (h : r ∈ floorRows rows floor) : FloorHit (floorRows rows) t floor r := by
  obtain ⟨hlow, hr⟩ := mem_floorRows h
  obtain ⟨hmem, hle, hmin⟩ := lowest_eq_some.mp hlow
  refine ⟨hsub hr, hle, ?_, ?_⟩
  · intro q hq
    have hq' := (mem_floorRows hq).1
    rw [hlow] at hq'
    exact (Option.some.inj hq').symm
  · have hself : lowest (rows.map Row.scope) r.scope = some r.scope :=
      lowest_eq_some.mpr ⟨hmem, Nat.le_refl _, fun y hy hge => hge⟩
    rw [floorRows, floorRows, hself, hlow]

theorem opsForStage_hit {s : Stack} {floor : Nat} {r : Row} (h : r ∈ opsForStage t s floor) :
    FloorHit (opsForStage t s) t floor r := by
  cases hd : descend (scopesOf t) (chain s) floor with
  | none =>
    rw [opsForStage_eq, hd] at h
    cases h
  | some res =>
    obtain ⟨cs, m⟩ := res
    cases cs with
    | nil =>
      rw [opsForStage_eq, hd] at h
      cases h
    | cons a cs =>
      have hrows : opsForStage t s floor = rowsAt t a m := by rw [opsForStage_eq, hd]
      rw [hrows] at h
      obtain ⟨hr, hm⟩ := mem_rowsAt.mp h
      refine ⟨(mem_rowsOf.mp hr).1, hm ▸ le_of_descend hd, ?_, ?_⟩
      · intro q hq
        rw [hrows] at hq
        rw [(mem_rowsAt.mp hq).2, hm]
      · rw [hrows, hm, opsForStage_eq, descend_again (le_of_descend hd) (Nat.le_refl m) hd]

theorem lookupStack_hit {floor : Nat} {r : Row} (h : r ∈ lookupStack t peels stack floor) :
    FloorHit (lookupStack t peels stack) t floor r := by
  unfold lookupStack at h ⊢
  split at h
  · next hw =>
    simp only [hw, if_true]
    exact floorRows_hit (fun _ hq => (List.mem_filter.mp hq).1) h
  · next hw =>
    simp only [hw, if_false, Bool.false_eq_true]
    split at h
    · next hp =>
      simp only [hp, if_true]
      exact opsForStage_hit h
    · next hp =>
      simp only [hp, if_false, Bool.false_eq_true]
      exact floorRows_hit (fun _ hq => (List.mem_filter.mp hq).1) h

/-- The rules from a floor on, which every hop of a walk leaves fewer of. -/
def remaining (t : List Row) (floor : Nat) : Nat :=
  (t.filter fun r => decide (floor ≤ r.scope)).length

theorem remaining_le (t : List Row) (floor : Nat) : remaining t floor ≤ t.length :=
  List.length_filter_le _ _

theorem remaining_lt {floor : Nat} {r : Row} (h : r ∈ lookupStack t peels stack floor) :
    remaining t (r.scope + 1) < remaining t floor := by
  have hhit := lookupStack_hit h
  have hle := hhit.floor_le
  rw [remaining, remaining]
  have hsub : (t.filter fun q => decide (r.scope + 1 ≤ q.scope)) =
      (t.filter fun q => decide (floor ≤ q.scope)).filter
        fun q => decide (r.scope + 1 ≤ q.scope) := by
    rw [List.filter_filter]
    apply List.filter_congr
    intro q _
    rw [Bool.eq_iff_iff]
    simp only [decide_eq_true_eq, Bool.and_eq_true]
    omega
  rw [hsub]
  apply List.length_filter_lt_length_iff_exists.mpr
  exact ⟨r, List.mem_filter.mpr ⟨hhit.mem, by simpa using hle⟩, by simp⟩

end Lookup

end ThanksComputer.Ops
