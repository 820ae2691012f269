import Mathlib.Algebra.Ring.Int.Defs
import Mathlib.Algebra.Ring.Nat
import Mathlib.Data.Nat.Find
import ThanksComputer.Lib.Builtin

/-! The reader of an object (`objectReader` of drive/resources.go): a position, and a stream of the
backend that is opened there when bytes are needed. -/

namespace ThanksComputer.Drive.Reading

open Lib (wrapInt)

inductive Kind
  | ranged
  | seekable
  | plain
  deriving DecidableEq

/-- A backend that holds an object.  What its streams hand out at a read may depend on all that was
read before (`k` counts the reads), on where the stream is and on the room there is: up to the end
any number of bytes, though not none for ever.  `eof` is whether the end of the file is signalled
along with them. -/
structure Backend (object : List UInt8) where
  kind : Kind
  deliver : (k q room : Nat) → Nat
  eof : (k q room : Nat) → Bool
  deliver_le : ∀ k q room, deliver k q room ≤ min room (object.length - q)
  progress : ∀ k q room, 0 < room → q < object.length → ∃ d, 0 < deliver (k + d) q room
  eof_last : ∀ k q room, eof k q room = true → q + deliver k q room = object.length

inductive SeekError
  | badWhence
  | negative
  deriving DecidableEq

/-- `Seek` works by the size alone, for an object as for bytes in memory.  Positions are `int64`. -/
def seekTo (size pos offset whence : Int) : Except SeekError Int :=
  let check (target : Int) : Except SeekError Int := if target < 0 then .error .negative
    else .ok target
  if whence = 0 then check offset
  else if whence = 1 then check (wrapInt (pos + offset))
  else if whence = 2 then check (wrapInt (size + offset))
  else .error .badWhence

inductive Op
  | seek (offset whence : Int)
  | read (room : Nat)
  deriving DecidableEq

inductive Out
  | sought (pos : Int)
  | refused (e : SeekError)
  | bytes (data : List UInt8) (eof : Bool)
  | openFailed
  deriving DecidableEq

section Code

variable {object : List UInt8} (b : Backend object)

/-- The buffer of `io.Discard`. -/
def discardRoom : Nat := 8192

/-- How many reads at a place hand out nothing. -/
def Backend.idle (k q room : Nat) : Nat :=
  if h : 0 < room ∧ q < object.length then Nat.find (b.progress k q room h.1 h.2) else 0

theorem Backend.idle_succ_lt {k q room : Nat} (hroom : 0 < room) (hq : q < object.length)
    (hnone : b.deliver k q room = 0) : b.idle (k + 1) q room < b.idle k q room := by
  have hcond : 0 < room ∧ q < object.length := ⟨hroom, hq⟩
  rw [Backend.idle, Backend.idle, dif_pos hcond, dif_pos hcond]
  have hfound := Nat.find_spec (b.progress k q room hroom hq)
  generalize hd : Nat.find (b.progress k q room hroom hq) = d at hfound
  cases d with
  | zero =>
    rw [Nat.add_zero, hnone] at hfound
    exact absurd hfound (Nat.lt_irrefl 0)
  | succ d =>
    refine Nat.lt_succ_of_le (Nat.find_le ?_)
    rw [Nat.add_right_comm, Nat.add_assoc]
    exact hfound

/-- `io.CopyN` to `io.Discard`: the count of reads and the place of the stream behind it. -/
def copyN (k q n : Nat) : Option (Nat × Nat) :=
  if n = 0 then some (k, q)
  else if object.length ≤ q then none
  else
    copyN (k + 1) (q + b.deliver k q (min discardRoom n)) (n - b.deliver k q (min discardRoom n))
termination_by (n, b.idle k q (min discardRoom n))
decreasing_by
  next hn hq =>
    have hroom : 0 < min discardRoom n := by
      rw [discardRoom]
      omega
    by_cases hnone : b.deliver k q (min discardRoom n) = 0
    · rw [hnone, Nat.sub_zero, Nat.add_zero]
      exact Prod.Lex.right _ (b.idle_succ_lt hroom (Nat.not_le.mp hq) hnone)
    · exact Prod.Lex.left _ _ (by omega)

/-- `objectReader`; `cur` is the place where the open stream is, `calls` the reads of the
backend. -/
structure Reader where
  pos : Int
  cur : Option Nat
  curPos : Int
  calls : Nat

def Reader.start : Reader := ⟨0, none, 0, 0⟩

/-- `open`: a stream at the position, by the best means of the backend. -/
def Reader.openAt (r : Reader) : Option (Nat × Reader) :=
  if b.kind = .ranged ∧ 0 < r.pos then some (r.pos.toNat, { r with curPos := r.pos })
  else if 0 < r.pos then
    if b.kind = .seekable then some (r.pos.toNat, { r with curPos := r.pos })
    else (copyN b r.calls 0 r.pos.toNat).map fun (calls, q) =>
      (q, { r with curPos := r.pos, calls := calls })
  else some (0, { r with curPos := r.pos })

/-- The stream to read from: the open one, unless there was a seek since the last read. -/
def Reader.stream (r : Reader) : Option (Nat × Reader) :=
  match r.cur with
  | some q => if r.curPos = r.pos then some (q, r) else r.openAt b
  | none => r.openAt b

def Reader.read (r : Reader) (room : Nat) : Reader × Out :=
  if (object.length : Int) ≤ r.pos then (r, .bytes [] true)
  else
    match r.stream b with
    | none => ({ r with cur := none }, .openFailed)
    | some (q, r) =>
      let n := b.deliver r.calls q room
      (⟨r.pos + n, some (q + n), r.curPos + n, r.calls + 1⟩,
        .bytes ((object.drop q).take n) (b.eof r.calls q room))

def Reader.step (r : Reader) : Op → Reader × Out
  | .seek offset whence =>
    match seekTo object.length r.pos offset whence with
    | .error e => (r, .refused e)
    | .ok pos => ({ r with pos := pos }, .sought pos)
  | .read room => r.read b room

def Reader.run (r : Reader) : List Op → List Out
  | [] => []
  | op :: ops => (r.step b op).2 :: Reader.run (r.step b op).1 ops

end Code

section Spec

/-- The reader of bytes in memory, by its position alone (`bytes.Reader`). -/
def memStep (object : List UInt8) (i : Int) : Op → Int × Out
  | .seek offset whence =>
    match seekTo object.length i offset whence with
    | .error e => (i, .refused e)
    | .ok pos => (pos, .sought pos)
  | .read room =>
    if (object.length : Int) ≤ i then (i, .bytes [] true)
    else
      let data := (object.drop i.toNat).take room
      (i + data.length, .bytes data false)

/-- The call as it would be made for the bytes that were delivered. -/
def delivered : Op → Out → Op
  | .seek offset whence, _ => .seek offset whence
  | .read _, .bytes data _ => .read data.length
  | .read room, _ => .read room

/-- Outputs agree, call by call, with those of a reader in memory that is asked for the bytes
delivered. -/
def Agrees (object : List UInt8) (same : Int × Out → Out → Prop) : Int → List Op → List Out → Prop
  | _, [], [] => True
  | i, op :: ops, out :: outs =>
    same (memStep object i (delivered op out)) out ∧
      Agrees object same (memStep object i (delivered op out)).1 ops outs
  | _, _, _ => False

/-- The same output. -/
def Same (m : Int × Out) (out : Out) : Prop :=
  m.2 = out

instance (m : Int × Out) (out : Out) : Decidable (Same m out) :=
  inferInstanceAs (Decidable (m.2 = out))

/-- The same output, but that the end of the file may come along with the last bytes. -/
def SameButLast (object : List UInt8) (m : Int × Out) : Out → Prop
  | .bytes data eof => ∃ meof, m.2 = .bytes data meof ∧ (meof = true → eof = true) ∧
      (eof = true → meof = true ∨ m.1 = object.length)
  | out => m.2 = out

/-- Every stream keeps the end of the file for a read behind the last byte. -/
def Backend.Plainly {object : List UInt8} (b : Backend object) : Prop :=
  ∀ k q room, q < object.length → b.eof k q room = false

end Spec

section Streams

variable {object : List UInt8} {b : Backend object} {r : Reader}

theorem copyN_eq (k q n : Nat) (h : q + n ≤ object.length) :
    ∃ calls, copyN b k q n = some (calls, q + n) := by
  fun_induction copyN b k q n with
  | case1 k q => exact ⟨k, rfl⟩
  | case2 k q n hn hend => omega
  | case3 k q n hn hend ih =>
    have hle : b.deliver k q (min discardRoom n) ≤ n := by
      have := b.deliver_le k q (min discardRoom n)
      omega
    obtain ⟨calls, hcalls⟩ := ih (by omega)
    exact ⟨calls, by rw [hcalls, Nat.add_assoc, Nat.add_sub_of_le hle]⟩

theorem openAt_eq (hpos : 0 ≤ r.pos) (hsize : r.pos < object.length) :
    ∃ calls, r.openAt b = some (r.pos.toNat, { r with curPos := r.pos, calls := calls }) := by
  rw [Reader.openAt]
  split
  · exact ⟨r.calls, rfl⟩
  · split
    · split
      · exact ⟨r.calls, rfl⟩
      · obtain ⟨calls, hcalls⟩ := copyN_eq (b := b) r.calls 0 r.pos.toNat (by omega)
        rw [Nat.zero_add] at hcalls
        exact ⟨calls, by rw [hcalls]; rfl⟩
    · have hzero : r.pos.toNat = 0 := by omega
      exact ⟨r.calls, by rw [hzero]⟩

/-- The reader is where the one in memory is, and an open stream where the reader takes it to be. -/
structure Follows (r : Reader) (i : Int) : Prop where
  pos : r.pos = i
  nonneg : 0 ≤ i
  cur : ∀ q, r.cur = some q → (q : Int) = r.curPos

theorem stream_eq {i : Int} (h : Follows r i) (hsize : i < object.length) :
    ∃ calls, r.stream b = some (i.toNat, { r with curPos := r.pos, calls := calls }) := by
  obtain ⟨rfl, hnonneg, hcur⟩ := h
  rw [Reader.stream]
  split
  · next q hq =>
    split
    · next heq =>
      have hq : q = r.pos.toNat := by
        have := hcur q hq
        omega
      have hsame : r = { r with curPos := r.pos, calls := r.calls } := by
        cases r
        cases heq
        rfl
      exact ⟨r.calls, by rw [hq, ← hsame]⟩
    · exact openAt_eq hnonneg hsize
  · exact openAt_eq hnonneg hsize

end Streams

section Steps

variable {object : List UInt8} {b : Backend object} {r : Reader} {i : Int}

theorem seekTo_nonneg {size pos offset whence target : Int}
    (h : seekTo size pos offset whence = .ok target) :
    0 ≤ target := by
  have hcheck : ∀ x : Int, (if x < 0 then Except.error SeekError.negative else .ok x) = .ok target →
    0 ≤ target := by
    intro x hx
    split at hx
    · cases hx
    · cases hx
      omega
  rw [seekTo] at h
  split_ifs at h
  · exact hcheck _ h
  · exact hcheck _ h
  · exact hcheck _ h

theorem read_eq (h : Follows r i) (hsize : i < object.length) (room : Nat) :
    ∃ n eof, (r.read b room).2 = .bytes ((object.drop i.toNat).take n) eof ∧
      i.toNat + n ≤ object.length ∧
      (eof = true → i.toNat + n = object.length) ∧ (b.Plainly → eof = false) ∧
      Follows (r.read b room).1 (i + n) := by
  obtain ⟨calls, hstream⟩ := stream_eq (b := b) h hsize
  have hread : r.read b room =
    (⟨r.pos + b.deliver calls i.toNat room, some (i.toNat + b.deliver calls i.toNat room),
      r.pos + b.deliver calls i.toNat room, calls + 1⟩,
      .bytes ((object.drop i.toNat).take (b.deliver calls i.toNat room))
        (b.eof calls i.toNat room)) := by
    rw [Reader.read, if_neg (by rw [h.pos]; omega), hstream]
  have hnonneg := h.nonneg
  have hle := b.deliver_le calls i.toNat room
  rw [hread]
  refine ⟨_, _, rfl, by omega, b.eof_last calls i.toNat room, fun hplain =>
    hplain _ _ _ (by omega), ?_⟩
  refine ⟨by rw [h.pos], by omega, fun q hq => ?_⟩
  cases hq
  simp only [h.pos]
  omega

theorem step_agrees (h : Follows r i) (op : Op) :
    SameButLast object (memStep object i (delivered op (r.step b op).2)) (r.step b op).2 ∧
      (b.Plainly → Same (memStep object i (delivered op (r.step b op).2)) (r.step b op).2) ∧
      Follows (r.step b op).1 (memStep object i (delivered op (r.step b op).2)).1 := by
  cases op with
  | seek offset whence =>
    rw [delivered, Reader.step, memStep, h.pos]
    cases hseek : seekTo object.length i offset whence with
    | error e => exact ⟨rfl, fun _ => rfl, h⟩
    | ok pos => exact ⟨rfl, fun _ => rfl, rfl, seekTo_nonneg hseek, h.cur⟩
  | read room =>
    rw [Reader.step]
    by_cases hsize : i < object.length
    · obtain ⟨n, eof, hout, hle, hlast, hplain, hnext⟩ := read_eq (b := b) h hsize room
      have hlen : ((object.drop i.toNat).take n).length = n := by
        rw [List.length_take, List.length_drop]
        omega
      have hmem : memStep object i (delivered (.read room) (r.read b room).2) =
          (i + n, .bytes ((object.drop i.toNat).take n) false) := by
        rw [hout, delivered, memStep, if_neg (by omega), hlen]
        simp only [hlen]
      have hnonneg := h.nonneg
      rw [hmem, hout]
      refine ⟨⟨false, rfl, Bool.false_ne_true.elim, fun heof => Or.inr ?_⟩, fun hb => ?_, hnext⟩
      · have := hlast heof
        omega
      · rw [hplain hb]
        rfl
    · have hend : r.read b room = (r, .bytes [] true) := by
        rw [Reader.read, if_pos (by rw [h.pos]; omega)]
      have hmem : memStep object i (delivered (.read room) (r.read b room).2) =
        (i, .bytes [] true) := by
        rw [hend, delivered, memStep, if_pos (by omega)]
      rw [hmem, hend]
      exact ⟨⟨true, rfl, fun _ => rfl, fun _ => .inl rfl⟩, fun _ => rfl, h⟩

theorem run_agrees (h : Follows r i) (ops : List Op) :
    Agrees object (SameButLast object) i ops (r.run b ops) ∧
      (b.Plainly → Agrees object Same i ops (r.run b ops)) := by
  induction ops generalizing r i with
  | nil => exact ⟨trivial, fun _ => trivial⟩
  | cons op ops ih =>
    obtain ⟨hbut, hsame, hnext⟩ := step_agrees (b := b) h op
    obtain ⟨hbuts, hsames⟩ := ih hnext
    exact ⟨⟨hbut, hbuts⟩, fun hb => ⟨hsame hb, hsames hb⟩⟩

end Steps

/-- Whatever the backend, the reader does as one in memory would, but that the end of the file comes
along with the last bytes where a stream of the backend has it so. -/
theorem reader_agrees (object : List UInt8) (b : Backend object) (ops : List Op) :
    Agrees object (SameButLast object) 0 ops (Reader.start.run b ops) ∧
      (b.Plainly → Agrees object Same 0 ops (Reader.start.run b ops)) := by
  have hstart : Follows Reader.start 0 := ⟨rfl, Int.le_refl 0, fun q hq => by cases hq⟩
  exact run_agrees hstart ops

/-- A plain stream that hands out byte by byte. -/
def bytewise (object : List UInt8) : Backend object where
  kind := .plain
  deliver _ q room := min 1 (min room (object.length - q))
  eof _ _ _ := false
  deliver_le _ _ _ := Nat.min_le_right _ _
  progress _ _ _ hroom hq := ⟨0, by omega⟩
  eof_last _ _ _ h := by cases h

/-- A seek to the second byte, a read that gets it, and one behind it. -/
theorem reader_agrees_bytewise : Agrees [104, 105] Same 0 [.seek 1 0, .read 8, .read 8]
    (Reader.start.run (bytewise [104, 105]) [.seek 1 0, .read 8, .read 8]) :=
  (reader_agrees [104, 105] (bytewise [104, 105]) [.seek 1 0, .read 8, .read 8]).2
    fun _ _ _ _ => rfl

/-- A backend that hands out what there is room for, and the end of the file with the last byte. -/
def eager (object : List UInt8) : Backend object where
  kind := .ranged
  deliver _ q room := min room (object.length - q)
  eof _ q room := q + min room (object.length - q) == object.length
  deliver_le _ _ _ := Nat.le_refl _
  progress _ _ _ hroom hq := ⟨0, by omega⟩
  eof_last _ _ _ h := beq_iff_eq.mp h

/-- The end of the file along with the bytes; in memory it takes another read. -/
theorem not_agrees_eager :
    ¬Agrees [104, 105] Same 0 [.read 8] (Reader.start.run (eager [104, 105]) [.read 8]) := by
  rintro ⟨h, -⟩
  exact absurd h (by decide +kernel)

end ThanksComputer.Drive.Reading
