import Mathlib.Algebra.Ring.Nat
import ThanksComputer.Net.Address

/-! The row of a connection and the statements on it (`connection/store.go`).  One identity has one
row; its id and the ids of claims are minted afresh. -/

namespace ThanksComputer.Connection

open Lib (wrapInt second)
open Net

section Times

/-- What is left of an instant once it is stored: whole seconds. -/
def stamp (t : Int) : Int :=
  Int.fdiv t second * second

theorem lt_stamp_add (t : Int) : t < stamp t + second := by
  have h := Int.mul_fdiv_add_fmod t second
  have hlt : Int.fmod t second < second := Int.fmod_lt_of_pos t (by decide)
  rw [stamp, Int.mul_comm]
  omega

/-- `expiry`: a lifetime of nothing is no expiry. -/
def expiry (now expiresIn : Int) : Option Int × Int :=
  if expiresIn ≤ 0 then (none, 0) else (some (now + wrapInt (expiresIn * second)), expiresIn)

end Times

inductive Status
  | active
  | uncertain
  | reconnect
  deriving DecidableEq

structure Material where
  access : Str
  refresh : Str
  tokenType : Str
  deriving DecidableEq

/-- A row of `connections`, as far as renewal reads it. -/
structure Row where
  id : Nat
  status : Status
  generation : Nat
  expiresAt : Option Int
  lifetimeS : Int
  refreshExpiresAt : Option Int
  claimID : Option Nat
  claimUntil : Option Int
  material : Material
  deriving DecidableEq

structure NewRow where
  expiresAt : Option Int
  lifetimeS : Int
  refreshExpiresAt : Option Int
  material : Material
  deriving DecidableEq

section Statements

variable (row : Option Row)

/-- `UPDATE connections SET … WHERE …`, and whether there was such a row. -/
def update (cond : Row → Bool) (set : Row → Row) : Option Row × Bool :=
  match row with
  | some r => if cond r then (some (set r), true) else (row, false)
  | none => (none, false)

def fencedBy (r : Row) (claimID : Nat) (q : Row) : Bool :=
  q.id == r.id && q.generation == r.generation && q.claimID == some claimID

def reload (id : Nat) : Option Row :=
  row.filter (·.id == id)

def claim (id generation claimID : Nat) (till : Int) (status : Status) : Option Row × Bool :=
  update row
    (fun q => q.id == id && q.generation == generation && decide (q.status = status) &&
      q.claimID.isNone)
    fun q => { q with claimID := some claimID, claimUntil := some (stamp till) }

def renew (r : Row) (claimID : Nat) (m : Material) (expiresAt refreshExpiresAt : Option Int)
    (lifetimeS : Int) : Option Row × Bool :=
  update row (fencedBy r claimID) fun q =>
    { q with
      generation := r.generation + 1
      material := m
      expiresAt := expiresAt.map stamp
      lifetimeS := lifetimeS
      refreshExpiresAt := refreshExpiresAt.map stamp
      status := .active
      claimID := none
      claimUntil := none }

def setStatus (r : Row) (claimID : Nat) (status : Status) : Option Row × Bool :=
  update row (fencedBy r claimID) fun q =>
    { q with status := status, claimID := none, claimUntil := none }

def release (r : Row) (claimID : Nat) : Option Row × Bool :=
  update row (fencedBy r claimID) fun q => { q with claimID := none, claimUntil := none }

/-- `ReleaseStale`, where the claim is past its lease at the store's reading. -/
def releaseStale (r : Row) (now : Int) : Option Row × Bool :=
  match r.claimID, r.claimUntil with
  | some claimID, some till =>
    if till < now then setStatus row r claimID .uncertain else (row, false)
  | _, _ => (row, false)

/-- The `UPDATE` of `Put`. -/
def putUpdate (existing : Row) (n : NewRow) : Option Row × Bool :=
  update row (fun q => q.id == existing.id && q.generation == existing.generation) fun q =>
    { q with
      status := .active
      generation := existing.generation + 1
      expiresAt := n.expiresAt.map stamp
      lifetimeS := n.lifetimeS
      refreshExpiresAt := n.refreshExpiresAt.map stamp
      claimID := none
      claimUntil := none
      material := n.material }

/-- The `INSERT` of `Put`; an identity that has its row is a unique violation. -/
def putInsert (id : Nat) (n : NewRow) : Option Row × Bool :=
  match row with
  | some _ => (row, false)
  | none =>
    (some ⟨id, .active, 1, n.expiresAt.map stamp, n.lifetimeS, n.refreshExpiresAt.map stamp, none,
      none,
      n.material⟩, true)

/-- `DELETE FROM connections WHERE id = ?`. -/
def delete (id : Nat) : Option Row :=
  row.filter (·.id != id)

end Statements

end ThanksComputer.Connection
