/-! Readers over a state that may give up, and what holds of whatever they leave behind. -/

namespace ThanksComputer.Lib

universe u v w

/-- How a reader ends: with a value, without one, or out of fuel. -/
inductive Outcome (σ : Type u) (α : Type v)
  | ok (a : α) (s : σ)
  | nil (s : σ)
  | stuck

namespace Outcome

variable {σ : Type u} {α β γ : Type v}

def bind (x : Outcome σ α) (f : α → σ → Outcome σ β) : Outcome σ β :=
  match x with
  | ok a s => f a s
  | nil s => nil s
  | stuck => stuck

def map (f : α → β) (x : Outcome σ α) : Outcome σ β :=
  x.bind fun a s => ok (f a) s

/-- The reader ends, and what it leaves satisfies one condition with a value and another without. -/
def Meets (done : α → σ → Prop) (gave : σ → Prop) : Outcome σ α → Prop
  | ok a s => done a s
  | nil s => gave s
  | stuck => False

/-- What the reader leaves satisfies one condition with a value and another without, unless the fuel
runs out. -/
def Leaves (done gave : σ → Prop) : Outcome σ α → Prop
  | ok _ s => done s
  | nil s => gave s
  | stuck => True

variable {x : Outcome σ α} {f : α → σ → Outcome σ β} {P P' : α → σ → Prop} {Q : β → σ → Prop}
    {N N' : σ → Prop}

theorem Meets.bind (h : x.Meets P N) (hf : ∀ a s, P a s → (f a s).Meets Q N) :
    (x.bind f).Meets Q N := by
  cases x with
  | ok a s => exact hf a s h
  | nil s => exact h
  | stuck => exact h

theorem Meets.imp (h : x.Meets P N) (hP : ∀ a s, P a s → P' a s) (hN : ∀ s, N s → N' s) :
    x.Meets P' N' := by
  cases x with
  | ok a s => exact hP a s h
  | nil s => exact hN s h
  | stuck => exact h

theorem Meets.map {g : α → β} (h : x.Meets P N) (hg : ∀ a s, P a s → Q (g a) s) :
    (x.map g).Meets Q N :=
  h.bind hg

section Leaves

variable {D D' G G' : σ → Prop}

theorem Leaves.bind (h : x.Leaves D G) (hf : ∀ a s, D s → (f a s).Leaves D' G) :
    (x.bind f).Leaves D' G := by
  cases x with
  | ok a s => exact hf a s h
  | nil s => exact h
  | stuck => trivial

theorem Leaves.map {g : α → β} (h : x.Leaves D G) : (x.map g).Leaves D G :=
  h.bind fun _ _ hs => hs

theorem Leaves.imp (h : x.Leaves D G) (hD : ∀ s, D s → D' s) (hG : ∀ s, G s → G' s) :
    x.Leaves D' G' := by
  cases x with
  | ok a s => exact hD s h
  | nil s => exact hG s h
  | stuck => trivial

end Leaves

@[simp] theorem bind_ok (a : α) (s : σ) : (ok a s).bind f = f a s := rfl

end Outcome

end ThanksComputer.Lib
