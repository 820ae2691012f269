import Mathlib.Logic.Relation
import ThanksComputer.Lib.CreateOnce

/-! Processes that share a create-once store.  A program is a tree of store operations; a process is
a program with the task it runs for, and a pool takes one operation of one process at a time. -/

namespace ThanksComputer.Lib.Process

open CreateOnce

variable {κ : Type} {Doc : κ → Type} {ε τ : Type}

/-- `fork` starts another task, `goto` goes on as any task of the set and `await` waits until the
store is as it says. -/
inductive Prog (Doc : κ → Type) (ε τ α : Type) : Type 1
  | pure (a : α)
  | create (k : κ) (d : Doc k) (next : Bool → Prog Doc ε τ α)
  | read {β : Type} (f : Store Doc ε → β) (next : β → Prog Doc ε τ α)
  | note (e : ε) (next : Prog Doc ε τ α)
  | fork (t : τ) (next : Prog Doc ε τ α)
  | await (f : Store Doc ε → Bool) (next : Prog Doc ε τ α)
  | goto (ts : τ → Bool)

namespace Prog

variable {α β : Type}

def bind : Prog Doc ε τ α → (α → Prog Doc ε τ β) → Prog Doc ε τ β
  | .pure a, g => g a
  | .create k d next, g => .create k d fun b => (next b).bind g
  | .read f next, g => .read f fun b => (next b).bind g
  | .note e next, g => .note e (next.bind g)
  | .fork t next, g => .fork t (next.bind g)
  | .await f next, g => .await f (next.bind g)
  | .goto ts, _ => .goto ts

instance : Monad (Prog Doc ε τ) where
  pure := Prog.pure
  bind := Prog.bind

def isPure : Prog Doc ε τ α → Bool
  | .pure _ => true
  | _ => false

/-- Create-if-absent; the result tells whether the document was created. -/
def put (k : κ) (d : Doc k) : Prog Doc ε τ Bool :=
  .create k d .pure

def get (k : κ) : Prog Doc ε τ (Option (Doc k)) :=
  .read (fun s => s.docs k) .pure

def present (k : κ) : Prog Doc ε τ Bool :=
  .read (fun s => s.has k) .pure

def say (e : ε) : Prog Doc ε τ Unit :=
  .note e (.pure ())

def spawn (t : τ) : Prog Doc ε τ Unit :=
  .fork t (.pure ())

def each (f : β → Prog Doc ε τ Unit) : List β → Prog Doc ε τ Unit
  | [] => .pure ()
  | x :: xs => (f x).bind fun _ => each f xs

/-- What a program that only reads answers when nobody else is at work. -/
def answer (s : Store Doc ε) : Prog Doc ε τ α → Option α
  | .pure a => some a
  | .read f next => (next (f s)).answer s
  | _ => none

theorem answer_bind (s : Store Doc ε) (p : Prog Doc ε τ α) (g : α → Prog Doc ε τ β) :
    (p.bind g).answer s = (p.answer s).bind fun a => (g a).answer s := by
  induction p with
  | read f next ih => exact ih (f s)
  | pure | create | note | fork | await | goto => rfl

end Prog

structure Proc (Doc : κ → Type) (ε τ : Type) : Type 1 where
  task : τ
  prog : Prog Doc ε τ Unit

structure Pool (Doc : κ → Type) (ε τ : Type) : Type 1 where
  store : Store Doc ε
  procs : List (Proc Doc ε τ)

def Pool.idle (c : Pool Doc ε τ) : Bool :=
  c.procs.all fun p => p.prog.isPure

variable [DecidableEq κ] (code : τ → Prog Doc ε τ Unit)

def start (t : τ) : Proc Doc ε τ :=
  ⟨t, code t⟩

/-- One operation of a process, with the processes it starts. -/
inductive Act : Store Doc ε → Proc Doc ε τ → Store Doc ε → Proc Doc ε τ → List (Proc Doc ε τ) → Prop
  | create (s : Store Doc ε) (t : τ) (k : κ) (d : Doc k) (next : Bool → Prog Doc ε τ Unit) :
      Act s ⟨t, .create k d next⟩ (s.create k d) ⟨t, next (!s.has k)⟩ []
  | read (s : Store Doc ε) (t : τ) {β : Type} (f : Store Doc ε → β) (next : β → Prog Doc ε τ Unit) :
      Act s ⟨t, .read f next⟩ s ⟨t, next (f s)⟩ []
  | note (s : Store Doc ε) (t : τ) (e : ε) (next : Prog Doc ε τ Unit) :
      Act s ⟨t, .note e next⟩ (s.note e) ⟨t, next⟩ []
  | fork (s : Store Doc ε) (t u : τ) (next : Prog Doc ε τ Unit) :
      Act s ⟨t, .fork u next⟩ s ⟨t, next⟩ [start code u]
  | await (s : Store Doc ε) (t : τ) (f : Store Doc ε → Bool) (next : Prog Doc ε τ Unit)
      (h : f s = true) : Act s ⟨t, .await f next⟩ s ⟨t, next⟩ []
  | goto (s : Store Doc ε) (t u : τ) (ts : τ → Bool) (h : ts u = true) :
      Act s ⟨t, .goto ts⟩ s (start code u) []

inductive Step : Pool Doc ε τ → Pool Doc ε τ → Prop
  | act {s s' : Store Doc ε} {p p' : Proc Doc ε τ} {forked : List (Proc Doc ε τ)}
      (pre post : List (Proc Doc ε τ)) (h : Act code s p s' p' forked) :
      Step ⟨s, pre ++ p :: post⟩ ⟨s', pre ++ p' :: (post ++ forked)⟩

abbrev Reach : Pool Doc ε τ → Pool Doc ε τ → Prop :=
  Relation.ReflTransGen (Step code)

variable {code}

theorem Act.grows {s s' : Store Doc ε} {p p' : Proc Doc ε τ} {forked : List (Proc Doc ε τ)}
    (h : Act code s p s' p' forked) : Grows s s' := by
  cases h with
  | create => exact Grows.create _ _ _
  | note => exact Grows.note _ _
  | read | fork | await | goto => exact Grows.refl _

theorem Reach.grows {c c' : Pool Doc ε τ} (h : Reach code c c') : Grows c.store c'.store := by
  induction h with
  | refl => exact Grows.refl _
  | tail _ hstep ih =>
    cases hstep with
    | act pre post hact => exact ih.trans hact.grows

theorem Step.log {c c' : Pool Doc ε τ} (h : Step code c c') :
    c'.store.log = c.store.log ∨ ∃ e, c'.store.log = c.store.log ++ [e] := by
  cases h with
  | act pre post hact =>
    cases hact with
    | create => exact .inr ⟨_, Store.log_create _ _ _⟩
    | note => exact .inr ⟨_, rfl⟩
    | read | fork | await | goto => exact .inl rfl

theorem Reach.cut {c c' : Pool Doc ε τ} (h : Reach code c c') {log : List (Entry Doc ε)}
    (hc : c.store.log <+: log) (hc' : log <+: c'.store.log) :
    ∃ d, Reach code c d ∧ Reach code d c' ∧ d.store.log = log := by
  induction h with
  | refl => exact ⟨c, .refl, .refl, hc.eq_of_length_le hc'.length_le⟩
  | @tail c₁ c' h hstep ih =>
    have hearlier : log <+: c₁.store.log →
        ∃ d, Reach code c d ∧ Reach code d c' ∧ d.store.log = log := by
      intro hlog
      obtain ⟨d, hd, hd', heq⟩ := ih hlog
      exact ⟨d, hd, hd'.tail hstep, heq⟩
    rcases hstep.log with heq | ⟨e, heq⟩
    · exact hearlier (heq ▸ hc')
    · rw [heq, List.prefix_concat_iff] at hc'
      rcases hc' with hlast | hlog
      · exact ⟨c', h.tail hstep, .refl, heq.trans hlast.symm⟩
      · exact hearlier hlog

theorem step_set {s s' : Store Doc ε} {procs : List (Proc Doc ε τ)} {p p' : Proc Doc ε τ} {i : Nat}
    (hi : procs[i]? = some p) (h : Act code s p s' p' []) :
    Step code ⟨s, procs⟩ ⟨s', procs.set i p'⟩ := by
  obtain ⟨hlt, hget⟩ := List.getElem?_eq_some_iff.mp hi
  have hstep := Step.act (procs.take i) (procs.drop (i + 1)) h
  rw [← hget, ← List.drop_eq_getElem_cons hlt, List.take_append_drop, List.append_nil] at hstep
  rw [List.set_eq_take_append_cons_drop, if_pos hlt]
  exact hstep

section Exec

/-- One operation of the process, which goes on as `u` where it has the choice. -/
def exec (code : τ → Prog Doc ε τ Unit) (u : τ) (s : Store Doc ε) (p : Proc Doc ε τ) :
    Store Doc ε × Proc Doc ε τ × List (Proc Doc ε τ) :=
  match p.prog with
  | .pure _ => (s, p, [])
  | .create k d next => (s.create k d, ⟨p.task, next (!s.has k)⟩, [])
  | .read f next => (s, ⟨p.task, next (f s)⟩, [])
  | .note e next => (s.note e, ⟨p.task, next⟩, [])
  | .fork v next => (s, ⟨p.task, next⟩, [start code v])
  | .await f next => if f s then (s, ⟨p.task, next⟩, []) else (s, p, [])
  | .goto ts => if ts u then (s, start code u, []) else (s, p, [])

/-- The move of the process in place `i`. -/
def move (code : τ → Prog Doc ε τ Unit) (c : Pool Doc ε τ) (i : Nat × τ) : Pool Doc ε τ :=
  match c.procs.drop i.1 with
  | [] => c
  | p :: post =>
    let r := exec code i.2 c.store p
    ⟨r.1, c.procs.take i.1 ++ r.2.1 :: (post ++ r.2.2)⟩

theorem act_exec (code : τ → Prog Doc ε τ Unit) (u : τ) (s : Store Doc ε) (p : Proc Doc ε τ) :
    exec code u s p = (s, p, []) ∨
      Act code s p (exec code u s p).1 (exec code u s p).2.1 (exec code u s p).2.2 := by
  obtain ⟨t, prog⟩ := p
  cases prog with
  | pure a => exact .inl rfl
  | create k d next => exact .inr (.create s t k d next)
  | read f next => exact .inr (.read s t f next)
  | note e next => exact .inr (.note s t e next)
  | fork v next => exact .inr (.fork s t v next)
  | await f next =>
    by_cases h : f s = true
    · refine .inr ?_
      simp only [exec, h, if_true]
      exact .await s t f next h
    · exact .inl (by simp [exec, h])
  | goto ts =>
    by_cases h : ts u = true
    · refine .inr ?_
      simp only [exec, h, if_true]
      exact .goto s t u ts h
    · exact .inl (by simp [exec, h])

theorem reach_move (c : Pool Doc ε τ) (i : Nat × τ) : Reach code c (move code c i) := by
  rw [move]
  split
  · exact .refl
  · next p post hdrop =>
    have hprocs : c.procs = c.procs.take i.1 ++ p :: post := by
      rw [← hdrop, List.take_append_drop]
    rcases act_exec code i.2 c.store p with heq | hact
    · rw [heq]
      simp only [List.append_nil]
      rw [← hprocs]
    · have hstep := Step.act (c.procs.take i.1) post hact
      rw [← hprocs] at hstep
      exact .single hstep

def play (code : τ → Prog Doc ε τ Unit) (c : Pool Doc ε τ) (schedule : List (Nat × τ)) :
    Pool Doc ε τ :=
  schedule.foldl (move code) c

theorem reach_play (c : Pool Doc ε τ) (schedule : List (Nat × τ)) :
    Reach code c (play code c schedule) := by
  induction schedule generalizing c with
  | nil => exact .refl
  | cons i schedule ih => exact (reach_move c i).trans (ih (move code c i))

end Exec

end ThanksComputer.Lib.Process
