import Mathlib.Data.Nat.Notation
import Mathlib.Tactic.Basic

/-!
# Programs over atomic calls

A thread of an interleaving system is a tree of calls: it names one atomic operation, waits for
the answer, and continues with a tree that depends on it.  Everything between two calls is local
computation, so a scheduler that picks one call at a time sees every interleaving there is.

* `Sig` — what can be called: operations with their result types, and the entry points (`Start`)
  a thread can be asked to run.
* `Prog` — the call trees, with their monad structure, so that a source function is written as a
  `do` block with one line per call.
* `Prog.loop` — an unbounded loop, unrolled `fuel` times and then parked on `stop`.  A run is
  finite, so every run of the real loop is a run of a deep enough unrolling, and a parked thread
  does nothing a paused one would not do.
* `Prog.handle` — a program over a lower layer: each call replaced by a program that carries it out.
* `Prog.eval` — a program run alone, in a world that does not change.
-/

namespace Interleave

/-- The calls a program can make, what each of them answers, and the entry points of a thread. -/
structure Sig where
  Op : Type
  Res : Op → Type
  Start : Type

/-- A program: a result, or a call and what to do with its answer. -/
inductive Prog (S : Sig) (α : Type) : Type where
  | ret (a : α) : Prog S α
  | call (o : S.Op) (k : S.Res o → Prog S α) : Prog S α

namespace Prog

variable {S : Sig} {α β τ : Type}

/-- Run `p`, then continue with its result. -/
def bind : Prog S α → (α → Prog S β) → Prog S β
  | .ret a, f => f a
  | .call o k, f => .call o fun r => (k r).bind f

instance : Monad (Prog S) where
  pure := Prog.ret
  bind := Prog.bind

/-- A single call. -/
def perform (o : S.Op) : Prog S (S.Res o) := .call o .ret

@[simp] lemma pure_eq (a : α) : (pure a : Prog S α) = .ret a := rfl

@[simp] lemma ret_bind (a : α) (f : α → Prog S β) : (Prog.ret a >>= f) = f a := rfl

@[simp] lemma call_bind (o : S.Op) (k : S.Res o → Prog S α) (f : α → Prog S β) :
    (Prog.call o k >>= f) = .call o fun r => k r >>= f := rfl

@[simp] lemma perform_bind (o : S.Op) (f : S.Res o → Prog S β) :
    (perform o >>= f) = .call o f := rfl

@[simp] lemma discard_eq (p : Prog S α) : discard p = p >>= fun _ => .ret () := rfl

/-- `for { … }` with the loop variables `s`: `body` answers `inl` to go round again and `inr` to
leave the loop.  After `fuel` rounds the thread is parked on `stop`. -/
def loop (stop : Prog S α) (body : τ → Prog S (τ ⊕ α)) : ℕ → τ → Prog S α
  | 0, _ => stop
  | n + 1, s => do
      match ← body s with
      | .inl s' => loop stop body n s'
      | .inr a => pure a

/-- Carry out every call of the program by a program over other calls. -/
def handle {S' : Sig} (h : (o : S.Op) → Prog S' (S.Res o)) : Prog S α → Prog S' α
  | .ret a => .ret a
  | .call o k => (h o).bind fun r => (k r).handle h

lemma bind_assoc {γ : Type} (f : α → Prog S β) (g : β → Prog S γ) :
    ∀ p : Prog S α, p >>= f >>= g = p >>= fun a => f a >>= g
  | .ret _ => rfl
  | .call o k => congrArg (Prog.call o) (funext fun r => bind_assoc f g (k r))

lemma handle_bind {S' : Sig} (h : (o : S.Op) → Prog S' (S.Res o)) (f : α → Prog S β) :
    ∀ p : Prog S α, (p >>= f).handle h = p.handle h >>= fun a => (f a).handle h
  | .ret _ => rfl
  | .call o k => by
      refine Eq.trans ?_ (bind_assoc _ _ (h o)).symm
      exact congrArg _ (funext fun r => handle_bind h f (k r))

/-- Run the program alone, against answers that do not change; `none` if a call has no answer. -/
def eval (answer : (o : S.Op) → Option (S.Res o)) : Prog S α → Option α
  | .ret a => some a
  | .call o k => (answer o).bind fun r => (k r).eval answer

lemma eval_bind (answer : (o : S.Op) → Option (S.Res o)) (f : α → Prog S β) :
    ∀ p : Prog S α, (p >>= f).eval answer = (p.eval answer).bind fun a => (f a).eval answer
  | .ret _ => rfl
  | .call o k => by
      rw [call_bind, eval, eval, Option.bind_assoc]
      exact congrArg _ (funext fun r => eval_bind answer f (k r))

lemma eval_loop_succ (answer : (o : S.Op) → Option (S.Res o)) (stop : Prog S α)
    (body : τ → Prog S (τ ⊕ α)) (n : ℕ) (s : τ) :
    (loop stop body (n + 1) s).eval answer = ((body s).eval answer).bind fun r => match r with
      | .inl s' => (loop stop body n s').eval answer
      | .inr a => some a := by
  rw [loop, eval_bind]
  exact congrArg _ (funext fun r => by cases r <;> rfl)

end Prog

end Interleave
