import Blobster.Interleave.Footprint

/-!
# Sequential runs in which calls fail and the process stops

A program that runs alone on a device: each of its calls takes effect, or fails without effect, or
is never made because the process stops before it.

* `Device` — what a call does, and what it answers when it fails.
* `Prog.exec` — the run in which nothing goes wrong; `Prog.attempt` — the run with a list of fates.
* `Robust` — whatever happens, a run that stops leaves a state in `C`, and one that returns leaves
  its result and state in `Q`.  The rules are equivalences, so they serve to establish the property
  and to read off what it says of one particular branch: **`robust_call`**, **`robust_bind`**,
  **`Robust.exec`**.
* **`Prog.Within.exec_simulates`** — two devices that answer alike to the calls of a program, in states
  that correspond, run it alike.
-/

namespace Interleave

variable {S : Sig} {σ α β : Type}

/-- What the calls do to a state. -/
structure Device (S : Sig) (σ : Type) where
  apply : σ → (o : S.Op) → S.Res o × σ
  refuse : (o : S.Op) → S.Res o

/-- How one call of a run goes. -/
inductive Fate where
  | ok | fail | stop
deriving DecidableEq, Repr

namespace Prog

variable (D : Device S σ)

/-- The run in which every call takes effect. -/
def exec : Prog S α → σ → α × σ
  | .ret a, s => (a, s)
  | .call o k, s => (k (D.apply s o).1).exec (D.apply s o).2

/-- The run with the given fates; calls beyond the list take effect.  `none` says that the process
stopped. -/
def attempt : Prog S α → σ → List Fate → Option α × σ
  | .ret a, s, _ => (some a, s)
  | .call o k, s, [] => (k (D.apply s o).1).attempt (D.apply s o).2 []
  | .call o k, s, .ok :: fates => (k (D.apply s o).1).attempt (D.apply s o).2 fates
  | .call o k, s, .fail :: fates => (k (D.refuse o)).attempt s fates
  | .call _ _, s, .stop :: _ => (none, s)

lemma attempt_nil (p : Prog S α) (s : σ) : p.attempt D s [] = (some (p.exec D s).1, (p.exec D s).2) := by
  induction p generalizing s with
  | ret a => rfl
  | call o k ih => exact ih _ _

@[simp] lemma exec_ret (a : α) (s : σ) : (Prog.ret a : Prog S α).exec D s = (a, s) := rfl

@[simp] lemma exec_call (o : S.Op) (k : S.Res o → Prog S α) (s : σ) :
    (Prog.call o k).exec D s = (k (D.apply s o).1).exec D (D.apply s o).2 := rfl

@[simp] lemma exec_bind (p : Prog S α) (f : α → Prog S β) (s : σ) :
    (p >>= f).exec D s = (f (p.exec D s).1).exec D (p.exec D s).2 := by
  induction p generalizing s with
  | ret a => rfl
  | call o k ih => exact ih _ _

/-- Two devices whose answers to the allowed calls agree, and which keep the correspondence of their
states, run a program within these calls alike. -/
theorem Within.exec_simulates {σ' : Type} {P : S.Op → Prop} {R : σ → σ' → Prop} {D' : Device S σ'}
    (hstep : ∀ s s' o, R s s' → P o → (D'.apply s' o).1 = (D.apply s o).1 ∧
      R (D.apply s o).2 (D'.apply s' o).2) :
    ∀ {p : Prog S α}, p.Within P → ∀ {s s'}, R s s' →
      (p.exec D' s').1 = (p.exec D s).1 ∧ R (p.exec D s).2 (p.exec D' s').2
  | .ret _, _, _, _, hR => ⟨rfl, hR⟩
  | .call o k, h, s, s', hR => by
      obtain ⟨hanswer, hnext⟩ := hstep s s' o hR h.1
      rw [exec_call, exec_call, hanswer]
      exact (h.2 _).exec_simulates hstep hnext

end Prog

/-- Whatever the fates: a run that stops leaves a state in `C`, one that returns leaves its result
and state in `Q`. -/
def Robust (D : Device S σ) (C : σ → Prop) (Q : α → σ → Prop) (p : Prog S α) (s : σ) : Prop :=
  ∀ fates, match p.attempt D s fates with
    | (some a, s') => Q a s'
    | (none, s') => C s'

section Rules

variable {D : Device S σ} {C C' : σ → Prop} {Q : α → σ → Prop} {s : σ}

@[simp] lemma robust_ret {a : α} : Robust D C Q (.ret a) s ↔ Q a s :=
  ⟨fun h => h [], fun h _ => h⟩

lemma robust_call {o : S.Op} {k : S.Res o → Prog S α} :
    Robust D C Q (.call o k) s ↔
      C s ∧ Robust D C Q (k (D.refuse o)) s ∧
        Robust D C Q (k (D.apply s o).1) (D.apply s o).2 := by
  constructor
  · intro h
    exact ⟨h [.stop], fun fates => h (.fail :: fates), fun fates => h (.ok :: fates)⟩
  · rintro ⟨hstop, hfail, hok⟩ fates
    match fates with
    | [] => exact hok []
    | .ok :: fates => exact hok fates
    | .fail :: fates => exact hfail fates
    | .stop :: fates => exact hstop

lemma robust_perform {o : S.Op} {Q : S.Res o → σ → Prop} :
    Robust D C Q (Prog.perform o) s ↔
      C s ∧ Q (D.refuse o) s ∧ Q (D.apply s o).1 (D.apply s o).2 := by
  rw [Prog.perform, robust_call, robust_ret, robust_ret]

lemma robust_bind {p : Prog S α} {f : α → Prog S β} {Q : β → σ → Prop} :
    Robust D C Q (p >>= f) s ↔ Robust D C (fun a s' => Robust D C Q (f a) s') p s := by
  induction p generalizing s with
  | ret a => rw [Prog.ret_bind, robust_ret]
  | call o k ih => rw [Prog.call_bind, robust_call, robust_call, ih, ih]

/-- The run in which nothing goes wrong is one of the runs. -/
lemma Robust.exec {p : Prog S α} (h : Robust D C Q p s) : Q (p.exec D s).1 (p.exec D s).2 := by
  have hnil := h []
  rwa [Prog.attempt_nil] at hnil

lemma Robust.mono {p : Prog S α} {Q' : α → σ → Prop} (h : Robust D C Q p s)
    (hC : ∀ s, C s → C' s) (hQ : ∀ a s, Q a s → Q' a s) : Robust D C' Q' p s := by
  intro fates
  have hrun := h fates
  revert hrun
  generalize p.attempt D s fates = out
  rcases out with ⟨_ | a, s'⟩
  · exact hC s'
  · exact hQ a s'

/-- A program after another, when the first is known. -/
lemma Robust.bind {p : Prog S α} {f : α → Prog S β} {Q' : β → σ → Prop} (h : Robust D C Q p s)
    (hf : ∀ a s', Q a s' → Robust D C Q' (f a) s') : Robust D C Q' (p >>= f) s :=
  robust_bind.mpr (h.mono (fun _ => id) hf)

end Rules

end Interleave
