import Blobster.Interleave.Program

/-!
# A program that runs alone

Runs of one program on a state that nothing else touches.  A call is executed under a choice that
resolves its nondeterminism, and may have no answer under some of them.

* `Prog.play` — the run under a stream of choices, one for each call.
* `Prog.Ensures` — total correctness: whatever the choices, every call has an answer and the program
  ends with a result and a state in `Q`.  The rules follow the ways of composing programs:
  **`ensures_bind`**, **`Ensures.mono`**, and **`Ensures.loop`** for a loop with a variant.  There is
  a run (`Ensures.exists_run`), so that what every run ensures is not vacuous.
-/

namespace Interleave

variable {S : Sig} {σ χ α β τ : Type}

/-- What a call does under a choice. -/
abbrev Exec (S : Sig) (σ χ : Type) := (o : S.Op) → χ → σ → Option (S.Res o × σ)

namespace Prog

/-- The run in which the calls go as the stream says, with what is left of the stream; `none` if one of
them has no answer. -/
def play (X : Exec S σ χ) : Prog S α → (ℕ → χ) → σ → Option (α × σ × (ℕ → χ))
  | .ret a, ch, s => some (a, s, ch)
  | .call o k, ch, s => (X o (ch 0) s).bind fun r => (k r.1).play X (fun i => ch (i + 1)) r.2

/-- Whatever the choices, the program ends, with a result and a state in `Q`. -/
def Ensures (X : Exec S σ χ) (Q : α → σ → Prop) : Prog S α → σ → Prop
  | .ret a, s => Q a s
  | .call o k, s => (∃ x r, X o x s = some r) ∧
      ∀ x r s', X o x s = some (r, s') → (k r).Ensures X Q s'

section Rules

variable {X : Exec S σ χ} {Q Q' : α → σ → Prop} {s : σ}

@[simp] lemma ensures_ret {a : α} : (Prog.ret a : Prog S α).Ensures X Q s ↔ Q a s := Iff.rfl

lemma ensures_call {o : S.Op} {k : S.Res o → Prog S α} :
    (Prog.call o k).Ensures X Q s ↔ (∃ x r, X o x s = some r) ∧
      ∀ x r s', X o x s = some (r, s') → (k r).Ensures X Q s' :=
  Iff.rfl

lemma Ensures.mono {p : Prog S α} (h : p.Ensures X Q s) (hQ : ∀ a s', Q a s' → Q' a s') :
    p.Ensures X Q' s := by
  induction p generalizing s with
  | ret a => exact hQ a s h
  | call o k ih => exact ⟨h.1, fun x r s' hx => ih r (h.2 x r s' hx)⟩

lemma Ensures.and {p : Prog S α} (h : p.Ensures X Q s) (h' : p.Ensures X Q' s) :
    p.Ensures X (fun a s' => Q a s' ∧ Q' a s') s := by
  induction p generalizing s with
  | ret a => exact ⟨h, h'⟩
  | call o k ih => exact ⟨h.1, fun x r s' hx => ih r (h.2 x r s' hx) (h'.2 x r s' hx)⟩

/-- There is a run. -/
lemma Ensures.exists_run {p : Prog S α} (h : p.Ensures X Q s) : ∃ a s', Q a s' := by
  induction p generalizing s with
  | ret a => exact ⟨a, s, h⟩
  | call o k ih =>
      obtain ⟨x, ⟨r, s'⟩, hx⟩ := h.1
      exact ih r (h.2 x r s' hx)

lemma ensures_bind {p : Prog S α} {f : α → Prog S β} {Q : β → σ → Prop} :
    (p >>= f).Ensures X Q s ↔ p.Ensures X (fun a s' => (f a).Ensures X Q s') s := by
  induction p generalizing s with
  | ret a => rw [ret_bind, ensures_ret]
  | call o k ih =>
      rw [call_bind, ensures_call, ensures_call]
      exact and_congr_right fun _ => forall_congr' fun x => forall_congr' fun r =>
        forall_congr' fun s' => imp_congr_right fun _ => ih r

/-- A program after another, when the first is known. -/
lemma Ensures.bind {p : Prog S α} {f : α → Prog S β} {Q' : β → σ → Prop} (h : p.Ensures X Q s)
    (hf : ∀ a s', Q a s' → (f a).Ensures X Q' s') : (p >>= f).Ensures X Q' s :=
  ensures_bind.mpr (h.mono hf)

/-- **A loop with a variant**: a round that goes on makes it smaller, so that as many rounds are
enough as it says. -/
theorem Ensures.loop {stop : Prog S α} {body : τ → Prog S (τ ⊕ α)} (I : ℕ → τ → σ → Prop)
    (hbody : ∀ n v s, I n v s → (body v).Ensures X (fun r s' => match r with
      | .inl v' => ∃ m < n, I m v' s'
      | .inr a => Q a s') s)
    {n fuel : ℕ} {v : τ} (hfuel : n < fuel) (h : I n v s) :
    (Prog.loop stop body fuel v).Ensures X Q s := by
  induction fuel generalizing n v s with
  | zero => exact absurd hfuel (Nat.not_lt_zero n)
  | succ fuel ih =>
      rw [Prog.loop]
      refine (hbody n v s h).bind fun r s' hr => ?_
      cases r with
      | inl v' =>
          obtain ⟨m, hm, hI⟩ := hr
          exact ih (Nat.lt_of_lt_of_le hm (Nat.le_of_lt_succ hfuel)) hI
      | inr a => exact hr

lemma play_bind (p : Prog S α) (f : α → Prog S β) (ch : ℕ → χ) (s : σ) :
    (p >>= f).play X ch s = (p.play X ch s).bind fun r => (f r.1).play X r.2.2 r.2.1 := by
  induction p generalizing s ch with
  | ret a => rfl
  | call o k ih =>
      rw [call_bind, play, play, Option.bind_assoc]
      exact congrArg _ (funext fun r => ih r.1 _ r.2)

/-- A run under particular choices. -/
lemma Ensures.play {p : Prog S α} (h : p.Ensures X Q s) {ch ch' : ℕ → χ} {a : α} {s' : σ}
    (hp : p.play X ch s = some (a, s', ch')) : Q a s' := by
  induction p generalizing s ch with
  | ret b =>
      cases hp
      exact h
  | call o k ih =>
      obtain ⟨⟨r, s₁⟩, hx, hr⟩ := Option.bind_eq_some_iff.mp hp
      exact ih r (h.2 _ r s₁ hx) hr

end Rules

end Prog

end Interleave
