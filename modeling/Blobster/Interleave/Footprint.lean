import Blobster.Interleave.Contract

/-!
# What a program may call and return

Some facts about a system hold because none of its programs ever makes a certain call, whatever the
answers to the calls before were.  That is a property of the call tree alone, and it is proved along
the source functions without a look at the state.  So is what a program can return, once it is known
which answers its calls can get.

* `Prog.Within P p` — every call of `p` satisfies `P`.
* `Within.bind`, `Within.loop`, `Within.discard` — the rules for composing programs.
* **`Contract.Safe.of_within`** — if every call that satisfies `P` keeps the contract, a program
  within `P` is safe.
* `Prog.Yields A t Q last p` — if the thread `t`, whose step before was `last`, only gets answers that
  `A` allows, what `p` returns satisfies `Q`; `Yields.call`, `Yields.bind`, `Yields.loop`.
* **`Contract.Safe.of_yields`** — such a program is safe, and its result satisfies `Q` unless an answer
  was out of the ordinary.
-/

namespace Interleave

variable {S : Sig} {α β τ : Type} {P : S.Op → Prop}

namespace Prog

/-- Every call of the program, whatever the answers are, satisfies `P`. -/
def Within (P : S.Op → Prop) : Prog S α → Prop
  | .ret _ => True
  | .call o k => P o ∧ ∀ r, (k r).Within P

@[simp] lemma within_ret (a : α) : (Prog.ret a : Prog S α).Within P := trivial

@[simp] lemma within_perform {o : S.Op} : (perform o).Within P ↔ P o :=
  ⟨fun h => h.1, fun h => ⟨h, fun _ => trivial⟩⟩

lemma Within.bind {f : α → Prog S β} :
    ∀ {p : Prog S α}, p.Within P → (∀ a, (f a).Within P) → (p >>= f).Within P
  | .ret a, _, hf => hf a
  | .call _ _, h, hf => ⟨h.1, fun r => (h.2 r).bind hf⟩

/-- Every program stays within all calls. -/
lemma within_all (h : ∀ o, P o) : ∀ p : Prog S α, p.Within P
  | .ret _ => trivial
  | .call o k => ⟨h o, fun r => within_all h (k r)⟩

lemma Within.call {o : S.Op} {f : S.Res o → Prog S β} (h : P o) (hf : ∀ r, (f r).Within P) :
    (perform o >>= f).Within P :=
  ⟨h, hf⟩

lemma Within.discard {p : Prog S α} (h : p.Within P) :
    (Functor.discard p : Prog S Unit).Within P := by
  rw [discard_eq]
  exact h.bind fun _ => trivial

lemma Within.loop {stop : Prog S α} {body : τ → Prog S (τ ⊕ α)} (hstop : stop.Within P)
    (hbody : ∀ s, (body s).Within P) : ∀ (n : ℕ) (s : τ), (Prog.loop stop body n s).Within P
  | 0, _ => hstop
  | n + 1, s => (hbody s).bind fun r => by
      cases r with
      | inl s' => exact Within.loop hstop hbody n s'
      | inr a => trivial

/-- The result satisfies `Q` if every answer is one that `A` allows after the thread's step before. -/
def Yields {ι : Type} (A : Option (Event S ι) → (o : S.Op) → S.Res o → Prop) (t : ι) (Q : α → Prop) :
    Option (Event S ι) → Prog S α → Prop
  | _, .ret a => Q a
  | last, .call o k => ∀ r, A last o r → (k r).Yields A t Q (some (.call t o r))

section Yields

variable {ι : Type} {A A' : Option (Event S ι) → (o : S.Op) → S.Res o → Prop} {t : ι}
  {Q Q' : α → Prop} {R : β → Prop}

lemma Yields.mono (hQ : ∀ a, Q a → Q' a) :
    ∀ {p : Prog S α} {last : Option (Event S ι)}, p.Yields A t Q last → p.Yields A t Q' last
  | .ret a, _, h => hQ a h
  | .call _ _, _, h => fun r hr => (h r hr).mono hQ

/-- Fewer answers to reckon with. -/
lemma Yields.restrict (hA : ∀ last o r, A' last o r → A last o r) :
    ∀ {p : Prog S α} {last : Option (Event S ι)}, p.Yields A t Q last → p.Yields A' t Q last
  | .ret _, _, h => h
  | .call o _, last, h => fun r hr => (h r (hA last o r hr)).restrict hA

lemma Yields.bind {f : α → Prog S β} :
    ∀ {p : Prog S α} {last : Option (Event S ι)}, p.Yields A t Q last →
      (∀ a, Q a → ∀ last, (f a).Yields A t R last) → (p >>= f).Yields A t R last
  | .ret a, last, h, hf => hf a h last
  | .call _ _, _, h, hf => fun r hr => (h r hr).bind hf

lemma Yields.call {o : S.Op} {f : S.Res o → Prog S β} {last : Option (Event S ι)}
    (h : ∀ r, A last o r → (f r).Yields A t R (some (.call t o r))) :
    (perform o >>= f).Yields A t R last :=
  h

lemma Yields.loop {stop : Prog S α} {body : τ → Prog S (τ ⊕ α)}
    (hstop : ∀ last, stop.Yields A t Q last)
    (hbody : ∀ s last, (body s).Yields A t (fun r => ∀ a, r = .inr a → Q a) last) (n : ℕ) (s : τ)
    (last : Option (Event S ι)) : (Prog.loop stop body n s).Yields A t Q last := by
  induction n generalizing s last with
  | zero => exact hstop last
  | succ n ih =>
      refine (hbody s last).bind fun r hr last => ?_
      cases r with
      | inl s' => exact ih s' last
      | inr a => exact hr a rfl

end Yields

end Prog

/-- **Safety from the calls alone.**  If every call that satisfies `P` keeps the contract and the
fact `F`, a program all of whose calls satisfy `P` is safe and keeps `F`. -/
lemma Contract.Safe.of_within {σ ι : Type} {M : Machine S σ ι} {C : Contract M} {t : ι}
    {F : View S σ ι → Prop} (hint : ∀ {v v'}, C.Interf t v v' → F v → F v')
    (hstep : ∀ o, P o → ∀ v ch r w, C.inv v → F v → M.exec t o ch v.world = some (r, w) →
      C.adm v (.call t o r) → C.guar t v (v.push (.call t o r) w) ∧
        C.inv (v.push (.call t o r) w) ∧ F (v.push (.call t o r) w)) :
    ∀ {p : Prog S α} {v : View S σ ι}, p.Within P → F v → C.Safe t (fun _ => F) p v
  | .ret _, _, _, hv => fun _ hr _ => hr.stable hint hv
  | .call o _, _, h, hv => fun v' hr hi ch r w he ha =>
      let ⟨hg, hi', hv'⟩ := hstep o h.1 v' ch r w hi (hr.stable hint hv) he ha
      ⟨hg, hi', Contract.Safe.of_within hint hstep (h.2 r) hv'⟩

/-- Between two steps of a thread, its latest step stays the same. -/
lemma Contract.Rely.lastOf {σ ι : Type} [DecidableEq ι] {M : Machine S σ ι} {C : Contract M} {t : ι}
    {v v' : View S σ ι} (h : C.Rely t v v') : v'.lastOf t = v.lastOf t := by
  refine h.stable (P := fun v' => v'.lastOf t = v.lastOf t) ?_ rfl
  rintro v₁ v₂ ⟨-, -, ⟨-, w, -, -, rfl⟩ | ⟨u, hu, ⟨e, w, he, rfl⟩, -⟩⟩ hv
  · rw [View.lastOf_push_of_ne (by simp [Event.thread]), hv]
  · rw [View.lastOf_push_of_ne (by simpa [he] using hu), hv]

/-- **What a program returns, from the answers alone.**  Every call that satisfies `P` keeps the
contract, and gets an answer that `A` allows unless from then on `F` holds.  Then a program within `P`
is safe, and what it returns is what it yields, or `F` holds. -/
lemma Contract.Safe.of_yields {σ ι : Type} [DecidableEq ι] {M : Machine S σ ι} {C : Contract M} {t : ι}
    {A : Option (Event S ι) → (o : S.Op) → S.Res o → Prop} {F : View S σ ι → Prop} {Q : α → Prop}
    (hF : ∀ {v v'}, View.Le v v' → F v → F v')
    (hstep : ∀ o, P o → ∀ v ch r w, C.inv v → M.exec t o ch v.world = some (r, w) →
      C.adm v (.call t o r) → C.guar t v (v.push (.call t o r) w) ∧ C.inv (v.push (.call t o r) w) ∧
        (A (v.lastOf t) o r ∨ F (v.push (.call t o r) w)))
    {p : Prog S α} {v : View S σ ι} (hp : p.Within P) (hy : F v ∨ p.Yields A t Q (v.lastOf t)) :
    C.Safe t (fun a v => F v ∨ Q a) p v := by
  induction p generalizing v with
  | ret a =>
      refine .ret fun v' hr _ => hy.imp (hF hr.le) id
  | call o k ih =>
      intro v₁ hr hi ch r w he ha
      obtain ⟨hguar, hinv, hans⟩ := hstep o hp.1 v₁ ch r w hi he ha
      refine ⟨hguar, hinv, ih r (hp.2 r) ?_⟩
      rcases hy with hf | hy
      · exact .inl (hF (hr.le.trans (v₁.le_push _ _)) hf)
      · rcases hans with hans | hf
        · rw [View.lastOf_push_self rfl]
          rw [← hr.lastOf] at hy
          exact .inr (hy r hans)
        · exact .inl hf

end Interleave
