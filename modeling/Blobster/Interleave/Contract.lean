import Blobster.Interleave.Machine

/-!
# Rely and guarantee

The proof rule for interleaving machines.  A `Contract` says what every state satisfies (`inv`),
what each thread promises about its own steps (`guar`), and what holds of a thread between two
programs (`idle`).  What a thread may rely on is then not a separate choice: it is any sequence of
environment moves and promised steps of the *other* threads (`Contract.rely`).

`Contract.Safe t Q p v` is the weakest precondition of the program `p` run by thread `t` from the
view `v`: however the others interfere before each call, the call keeps the thread's promise and
the invariant, and the program ends in `Q`.  It is defined by recursion on the program, so proving
it for a source function is a symbolic execution of that function, one call at a time, with the
interference made explicit between the calls.

* `Safe.bind`, `Safe.loop`, `Safe.frame`, `Safe.mono`, `Safe.rely` — the rules for composing
  programs.
* `Contract.Sound` — the obligations: initial state, environment, stability of `idle`, and one
  `Safe` proof per entry point.
* **`Contract.Sound.reach`** — under them, every reachable configuration satisfies the invariant
  and every thread is safe; **`Contract.Sound.step_guar`** — every thread step out of a reachable
  configuration keeps that thread's promise, and **`Contract.Sound.steps`** — so did every step that
  led there.
-/

namespace Interleave

variable {S : Sig} {σ ι : Type}

/-- The specification of a machine's threads. -/
structure Contract (M : Machine S σ ι) where
  adm : View S σ ι → Event S ι → Prop
  inv : View S σ ι → Prop
  guar : ι → View S σ ι → View S σ ι → Prop
  idle : ι → View S σ ι → Prop

namespace Contract

variable {M : Machine S σ ι} (C : Contract M)

/-- A move of the environment. -/
def EnvStep (v v' : View S σ ι) : Prop :=
  ∃ e w, M.env e v.world = some w ∧ C.adm v .env ∧ v' = v.push .env w

/-- A step of the thread `u` that keeps its promise. -/
def ThreadStep (u : ι) (v v' : View S σ ι) : Prop :=
  (∃ e w, e.thread = some u ∧ v' = v.push e w) ∧ C.guar u v v'

/-- One step of anyone but `t`. -/
def Interf (t : ι) (v v' : View S σ ι) : Prop :=
  C.inv v ∧ C.inv v' ∧ (C.EnvStep v v' ∨ ∃ u, u ≠ t ∧ C.ThreadStep u v v')

/-- What can happen between two calls of `t`. -/
def Rely (t : ι) : View S σ ι → View S σ ι → Prop := Relation.ReflTransGen (C.Interf t)

/-- A reflexive and transitive relation that every interfering step satisfies holds across any
interference. -/
lemma Rely.of_step {C : Contract M} {t : ι} {R : View S σ ι → View S σ ι → Prop}
    (hrefl : ∀ v, R v v) (htrans : ∀ {a b c}, R a b → R b c → R a c)
    (hstep : ∀ {v v'}, C.Interf t v v' → R v v') {v v' : View S σ ι} (h : C.Rely t v v') :
    R v v' := by
  induction h with
  | refl => exact hrefl v
  | tail _ hs ih => exact htrans ih (hstep hs)

/-- A property that every interfering step keeps survives any interference. -/
lemma Rely.stable {C : Contract M} {t : ι} {P : View S σ ι → Prop}
    (hstep : ∀ {v v'}, C.Interf t v v' → P v → P v') {v v' : View S σ ι} (h : C.Rely t v v')
    (hv : P v) : P v' := by
  induction h with
  | refl => exact hv
  | tail _ hs ih => exact hstep hs ih

/-- A step of anyone adds one event to the history. -/
lemma Interf.push {C : Contract M} {t : ι} {v v' : View S σ ι} (h : C.Interf t v v') :
    ∃ e w, v' = v.push e w := by
  obtain ⟨-, -, ⟨e, w, -, -, hv⟩ | ⟨u, -, ⟨e, w, -, hv⟩, -⟩⟩ := h
  · exact ⟨_, w, hv⟩
  · exact ⟨e, w, hv⟩

/-- Nothing that has happened is undone. -/
lemma Rely.le {C : Contract M} {t : ι} {v v' : View S σ ι} (h : C.Rely t v v') : v.Le v' := by
  refine h.of_step (R := View.Le) View.Le.refl View.Le.trans fun hs => ?_
  obtain ⟨e, w, rfl⟩ := hs.push
  exact View.le_push _ _ _

/-- The history only grows. -/
lemma Rely.length_le {C : Contract M} {t : ι} {v v' : View S σ ι} (h : C.Rely t v v') :
    v.hist.length ≤ v'.hist.length := by
  refine h.of_step (R := fun v v' => v.hist.length ≤ v'.hist.length) (fun _ => Nat.le_refl _)
    Nat.le_trans fun hs => ?_
  obtain ⟨e, w, rfl⟩ := hs.push
  exact Nat.le_succ _

/-- The weakest precondition of a program under interference. -/
def Safe (t : ι) {α : Type} (Q : α → View S σ ι → Prop) : Prog S α → View S σ ι → Prop
  | .ret a, v => ∀ v', C.Rely t v v' → C.inv v' → Q a v'
  | .call o k, v => ∀ v', C.Rely t v v' → C.inv v' →
      ∀ ch r w, M.exec t o ch v'.world = some (r, w) → C.adm v' (.call t o r) →
        C.guar t v' (v'.push (.call t o r) w) ∧ C.inv (v'.push (.call t o r) w) ∧
          Safe t Q (k r) (v'.push (.call t o r) w)

variable {C} {t : ι} {α β τ : Type}

/-- Interference that has already happened costs nothing. -/
lemma Safe.rely {Q : α → View S σ ι → Prop} {p : Prog S α} {v v' : View S σ ι}
    (h : C.Safe t Q p v) (hr : C.Rely t v v') : C.Safe t Q p v' := by
  cases p with
  | ret a => exact fun v'' hr' => h v'' (hr.trans hr')
  | call o k => exact fun v'' hr' => h v'' (hr.trans hr')

/-- A weaker postcondition. -/
lemma Safe.mono {Q Q' : α → View S σ ι → Prop} (hQ : ∀ a v, C.inv v → Q a v → Q' a v) :
    ∀ {p : Prog S α} {v : View S σ ι}, C.Safe t Q p v → C.Safe t Q' p v
  | .ret a, _, h => fun v' hr hi => hQ a v' hi (h v' hr hi)
  | .call _ _, _, h => fun v' hr hi ch r w he ha =>
      let ⟨hg, hi', hs⟩ := h v' hr hi ch r w he ha
      ⟨hg, hi', hs.mono hQ⟩

/-- A finished program, when its postcondition survives interference. -/
lemma Safe.ret {Q : α → View S σ ι → Prop} {a : α} {v : View S σ ι}
    (h : ∀ v', C.Rely t v v' → C.inv v' → Q a v') : C.Safe t Q (.ret a) v := h

/-- Sequential composition. -/
lemma Safe.bind {Q : α → View S σ ι → Prop} {Q' : β → View S σ ι → Prop}
    {f : α → Prog S β} :
    ∀ {p : Prog S α} {v : View S σ ι}, C.inv v → C.Safe t Q p v →
      (∀ a v', C.inv v' → Q a v' → C.Safe t Q' (f a) v') → C.Safe t Q' (p >>= f) v
  | .ret a, v, hi, h, hf => hf a v hi (h v .refl hi)
  | .call _ k, _, _, h, hf => fun v' hr hi' ch r w he ha =>
      let ⟨hg, hi'', hs⟩ := h v' hr hi' ch r w he ha
      ⟨hg, hi'', Safe.bind (p := k r) hi'' hs hf⟩

/-- **The frame rule.**  What neither the others nor the thread itself can break still holds at the
end. -/
lemma Safe.frame {Q : α → View S σ ι → Prop} {P : View S σ ι → Prop}
    (hint : ∀ {v v'}, C.Interf t v v' → P v → P v')
    (hown : ∀ {v v'}, C.ThreadStep t v v' → P v → P v') :
    ∀ {p : Prog S α} {v : View S σ ι}, C.Safe t Q p v → P v →
      C.Safe t (fun a v => Q a v ∧ P v) p v
  | .ret _, _, h, hv => fun v' hr hi => ⟨h v' hr hi, hr.stable hint hv⟩
  | .call _ _, _, h, hv => fun v' hr hi ch r w he ha =>
      let ⟨hg, hi', hs⟩ := h v' hr hi ch r w he ha
      ⟨hg, hi', hs.frame hint hown (hown ⟨⟨_, _, rfl, rfl⟩, hg⟩ (hr.stable hint hv))⟩

/-- What has once become true stays true. -/
lemma Safe.grow {Q : α → View S σ ι → Prop} {P : View S σ ι → Prop}
    (hP : ∀ {v v'}, View.Le v v' → P v → P v') {p : Prog S α} {v : View S σ ι}
    (h : C.Safe t Q p v) (hv : P v) : C.Safe t (fun a v => Q a v ∧ P v) p v := by
  refine h.frame (fun hs => ?_) (fun hs => ?_) hv
  · obtain ⟨e, w, rfl⟩ := hs.push
    exact hP (View.le_push _ _ _)
  · obtain ⟨⟨e, w, -, rfl⟩, -⟩ := hs
    exact hP (View.le_push _ _ _)

/-- A program whose result is dropped. -/
lemma Safe.discard {P : View S σ ι → Prop} {p : Prog S α} {v : View S σ ι} (hi : C.inv v)
    (hP : ∀ {v v'}, C.Interf t v v' → P v → P v') (h : C.Safe t (fun _ => P) p v) :
    C.Safe t (fun _ => P) (Functor.discard p : Prog S Unit) v := by
  rw [Prog.discard_eq]
  exact Safe.bind hi h fun _ _ _ hv => .ret fun _ hr _ => hr.stable hP hv

/-- **The loop rule.**  A loop invariant `I` that survives interference, is kept by every round
that goes on, and gives the postcondition on every round that leaves. -/
lemma Safe.loop {Q : α → View S σ ι → Prop} {stop : Prog S α} {body : τ → Prog S (τ ⊕ α)}
    {I : τ → View S σ ι → Prop} (hstop : ∀ v, C.Safe t Q stop v)
    (hbody : ∀ s v, C.inv v → I s v →
      C.Safe t (fun r v' => match r with | .inl s' => I s' v' | .inr a => Q a v') (body s) v)
    (hQ : ∀ a v, C.inv v → Q a v → C.Safe t Q (.ret a) v) :
    ∀ (n : ℕ) (s : τ) (v : View S σ ι), C.inv v → I s v → C.Safe t Q (Prog.loop stop body n s) v
  | 0, _, v, _, _ => hstop v
  | n + 1, s, v, hi, hI => by
      refine Safe.bind hi (hbody s v hi hI) ?_
      rintro (s' | a) v' hi' h
      · exact Safe.loop hstop hbody hQ n s' v' hi' h
      · exact hQ a v' hi' h

variable (C)

/-- The obligations of a contract. -/
structure Sound (w₀ : σ) : Prop where
  init : C.inv ⟨w₀, []⟩ ∧ ∀ t, C.idle t ⟨w₀, []⟩
  env : ∀ v v', C.inv v → C.EnvStep v v' → C.inv v'
  stable : ∀ t v v', C.Interf t v v' → C.idle t v → C.idle t v'
  start : ∀ t s v p w, C.inv v → C.idle t v → C.adm v (.start t s) →
    M.start t s v.world = some (p, w) →
    C.guar t v (v.push (.start t s) w) ∧ C.inv (v.push (.start t s) w) ∧
      C.Safe t (fun _ => C.idle t) p (v.push (.start t s) w)

variable {C} [DecidableEq ι]

/-- The invariant, and the safety of every thread's remaining program. -/
def AllSafe (C : Contract M) (c : Config S σ ι) : Prop :=
  C.inv c.view ∧ ∀ t, C.Safe t (fun _ => C.idle t) (c.prog t) c.view

/-- What one step out of a safe configuration does: the environment moves, or a thread keeps its
promise; either way the next configuration is safe. -/
lemma Sound.step {w₀ : σ} (h : C.Sound w₀) {c c' : Config S σ ι} {e : Event S ι}
    (hc : C.AllSafe c) (hs : Step M c e c') (ha : C.adm c.view e) :
    C.AllSafe c' ∧
      (C.EnvStep c.view c'.view ∨ ∃ t, e.thread = some t ∧ C.ThreadStep t c.view c'.view) := by
  obtain ⟨hi, hsafe⟩ := hc
  cases hs with
  | @env e w he =>
      have hstep : C.EnvStep c.view (c.view.push .env w) := ⟨e, w, he, ha, rfl⟩
      have hi' := h.env _ _ hi hstep
      refine ⟨⟨hi', fun t => ?_⟩, .inl hstep⟩
      exact (hsafe t).rely (.single ⟨hi, hi', .inl hstep⟩)
  | @start t s p w hp he =>
      have hidle : C.idle t c.view := by
        have := hsafe t
        rw [hp] at this
        exact this _ .refl hi
      obtain ⟨hg', hi', hsf⟩ := h.start t s _ p w hi hidle ha he
      have hg : C.ThreadStep t _ _ := ⟨⟨_, _, rfl, rfl⟩, hg'⟩
      refine ⟨⟨hi', fun u => ?_⟩, .inr ⟨t, rfl, hg⟩⟩
      by_cases hu : u = t
      · subst hu
        simpa using hsf
      · simp only [Function.update_of_ne hu]
        exact (hsafe u).rely (.single ⟨hi, hi', .inr ⟨t, Ne.symm hu, hg⟩⟩)
  | @call t o k ch r w hp he =>
      have hcall := hsafe t
      rw [hp] at hcall
      obtain ⟨hg', hi', hsf⟩ := hcall _ .refl hi ch r w he ha
      have hg : C.ThreadStep t _ _ := ⟨⟨_, _, rfl, rfl⟩, hg'⟩
      refine ⟨⟨hi', fun u => ?_⟩, .inr ⟨t, rfl, hg⟩⟩
      by_cases hu : u = t
      · subst hu
        simpa using hsf
      · simp only [Function.update_of_ne hu]
        exact (hsafe u).rely (.single ⟨hi, hi', .inr ⟨t, Ne.symm hu, hg⟩⟩)

/-- **Soundness.**  Every reachable configuration is safe. -/
theorem Sound.reach {w₀ : σ} (h : C.Sound w₀) {c : Config S σ ι} (hc : Reach M C.adm w₀ c) :
    C.AllSafe c := by
  induction hc with
  | init => exact ⟨h.init.1, fun t _ hr _ => hr.stable (fun hs => h.stable t _ _ hs) (h.init.2 t)⟩
  | step _ hs ha ih => exact (h.step ih hs ha).1

/-- **Layering.**  The invariant of a sound contract may be assumed of every step by the next. -/
lemma Sound.reach_inv {w₀ : σ} (h : C.Sound w₀) {adm : View S σ ι → Event S ι → Prop}
    (hadm : ∀ v e, adm v e → C.adm v e) {c : Config S σ ι} (hc : Reach M adm w₀ c) :
    Reach M (fun v e => adm v e ∧ C.inv v) w₀ c := by
  induction hc with
  | init => exact .init
  | step hc hs ha ih => exact ih.step hs ⟨ha, (h.reach (hc.mono hadm)).1⟩

/-- Every thread step out of a reachable configuration keeps that thread's promise. -/
theorem Sound.step_guar {w₀ : σ} (h : C.Sound w₀) {c c' : Config S σ ι} {e : Event S ι}
    (hc : Reach M C.adm w₀ c) (hs : Step M c e c') (ha : C.adm c.view e) :
    C.EnvStep c.view c'.view ∨ ∃ t, e.thread = some t ∧ C.ThreadStep t c.view c'.view :=
  (h.step (h.reach hc) hs ha).2

/-- Every step in the history of a reachable configuration was a move of the environment or kept
the promise of its thread. -/
theorem Sound.steps {w₀ : σ} (h : C.Sound w₀) {c : Config S σ ι} (hc : Reach M C.adm w₀ c)
    {p : σ × Event S ι × σ} (hp : p ∈ c.view.steps) :
    ∃ v, C.inv v ∧ v.world = p.1 ∧ View.Le (v.push p.2.1 p.2.2) c.view ∧
      (C.EnvStep v (v.push p.2.1 p.2.2) ∨
        ∃ t, p.2.1.thread = some t ∧ C.ThreadStep t v (v.push p.2.1 p.2.2)) := by
  induction hc with
  | init => exact absurd hp List.not_mem_nil
  | @step c c' e hc hs ha ih =>
      have hstep := h.step_guar hc hs ha
      obtain ⟨w, hw⟩ := hs.push
      rw [hw] at hp hstep ⊢
      rcases List.mem_cons.mp hp with rfl | hp
      · exact ⟨c.view, (h.reach hc).1, rfl, View.Le.refl _, hstep⟩
      · obtain ⟨v, hi, hv, hle, hcase⟩ := ih hp
        exact ⟨v, hi, hv, hle.trans (View.le_push _ _ _), hcase⟩

end Contract

end Interleave
