import Mathlib.Logic.Function.Basic
import Mathlib.Logic.Relation
import Blobster.Interleave.Program

/-!
# Interleaving machines and their histories

A machine runs any number of threads over one shared world.  Each step is one atomic action: a
thread performs its next call, an idle thread is started on an entry point, or the environment
moves.  All nondeterminism is resolved by an explicit choice, so a machine is executable: a
schedule is a list of actions and `Machine.run` plays it.

The configuration keeps the whole history of the run (`View.hist`): which action was taken and the
world it was taken in; `View.steps` reads it as a list of steps.  Properties about the past — who
wrote what, what a call had answered — are properties of the history, and no program or world has to
carry ghost variables for them.

* `Machine`, `Config`, `Action`, `Machine.step`, `Machine.run` — the executable machine.
* `Reach M adm w c` — `c` is reached from the initial world `w` by steps that all satisfy `adm`,
  an assumption about the step and the state it is taken in.
* `View.worlds`, `View.worldsFrom` — the worlds of the run so far, and those since a given step;
  `View.Along` — a statement about every step of the run so far.
* `reach_of_run` — a schedule that plays is a run; `Reach.of_admits` — its history tells which
  assumptions it satisfies.
-/

namespace Interleave

/-- What a step was: a move of the environment, the start of a thread, or a call with its
answer. -/
inductive Event (S : Sig) (ι : Type) : Type where
  | env : Event S ι
  | start (t : ι) (s : S.Start) : Event S ι
  | call (t : ι) (o : S.Op) (r : S.Res o) : Event S ι

/-- The shared world and how it came about, newest event first. -/
structure View (S : Sig) (σ ι : Type) where
  world : σ
  hist : List (Event S ι × σ)

/-- The view after the event `e` has led to the world `w`. -/
def View.push {S : Sig} {σ ι : Type} (v : View S σ ι) (e : Event S ι) (w : σ) : View S σ ι :=
  ⟨w, (e, v.world) :: v.hist⟩

section Push

variable {S : Sig} {σ ι : Type} (v : View S σ ι) (e : Event S ι) (w : σ)

@[simp] lemma View.push_world : (v.push e w).world = w := rfl

@[simp] lemma View.push_hist : (v.push e w).hist = (e, v.world) :: v.hist := rfl

/-- The steps from the history `h` to the world `w`, newest first: the world before, the event, the
world after. -/
def stepsTo {S : Sig} {σ ι : Type} : σ → List (Event S ι × σ) → List (σ × Event S ι × σ)
  | _, [] => []
  | w, (e, w₀) :: h => (w₀, e, w) :: stepsTo w₀ h

/-- The steps of the run so far. -/
def View.steps {S : Sig} {σ ι : Type} (v : View S σ ι) : List (σ × Event S ι × σ) :=
  stepsTo v.world v.hist

@[simp] lemma View.push_steps : (v.push e w).steps = (v.world, e, w) :: v.steps := rfl

/-- The worlds of the run so far, newest first. -/
def View.worlds {S : Sig} {σ ι : Type} (v : View S σ ι) : List σ := v.world :: v.hist.map Prod.snd

@[simp] lemma View.push_worlds : (v.push e w).worlds = w :: v.worlds := rfl

lemma View.world_mem_worlds : v.world ∈ v.worlds := List.mem_cons_self

lemma mem_worlds_of_mem_stepsTo {S : Sig} {σ ι : Type} {p : σ × Event S ι × σ} :
    ∀ {w : σ} {h : List (Event S ι × σ)}, p ∈ stepsTo w h →
      p.1 ∈ w :: h.map Prod.snd ∧ p.2.2 ∈ w :: h.map Prod.snd
  | w, (e, w₀) :: h, hp => by
      rcases List.mem_cons.mp hp with rfl | hp
      · simp
      · have ih := mem_worlds_of_mem_stepsTo hp
        exact ⟨List.mem_cons_of_mem _ ih.1, List.mem_cons_of_mem _ ih.2⟩

/-- The worlds before and after a step of the run are worlds of the run. -/
lemma View.mem_worlds_of_mem_steps {p : σ × Event S ι × σ} (hp : p ∈ v.steps) :
    p.1 ∈ v.worlds ∧ p.2.2 ∈ v.worlds :=
  mem_worlds_of_mem_stepsTo hp

/-- The worlds since `n` steps had been taken, newest first. -/
def View.worldsFrom {S : Sig} {σ ι : Type} (v : View S σ ι) (n : ℕ) : List σ :=
  v.worlds.take (v.hist.length + 1 - n)

lemma View.worldsFrom_subset (n : ℕ) : v.worldsFrom n ⊆ v.worlds := List.take_subset _ _

lemma View.worldsFrom_now : v.worldsFrom v.hist.length = [v.world] := by
  simp [View.worldsFrom, View.worlds]

lemma View.push_worldsFrom {n : ℕ} (h : n ≤ v.hist.length) :
    (v.push e w).worldsFrom n = w :: v.worldsFrom n := by
  have : v.hist.length + 1 + 1 - n = (v.hist.length + 1 - n) + 1 := by omega
  simp [View.worldsFrom, this]

lemma View.worldsFrom_anti {m n : ℕ} (h : m ≤ n) : v.worldsFrom n ⊆ v.worldsFrom m := by
  have : v.hist.length + 1 - n ≤ v.hist.length + 1 - m := by omega
  exact (List.take_prefix_take_left this).subset

lemma View.world_mem_worldsFrom {n : ℕ} (h : n ≤ v.hist.length) : v.world ∈ v.worldsFrom n := by
  have : v.hist.length + 1 - n = (v.hist.length - n) + 1 := by omega
  simp [View.worldsFrom, View.worlds, this]

/-- Everything that has happened in `v` has also happened in `v'`. -/
structure View.Le {S : Sig} {σ ι : Type} (v v' : View S σ ι) : Prop where
  worlds : v.worlds ⊆ v'.worlds
  steps : v.steps ⊆ v'.steps

lemma View.Le.refl : v.Le v := ⟨fun _ h => h, fun _ h => h⟩

lemma View.Le.trans {v₁ v₂ v₃ : View S σ ι} (h : v₁.Le v₂) (h' : v₂.Le v₃) : v₁.Le v₃ :=
  ⟨List.Subset.trans h.worlds h'.worlds, List.Subset.trans h.steps h'.steps⟩

lemma View.le_push : v.Le (v.push e w) :=
  ⟨fun _ h => List.mem_cons_of_mem _ h, fun _ h => List.mem_cons_of_mem _ h⟩

end Push

/-- The thread that took the step. -/
def Event.thread {S : Sig} {ι : Type} : Event S ι → Option ι
  | .env => none
  | .start t _ => some t
  | .call t _ _ => some t

/-- The latest step of a thread. -/
def View.lastOf {S : Sig} {σ ι : Type} [DecidableEq ι] (v : View S σ ι) (t : ι) :
    Option (Event S ι) :=
  (v.hist.map Prod.fst).find? fun e => e.thread = some t

lemma View.lastOf_push_self {S : Sig} {σ ι : Type} [DecidableEq ι] {v : View S σ ι} {e : Event S ι}
    {w : σ} {t : ι} (h : e.thread = some t) : (v.push e w).lastOf t = some e := by
  simp [View.lastOf, h]

lemma View.lastOf_push_of_ne {S : Sig} {σ ι : Type} [DecidableEq ι] {v : View S σ ι}
    {e : Event S ι} {w : σ} {t : ι} (h : e.thread ≠ some t) :
    (v.push e w).lastOf t = v.lastOf t := by
  simp [View.lastOf, h]

/-- A machine: how a call is executed, what an entry point runs, how the environment moves.
`Choice` and `Env` resolve the nondeterminism; an answer `none` means that the choice is not
possible in this world (a blocked call, an entry point that is not open). -/
structure Machine (S : Sig) (σ ι : Type) where
  Choice : Type
  Env : Type
  exec : ι → (o : S.Op) → Choice → σ → Option (S.Res o × σ)
  start : ι → S.Start → σ → Option (Prog S Unit × σ)
  env : Env → σ → Option σ

/-- The shared view and the rest of every thread's program. -/
structure Config (S : Sig) (σ ι : Type) where
  view : View S σ ι
  prog : ι → Prog S Unit

/-- All threads idle, nothing has happened. -/
def Config.init (S : Sig) {σ : Type} (ι : Type) (w : σ) : Config S σ ι :=
  ⟨⟨w, []⟩, fun _ => .ret ()⟩

variable {S : Sig} {σ ι : Type} [DecidableEq ι]

/-- One scheduled action. -/
inductive Action (M : Machine S σ ι) : Type where
  | env (e : M.Env) : Action M
  | start (t : ι) (s : S.Start) : Action M
  | call (t : ι) (ch : M.Choice) : Action M

namespace Machine

variable (M : Machine S σ ι)

/-- A thread's next call, executed with the choice `ch`. -/
def stepCall (c : Config S σ ι) (t : ι) (ch : M.Choice) : Option (Config S σ ι) :=
  match c.prog t with
  | .ret _ => none
  | .call o k =>
      (M.exec t o ch c.view.world).map fun rw =>
        ⟨c.view.push (.call t o rw.1) rw.2, Function.update c.prog t (k rw.1)⟩

/-- An idle thread is started on the entry point `s`. -/
def stepStart (c : Config S σ ι) (t : ι) (s : S.Start) : Option (Config S σ ι) :=
  match c.prog t with
  | .ret _ =>
      (M.start t s c.view.world).map fun pw =>
        ⟨c.view.push (.start t s) pw.2, Function.update c.prog t pw.1⟩
  | .call _ _ => none

/-- One action of a schedule. -/
def step (c : Config S σ ι) : Action M → Option (Config S σ ι)
  | .env e => (M.env e c.view.world).map fun w => ⟨c.view.push .env w, c.prog⟩
  | .start t s => M.stepStart c t s
  | .call t ch => M.stepCall c t ch

/-- Play a schedule. -/
def run (c : Config S σ ι) : List (Action M) → Option (Config S σ ι)
  | [] => some c
  | a :: as => (M.step c a).bind fun c' => run c' as

end Machine

/-- A step together with the event it leaves in the history. -/
inductive Step (M : Machine S σ ι) : Config S σ ι → Event S ι → Config S σ ι → Prop where
  | env {c : Config S σ ι} {e : M.Env} {w : σ} (h : M.env e c.view.world = some w) :
      Step M c .env ⟨c.view.push .env w, c.prog⟩
  | start {c : Config S σ ι} {t : ι} {s : S.Start} {p : Prog S Unit} {w : σ}
      (hp : c.prog t = .ret ()) (h : M.start t s c.view.world = some (p, w)) :
      Step M c (.start t s) ⟨c.view.push (.start t s) w, Function.update c.prog t p⟩
  | call {c : Config S σ ι} {t : ι} {o : S.Op} {k : S.Res o → Prog S Unit} {ch : M.Choice}
      {r : S.Res o} {w : σ}
      (hp : c.prog t = .call o k) (h : M.exec t o ch c.view.world = some (r, w)) :
      Step M c (.call t o r) ⟨c.view.push (.call t o r) w, Function.update c.prog t (k r)⟩

/-- A step adds its event to the history. -/
lemma Step.push {M : Machine S σ ι} {c c' : Config S σ ι} {e : Event S ι} (h : Step M c e c') :
    ∃ w, c'.view = c.view.push e w := by
  cases h <;> exact ⟨_, rfl⟩

/-- `c` is reached from the initial world `w` by steps that all satisfy `adm`. -/
inductive Reach (M : Machine S σ ι) (adm : View S σ ι → Event S ι → Prop) (w : σ) :
    Config S σ ι → Prop where
  | init : Reach M adm w (Config.init S ι w)
  | step {c c' : Config S σ ι} {e : Event S ι} (hc : Reach M adm w c) (hs : Step M c e c')
      (ha : adm c.view e) : Reach M adm w c'

/-- A run under a stronger assumption is one under a weaker. -/
lemma Reach.mono {M : Machine S σ ι} {adm adm' : View S σ ι → Event S ι → Prop} {w : σ}
    {c : Config S σ ι} (h : Reach M adm w c) (hadm : ∀ v e, adm v e → adm' v e) :
    Reach M adm' w c := by
  induction h with
  | init => exact .init
  | step _ hs ha ih => exact ih.step hs (hadm _ _ ha)

/-- A property that every admitted step keeps holds of every reached view, and may be assumed of
every step. -/
lemma Reach.keeps {M : Machine S σ ι} {adm : View S σ ι → Event S ι → Prop} {w : σ}
    {I : View S σ ι → Prop} (hinit : I ⟨w, []⟩)
    (hstep : ∀ {c c' e}, Step M c e c' → adm c.view e → I c.view → I c'.view)
    {c : Config S σ ι} (h : Reach M adm w c) :
    I c.view ∧ Reach M (fun v e => adm v e ∧ I v) w c := by
  induction h with
  | init => exact ⟨hinit, .init⟩
  | step _ hs ha ih => exact ⟨hstep hs ha ih.1, ih.2.step hs ⟨ha, ih.1⟩⟩

/-- Every step of the history from the world `w` back satisfied `P`: a statement about the view it was
taken in, the step and the world it led to. -/
def AlongTo (P : View S σ ι → Event S ι → σ → Prop) : σ → List (Event S ι × σ) → Prop
  | _, [] => True
  | w, (e, w₀) :: h => P ⟨w₀, h⟩ e w ∧ AlongTo P w₀ h

/-- Every step of the run so far satisfied `P`. -/
def View.Along (v : View S σ ι) (P : View S σ ι → Event S ι → σ → Prop) : Prop :=
  AlongTo P v.world v.hist

/-- What every step out of a reached configuration satisfies holds along every run. -/
lemma Reach.along {M : Machine S σ ι} {adm : View S σ ι → Event S ι → Prop} {w : σ}
    {P : View S σ ι → Event S ι → σ → Prop}
    (hstep : ∀ {c c' e}, Reach M adm w c → Step M c e c' → adm c.view e →
      P c.view e c'.view.world) {c : Config S σ ι} (h : Reach M adm w c) : c.view.Along P := by
  induction h with
  | init => trivial
  | step hc hs ha ih =>
      have hP := hstep hc hs ha
      cases hs with
      | env he => exact ⟨hP, ih⟩
      | start hp he => exact ⟨hP, ih⟩
      | call hp he => exact ⟨hP, ih⟩

/-- A run goes on with the next call of a thread. -/
lemma Reach.andCall {M : Machine S σ ι} {adm : View S σ ι → Event S ι → Prop} {w w' : σ}
    {c : Config S σ ι} (hc : Reach M adm w c) {t : ι} {o : S.Op} {k : S.Res o → Prog S Unit}
    (hp : c.prog t = .call o k) {x : M.Choice} {r : S.Res o}
    (he : M.exec t o x c.view.world = some (r, w')) (ha : adm c.view (.call t o r)) :
    ∃ c', Reach M adm w c' ∧ c'.view = c.view.push (.call t o r) w' ∧ c'.prog t = k r ∧
      ∀ u, u ≠ t → c'.prog u = c.prog u :=
  ⟨_, hc.step (.call hp he) ha, rfl, Function.update_self .., fun _ hu =>
    Function.update_of_ne hu ..⟩

/-- A run goes on with the start of an idle thread. -/
lemma Reach.andStart {M : Machine S σ ι} {adm : View S σ ι → Event S ι → Prop} {w w' : σ}
    {c : Config S σ ι} (hc : Reach M adm w c) {t : ι} {s : S.Start} {p : Prog S Unit}
    (hp : c.prog t = .ret ()) (he : M.start t s c.view.world = some (p, w'))
    (ha : adm c.view (.start t s)) :
    ∃ c', Reach M adm w c' ∧ c'.view = c.view.push (.start t s) w' ∧ c'.prog t = p ∧
      ∀ u, u ≠ t → c'.prog u = c.prog u :=
  ⟨_, hc.step (.start hp he) ha, rfl, Function.update_self .., fun _ hu =>
    Function.update_of_ne hu ..⟩

/-- No assumption on the steps. -/
def anyStep (_ : View S σ ι) (_ : Event S ι) : Prop := True

/-- Every step of the history satisfied `adm` in the view it was taken in. -/
def Admits (adm : View S σ ι → Event S ι → Prop) : List (Event S ι × σ) → Prop
  | [] => True
  | (e, w) :: h => adm ⟨w, h⟩ e ∧ Admits adm h

/-- Whether a run satisfies a further assumption can be read off its history. -/
lemma Reach.of_admits {M : Machine S σ ι} {adm adm' : View S σ ι → Event S ι → Prop} {w : σ}
    {c : Config S σ ι} (h : Reach M adm w c) (hadm : Admits adm' c.view.hist) :
    Reach M (fun v e => adm v e ∧ adm' v e) w c := by
  induction h with
  | init => exact .init
  | step _ hs ha ih =>
      cases hs with
      | env he => exact (ih hadm.2).step (.env he) ⟨ha, hadm.1⟩
      | start hp he => exact (ih hadm.2).step (.start hp he) ⟨ha, hadm.1⟩
      | call hp he => exact (ih hadm.2).step (.call hp he) ⟨ha, hadm.1⟩

/-- The same for an assumption that can be computed. -/
def admitsAll (test : View S σ ι → Event S ι → Bool) : List (Event S ι × σ) → Bool
  | [] => true
  | (e, w) :: h => test ⟨w, h⟩ e && admitsAll test h

omit [DecidableEq ι] in
lemma admits_of_all {adm : View S σ ι → Event S ι → Prop} {test : View S σ ι → Event S ι → Bool}
    (htest : ∀ v e, test v e = true → adm v e) :
    ∀ {h : List (Event S ι × σ)}, admitsAll test h = true → Admits adm h
  | [], _ => trivial
  | (_, _) :: _, h => by
      rw [admitsAll, Bool.and_eq_true] at h
      exact ⟨htest _ _ h.1, admits_of_all htest h.2⟩

/-- What the executable step function computes is a step. -/
lemma Machine.step_sound {M : Machine S σ ι} {c c' : Config S σ ι} {a : Action M}
    (h : M.step c a = some c') : ∃ e, Step M c e c' := by
  cases a with
  | env e =>
      simp only [Machine.step, Option.map_eq_some_iff] at h
      obtain ⟨w, hw, rfl⟩ := h
      exact ⟨_, .env hw⟩
  | start t s =>
      simp only [Machine.step, Machine.stepStart] at h
      split at h
      · rename_i hp
        simp only [Option.map_eq_some_iff] at h
        obtain ⟨⟨p, w⟩, hw, rfl⟩ := h
        exact ⟨_, .start hp hw⟩
      · cases h
  | call t ch =>
      simp only [Machine.step, Machine.stepCall] at h
      split at h
      · cases h
      · rename_i hp
        simp only [Option.map_eq_some_iff] at h
        obtain ⟨⟨r, w⟩, hw, rfl⟩ := h
        exact ⟨_, .call hp hw⟩

/-- A schedule that plays from a reached configuration ends in a reached one. -/
lemma reach_run {M : Machine S σ ι} {w : σ} :
    ∀ {as : List (Action M)} {c c' : Config S σ ι}, Reach M anyStep w c →
      M.run c as = some c' → Reach M anyStep w c'
  | [], c, c', hc, h => by
      simp only [Machine.run, Option.some.injEq] at h
      exact h ▸ hc
  | a :: as, c, c', hc, h => by
      simp only [Machine.run, Option.bind_eq_some_iff] at h
      obtain ⟨c₁, h₁, h₂⟩ := h
      obtain ⟨e, he⟩ := Machine.step_sound h₁
      exact reach_run (hc.step he trivial) h₂

/-- **A schedule that plays is a run.** -/
theorem reach_of_run {M : Machine S σ ι} {w : σ} {as : List (Action M)} {c : Config S σ ι}
    (h : M.run (Config.init S ι w) as = some c) : Reach M anyStep w c :=
  reach_run .init h

/-- A schedule that plays and passes a test reaches a configuration that passes it. -/
lemma reach_of_run_any {M : Machine S σ ι} {w : σ} {l : List (Action M)}
    {p : Config S σ ι → Bool} (h : (M.run (Config.init S ι w) l).any p = true) :
    ∃ c, Reach M anyStep w c ∧ p c = true := by
  cases hc : M.run (Config.init S ι w) l with
  | none => simp [hc] at h
  | some c => exact ⟨c, reach_of_run hc, by simpa [hc] using h⟩

/-- The same for a run under an assumption. -/
lemma reach_of_run_adm {M : Machine S σ ι} {w : σ} {l : List (Action M)}
    {adm : View S σ ι → Event S ι → Prop} {test : View S σ ι → Event S ι → Bool}
    (htest : ∀ v e, test v e = true → adm v e) {p : Config S σ ι → Bool}
    (h : (M.run (Config.init S ι w) l).any (fun c => admitsAll test c.view.hist && p c) = true) :
    ∃ c, Reach M adm w c ∧ p c = true := by
  obtain ⟨c, hc, hp⟩ := reach_of_run_any h
  rw [Bool.and_eq_true] at hp
  exact ⟨c, (hc.of_admits (admits_of_all htest hp.1)).mono fun _ _ h => h.2, hp.2⟩

end Interleave
