import Mathlib.Tactic.Basic

/-!
# Runs of a transition function

A system given by one partial step function over actions, for components whose control state is a
datum and not a program.  A run keeps every state it has gone through, so that what held at some point
of it can be said of the run.

* `Run step adm s₀ states` — the states of a run from `s₀`, newest first, all of whose actions satisfy
  `adm` in the state they are taken in.
* **`Run.keeps`** — the invariant rule.
* `playStates` — a run by a given list of actions; `run_of_play` says that it is one.
-/

namespace Interleave

variable {σ α : Type}

/-- The states of a run, newest first. -/
inductive Run (step : σ → α → Option σ) (adm : σ → α → Prop) (s₀ : σ) : List σ → Prop where
  | init : Run step adm s₀ [s₀]
  | step {s s' : σ} {past : List σ} {a : α} (h : Run step adm s₀ (s :: past)) (ha : adm s a)
      (hs : step s a = some s') : Run step adm s₀ (s' :: s :: past)

/-- A property of the states so far that every step keeps holds of every run. -/
lemma Run.keeps {step : σ → α → Option σ} {adm : σ → α → Prop} {s₀ : σ} {I : List σ → Prop}
    (hinit : I [s₀])
    (hstep : ∀ {s s' past a}, I (s :: past) → adm s a → step s a = some s' → I (s' :: s :: past))
    {states : List σ} (h : Run step adm s₀ states) : I states := by
  induction h with
  | init => exact hinit
  | step _ ha hs ih => exact hstep ih ha hs

/-- Play a list of actions that pass a test, with the states gone through so far. -/
def playStates (step : σ → α → Option σ) (test : σ → α → Bool) (s : σ) (past : List σ) :
    List α → Option (List σ)
  | [] => some (s :: past)
  | a :: as => if test s a then (step s a).bind fun s' => playStates step test s' (s :: past) as
      else none

lemma run_playStates {step : σ → α → Option σ} {adm : σ → α → Prop} {test : σ → α → Bool} {s₀ : σ}
    (htest : ∀ s a, test s a = true → adm s a) :
    ∀ {as : List α} {s : σ} {past states : List σ},
      Run step adm s₀ (s :: past) → playStates step test s past as = some states →
        Run step adm s₀ states
  | [], _, _, _, h, hplay => Option.some.inj hplay ▸ h
  | a :: _, s, _, _, h, hplay => by
      rw [playStates] at hplay
      by_cases ha : test s a
      · rw [if_pos ha] at hplay
        obtain ⟨s', hs, hrest⟩ := Option.bind_eq_some_iff.mp hplay
        exact run_playStates htest (h.step (htest s a ha) hs) hrest
      · rw [if_neg ha] at hplay
        exact nomatch hplay

/-- A list of actions that plays is a run, and what is computed of its states holds of the run. -/
lemma run_of_play {step : σ → α → Option σ} (adm : σ → α → Prop) {test : σ → α → Bool} {s : σ}
    {as : List α} (htest : ∀ s a, test s a = true → adm s a) {p : List σ → Bool}
    (h : (playStates step test s [] as).any p = true) :
    ∃ states, Run step adm s states ∧ p states = true := by
  cases hplay : playStates step test s [] as with
  | none => simp [hplay] at h
  | some states => exact ⟨states, run_playStates htest .init hplay, by simpa [hplay] using h⟩

end Interleave
