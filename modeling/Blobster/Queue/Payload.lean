import Blobster.Queue.Delivery

/-!
# A live handle and its payload

A claim checks once that the payload is there; from then on the worker relies on its lease.  That is
not enough.  `Ack` deletes the lease before it deletes the payload, and a worker that claims the
message between the two deletes passes the check and then has the payload removed from under it.  A
dead-letter move can do the same: nothing renews the lease it holds, so a mover that pauses past it
deletes the payload of whoever has claimed the message since.

* **`payload_removed_held`** — a run without faults in which a worker holds a live handle for a
  message whose payload is gone.
* `claimsUncontested` — the condition that excludes both: a message is claimed only as long as nobody
  has given its lease up or taken it over for a dead-letter move.
* `Orderly` — what then holds along a run: the removal of a payload finds the lease free or with a
  mover.
* **`held_payload`** — under the condition, a live handle always has its payload.
-/

set_option linter.unusedSectionVars false

namespace Blobster

open Interleave Contract

namespace QueueSetup

variable {B C : Type} [DecidableEq B] [DecidableEq C] (s : QueueSetup B C) {bk : B → Backend}
  {flt : Faults} {w₀ : World B C} {c : Config (bucketSig B) (World B C) (Thread C)} {x : String}

/-- **A payload can be removed from under a live handle.**  The first worker's `Ack` has deleted the
lease and not yet the payload; the second worker claims the message and gets a handle; then the first
deletes the payload. -/
theorem payload_removed_held :
    ∃ c, Reach ((trio 5).machine (fun _ => memBackend) ⟨false, false⟩) (trio 5).neverReused
        pristine c ∧
      Live c.view.world 2 "m" ∧ (trio 5).slot c.view.world .payload "m" = none := by
  obtain ⟨c, hreach, htest⟩ := trio_reach 5 ⟨false, false⟩
    (enqueued 0 .empty ++ received 1 ++ settled 1 .ack ++ calls 1 .main 2 ++ received 2 ++
      calls 1 .main 1)
    (fun c => decide (Live c.view.world 2 "m") &&
      ((trio 5).slot c.view.world .payload "m").isNone) (by decide +kernel)
  simp only [Bool.and_eq_true, decide_eq_true_eq, Option.isNone_iff_eq_none] at htest
  exact ⟨c, hreach, htest⟩

/-- A lease write that claims a message that is there — it creates the lease record or raises its
count — is let through only if the lease was never deleted and never taken over for a dead-letter
move. -/
def claimsUncontested (v : BView B C) (e : BEvent B C) : Prop :=
  ∀ d x body md pre r,
    e = BEvent.called (d, .main) (.write s.bucket (Slot.lease.key x) body md pre) r →
    (v.world.store s.bucket).Accepts (Slot.lease.key x) pre →
    (v.world.mem d).message = none → s.slot v.world .payload x ≠ none →
    (∀ o, s.slot v.world .lease x = some o → count o < queueParseReceives md) →
      ¬ s.Released v x ∧ ∀ d', ¬ s.Held v x d'

/-- What the condition says about a step, in terms of what the step does. -/
def Uncontested (v : BView B C) (e : BEvent B C) (w' : World B C) : Prop :=
  ∀ x d o, e.thread = some (d, .main) → (v.world.mem d).message = none →
    s.slot v.world .payload x ≠ none → s.slot w' .lease x = some o →
    (∀ o₀, s.slot v.world .lease x = some o₀ → count o₀ < count o) →
      ¬ s.Released v x ∧ ∀ d', ¬ s.Held v x d'

/-- The removal of a payload finds the lease free or with a mover. -/
structure Orderly (v : BView B C) : Prop where
  released : ∀ x, s.Released v x → s.slot v.world .payload x ≠ none →
    s.slot v.world .lease x = none
  held : ∀ x d, s.Held v x d → s.slot v.world .payload x ≠ none →
    ∀ o, s.slot v.world .lease x = some o → ∃ d', s.OwnedBy d' o ∧ s.Held v x d'
  dead : ∀ x, s.slot v.world .dead x ≠ none → ∃ d, s.Held v x d
  holder : ∀ x d, s.Gone v x → s.Holder v x d → s.Held v x d
  raise : ∀ x d r later p earlier, v.steps = later ++ p :: earlier → s.IsRaise x d r p →
    ∀ q ∈ earlier, ∀ d' n, ¬ s.IsTakeover x d' n q

variable {s}

section Step

variable {t : Thread C} {v : BView B C} {w' : World B C} {e : BEvent B C} {o : Object}

/-- A client with a handle for a message has not taken it over for a dead-letter move: the claim of
the handle came first, and a client with a handle does not move. -/
lemma Orderly.not_held (hO : s.Orderly v) (hi : s.Inv bk v) {d : C} {m : Message}
    (hm : (v.world.mem d).message = some m) : ¬ s.Held v m.id d := by
  rintro ⟨n, q, hq, htake⟩
  have hok := hi.handle d m hm
  obtain ⟨later, p, earlier, heq, hraise, hlater⟩ := hok.raised
  obtain ⟨ht, hnone, -, hmax, o₀, o, ho₀, ⟨rfl, hcap⟩, ho, hne⟩ := id htake
  rw [heq, List.mem_append, List.mem_cons] at hq
  rcases hq with hq | rfl | hq
  · have hsame := hlater q hq ht hnone
    rw [ho, ho₀] at hsame
    exact hne (Option.some.inj hsame)
  · have hlt := hraise.2.2.2 o₀ ho₀
    have hle := hok.cap hmax
    omega
  · exact hO.raise m.id d _ later p earlier heq hraise q hq d _ htake

/-- A payload that is removed was acknowledged, with the lease given up, or is in its dead record. -/
lemma payload_removed (heff : s.Effect t v w') (ho : s.slot v.world .payload x = some o)
    (hnone : s.slot w' .payload x = none) :
    s.Released v x ∨ s.slot v.world .dead x ≠ none := by
  have hother : ∀ {k x'}, s.OnlySlot v.world w' k x' → (Slot.payload ≠ k ∨ x ≠ x') → False := by
    rintro k x' honly (hk | hx)
    · exact absurd (((honly.of_slot hk).trans ho).symm.trans hnone) (by simp)
    · exact absurd (((honly.of_id hx).trans ho).symm.trans hnone) (by simp)
  cases heff with
  | quiet h => exact absurd (((h _ _).trans ho).symm.trans hnone) (by simp)
  | enqueue x' o' _ honly ho' _ =>
      by_cases hx : x = x'
      · subst hx
        exact absurd (ho'.symm.trans hnone) (by simp)
      · exact (hother honly (.inr hx)).elim
  | claim x' _ _ _ honly => exact (hother honly (.inl (by simp))).elim
  | hold x' _ _ _ _ honly => exact (hother honly (.inl (by simp))).elim
  | rewrite x' _ _ _ _ honly => exact (hother honly (.inl (by simp))).elim
  | release x' _ honly => exact (hother honly (.inl (by simp))).elim
  | remove x' o' _ honly _ _ hdone =>
      by_cases hx : x = x'
      · subst hx
        rcases hdone with ⟨-, hrel⟩ | ⟨d, n, hd, -⟩
        · exact .inl hrel
        · exact .inr (by simp [hd])
      · exact (hother honly (.inr hx)).elim
  | bury x' _ d n _ _ honly => exact (hother honly (.inl (by simp))).elim

/-- A lease that was given up stays free. -/
lemma Orderly.released_step (hO : s.Orderly v) (hi : s.Inv bk v) (ht : e.thread = some t)
    (heff : s.Effect t v w') (hok : s.Uncontested v e w') (hrel : s.Released (v.push e w') x)
    (hp : s.slot w' .payload x ≠ none) : s.slot w' .lease x = none := by
  rcases released_push.mp hrel with hrel | ⟨-, -, hnone⟩
  · have hpv := payload_before heff hrel.known hp
    have hfree := hO.released x hrel hpv
    by_contra hsome
    obtain ⟨o, ho⟩ := Option.ne_none_iff_exists'.mp hsome
    obtain ⟨-, -, hwrite⟩ := lease_changed hi heff ho (by simp [hfree])
    rcases hwrite.claim_or_same hpv with ⟨hmain, hnone, -⟩ | ⟨o₀, ho₀, -⟩
    · have ht' : e.thread = some (t.1, .main) := by rw [ht, ← hmain]
      refine (hok x t.1 o ht' hnone hpv ho fun o₀ ho₀ => ?_).1 hrel
      exact absurd (hfree.symm.trans ho₀) (by simp)
    · exact absurd (hfree.symm.trans ho₀) (by simp)
  · exact hnone

/-- A lease that was taken over for a dead-letter move passes only to other movers. -/
lemma Orderly.held_step (hO : s.Orderly v) (hi : s.Inv bk v) (ht : e.thread = some t)
    (heff : s.Effect t v w') (hok : s.Uncontested v e w') {d : C}
    (hd : s.Held (v.push e w') x d) (hp : s.slot w' .payload x ≠ none)
    (ho : s.slot w' .lease x = some o) : ∃ d', s.OwnedBy d' o ∧ s.Held (v.push e w') x d' := by
  have hle : v.Le (v.push e w') := View.le_push _ _ _
  obtain ⟨n, hd⟩ := hd
  by_cases hsame : s.slot v.world .lease x = some o
  · rcases heldAt_push.mp hd with hd | ⟨-, -, -, -, o₀, o', ho₀, -, ho', hne⟩
    · obtain ⟨d', hown, hd'⟩ := hO.held x d ⟨n, hd⟩ (payload_before heff hd.known hp) o hsame
      exact ⟨d', hown, hd'.mono hle⟩
    · obtain rfl := Option.some.inj (ho'.symm.trans ho)
      exact absurd (Option.some.inj (hsame.symm.trans ho₀)) hne
  · have hpv : s.slot v.world .payload x ≠ none := by
      rcases heldAt_push.mp hd with hd | ⟨-, -, hpv, -⟩
      · exact payload_before heff hd.known hp
      · exact hpv
    obtain ⟨-, hown, hwrite⟩ := lease_changed hi heff ho hsame
    cases hwrite with
    | claim hmain hnone hfirst hover hcap =>
        have ht' : e.thread = some (t.1, .main) := by rw [ht, ← hmain]
        have hno := (hok x t.1 o ht' hnone hpv ho fun o₀ ho₀ => by have := hover o₀ ho₀; omega).2
        rcases heldAt_push.mp hd with hd | ⟨hdt, -, -, hmax, o₀, o', ho₀, ⟨rfl, hle'⟩, ho', -⟩
        · exact absurd ⟨n, hd⟩ (hno d)
        · -- a claim stays within the limit that the mover has found exceeded
          obtain rfl : t = (d, .main) := Option.some.inj (ht.symm.trans hdt)
          have hover₀ := hover o₀ ho₀
          have hcap₀ : count o ≤ s.maxReceives d := hcap hmax
          omega
    | hold o₀ hmain hnone ho₀ hcount hmax hcap =>
        refine ⟨t.1, hown, count o₀, heldAt_push.mpr (.inr ⟨by rw [ht, ← hmain], hnone, hpv, hmax, o₀,
          o, ho₀, ⟨rfl, hcap⟩, ho, ?_⟩)⟩
        rintro rfl
        exact hsame ho₀
    | rewrite m hm hid hover _ =>
        subst hid
        obtain ⟨o₀, ho₀, hown₀, -⟩ := hover hpv
        rcases heldAt_push.mp hd with hd | ⟨hdt, hnone, -⟩
        · obtain ⟨d', hown', hd'⟩ := hO.held m.id d ⟨n, hd⟩ hpv o₀ ho₀
          obtain rfl := hown'.unique hown₀
          exact absurd hd' (hO.not_held hi hm)
        · obtain rfl : t = (d, .main) := Option.some.inj (ht.symm.trans hdt)
          exact absurd (hnone.symm.trans hm) (by simp)

/-- Who held the lease when a payload was removed is a mover. -/
lemma Orderly.holder_step (hO : s.Orderly v) (heff : s.Effect t v w') {d : C}
    (hg : s.Gone (v.push e w') x) (hd : s.Holder (v.push e w') x d) : s.Held v x d := by
  have hnone : s.slot w' .payload x = none := hg.2
  have hd : s.Holder v x d := by
    obtain ⟨w, hw, h⟩ := hd
    exact ⟨w, (lastWith_push_of_none hnone).symm.trans hw, h⟩
  cases hp : s.slot v.world .payload x with
  | none => exact hO.holder x d ⟨hd.known, hp⟩ hd
  | some p =>
      obtain ⟨w, hw, o, ho, hown⟩ := hd
      obtain rfl := Option.some.inj ((lastWith_of_some hp).symm.trans hw)
      rcases payload_removed heff hp hnone with hrel | hdead
      · exact absurd ((hO.released x hrel (by simp [hp])).symm.trans ho) (by simp)
      · obtain ⟨d₀, hd₀⟩ := hO.dead x hdead
        obtain ⟨d', hown', hd'⟩ := hO.held x d₀ hd₀ (by simp [hp]) o ho
        obtain rfl := hown.unique hown'
        exact hd'

/-- A new raise comes before every takeover. -/
lemma Uncontested.not_takeover (hok : s.Uncontested v e w') (hi : s.Inv bk v)
    (ht : e.thread = some t) (heff : s.Effect t v w') {d d' : C} {r n : ℕ}
    (hraise : s.IsRaise x d r (v.world, e, w')) {q : World B C × BEvent B C × World B C}
    (hq : q ∈ v.steps) : ¬ s.IsTakeover x d' n q := by
  obtain ⟨hdt, hp, ⟨o, ho, -, rfl⟩, hlt⟩ := hraise
  obtain rfl : t = (d, .main) := Option.some.inj (ht.symm.trans hdt)
  have hne : s.slot v.world .lease x ≠ some o := fun h => absurd (hlt o h) (lt_irrefl _)
  intro htake
  rcases (lease_changed hi heff ho hne).2.2.claim_or_same hp with ⟨-, hnone, -⟩ | ⟨o₀, ho₀, hcount⟩
  · exact (hok x d o hdt hnone hp ho hlt).2 d' ⟨n, q, hq, htake⟩
  · have : count o₀ < count o := hlt o₀ ho₀
    omega

/-- **A step of a client keeps the order.** -/
lemma Orderly.step (hO : s.Orderly v) (hi : s.Inv bk v) (ht : e.thread = some t)
    (heff : s.Effect t v w') (hok : s.Uncontested v e w') : s.Orderly (v.push e w') where
  released x := hO.released_step hi ht heff hok
  held x d hd hp o := hO.held_step hi ht heff hok hd hp
  dead x hdead := by
    by_cases hsame : s.slot w' .dead x = s.slot v.world .dead x
    · obtain ⟨d, hd⟩ := hO.dead x (hsame ▸ hdead)
      exact ⟨d, hd.mono (View.le_push _ _ _)⟩
    · obtain ⟨n, -, -, hd, -⟩ := dead_changed heff hsame
      exact ⟨t.1, n, hd.mono (View.le_push _ _ _)⟩
  holder x d hg hd := (hO.holder_step heff hg hd).mono (View.le_push _ _ _)
  raise x d r later p earlier heq hraise q hq d' n := by
    cases later with
    | nil =>
        obtain ⟨rfl, rfl⟩ := List.cons.inj heq
        exact hok.not_takeover hi ht heff hraise hq
    | cons q' later =>
        exact hO.raise x d r later p earlier (List.cons.inj heq).2 hraise q hq d' n

/-- Time passing keeps it. -/
lemma Orderly.advance (hO : s.Orderly v) (d : ℕ) :
    s.Orderly (v.push .env (v.world.advance d)) where
  released x hrel hp := by
    rcases released_push.mp hrel with hrel | ⟨-, hne, hnone⟩
    · exact hO.released x hrel hp
    · exact hnone
  held x d hd hp o ho := by
    obtain ⟨n, hd⟩ := hd
    rcases heldAt_push.mp hd with hd | ⟨ht, -⟩
    · obtain ⟨d', hown, hd'⟩ := hO.held x d ⟨n, hd⟩ hp o ho
      exact ⟨d', hown, hd'.mono (View.le_push _ _ _)⟩
    · cases ht
  dead x hdead := by
    obtain ⟨d, hd⟩ := hO.dead x hdead
    exact ⟨d, hd.mono (View.le_push _ _ _)⟩
  holder x d hg hd := by
    obtain ⟨w, hw, h⟩ := hd
    have hd : s.Holder v x d := ⟨w, (lastWith_push_of_none hg.2).symm.trans hw, h⟩
    exact (hO.holder x d ⟨hd.known, hg.2⟩ hd).mono (View.le_push _ _ _)
  raise x d r later p earlier heq hraise q hq d' n := by
    cases later with
    | nil =>
        obtain ⟨rfl, rfl⟩ := List.cons.inj heq
        cases hraise.1
    | cons q' later =>
        exact hO.raise x d r later p earlier (List.cons.inj heq).2 hraise q hq d' n

end Step

lemma Initial.orderly (h : s.Initial w₀) : s.Orderly (⟨w₀, []⟩ : BView B C) where
  released x _ hp := absurd (h.slot _) hp
  held x d _ hp := absurd (h.slot _) hp
  dead x hd := absurd (h.slot _) hd
  holder x d hg := by
    obtain ⟨o, w, hw, ho⟩ := hg.1
    obtain rfl : w = w₀ := by simpa [View.worlds] using hw
    exact absurd ((h.slot _).symm.trans ho) (by simp)
  raise x d r later p earlier heq := by
    have hp : p ∈ (⟨w₀, []⟩ : BView B C).steps := by rw [heq]; simp
    exact absurd hp List.not_mem_nil

lemma uncontested_of_step {e : BEvent B C} {w : World B C}
    {c' : Config (bucketSig B) (World B C) (Thread C)} (hs : Step (s.machine bk flt) c e c')
    (hv : c'.view = c.view.push e w) (hadm : s.claimsUncontested c.view e) :
    s.Uncontested c.view e w := by
  intro x d o ht hnone hp ho hlt
  have hne : s.slot c.view.world .lease x ≠ some o := fun h => absurd (hlt o h) (lt_irrefl _)
  obtain ⟨t, body, md, pre, r, rfl, rfl, hacc⟩ :=
    step_write clockOnly_advance hs (by rw [hv]; exact ho) hne
  obtain rfl : t = (d, .main) := Option.some.inj ht
  exact hadm d x body _ pre r rfl hacc hnone hp hlt

/-- **A held message has its payload.**  In every run in which a message is claimed only as long as
nobody has given its lease up or taken it over for a dead-letter move, every live handle has its
payload. -/
theorem held_payload (hb : (bk s.bucket).Fresh) (hl : (bk s.bucket).ListsStored)
    (h₀ : s.Initial w₀)
    (hc : Reach (s.machine bk flt) (fun v e => s.neverReused v e ∧ s.claimsUncontested v e) w₀ c)
    (d : C) (x : String) (hlive : Live c.view.world d x) :
    s.slot c.view.world .payload x ≠ none := by
  have hsound := sound flt hb hl h₀
  have hi : s.Inv bk c.view := (hsound.reach (hc.mono fun _ _ h => h.1)).1
  -- by induction on the run, with the order as the invariant
  have hO : s.Orderly c.view := by
    clear hi hlive
    induction hc with
    | init => exact h₀.orderly
    | @step c c' e hc hs ha ih =>
        have hc' := hc.mono fun _ _ h => h.1
        rcases hsound.step_guar hc' hs ha.1 with ⟨d, w, hw, -, hv⟩ | ⟨t, ht, -, hg⟩
        · obtain rfl := Option.some.inj hw
          rw [hv]
          exact ih.advance d
        · obtain ⟨w, hv⟩ := hs.push
          rw [hv] at hg ⊢
          exact ih.step (hsound.reach hc').1 ht hg.effect (uncontested_of_step hs hv ha.2)
  intro hnone
  have hholder := hi.holder_of_live hlive
  obtain ⟨m, hm, rfl, -⟩ := hlive
  exact hO.not_held hi hm (hO.holder m.id d ⟨hholder.known, hnone⟩ hholder)

/-! ## A run under the condition -/

variable (s) in
/-- Whether a step keeps to the condition, because the lease record was never replaced or deleted
before. -/
def isUncontested (v : BView B C) : BEvent B C → Bool
  | .call _ (.write _ key _ _ _) _ =>
      match cutPrefix key queueLeasePrefix with
      | none => true
      | some x => v.steps.all fun p => (s.slot p.1 .lease x).all fun o =>
          decide (s.slot p.2.2 .lease x = some o)
  | _ => true

lemma claimsUncontested_of_isUncontested {v : BView B C} {e : BEvent B C}
    (h : s.isUncontested v e = true) : s.claimsUncontested v e := by
  rintro d x body md pre r rfl - - - -
  have hcut : cutPrefix (Slot.lease.key x) queueLeasePrefix = some x := cutPrefix_append _ _
  simp only [isUncontested, hcut, List.all_eq_true, Option.all_eq_true, decide_eq_true_eq] at h
  refine ⟨?_, ?_⟩
  · rintro ⟨p, hp, -, hne, hnone⟩
    obtain ⟨o, ho⟩ := Option.ne_none_iff_exists'.mp hne
    exact absurd ((h p hp o ho).symm.trans hnone) (by simp)
  · rintro d' ⟨n, p, hp, -, -, -, -, o₀, o, ho₀, -, ho, hne⟩
    exact hne (Option.some.inj (ho.symm.trans (h p hp o₀ ho₀)))

/-- The first worker claims the message and stops; the second takes over and has its payload. -/
theorem held_payload_takeover :
    ∃ c, Reach ((trio 5).machine (fun _ => memBackend) ⟨true, true⟩)
        (fun v e => (trio 5).neverReused v e ∧ (trio 5).claimsUncontested v e) pristine c ∧
      Live c.view.world 2 "m" ∧ (trio 5).slot c.view.world .payload "m" ≠ none := by
  obtain ⟨c, hreach, htest⟩ := trio_reach 5 ⟨true, true⟩
    (enqueued 0 .empty ++ received 1 ++ elapsed 30 ++ received 2)
    (fun c => admitsAll (trio 5).isUncontested c.view.hist && decide (Live c.view.world 2 "m"))
    (by decide +kernel)
  simp only [Bool.and_eq_true, decide_eq_true_eq] at htest
  have hreach := hreach.of_admits
    (admits_of_all (fun _ _ => claimsUncontested_of_isUncontested) htest.1)
  exact ⟨c, hreach, htest.2, held_payload memBackend_fresh memBackend_listsStored (trio_initial 5)
    hreach 2 "m" htest.2⟩

end QueueSetup

end Blobster
