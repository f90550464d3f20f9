import Blobster.Queue.Delivery

/-!
# The dead-letter move

A message that has used up its allowance of deliveries is moved aside in five steps: win the lease,
read the payload's attributes, write the dead record, delete the payload, delete the lease.  Nothing
renews the lease meanwhile, so several movers can be inside the move at once, and each can stop or
fail at every step.

All of them leave the same thing behind, because the takeover leaves the count where it is: the count
stands at the limit from the first takeover until the payload is gone (`Limited`), so every mover
writes the same record and no claim gets through.  Once the payload and the lease are gone, a worker
that works from an old listing can still create a lease anew and another can raise its count
(**`count_raised_buried`**).  Such a lease leads nowhere, since the claim checks the payload.

* `Limited` — counts, takeovers and dead records agree with the limit.
* **`burial_exact`** — the dead record is the payload under the limit, the payload is missing only
  once the record is there, and no claim after the record leads to a delivery.
-/

set_option linter.unusedSectionVars false

namespace Blobster

open Interleave Contract

namespace QueueSetup

variable {B C : Type} [DecidableEq B] [DecidableEq C] (s : QueueSetup B C) {bk : B → Backend}
  {flt : Faults} {w₀ : World B C} {c : Config (bucketSig B) (World B C) (Thread C)} {x : String}

/-- The record is the payload's dead record for the limit. -/
def IsBurialOf (n : ℕ) (d o : Object) : Prop :=
  d.body = o.body ∧ d.metadata = o.metadata.set queueReceivesField (.int n)

/-- Counts, takeovers and dead records agree with the limit: no lease record goes above it, every
takeover for a dead-letter move is at it, a dead record is a payload of the id with it, and from the
first takeover on the lease stands at it as long as the payload is there. -/
structure Limited (n : ℕ) (v : BView B C) : Prop where
  lease : ∀ x o, s.slot v.world .lease x = some o → count o ≤ n
  heldAt : ∀ x d k, s.HeldAt v x d k → k = n
  dead : ∀ x d, s.slot v.world .dead x = some d →
    (∃ e, s.Held v x e) ∧ ∃ o, s.Committed v x o ∧ IsBurialOf n d o
  full : ∀ x d, ¬ Acked v x → s.Held v x d → s.slot v.world .payload x ≠ none →
    ∃ o, s.slot v.world .lease x = some o ∧ count o = n

variable {s}

section Step

variable {n : ℕ} {t : Thread C} {v : BView B C} {w' : World B C} {e : BEvent B C} {o : Object}

/-- No lease write goes above the limit. -/
lemma Limited.lease_step (hL : s.Limited n v) (hn : 0 < n) (hmax : ∀ d, s.maxReceives d = n)
    (hi : s.Inv bk v) (heff : s.Effect t v w') (ho : s.slot w' .lease x = some o) :
    count o ≤ n := by
  by_cases hsame : s.slot v.world .lease x = some o
  · exact hL.lease x o hsame
  · cases (lease_changed hi heff ho hsame).2.2 with
    | claim _ _ _ _ hcap =>
        rw [hmax] at hcap
        exact hcap hn
    | hold o₀ _ _ ho₀ hcount _ _ => exact hcount.le.trans (hL.lease x o₀ ho₀)
    | rewrite m hm _ _ hcount =>
        rcases hcount with hcount | ⟨o₀, ho₀, hcount⟩
        · have hcap := (hi.handle t.1 m hm).cap
          rw [hmax] at hcap
          exact hcount.le.trans (hcap hn)
        · exact hcount.le.trans (hL.lease x o₀ ho₀)

lemma Limited.heldAt_step (hL : s.Limited n v) (hmax : ∀ d, s.maxReceives d = n) {d : C} {k : ℕ}
    (hd : s.HeldAt (v.push e w') x d k) : k = n := by
  rcases heldAt_push.mp hd with hd | ⟨-, -, -, -, o₀, o, ho₀, ⟨rfl, hle⟩, -⟩
  · exact hL.heldAt x d k hd
  · rw [hmax] at hle
    exact le_antisymm (hL.lease x o₀ ho₀) hle

/-- The lease stays at the limit. -/
lemma Limited.full_step (hL : s.Limited n v) (hn : 0 < n) (hmax : ∀ d, s.maxReceives d = n)
    (hi : s.Inv bk v) (ht : e.thread = some t) (heff : s.Effect t v w') {d : C}
    (hack : ¬ Acked v x) (hd : s.Held (v.push e w') x d) (hp : s.slot w' .payload x ≠ none) :
    ∃ o, s.slot w' .lease x = some o ∧ count o = n := by
  obtain ⟨k, hd⟩ := hd
  rcases heldAt_push.mp hd with hd | ⟨hdt, hnone, hpv, hpos, o₀, o, ho₀, ⟨rfl, hle⟩, ho, hne⟩
  · have hpv := payload_before heff hd.known hp
    obtain ⟨o, ho, hcount⟩ := hL.full x d hack ⟨k, hd⟩ hpv
    obtain ⟨o', ho', hle⟩ := lease_effect heff hack hpv ho
    have hle' := hL.lease_step hn hmax hi heff ho'
    exact ⟨o', ho', by omega⟩
  · obtain rfl : t = (d, .main) := Option.some.inj (ht.symm.trans hdt)
    refine ⟨o, ho, ?_⟩
    have hk := hL.heldAt_step hmax hd
    have hsame : s.slot v.world .lease x ≠ some o := by
      rw [ho₀]
      exact fun h => hne (Option.some.inj h).symm
    cases (lease_changed hi heff ho hsame).2.2 with
    | claim _ _ _ hover hcap =>
        have hover₀ := hover o₀ ho₀
        have hcap₀ : count o ≤ s.maxReceives d := hcap hpos
        omega
    | hold o₁ _ _ ho₁ hcount _ _ =>
        obtain rfl := Option.some.inj (ho₀.symm.trans ho₁)
        exact hcount.trans hk
    | rewrite m hm _ _ _ => exact absurd (hnone.symm.trans hm) (by simp)

/-- **A step of a client keeps to the limit.** -/
lemma Limited.step (hL : s.Limited n v) (hn : 0 < n) (hmax : ∀ d, s.maxReceives d = n)
    (hi : s.Inv bk v) (ht : e.thread = some t) (heff : s.Effect t v w') :
    s.Limited n (v.push e w') where
  lease x o ho := hL.lease_step hn hmax hi heff ho
  heldAt x d k hd := hL.heldAt_step hmax hd
  dead x d hd := by
    have hle : v.Le (v.push e w') := View.le_push _ _ _
    by_cases hsame : s.slot w' .dead x = s.slot v.world .dead x
    · obtain ⟨⟨e, he⟩, o, ho, hburial⟩ := hL.dead x d (hsame ▸ hd)
      exact ⟨⟨e, he.mono hle⟩, o, ho.mono hle, hburial⟩
    · obtain ⟨k, o, d', hheld, hd', ho, hbody, hmd⟩ := dead_changed heff hsame
      obtain rfl := Option.some.inj (hd'.symm.trans hd)
      obtain rfl := hL.heldAt x t.1 k hheld
      exact ⟨⟨t.1, k, hheld.mono hle⟩, o, ho.mono hle, hbody, hmd⟩
  full x d hack hd hp :=
    hL.full_step hn hmax hi ht heff (fun h => hack (h.mono (View.le_push _ _ _))) hd hp

lemma Limited.advance (hL : s.Limited n v) (a : ℕ) :
    s.Limited n (v.push .env (v.world.advance a)) where
  lease := hL.lease
  heldAt x d k hd := by
    rcases heldAt_push.mp hd with hd | ⟨ht, -⟩
    · exact hL.heldAt x d k hd
    · cases ht
  dead x d hd := by
    have hle : v.Le (v.push .env (v.world.advance a)) := View.le_push _ _ _
    obtain ⟨⟨e, he⟩, o, ho, hburial⟩ := hL.dead x d hd
    exact ⟨⟨e, he.mono hle⟩, o, ho.mono hle, hburial⟩
  full x d hack hd hp := by
    obtain ⟨k, hd⟩ := hd
    rcases heldAt_push.mp hd with hd | ⟨ht, -⟩
    · exact hL.full x d (fun h => hack (h.mono (View.le_push _ _ _))) ⟨k, hd⟩ hp
    · cases ht

/-- After the dead record, a lease write keeps within the limit, and leaves the count alone as long
as the payload is there. -/
lemma Limited.lease_buried (hL : s.Limited n v) (hn : 0 < n) (hmax : ∀ d, s.maxReceives d = n)
    (hi : s.Inv bk v) (heff : s.Effect t v w') (hack : ¬ Acked v x)
    (hdead : s.slot v.world .dead x ≠ none) (hp : s.slot v.world .payload x ≠ none)
    (ho : s.slot w' .lease x = some o) :
    ∃ o₀, s.slot v.world .lease x = some o₀ ∧ count o = count o₀ := by
  obtain ⟨d, hd⟩ := Option.ne_none_iff_exists'.mp hdead
  obtain ⟨⟨d', hheld⟩, -⟩ := hL.dead x d hd
  obtain ⟨o₀, ho₀, hcount⟩ := hL.full x d' hack hheld hp
  obtain ⟨o', ho', hle⟩ := lease_effect heff hack hp ho₀
  obtain rfl := Option.some.inj (ho.symm.trans ho')
  have hle' := hL.lease_step hn hmax hi heff ho
  exact ⟨o₀, ho₀, by omega⟩

end Step

lemma Initial.limited {n : ℕ} (h : s.Initial w₀) : s.Limited n (⟨w₀, []⟩ : BView B C) where
  lease x o ho := absurd ((h.slot _).symm.trans ho) (by simp)
  heldAt x d k hd := by
    obtain ⟨p, hp, -⟩ := hd
    exact absurd hp List.not_mem_nil
  dead x d hd := absurd ((h.slot _).symm.trans hd) (by simp)
  full x d _ _ hp := absurd (h.slot _) hp

variable (s) in
/-- If the dead record of the id is there when the step is made, a lease record that the step writes
is within the limit and, while the payload is there, has the count of the record it replaces. -/
def Settled (n : ℕ) (x : String) (p : World B C × BEvent B C × World B C) : Prop :=
  s.slot p.1 .dead x ≠ none → ∀ o, s.slot p.2.2 .lease x = some o →
    s.slot p.1 .lease x ≠ some o → count o ≤ n ∧
      (s.slot p.1 .payload x ≠ none → ∃ o₀, s.slot p.1 .lease x = some o₀ ∧ count o = count o₀)

/-- The limit is kept along a run, and so every step at which the dead record is there is settled. -/
lemma limited_run (hb : (bk s.bucket).Fresh) (hl : (bk s.bucket).ListsStored)
    (h₀ : s.Initial w₀) {n : ℕ} (hn : 0 < n) (hmax : ∀ d, s.maxReceives d = n)
    (hc : Reach (s.machine bk flt) s.neverReused w₀ c) :
    s.Limited n c.view ∧ (¬ Acked c.view x → ∀ p ∈ c.view.steps, s.Settled n x p) := by
  have hsound := sound flt hb hl h₀
  induction hc with
  | init => exact ⟨h₀.limited, fun _ p hp => absurd hp List.not_mem_nil⟩
  | @step c c' e hc hs ha ih =>
      obtain ⟨hL, hpast⟩ := ih
      have hi : s.Inv bk c.view := (hsound.reach hc).1
      rcases hsound.step_guar hc hs ha with ⟨d, w, hw, -, hv⟩ | ⟨t, ht, -, hg⟩
      · obtain rfl := Option.some.inj hw
        rw [hv]
        refine ⟨hL.advance d, fun hack p hp => ?_⟩
        rcases List.mem_cons.mp hp with rfl | hp
        · exact fun _ o ho hne => absurd ho hne
        · exact hpast (fun h => hack (h.mono (View.le_push _ _ _))) p hp
      · obtain ⟨w, hv⟩ := hs.push
        rw [hv] at hg ⊢
        refine ⟨hL.step hn hmax hi ht hg.effect, fun hack p hp => ?_⟩
        have hack' : ¬ Acked c.view x := fun h => hack (h.mono (View.le_push _ _ _))
        rcases List.mem_cons.mp hp with rfl | hp
        · exact fun hdead o ho _ => ⟨hL.lease_step hn hmax hi hg.effect ho,
            fun hp => hL.lease_buried hn hmax hi hg.effect hack' hdead hp ho⟩
        · exact hpast hack' p hp

/-- **The dead-letter move is exact.**  With `WithMaxReceives(n)` on every worker, in a run without an
`Ack` for the id: a dead record is the one payload the id has had, with the count `n`; the payload is
missing only if the dead record holds it; and once the dead record is there, no lease write goes above
`n`, none changes the count while the payload is there, and every delivery rests on a claim made
before. -/
theorem burial_exact (hb : (bk s.bucket).Fresh) (hl : (bk s.bucket).ListsStored)
    (h₀ : s.Initial w₀) {n : ℕ} (hn : 0 < n) (hmax : ∀ d, s.maxReceives d = n)
    (hc : Reach (s.machine bk flt) s.neverReused w₀ c) (hack : ¬ Acked c.view x) :
    (∀ d, s.slot c.view.world .dead x = some d →
      ∃ o, s.Committed c.view x o ∧ (∀ o', s.Committed c.view x o' → o' = o) ∧
        IsBurialOf n d o) ∧
    (∀ o, s.Committed c.view x o → s.slot c.view.world .payload x = none →
      s.slot c.view.world .dead x ≠ none) ∧
    (∀ p ∈ c.view.steps, s.Settled n x p) ∧
    ∀ d r, Delivered c.view.world d x r →
      ∃ p ∈ c.view.steps, s.IsRaise x d r p ∧ s.slot p.1 .dead x = none := by
  have hi : s.Inv bk c.view := ((sound flt hb hl h₀).reach hc).1
  obtain ⟨hL, hsettled⟩ := limited_run (x := x) hb hl h₀ hn hmax hc
  refine ⟨fun d hd => ?_, fun o ho hnone => ?_, hsettled hack, fun d r hd => ?_⟩
  · obtain ⟨-, o, ho, hburial⟩ := hL.dead x d hd
    exact ⟨o, ho, fun o' ho' => hi.unique x o' o ho' ho, hburial⟩
  · rcases hi.kept x o ho with hp | hacked | ⟨d, k, hd, -⟩
    · exact absurd (hnone.symm.trans hp) (by simp)
    · exact absurd hacked hack
    · simp [hd]
  · obtain ⟨p, hp, hraise⟩ := (hi.raised_of_delivered hd).1
    refine ⟨p, hp, hraise, ?_⟩
    by_contra hdead
    -- a raise at which the dead record is there would change the count under the payload
    obtain ⟨-, hpay, ⟨o, ho, -, rfl⟩, hlt⟩ := id hraise
    have hne : s.slot p.1 .lease x ≠ some o := fun h => absurd (hlt o h) (lt_irrefl _)
    obtain ⟨o₀, ho₀, hcount⟩ := (hsettled hack p hp hdead o ho hne).2 hpay
    have hlt₀ := hlt o₀ ho₀
    omega

/-- With a limit of one delivery, the first worker is delivered the message and stops; the second
moves it to the dead letters, where it is as it was enqueued, with the count one. -/
theorem burial_exact_single :
    ∃ c, Reach ((trio 1).machine (fun _ => memBackend) ⟨true, true⟩) (trio 1).neverReused
        pristine c ∧
      (trio 1).slot c.view.world .payload "m" = none ∧
      ∃ d, (trio 1).slot c.view.world .dead "m" = some d ∧
        ∃ o, (trio 1).Committed c.view "m" o ∧ (∀ o', (trio 1).Committed c.view "m" o' → o' = o) ∧
          IsBurialOf 1 d o := by
  obtain ⟨c, hreach, htest⟩ := trio_reach 1 ⟨true, true⟩
    (enqueued 0 .empty ++ received 1 ++ elapsed 30 ++ looked 2 ++ calls 2 .main 7)
    (fun c => ((trio 1).slot c.view.world .payload "m").isNone &&
      ((trio 1).slot c.view.world .dead "m").isSome && decide (¬ Acked c.view "m"))
    (by decide +kernel)
  simp only [Bool.and_eq_true, decide_eq_true_eq, Option.isNone_iff_eq_none,
    Option.isSome_iff_exists] at htest
  obtain ⟨⟨hpay, d, hd⟩, hack⟩ := htest
  exact ⟨c, hreach, hpay, d, hd, (burial_exact memBackend_fresh memBackend_listsStored
    (trio_initial 1) (by decide) (fun _ => rfl) hreach hack).1 d hd⟩

/-! ## A count raised after the burial -/

/-- A producer and five workers on a queue that delivers a message at most twice. -/
def sextet : QueueSetup Unit (Fin 6) where
  bucket := ()
  lease _ := 30
  headWindow _ := 100
  maxReceives _ := 2
  owner := !["p", "a", "b", "c", "d", "e"]
  owner_inj := by decide
  uuid _ := "u"

/-- **The count of a buried id can be raised.**  Two workers list the queue while the message is still
there.  After it has been moved to the dead letters and its lease is gone, the first of them creates
the lease anew and stops; when that lease has run out, the second raises its count. -/
theorem count_raised_buried :
    ∃ c, Reach (sextet.machine (fun _ => memBackend) ⟨false, false⟩) sextet.neverReused
        pristine c ∧ ¬ Acked c.view "m" ∧
      ∃ p ∈ c.view.steps, sextet.slot p.1 .dead "m" ≠ none ∧
        ∃ o₀ o, sextet.slot p.1 .lease "m" = some o₀ ∧ sextet.slot p.2.2 .lease "m" = some o ∧
          count o₀ < count o := by
  obtain ⟨c, hreach, htest⟩ := firstUse_reach sextet ⟨false, false⟩ _
    (enqueued 0 .empty ++ received 1 ++ elapsed 30 ++ received 2 ++ elapsed 30 ++ listed 4 ++
      listed 5 ++ looked 3 ++ calls 3 .main 7 ++ calls 4 .main 3 ++ elapsed 30 ++ calls 5 .main 3)
    (fun c => decide (¬ Acked c.view "m") && c.view.steps.any fun p =>
      (sextet.slot p.1 .dead "m").isSome && (sextet.slot p.1 .lease "m").any fun o₀ =>
        (sextet.slot p.2.2 .lease "m").any fun o => decide (count o₀ < count o))
    (by decide +kernel)
  simp only [Bool.and_eq_true, decide_eq_true_eq, List.any_eq_true, Option.any_eq_true,
    Option.isSome_iff_ne_none] at htest
  obtain ⟨hack, p, hp, hdead, o₀, ho₀, o, ho, hlt⟩ := htest
  exact ⟨c, hreach, hack, p, hp, hdead, o₀, o, ho₀, ho, hlt⟩

end QueueSetup

end Blobster
