import Mathlib.Data.Finset.Card
import Mathlib.Order.Interval.Finset.Nat
import Blobster.Bucket.Mem
import Blobster.Queue.Soundness

/-!
# Exclusive leases and capped deliveries

What the contract gives a user of a queue whose ids are never reused.

* **`leases_exclusive`** — at most one handle for a message is live, and a client with a handle
  never touches a lease record that is not its own while the payload is there.
* **`deliveries_capped`** — without an `Ack`, receive counts only grow, every delivery of a message
  has a count of its own between one and the limit, so there are at most that many.

Each is followed by a run of the machine on the mem driver in which its assumptions hold.
-/

set_option linter.unusedSectionVars false

namespace Blobster

open Interleave Contract

namespace QueueSetup

variable {B C : Type} [DecidableEq B] [DecidableEq C] {s : QueueSetup B C} {bk : B → Backend}
  {flt : Faults} {w₀ : World B C} {c : Config (bucketSig B) (World B C) (Thread C)} {x : String}

/-- The client's handle for the message is live. -/
def Live (w : World B C) (d : C) (x : String) : Prop :=
  ∃ m, (w.mem d).message = some m ∧ m.id = x ∧ m.finished = false ∧ w.clock < m.leaseUntil

instance (w : World B C) (d : C) (x : String) : Decidable (Live w d x) :=
  decidable_of_iff ((w.mem d).message.any fun m =>
      decide (m.id = x) && !m.finished && decide (w.clock < m.leaseUntil)) <| by
    simp [Live, Option.any_eq_true, and_assoc]

lemma Inv.holder_of_live {v : BView B C} {d : C} (hi : s.Inv bk v) (h : Live v.world d x) :
    s.Holder v x d := by
  obtain ⟨m, hm, rfl, hfin, hlt⟩ := h
  rcases (hi.handle d m hm).keeps with hk | hcl
  · exact (hk hlt).holder
  · exact absurd (hfin.symm.trans hcl.2.2) (by simp)

/-- With a handle for the message, a client's step leaves a lease record alone that is not its
own. -/
lemma lease_of_foreign {t : Thread C} {v : BView B C} {w' : World B C} {m : Message} {o : Object}
    (heff : s.Effect t v w') (hm : (v.world.mem t.1).message = some m)
    (hp : s.slot v.world .payload x ≠ none) (ho : s.slot v.world .lease x = some o)
    (hown : ¬ s.OwnedBy t.1 o) : s.slot w' .lease x = some o := by
  have hother : ∀ {k x'}, s.OnlySlot v.world w' k x' → (Slot.lease ≠ k ∨ x ≠ x') →
      s.slot w' .lease x = some o := by
    rintro k x' honly (hk | hx)
    · exact (honly.of_slot hk).trans ho
    · exact (honly.of_id hx).trans ho
  cases heff with
  | quiet h => exact (h _ _).trans ho
  | enqueue x' _ _ honly => exact hother honly (.inl (by simp))
  | claim _ _ _ hnone => exact absurd (hnone.symm.trans hm) (by simp)
  | hold _ _ _ _ hnone => exact absurd (hnone.symm.trans hm) (by simp)
  | rewrite x' o' m' _ _ honly _ _ hover _ =>
      by_cases hx : x = x'
      · subst hx
        obtain ⟨o₀, ho₀, hown₀, -⟩ := hover hp
        obtain rfl := Option.some.inj (ho.symm.trans ho₀)
        exact absurd hown₀ hown
      · exact hother honly (.inr hx)
  | release x' _ honly _ hrel =>
      by_cases hx : x = x'
      · subst hx
        obtain ⟨-, m', o₀, -, -, ho₀, hown₀⟩ := hrel hp
        obtain rfl := Option.some.inj (ho.symm.trans ho₀)
        exact absurd hown₀ hown
      · exact hother honly (.inr hx)
  | remove x' _ _ honly => exact hother honly (.inl (by simp))
  | bury x' _ _ _ _ _ honly => exact hother honly (.inl (by simp))

/-- **Leases are exclusive.**  In every reachable state at most one handle for a message is live;
and while the payload is there, no step of a client with a handle for the message deletes or
rewrites a lease record that is not its own. -/
theorem leases_exclusive (hb : (bk s.bucket).Fresh) (hl : (bk s.bucket).ListsStored)
    (h₀ : s.Initial w₀) (hc : Reach (s.machine bk flt) s.neverReused w₀ c) (x : String) :
    (∀ d d', Live c.view.world d x → Live c.view.world d' x → d = d') ∧
    ∀ e c' t m o, Step (s.machine bk flt) c e c' → s.neverReused c.view e → e.thread = some t →
      (c.view.world.mem t.1).message = some m → m.id = x →
      s.slot c.view.world .payload x ≠ none → s.slot c.view.world .lease x = some o →
      ¬ s.OwnedBy t.1 o → s.slot c'.view.world .lease x = some o := by
  have hsound := sound flt hb hl h₀
  have hi : s.Inv bk c.view := (hsound.reach hc).1
  constructor
  · intro d d' hd hd'
    exact (hi.holder_of_live hd).unique (hi.holder_of_live hd')
  · intro e c' t m o hs ha ht hm _ hp ho hown
    rcases hsound.step_guar hc hs ha with ⟨d, w, hw, -, hv⟩ | ⟨u, hu, -, hg⟩
    · obtain rfl := Option.some.inj hw
      rw [hv]
      exact ho
    · obtain rfl := Option.some.inj (ht.symm.trans hu)
      exact lease_of_foreign hg.effect hm hp ho hown

/-- A producer and two workers on a queue that delivers a message at most `n` times. -/
def trio (n : ℕ) : QueueSetup Unit (Fin 3) where
  bucket := ()
  lease _ := 30
  headWindow _ := 100
  maxReceives _ := n
  owner := !["p", "a", "b"]
  owner_inj := by decide
  uuid _ := "u"

/-- The world in which nothing has happened. -/
def pristine {C : Type} : World Unit C := ⟨0, fun _ => {}, fun _ => {}⟩

lemma trio_initial (n : ℕ) : (trio n).Initial pristine := ⟨rfl, fun _ => rfl⟩

/-- A schedule that never reuses an id is a run in which ids are never reused. -/
lemma firstUse_reach {C E : Type} [DecidableEq C] (s : QueueSetup Unit C) (flt : Faults)
    (env : E → World Unit C → Option (World Unit C))
    (as : List (Action (bucketMachine (fun _ => memBackend) flt s.start env)))
    (p : Config (bucketSig Unit) (World Unit C) (Thread C) → Bool)
    (h : ((bucketMachine (fun _ => memBackend) flt s.start env).run
      (Config.init _ _ pristine) as).any
      (fun c => admitsAll s.isFirstUse c.view.hist && p c) = true) :
    ∃ c, Reach (bucketMachine (fun _ => memBackend) flt s.start env) s.neverReused pristine c ∧
      p c = true :=
  reach_of_run_adm (fun _ _ => neverReused_of_isFirstUse) h

lemma trio_reach (n : ℕ) (flt : Faults)
    (as : List (Action ((trio n).machine (fun _ => memBackend) flt)))
    (p : Config (bucketSig Unit) (World Unit (Fin 3)) (Thread (Fin 3)) → Bool)
    (h : (((trio n).machine (fun _ => memBackend) flt).run (Config.init _ _ pristine) as).any
      (fun c => admitsAll (trio n).isFirstUse c.view.hist && p c) = true) :
    ∃ c, Reach ((trio n).machine (fun _ => memBackend) flt) (trio n).neverReused pristine c ∧
      p c = true :=
  firstUse_reach _ _ _ as p h

section Schedules

variable {C E : Type} [DecidableEq C] {s : QueueSetup Unit C} {flt : Faults}
  {env : E → World Unit C → Option (World Unit C)}

variable (s flt env) in
/-- What is played on a queue over the mem driver. -/
abbrev Schedule := List (Action (bucketMachine (fun _ => memBackend) flt s.start env))

/-- The client enqueues the message `m`. -/
def enqueued (c : C) (body : ByteArray) : Schedule s flt env :=
  [.start (c, .main) (.enqueueWithID "m" body []), .call (c, .main) .ok]

/-- The client lists the queue. -/
def listed (c : C) : Schedule s flt env :=
  [.start (c, .main) .tryReceive, .call (c, .main) (.page ["msg/m"] .done),
    .call (c, .main) (.pick 0)]

/-- The client lists the queue and reads the lease of `m` and the clock. -/
def looked (c : C) : Schedule s flt env :=
  [.start (c, .main) .tryReceive, .call (c, .main) (.page ["msg/m"] .done),
    .call (c, .main) (.pick 0), .call (c, .main) .ok, .call (c, .main) .ok]

/-- The client makes its next `k` calls, all of which succeed. -/
def calls (c : C) (g : Goroutine) (k : ℕ) : Schedule s flt env :=
  List.replicate k (.call (c, g) .ok)

/-- The client claims `m`: the lease write and its read-back, the payload check, the handle. -/
def received (c : C) : Schedule s flt env :=
  looked c ++ calls c .main 4

/-- The client's renewer is told to stop and exits. -/
def stoppedRenewing (c : C) : Schedule s flt env :=
  [.start (c, .renewer) (.renewMessage 1), .call (c, .renewer) (.branch true),
    .call (c, .renewer) .ok]

/-- The client settles its handle by `Ack` or `Nack`, up to its first call on the bucket. -/
def settled (c : C) (e : Entry) : Schedule s flt env :=
  [.start (c, .main) e] ++ calls c .main 2 ++ stoppedRenewing c ++ calls c .main 2

/-- Time passes. -/
def elapsed (d : ℕ) : Schedule s flt fun (d : ℕ) w => some (w.advance d) := [.env d]

end Schedules

/-- The first worker claims the message and stops; when its lease has run out, the second takes
over, and its handle is the only live one. -/
theorem leases_exclusive_takeover :
    ∃ c, Reach ((trio 5).machine (fun _ => memBackend) ⟨true, true⟩) (trio 5).neverReused
        pristine c ∧
      Live c.view.world 2 "m" ∧ ∀ d, Live c.view.world d "m" → d = 2 := by
  obtain ⟨c, hreach, hlive⟩ := trio_reach 5 ⟨true, true⟩
    (enqueued 0 .empty ++ received 1 ++ elapsed 30 ++ received 2)
    (fun c => decide (Live c.view.world 2 "m")) (by decide +kernel)
  have hlive := of_decide_eq_true hlive
  refine ⟨c, hreach, hlive, fun d hd => ?_⟩
  exact (leases_exclusive memBackend_fresh memBackend_listsStored (trio_initial 5) hreach "m").1
    d 2 hd hlive

/-! ## Receive counts -/

/-- The client has been delivered the message, with the receive count `r`. -/
abbrev Delivered (w : World B C) (d : C) (x : String) (r : ℕ) : Prop := Carries w d x r

lemma Inv.raised_of_delivered {v : BView B C} {d : C} {r : ℕ} (hi : s.Inv bk v)
    (h : Delivered v.world d x r) :
    s.Raised v x d r ∧ 1 ≤ r ∧ (0 < s.maxReceives d → r ≤ s.maxReceives d) := by
  obtain ⟨m, hm, rfl, rfl⟩ := h
  have hok := hi.handle d m hm
  exact ⟨hok.raised.raised, hok.pos, hok.cap⟩

/-- **Counts grow and deliveries are capped.**  With `WithMaxReceives(n)` on every worker, in a run
without an `Ack` for the id: no step lowers the count of its lease record while the payload is
there, the deliveries of the message have pairwise different counts in `1..n`, and so there are at
most `n` of them. -/
theorem deliveries_capped (hb : (bk s.bucket).Fresh) (hl : (bk s.bucket).ListsStored)
    (h₀ : s.Initial w₀) {n : ℕ} (hn : 0 < n) (hmax : ∀ d, s.maxReceives d = n)
    (hc : Reach (s.machine bk flt) s.neverReused w₀ c) (hack : ¬ Acked c.view x) :
    (∀ p ∈ c.view.steps, s.slot p.1 .payload x ≠ none → ∀ o, s.slot p.1 .lease x = some o →
      ∃ o', s.slot p.2.2 .lease x = some o' ∧ count o ≤ count o') ∧
    (∀ d r, Delivered c.view.world d x r → r ∈ Finset.Icc 1 n) ∧
    (∀ d d' r, Delivered c.view.world d x r → Delivered c.view.world d' x r → d = d') ∧
    ∀ D : Finset C, (∀ d ∈ D, ∃ r, Delivered c.view.world d x r) → D.card ≤ n := by
  have hsound := sound flt hb hl h₀
  have hi : s.Inv bk c.view := (hsound.reach hc).1
  have hrange : ∀ d r, Delivered c.view.world d x r → r ∈ Finset.Icc 1 n := by
    intro d r hd
    obtain ⟨-, hpos, hcap⟩ := hi.raised_of_delivered hd
    rw [hmax d] at hcap
    exact Finset.mem_Icc.mpr ⟨hpos, hcap hn⟩
  have hinj : ∀ d d' r, Delivered c.view.world d x r → Delivered c.view.world d' x r → d = d' :=
    fun d d' r hd hd' => hi.raised_inj x hack d d' r (hi.raised_of_delivered hd).1
      (hi.raised_of_delivered hd').1
  refine ⟨fun p hp hpay o ho => ?_, hrange, hinj, fun D hD => ?_⟩
  · obtain ⟨v, -, hv, hle, ⟨d, w, hw, -, heq⟩ | ⟨t, -, -, hg⟩⟩ := hsound.steps hc hp
    · obtain rfl := Option.some.inj hw
      have hw' : p.2.2 = v.world.advance d := congrArg View.world heq
      rw [hw']
      exact ⟨o, by rw [← hv] at ho; exact ho, le_rfl⟩
    · have hack' : ¬ Acked v x := fun h => hack ((h.mono (View.le_push _ _ _)).mono hle)
      rw [← hv] at hpay ho
      exact lease_effect hg.effect hack' hpay ho
  · choose! r hr using hD
    have hcard := Finset.card_le_card_of_injOn (s := D) (t := Finset.Icc 1 n) r
      (fun d hd => hrange d _ (hr d hd))
      (fun d hd d' hd' heq => hinj d d' (r d) (hr d hd) (heq ▸ hr d' hd'))
    simpa using hcard

/-- A message that may be delivered twice is delivered to the first worker, nacked, and delivered to
the second, with the counts one and two. -/
theorem deliveries_capped_nack :
    ∃ c, Reach ((trio 2).machine (fun _ => memBackend) ⟨true, true⟩) (trio 2).neverReused
        pristine c ∧
      Delivered c.view.world 1 "m" 1 ∧ Delivered c.view.world 2 "m" 2 ∧
      ∀ D : Finset (Fin 3), (∀ d ∈ D, ∃ r, Delivered c.view.world d "m" r) → D.card ≤ 2 := by
  obtain ⟨c, hreach, htest⟩ := trio_reach 2 ⟨true, true⟩
    (enqueued 0 .empty ++ received 1 ++ settled 1 .nack ++ calls 1 .main 3 ++ received 2)
    (fun c => decide (Delivered c.view.world 1 "m" 1) && decide (Delivered c.view.world 2 "m" 2) &&
      decide (¬ Acked c.view "m")) (by decide +kernel)
  simp only [Bool.and_eq_true, decide_eq_true_eq] at htest
  obtain ⟨⟨h₁, h₂⟩, hack⟩ := htest
  exact ⟨c, hreach, h₁, h₂, (deliveries_capped memBackend_fresh memBackend_listsStored
    (trio_initial 2) (by decide) (fun _ => rfl) hreach hack).2.2.2⟩

end QueueSetup

end Blobster
