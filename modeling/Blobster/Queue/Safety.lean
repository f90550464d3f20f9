import Blobster.Queue.Invariant

/-!
# Enqueue and receive keep the contract

What the queue's clients promise each other when ids are never reused (`contract`), and the symbolic
execution of `Enqueue` and of `TryReceive` with its dead-letter branch against it, one call at a
time.  The renewer, `Ack` and `Nack` follow in `Blobster.Queue.Soundness`.

Two arguments carry it.

* A claim is only as good as the payload check that follows it: until then a claimer knows that it
  is entitled *or* that the payload is gone (`Claiming`).
* A dead-letter move writes the dead record from the payload it then deletes; ids are not reused, so
  there is only one payload it can have read (`Buried`).

* `Guar`, `contract` — the promise of a client, and the contract.
* **`safe_tryClaim`** — a claim keeps it, whatever it finds.
-/

set_option linter.unusedSectionVars false

namespace Blobster

open Interleave Contract

namespace QueueSetup

variable {B C : Type} [DecidableEq B] [DecidableEq C] (s : QueueSetup B C) (bk : B → Backend)

/-- What a client promises about each of its steps. -/
structure Guar (t : Thread C) (v v' : BView B C) : Prop where
  clock : v'.world.clock = v.world.clock
  follows : (v.world.store s.bucket).Follows (v'.world.store s.bucket)
  frame : ∀ d, d ≠ t.1 → v'.world.mem d = v.world.mem d
  effect : s.Effect t v v'.world
  handle : HandleStep t.2 (v.world.mem t.1) (v'.world.mem t.1)

/-- The contract of the queue's clients, for ids that are never reused. -/
def contract (flt : Faults) : Contract (s.machine bk flt) where
  adm := s.neverReused
  inv := s.Inv bk
  guar := s.Guar
  idle _ _ := True

variable {s bk} {flt : Faults} {t : Thread C} {v v' : BView B C} {c : C} {x : String}

lemma Guar.quiet {e : BEvent B C} (h : Active t v.world) : s.Guar t v (v.push e v.world) where
  clock := rfl
  follows := .refl _
  frame _ _ := rfl
  effect := .quiet fun _ _ => rfl
  handle := h.handleStep

lemma Guar.setMem {e : BEvent B C} {m : Mem} (h : HandleStep t.2 (v.world.mem t.1) m) :
    s.Guar t v (v.push e (v.world.setMem t.1 m)) where
  clock := rfl
  follows := .refl _
  frame _ hd := World.setMem_mem_ne v.world t.1 m hd
  effect := .quiet fun _ _ => rfl
  handle := by simpa using h

lemma handles : Handles (s.contract bk flt) where
  env := by
    rintro v v' ⟨d, w, hw, -, rfl⟩
    obtain rfl := Option.some.inj hw
    rfl
  frame hg := hg.frame
  handle hg := hg.handle
  quiet _ hi ha := ⟨.quiet ha, Inv.quiet hi⟩
  flags _ _ hi hstep hf hcl :=
    ⟨.setMem hstep, Inv.onMessage hi fun m hm => (Inv.handle hi _ m hm).of_flags (hf m) (hcl m)⟩

/-! ## Interference -/

lemma interf_cases (h : (s.contract bk flt).Interf t v v') :
    (∃ d : ℕ, v' = v.push .env (v.world.advance d)) ∨
      ∃ u e w, u ≠ t ∧ v' = v.push e w ∧ s.Guar u v v' := by
  obtain ⟨-, -, ⟨d, w, hw, -, rfl⟩ | ⟨u, hu, ⟨e, w, -, hv⟩, hg⟩⟩ := h
  · obtain rfl := Option.some.inj hw
    exact .inl ⟨d, rfl⟩
  · exact .inr ⟨u, e, w, hu, hv, hg⟩

lemma rely_clock (h : (s.contract bk flt).Rely t v v') : v.world.clock ≤ v'.world.clock := by
  refine Rely.of_step (R := fun v v' => v.world.clock ≤ v'.world.clock) (fun _ => le_rfl)
    le_trans (fun hs => ?_) h
  obtain ⟨d, rfl⟩ | ⟨u, e, w, -, -, hg⟩ := interf_cases hs
  · simp [World.advance]
  · exact hg.clock.ge

lemma rely_follows (h : (s.contract bk flt).Rely t v v') :
    (v.world.store s.bucket).Follows (v'.world.store s.bucket) := by
  refine Rely.of_step (R := fun v v' =>
    (v.world.store s.bucket).Follows (v'.world.store s.bucket)) (fun _ => .refl _)
    .trans (fun hs => ?_) h
  obtain ⟨d, rfl⟩ | ⟨u, e, w, -, -, hg⟩ := interf_cases hs
  · exact .refl _
  · exact hg.follows

/-- What the others do to such a goroutine's messages. -/
lemma interf_split (h : (s.contract bk flt).Interf t v v') (hm : Mine t v.world) :
    ∃ e w, v' = v.push e w ∧
      (((∀ k x, s.slot w k x = s.slot v.world k x) ∧ v.world.clock ≤ w.clock) ∨
        ∃ u, u.1 ≠ t.1 ∧ s.Effect u v w ∧ w.clock = v.world.clock) := by
  obtain ⟨d, rfl⟩ | ⟨u, e, w, hu, rfl, hg⟩ := interf_cases h
  · exact ⟨_, _, rfl, .inl ⟨fun _ _ => rfl, by simp [World.advance]⟩⟩
  · refine ⟨e, w, rfl, ?_⟩
    by_cases hut : u.1 = t.1
    · refine .inl ⟨?_, hg.clock.ge⟩
      obtain ⟨c, g⟩ := t
      obtain ⟨c', g'⟩ := u
      obtain rfl : c' = c := hut
      cases g with
      | main =>
          obtain rfl : g' = .renewer := by cases g' <;> simp_all
          obtain ⟨m, hmsg, -⟩ := hg.handle
          exact absurd (hm.2.symm.trans hmsg) (by simp)
      | renewer =>
          obtain rfl : g' = .main := by cases g' <;> simp_all
          obtain ⟨m, hmsg, hstop⟩ := hm
          have hnot : ¬ MainActs (c', .main) v.world := by
            rintro ⟨-, hacts⟩
            exact absurd ((hacts m hmsg).2.1.symm.trans hstop) (by simp)
          cases hg.effect with
          | quiet h => exact h
          | rewrite _ _ _ _ _ _ _ _ _ hacts =>
              rcases hacts with hacts | ⟨hr, -⟩
              · exact absurd hacts hnot
              · cases hr
          | enqueue _ _ hacts => exact absurd hacts hnot
          | claim _ _ hacts => exact absurd hacts hnot
          | hold _ _ _ hacts => exact absurd hacts hnot
          | release _ hacts => exact absurd hacts hnot
          | remove _ _ hacts => exact absurd hacts hnot
          | bury _ _ _ _ hacts => exact absurd hacts hnot
    · exact .inr ⟨u, hut, hg.effect, hg.clock⟩

lemma keeps_rely {d : ℤ} (h : (s.contract bk flt).Rely t v v') (hm : Mine t v.world)
    (hk : s.Keeps v t.1 x d) : s.Keeps v' t.1 x d := by
  refine (h.stable (P := fun v => Mine t v.world ∧ s.Keeps v t.1 x d) ?_ ⟨hm, hk⟩).2
  rintro v v' hs ⟨hm, hk⟩
  refine ⟨mine_interf handles hs hm, ?_⟩
  obtain ⟨e, w, rfl, ⟨hslot, hclock⟩ | ⟨u, hu, heff, hclock⟩⟩ := interf_split hs hm
  · exact keeps_same hk hclock (hslot _ _) (hslot _ _)
  · exact keeps_effect heff hclock hu hk

lemma ownCount_rely {r : ℕ} (h : (s.contract bk flt).Rely t v v') (hm : Mine t v.world)
    (hknown : s.Known v x) (hc : s.OwnCount v.world t.1 x r) : s.OwnCount v'.world t.1 x r := by
  refine (h.stable (P := fun v => (Mine t v.world ∧ s.Known v x) ∧ s.OwnCount v.world t.1 x r)
    ?_ ⟨⟨hm, hknown⟩, hc⟩).2
  rintro v v' hs ⟨⟨hm, hknown⟩, hc⟩
  obtain ⟨e, w, rfl, ⟨hslot, -⟩ | ⟨u, hu, heff, -⟩⟩ := interf_split hs hm
  · refine ⟨⟨mine_interf handles hs hm, hknown.mono (View.le_push _ _ _)⟩, fun hne o ho => ?_⟩
    rw [View.push_world, hslot] at hne ho
    exact hc hne o ho
  · exact ⟨⟨mine_interf handles hs hm, hknown.mono (View.le_push _ _ _)⟩,
      ownCount_effect heff hu hknown hc⟩

lemma gone_rely (h : (s.contract bk flt).Rely t v v') (hg : s.Gone v x) : s.Gone v' x := by
  refine h.stable (P := fun v => s.Gone v x) (fun hs hg => ?_) hg
  obtain ⟨d, rfl⟩ | ⟨u, e, w, -, rfl, hgu⟩ := interf_cases hs
  · exact ⟨hg.1.mono (View.le_push _ _ _), hg.2⟩
  · exact gone_effect hgu.effect hg

/-- The others do not write the lease in the client's name. -/
lemma raisedLast_rely {r : ℕ} (h : (s.contract bk flt).Rely (c, .main) v v')
    (hr : s.RaisedLast v x c r) : s.RaisedLast v' x c r := by
  refine h.stable (P := fun v => s.RaisedLast v x c r) (fun hs hr => ?_) hr
  obtain ⟨-, -, ⟨d, w, -, -, rfl⟩ | ⟨u, hu, ⟨e, w, he, rfl⟩, -⟩⟩ := hs
  · exact hr.push fun hthread => by cases hthread
  · exact hr.push fun hthread => absurd (Option.some.inj (he.symm.trans hthread)) hu

/-! ## The steps of a client -/

/-- A commit to the bucket. -/
lemma step_commit {e : BEvent B C} {st : Store} (hi : s.Inv bk v) (ha : Active t v.world)
    (hok : st.Ok (bk s.bucket)) (hf : (v.world.store s.bucket).Follows st)
    (heff : s.Effect t v (v.world.setStore s.bucket st)) :
    s.Guar t v (v.push e (v.world.setStore s.bucket st)) ∧
      s.Inv bk (v.push e (v.world.setStore s.bucket st)) :=
  ⟨⟨rfl, by simpa using hf, fun _ _ => rfl, heff, ha.handleStep⟩,
    hi.effect heff rfl rfl (by simpa using hok) (by simpa using hf)⟩

lemma step_put {e : BEvent B C} {key : String} {body : ByteArray} {md : Metadata}
    (hi : s.Inv bk v) (ha : Active t v.world)
    (heff : s.Effect t v (v.world.setStore s.bucket
      ((v.world.store s.bucket).put (bk s.bucket) key body md))) :
    s.Guar t v (v.push e (v.world.setStore s.bucket
        ((v.world.store s.bucket).put (bk s.bucket) key body md))) ∧
      s.Inv bk (v.push e (v.world.setStore s.bucket
        ((v.world.store s.bucket).put (bk s.bucket) key body md))) :=
  step_commit hi ha hi.store.put .put heff

lemma step_erase {e : BEvent B C} {key : String} (hi : s.Inv bk v) (ha : Active t v.world)
    (heff : s.Effect t v (v.world.setStore s.bucket ((v.world.store s.bucket).erase key))) :
    s.Guar t v (v.push e (v.world.setStore s.bucket ((v.world.store s.bucket).erase key))) ∧
      s.Inv bk (v.push e (v.world.setStore s.bucket ((v.world.store s.bucket).erase key))) :=
  step_commit hi ha hi.store.erase .erase heff

/-! ### Enqueue -/

lemma safe_writePayload {body : ByteArray} {attrs : Metadata} {α : Type}
    {Q : α → BView B C → Prop} {k : Except Err Unit → BProg B α} (hm : Mine (c, .main) v.world)
    (hk : ∀ r v', (s.contract bk flt).Safe (c, .main) Q (k r) v') :
    (s.contract bk flt).Safe (c, .main) Q ((s.queue c).writePayload x body attrs >>= k) v := by
  refine safe_writeAll (fun v₁ hr₁ hi₁ r st hst _ hadm => ?_) (fun v₁ hr₁ hi₁ e _ _ =>
    ⟨.quiet (active_main _), hi₁.quiet, hk _ _⟩)
  obtain ⟨hnone, rfl⟩ := Store.write_ifNotExists_ok hst
  have hnew : ¬ s.Known v₁ x := hadm _ x _ _ _ _ rfl hnone
  have heff := Effect.enqueue (s := s) x _ (mine_rely handles hr₁ hm).mainActs
    (only_put v₁.world (bk s.bucket)) (s.slot_put_self v₁.world (bk s.bucket) body attrs) hnew
  exact ⟨(step_put hi₁ (active_main _) heff).1, (step_put hi₁ (active_main _) heff).2, hk _ _⟩

lemma safe_enqueue {uuid : String} {body : ByteArray} {attrs : Metadata}
    (hm : Mine (c, .main) v.world) :
    (s.contract bk flt).Safe (c, .main) (fun _ _ => True)
      ((s.queue c).enqueue uuid body attrs) v := by
  refine safe_now fun v₁ hr₁ hi₁ _ => ⟨.quiet (active_main _), hi₁.quiet, ?_⟩
  have hm₁ := mine_rely handles hr₁ hm
  refine safe_writePayload hm₁ fun r v₂ => ?_
  split <;> exact .ret fun _ _ _ => trivial

lemma safe_enqueueWithID {id : String} {body : ByteArray} {attrs : Metadata}
    (hm : Mine (c, .main) v.world) :
    (s.contract bk flt).Safe (c, .main) (fun _ _ => True)
      ((s.queue c).enqueueWithID id body attrs) v := by
  unfold Queue.enqueueWithID
  split
  · exact .ret fun _ _ _ => trivial
  · refine safe_writePayload hm fun r v₂ => ?_
    split <;> exact .ret fun _ _ _ => trivial

/-! ### Lease records -/

/-- `writeLease`: whatever the commit establishes, and whatever version is read back. -/
lemma safe_writeLease {now : ℤ} {r : ℕ} {pre : Precondition} {P : BView B C → Prop}
    (hm : Mine t v.world)
    (hP : ∀ {v v'}, (s.contract bk flt).Rely t v v' → Mine t v.world → P v → P v')
    (hq : ∀ {v} {e : BEvent B C}, P v → P (v.push e v.world))
    (hcommit : ∀ v', (s.contract bk flt).Rely t v v' → s.Inv bk v' → ∀ st,
      (v'.world.store s.bucket).write (bk s.bucket) (Slot.lease.key x) .empty
        ((s.queue t.1).leaseRecord (s.owner t.1) now r) [pre] = .ok st →
      s.Effect t v' (v'.world.setStore s.bucket st) ∧
        ∀ e : BEvent B C, e.thread = some t → P (v'.push e (v'.world.setStore s.bucket st))) :
    (s.contract bk flt).Safe t (fun res v => Mine t v.world ∧ ∀ ver, res = .ok ver →
        Store.Issued (bk s.bucket) (v.world.store s.bucket) ver ∧ P v)
      ((s.queue t.1).writeLease (Slot.lease.key x) (s.owner t.1) now r pre) v := by
  refine safe_writeAll (fun v₁ hr₁ hi₁ res st hst _ _ => ?_) (fun v₁ hr₁ hi₁ e _ _ => ?_)
  · have hm₁ := mine_rely handles hr₁ hm
    obtain ⟨heff, hp⟩ := hcommit v₁ hr₁ hi₁ st hst
    obtain rfl := Store.write_ok hst
    refine ⟨(step_put hi₁ hm₁.active heff).1, (step_put hi₁ hm₁.active heff).2, ?_⟩
    cases res with
    | error e => exact .ret fun v₂ hr₂ _ => ⟨mine_rely handles hr₂ hm₁, nofun⟩
    | ok u =>
        refine safe_attributes fun v₂ hr₂ hi₂ res hres _ => ?_
        have hm₂ := mine_rely (v := v₁.push _ _) handles hr₂ hm₁
        have hp₂ := hP hr₂ hm₁ (hp _ rfl)
        refine ⟨.quiet hm₂.active, hi₂.quiet, ?_⟩
        obtain ⟨o, ho, rfl⟩ | ⟨-, rfl⟩ | rfl := hres
        · refine .ret fun v₃ hr₃ _ => ⟨mine_rely handles hr₃ hm₂, ?_⟩
          rintro ver ⟨⟩
          have hf := rely_follows hr₃
          exact ⟨(hi₂.store.issued ho).follows hf, hP hr₃ hm₂ (hq hp₂)⟩
        · exact .ret fun v₃ hr₃ _ => ⟨mine_rely handles hr₃ hm₂, nofun⟩
        · exact .ret fun v₃ hr₃ _ => ⟨mine_rely handles hr₃ hm₂, nofun⟩
  · have hm₁ := mine_rely handles hr₁ hm
    exact ⟨.quiet hm₁.active, hi₁.quiet, .ret fun v₂ hr₂ _ => ⟨mine_rely handles hr₂ hm₁, nofun⟩⟩

/-! ### Claiming a message -/

variable (s) in
/-- What a claimer knows after its lease write: it is entitled to the message, under a count of its
own, or the payload is gone. -/
structure Claiming (v : BView B C) (c : C) (x : String) (d : ℤ) (r : ℕ) : Prop where
  known : s.Known v x
  le : d ≤ v.world.clock + s.lease c
  won : (s.Keeps v c x d ∧ s.OwnCount v.world c x r ∧ s.RaisedLast v x c r) ∨ s.Gone v x

lemma claiming_rely {d : ℤ} {r : ℕ} (h : (s.contract bk flt).Rely (c, .main) v v')
    (hm : Mine (c, .main) v.world) (hc : s.Claiming v c x d r) : s.Claiming v' c x d r where
  known := hc.known.mono h.le
  le := by
    have := hc.le
    have := rely_clock h
    omega
  won := hc.won.imp
    (fun ⟨hk, ho, hr⟩ => ⟨keeps_rely h hm hk, ownCount_rely h hm hc.known ho, raisedLast_rely h hr⟩)
    (gone_rely h)

lemma keeps_quiet {d : ℤ} {e : BEvent B C} (hk : s.Keeps v c x d) :
    s.Keeps (v.push e v.world) c x d :=
  keeps_same hk le_rfl rfl rfl

lemma gone_quiet {e : BEvent B C} (hg : s.Gone v x) : s.Gone (v.push e v.world) x :=
  ⟨hg.1.mono (View.le_push _ _ _), hg.2⟩

lemma claiming_quiet {d : ℤ} {r : ℕ} {e : BEvent B C} (hc : s.Claiming v c x d r) :
    s.Claiming (v.push e v.world) c x d r where
  known := hc.known.mono (View.le_push _ _ _)
  le := hc.le
  won := hc.won.imp (fun ⟨hk, ho, hr⟩ => ⟨keeps_quiet hk, ho, hr.push fun _ _ => rfl⟩)
    gone_quiet

/-- The commit of a claim. -/
lemma claim_commit {now : ℤ} {r : ℕ} {st : Store} {pre : List Precondition}
    (hm : Mine (c, .main) v.world) (hknown : s.Known v x) (hnow : now ≤ v.world.clock)
    (hst : (v.world.store s.bucket).write (bk s.bucket) (Slot.lease.key x) .empty
      ((s.queue c).leaseRecord (s.owner c) now r) pre = .ok st)
    (hfirst : s.slot v.world .lease x = none → r = 1)
    (hover : ∀ o₀, s.slot v.world .lease x = some o₀ →
      queueLeaseExpired o₀.metadata v.world.clock = true ∧ r = count o₀ + 1)
    (hcap : 0 < s.maxReceives c → r ≤ s.maxReceives c) :
    s.Effect (c, .main) v (v.world.setStore s.bucket st) ∧
      ∀ e : BEvent B C, e.thread = some (c, .main) →
        s.Claiming (v.push e (v.world.setStore s.bucket st)) c x (now + s.lease c) r := by
  obtain rfl := Store.write_ok hst
  set md := (s.queue c).leaseRecord (s.owner c) now r with hmd
  have honly : s.OnlySlot v.world (v.world.setStore s.bucket ((v.world.store s.bucket).put
    (bk s.bucket) (Slot.lease.key x) .empty md)) .lease x := only_put v.world (bk s.bucket)
  have hslot := s.slot_put_self v.world (bk s.bucket) (k := .lease) (x := x) .empty md
  have hpay := honly .payload x (by simp)
  refine ⟨.claim x _ hm.mainActs hm.2 honly hslot (Queue.leaseRecord_owner _ _ _ _) hknown hfirst hover
    hcap, fun e he => ⟨hknown.mono (View.le_push _ _ _), ?_, ?_⟩⟩
  · simp only [View.push_world, World.setStore_clock]
    omega
  · cases hp : s.slot v.world .payload x with
    | none => exact .inr ⟨hknown.mono (View.le_push _ _ _), hpay.trans hp⟩
    | some p =>
        refine .inl ⟨fun _ => ⟨fun _ => ?_, fun hnone => ?_⟩, fun _ o ho _ => ?_, ?_⟩
        · exact ⟨_, hslot, Queue.leaseRecord_owner _ _ _ _, _, Queue.leaseRecord_lease _ _ _ _, le_rfl⟩
        · exact absurd ((hpay.trans hp).symm.trans hnone) (by simp)
        · obtain rfl := Option.some.inj (hslot.symm.trans ho)
          exact Queue.leaseRecord_count _ _ _ _
        · refine ⟨[], _, _, rfl, ⟨he, by simp [hp], ⟨_, hslot, Queue.leaseRecord_owner _ _ _ _,
            Queue.leaseRecord_count _ _ _ _⟩, fun o ho => ?_⟩, fun q hq => absurd hq List.not_mem_nil⟩
          have := (hover o ho).2
          omega

/-- The commit of the hold before a dead-letter move. -/
lemma hold_commit {now : ℤ} {o₀ : Object} {st : Store} {pre : List Precondition}
    (hi : s.Inv bk v) (hm : Mine (c, .main) v.world) (hknown : s.Known v x)
    (hst : (v.world.store s.bucket).write (bk s.bucket) (Slot.lease.key x) .empty
      ((s.queue c).leaseRecord (s.owner c) now (count o₀)) pre = .ok st)
    (ho₀ : s.slot v.world .lease x = some o₀)
    (hexp : queueLeaseExpired o₀.metadata v.world.clock = true)
    (hmax : 0 < s.maxReceives c) (hcap : s.maxReceives c ≤ count o₀) :
    s.Effect (c, .main) v (v.world.setStore s.bucket st) ∧
      ∀ e : BEvent B C, e.thread = some (c, .main) →
        s.Known (v.push e (v.world.setStore s.bucket st)) x ∧
          (s.HeldAt (v.push e (v.world.setStore s.bucket st)) x c (count o₀) ∨
            s.Gone (v.push e (v.world.setStore s.bucket st)) x) := by
  obtain rfl := Store.write_ok hst
  set md := (s.queue c).leaseRecord (s.owner c) now (count o₀) with hmd
  have honly : s.OnlySlot v.world (v.world.setStore s.bucket ((v.world.store s.bucket).put
    (bk s.bucket) (Slot.lease.key x) .empty md)) .lease x := only_put v.world (bk s.bucket)
  have hslot := s.slot_put_self v.world (bk s.bucket) (k := .lease) (x := x) .empty md
  refine ⟨.hold x _ o₀ hm.mainActs hm.2 honly hslot (Queue.leaseRecord_owner _ _ _ _) hknown ho₀ hexp
    (Queue.leaseRecord_count _ _ _ _) hmax hcap, fun e he => ⟨hknown.mono (View.le_push _ _ _), ?_⟩⟩
  cases hp : s.slot v.world .payload x with
  | none =>
      exact .inr ⟨hknown.mono (View.le_push _ _ _), (honly.of_slot (by simp)).trans hp⟩
  | some p =>
      refine .inl (heldAt_push.mpr (.inr ⟨he, hm.2, by simp [hp], hmax, o₀, _, ho₀, ⟨rfl, hcap⟩,
        hslot, ?_⟩))
      exact fun heq => absurd (congrArg Object.seq heq) (hi.store _ _ ho₀).2.ne'

/-! ### Dead letters -/

variable (s) in
/-- The dead record holds the payload of the id. -/
def Buried (v : BView B C) (x : String) : Prop :=
  ∃ o, s.Committed v x o ∧ s.DeadHolds v.world x o

lemma buried_rely (h : (s.contract bk flt).Rely t v v') (hb : s.Buried v x) : s.Buried v' x := by
  refine h.stable (P := fun v => s.Buried v x) (fun hs hb => ?_) hb
  obtain ⟨o, ho, hd⟩ := hb
  obtain ⟨d, rfl⟩ | ⟨u, e, w, -, rfl, hg⟩ := interf_cases hs
  · exact ⟨o, ho.mono (View.le_push _ _ _), hd⟩
  · exact ⟨o, ho.mono (View.le_push _ _ _),
      dead_effect hg.effect (fun o' ho' => hs.1.unique _ o' o ho' ho) hd⟩

lemma buried_quiet {e : BEvent B C} (hb : s.Buried v x) : s.Buried (v.push e v.world) x := by
  obtain ⟨o, ho, hd⟩ := hb
  exact ⟨o, ho.mono (View.le_push _ _ _), hd⟩

/-- The lease of a message whose payload is gone may be deleted. -/
lemma safe_deleteOrphan {ver : Version} {α : Type} {Q : α → BView B C → Prop}
    {k : Except Err Unit → BProg B α} (hm : Mine (c, .main) v.world) (hg : s.Gone v x)
    (hk : ∀ r v', Mine (c, .main) v'.world → (s.contract bk flt).Safe (c, .main) Q (k r) v') :
    (s.contract bk flt).Safe (c, .main) Q
      (delete s.bucket (Slot.lease.key x) [.ifMatch ver] >>= k) v := by
  refine safe_delete (fun v₁ hr₁ hi₁ r st hst _ _ => ?_) (fun v₁ hr₁ hi₁ e _ _ => ?_)
  · have hm₁ := mine_rely handles hr₁ hm
    obtain ⟨-, rfl⟩ := Store.delete_ok hst
    have heff := Effect.release (s := s) x hm₁.mainActs (only_erase v₁.world)
      (s.slot_erase_self v₁.world) (fun hne => absurd (gone_rely hr₁ hg).2 hne)
    exact ⟨(step_erase hi₁ hm₁.active heff).1, (step_erase hi₁ hm₁.active heff).2, hk _ _ hm₁⟩
  · have hm₁ := mine_rely handles hr₁ hm
    exact ⟨.quiet hm₁.active, hi₁.quiet, hk _ _ hm₁⟩

lemma safe_removeDeadLease {ver : Version} (hm : Mine (c, .main) v.world) (hg : s.Gone v x) :
    (s.contract bk flt).Safe (c, .main) (fun _ v => Mine (c, .main) v.world)
      ((s.queue c).removeDeadLease x ver) v := by
  refine safe_deleteOrphan hm hg fun r v₁ hm₁ => ?_
  split <;> exact .ret fun _ hr _ => mine_rely handles hr hm₁

/-- The payload delete of a dead-letter move removes a payload that the dead record holds; the move
goes on to the lease only once the payload is gone. -/
lemma safe_removeDead {ver : Version} (hm : Mine (c, .main) v.world)
    (hb : s.Buried v x ∨ s.Gone v x) :
    (s.contract bk flt).Safe (c, .main) (fun _ v => Mine (c, .main) v.world)
      ((s.queue c).removeDead x ver) v := by
  refine safe_delete (fun v₁ hr₁ hi₁ r st hst _ _ => ?_) (fun v₁ hr₁ hi₁ e he _ => ?_)
  · have hm₁ := mine_rely handles hr₁ hm
    obtain ⟨⟨o, ho⟩, rfl⟩ := Store.delete_ok hst
    have hdead : s.DeadHolds v₁.world x o := by
      rcases hb with hb | hg
      · obtain ⟨o', ho', hd⟩ := buried_rely hr₁ hb
        obtain rfl := hi₁.unique x o o' (committed_of_slot ho) ho'
        exact hd
      · exact absurd ((gone_rely hr₁ hg).2.symm.trans ho) (by simp)
    have hnone := s.slot_erase_self v₁.world (k := .payload) (x := x)
    have heff := Effect.remove (s := s) x o hm₁.mainActs (only_erase v₁.world) ho hnone
      (.inr hdead)
    refine ⟨(step_erase hi₁ hm₁.active heff).1, (step_erase hi₁ hm₁.active heff).2, ?_⟩
    have hknown : s.Known v₁ x := ⟨o, committed_of_slot ho⟩
    split
    · exact safe_removeDeadLease hm₁ ⟨hknown.mono (View.le_push _ _ _), hnone⟩
    · exact safe_removeDeadLease hm₁ ⟨hknown.mono (View.le_push _ _ _), hnone⟩
    · exact .ret fun _ hr _ => mine_rely handles hr hm₁
  · have hm₁ := mine_rely handles hr₁ hm
    refine ⟨.quiet hm₁.active, hi₁.quiet, ?_⟩
    split
    · rename_i heq
      cases heq
    · rename_i heq
      cases heq
      rcases he with he | he
      · have hknown : s.Known v₁ x := by
          rcases hb with ⟨o, ho, -⟩ | hg
          · exact ⟨o, ho.mono hr₁.le⟩
          · exact hg.1.mono hr₁.le
        exact safe_removeDeadLease hm₁
          ⟨hknown.mono (View.le_push _ _ _), (Store.delete_nil_error he).2⟩
      · cases he
    · exact .ret fun _ hr _ => mine_rely handles hr hm₁

/-- The dead record is written from the one payload the id has had. -/
lemma safe_writeDeadRecord {o : Object} {n : ℕ} (hm : Mine (c, .main) v.world)
    (hheld : s.HeldAt v x c n) (ho : s.Committed v x o) :
    (s.contract bk flt).Safe (c, .main) (fun r v => Mine (c, .main) v.world ∧
        (r = .ok () → s.Buried v x ∨ s.Gone v x))
      ((s.queue c).writeDeadRecord x o.metadata n) v := by
  refine safe_readAll fun v₁ hr₁ hi₁ r hr _ => ?_
  have hm₁ := mine_rely handles hr₁ hm
  have ho₁ := ho.mono hr₁.le
  refine ⟨.quiet hm₁.active, hi₁.quiet, ?_⟩
  obtain ⟨o', ho', rfl⟩ | ⟨hnone, rfl⟩ | rfl := hr
  · obtain rfl := hi₁.unique x o' o (committed_of_slot ho') ho₁
    refine safe_writeAll (fun v₂ hr₂ hi₂ r st hst _ _ => ?_) (fun v₂ hr₂ hi₂ e _ _ => ?_)
    · have hm₂ := mine_rely (v := v₁.push _ _) handles hr₂ hm₁
      obtain rfl := Store.write_ok hst
      have ho₂ : s.Committed v₂ x o' := (ho₁.mono (View.le_push _ _ _)).mono hr₂.le
      have hheld₂ : s.HeldAt v₂ x c n :=
        ((hheld.mono hr₁.le).mono (View.le_push _ _ _)).mono hr₂.le
      have hslot := s.slot_put_self v₂.world (bk s.bucket) (k := .dead) (x := x) o'.body
        (o'.metadata.set queueReceivesField (.int n))
      have heff := Effect.bury (s := s) (t := (c, .main)) x o' _ n hm₂.mainActs hheld₂
        (only_put v₂.world (bk s.bucket)) hslot ho₂ rfl rfl
      have hbur : ∀ e : BEvent B C, s.Buried (v₂.push e (v₂.world.setStore s.bucket
          ((v₂.world.store s.bucket).put (bk s.bucket) (Slot.dead.key x) o'.body
            (o'.metadata.set queueReceivesField (.int n))))) x :=
        fun e => ⟨o', ho₂.mono (View.le_push _ _ _), _, n, hslot, rfl, rfl⟩
      refine ⟨(step_put hi₂ hm₂.active heff).1, (step_put hi₂ hm₂.active heff).2,
        .ret fun v₃ hr₃ _ => ⟨mine_rely (v := v₂.push _ _) handles hr₃ hm₂, fun _ => ?_⟩⟩
      exact .inl (buried_rely hr₃ (hbur _))
    · have hm₂ := mine_rely (v := v₁.push _ _) handles hr₂ hm₁
      exact ⟨.quiet hm₂.active, hi₂.quiet,
        .ret fun v₃ hr₃ _ => ⟨mine_rely (v := v₂.push _ _) handles hr₃ hm₂, nofun⟩⟩
  · have hgone : s.Gone v₁ x := ⟨⟨o, ho₁⟩, hnone⟩
    exact .ret fun v₂ hr₂ _ =>
      ⟨mine_rely (v := v₁.push _ _) handles hr₂ hm₁, fun _ => .inr (gone_rely hr₂ (gone_quiet hgone))⟩
  · exact .ret fun v₂ hr₂ _ => ⟨mine_rely (v := v₁.push _ _) handles hr₂ hm₁, nofun⟩

lemma safe_deadLetter {n : ℕ} {ver : Version} (hm : Mine (c, .main) v.world)
    (hknown : s.Known v x) (hh : s.HeldAt v x c n ∨ s.Gone v x) :
    (s.contract bk flt).Safe (c, .main) (fun _ v => Mine (c, .main) v.world)
      ((s.queue c).deadLetter x n ver) v := by
  refine safe_attributes fun v₁ hr₁ hi₁ r hr _ => ?_
  have hm₁ := mine_rely handles hr₁ hm
  refine ⟨.quiet hm₁.active, hi₁.quiet, ?_⟩
  obtain ⟨o, ho, rfl⟩ | ⟨hnone, rfl⟩ | rfl := hr
  · have hheld : s.HeldAt v₁ x c n := by
      rcases hh with hh | hg
      · exact hh.mono hr₁.le
      · exact absurd ((gone_rely hr₁ hg).2.symm.trans ho) (by simp)
    refine Safe.bind hi₁.quiet (safe_writeDeadRecord (o := o) hm₁
      (hheld.mono (View.le_push _ _ _)) (Committed.mono (committed_of_slot ho)
        (View.le_push _ _ _))) ?_
    rintro r v₂ hi₂ ⟨hm₂, hb⟩
    cases r with
    | error e => exact .ret fun _ hr _ => mine_rely handles hr hm₂
    | ok u => exact safe_removeDead hm₂ (hb rfl)
  · have hgone : s.Gone v₁ x := ⟨hknown.mono hr₁.le, hnone⟩
    exact safe_removeDead (v := v₁.push _ _) hm₁ (.inr (gone_quiet hgone))
  · exact .ret fun _ hr _ => mine_rely (v := v₁.push _ _) handles hr hm₁

/-! ### Receive -/

/-- The end of a claim: with the payload still there, the handle comes into being; otherwise the
lease that was just written is an orphan. -/
lemma safe_claimed {now : ℤ} {r : ℕ} {ver : Version} (hm : Mine (c, .main) v.world)
    (hc : s.Claiming v c x (now + s.lease c) r)
    (hiss : Store.Issued (bk s.bucket) (v.world.store s.bucket) ver) (hpos : 1 ≤ r)
    (hcap : 0 < s.maxReceives c → r ≤ s.maxReceives c) :
    (s.contract bk flt).Safe (c, .main) (fun res v => res = .ok none → Mine (c, .main) v.world)
      ((s.queue c).claimed x (s.owner c) now r ver) v := by
  refine safe_attributes fun v₁ hr₁ hi₁ res hres _ => ?_
  have hm₁ := mine_rely handles hr₁ hm
  have hc₁ := claiming_rely hr₁ hm hc
  refine ⟨.quiet hm₁.active, hi₁.quiet, ?_⟩
  obtain ⟨o, ho, rfl⟩ | ⟨hnone, rfl⟩ | rfl := hres
  · refine safe_critical fun v₂ hr₂ hi₂ _ => ⟨?_, ?_, .ret fun _ _ _ h => by cases h⟩
    · have hm₂ := mine_rely (v := v₁.push _ _) handles hr₂ hm₁
      exact Guar.setMem fun m hmsg => absurd (hm₂.2.symm.trans hmsg) (by simp)
    · have hm₂ := mine_rely (v := v₁.push _ _) handles hr₂ hm₁
      have hiss₂ := hiss.follows ((rely_follows hr₁).trans (rely_follows (v := v₁.push _ _) hr₂))
      have hwon₁ := hc₁.won.resolve_right fun hg => absurd (hg.2.symm.trans ho) (by simp)
      have hc₂ : s.Keeps v₂ c x (now + s.lease c) ∧ s.OwnCount v₂.world c x r ∧
          s.RaisedLast v₂ x c r := by
        obtain ⟨hk, hoc, hra⟩ := hwon₁
        exact ⟨keeps_rely hr₂ hm₁ (keeps_quiet hk),
          ownCount_rely hr₂ hm₁ (hc₁.known.mono (View.le_push _ _ _)) hoc,
          raisedLast_rely hr₂ (hra.push fun _ _ => rfl)⟩
      have hle₂ := (claiming_rely hr₂ hm₁ (claiming_quiet hc₁)).le
      refine hi₂.setMem (fun h => absurd (hm₂.1.symm.trans h) (by simp)) ?_
      rintro m ⟨⟩
      exact ⟨rfl, rfl, rfl, ⟨o, ((committed_of_slot ho).mono (View.le_push _ _ _)).mono hr₂.le, rfl,
        rfl⟩, hiss₂, hle₂, .inl hc₂.1, hc₂.2.1, hc₂.2.2, hpos, hcap⟩
  · have hgone : s.Gone v₁ x := ⟨hc₁.known, hnone⟩
    exact safe_deleteOrphan (v := v₁.push _ _) hm₁ (gone_quiet hgone) fun r v₂ hm₂ =>
      .ret fun _ hr _ _ => mine_rely handles hr hm₂
  · exact .ret fun _ _ _ h => by cases h

/-- A takeover swaps only over the record that was read. -/
lemma swap_same (hb : (bk s.bucket).Fresh) {o : Object} {md : Metadata} {st : Store}
    (hi : s.Inv bk v) (ho : s.slot v.world .lease x = some o) (hi' : s.Inv bk v')
    (hf : (v.world.store s.bucket).Follows (v'.world.store s.bucket))
    (hst : (v'.world.store s.bucket).write (bk s.bucket) (Slot.lease.key x) .empty md
      [.ifMatch o.version] = .ok st) :
    s.slot v'.world .lease x = some o := by
  obtain ⟨o', ho', hov, -⟩ := Store.write_ifMatch_ok (hi.store.version_ne hb ho) hst
  have hsame := hi'.store.get_of_issued hb hf (hi.store.issued ho) ho' hov
  obtain rfl := Option.some.inj (ho.symm.trans hsame)
  exact ho'

lemma safe_tryClaim (hb : (bk s.bucket).Fresh) (hm : Mine (c, .main) v.world)
    (hknown : s.Known v x) :
    (s.contract bk flt).Safe (c, .main) (fun res v => res = .ok none → Mine (c, .main) v.world)
      ((s.queue c).tryClaim x (s.owner c)) v := by
  refine safe_getLease handles fun v₁ hr₁ hi₁ lease e₁ hlease => ?_
  have hm₁ := mine_rely handles hr₁ hm
  refine safe_now fun v₂ hr₂ hi₂ _ => ⟨.quiet (active_main _), hi₂.quiet, ?_⟩
  have hm₂ := mine_rely (v := v₁.push _ _) handles hr₂ hm₁
  have hknown₂ : s.Known (v₂.push (BEvent.called (c, .main) .now v₂.world.clock) v₂.world) x :=
    (((hknown.mono hr₁.le).mono (View.le_push _ _ _)).mono hr₂.le).mono (View.le_push _ _ _)
  have hdone : ∀ (e : Err) (v' : BView B C), (s.contract bk flt).Safe (c, .main)
      (fun res v => res = .ok none → Mine (c, .main) v.world)
      (.ret (.error e) : BProg B (Except Err (Option Message))) v' :=
    fun e v' => .ret fun _ _ _ h => by cases h
  obtain ⟨o, ho, rfl⟩ | rfl | rfl := hlease
  · simp only
    split
    · exact .ret fun _ hr _ _ => mine_rely handles hr hm₂
    · rename_i hexp
      have hexp : queueLeaseExpired o.metadata v₂.world.clock = true := by simpa using hexp
      have hsame : ∀ v₃, (s.contract bk flt).Rely (c, .main)
          (v₂.push (BEvent.called (c, .main) .now v₂.world.clock) v₂.world) v₃ → s.Inv bk v₃ →
          ∀ md st, (v₃.world.store s.bucket).write (bk s.bucket) (Slot.lease.key x) .empty md
            [.ifMatch o.version] = .ok st → s.slot v₃.world .lease x = some o ∧
              queueLeaseExpired o.metadata v₃.world.clock = true := by
        intro v₃ hr₃ hi₃ md st hst
        have h₂ := rely_follows (v := v₁.push _ _) hr₂
        have h₃ := rely_follows (v := v₂.push _ _) hr₃
        exact ⟨swap_same hb hi₁ ho hi₃ (h₂.trans h₃) hst, leaseExpired_mono (rely_clock (v := v₂.push _ _) hr₃) hexp⟩
      split
      · rename_i hmax
        refine Safe.bind hi₂.quiet (safe_writeLease (t := (c, .main)) (x := x)
          (P := fun v => s.Known v x ∧ (s.HeldAt v x c (count o) ∨ s.Gone v x)) hm₂ ?_ ?_ ?_) ?_
        · exact fun hr _ h => ⟨h.1.mono hr.le, h.2.imp (fun hh => hh.mono hr.le) (gone_rely hr)⟩
        · exact fun h => ⟨h.1.mono (View.le_push _ _ _),
            h.2.imp (fun hh => hh.mono (View.le_push _ _ _)) gone_quiet⟩
        · intro v₃ hr₃ hi₃ st hst
          obtain ⟨ho₃, hexp₃⟩ := hsame v₃ hr₃ hi₃ _ st hst
          have hm₃ := mine_rely (v := v₂.push _ _) handles hr₃ hm₂
          exact hold_commit hi₃ hm₃ (hknown₂.mono hr₃.le) hst ho₃ hexp₃ hmax.1 hmax.2
        · rintro res v₃ hi₃ ⟨hm₃, hres⟩
          split
          · exact .ret fun _ hr _ _ => mine_rely handles hr hm₃
          · exact .ret fun _ hr _ _ => mine_rely handles hr hm₃
          · exact hdone _ _
          · obtain ⟨-, hk₃, hh₃⟩ := hres _ rfl
            refine Safe.bind hi₃ (safe_deadLetter hm₃ hk₃ hh₃) fun r v₄ hi₄ hm₄ => ?_
            split
            · exact hdone _ _
            · exact .ret fun _ hr _ _ => mine_rely handles hr hm₄
      · rename_i hmax
        have hcap : 0 < s.maxReceives c → count o + 1 ≤ s.maxReceives c := by
          intro hpos
          by_contra hlt
          exact hmax ⟨hpos, by simp only [count] at hlt; show s.maxReceives c ≤ _; omega⟩
        refine Safe.bind hi₂.quiet (safe_writeLease (t := (c, .main)) (x := x)
          (P := fun v => s.Claiming v c x (v₂.world.clock + s.lease c) (count o + 1)) hm₂
          claiming_rely claiming_quiet ?_) ?_
        · intro v₃ hr₃ hi₃ st hst
          obtain ⟨ho₃, hexp₃⟩ := hsame v₃ hr₃ hi₃ _ st hst
          have hm₃ := mine_rely (v := v₂.push _ _) handles hr₃ hm₂
          refine claim_commit hm₃ (hknown₂.mono hr₃.le) (rely_clock (v := v₂.push _ _) hr₃) hst (fun h => ?_)
            (fun o₀ ho₀ => ?_) hcap
          · exact absurd (h.symm.trans ho₃) (by simp)
          · obtain rfl := Option.some.inj (ho₃.symm.trans ho₀)
            exact ⟨hexp₃, rfl⟩
        · rintro res v₃ hi₃ ⟨hm₃, hres⟩
          split
          · exact .ret fun _ hr _ _ => mine_rely handles hr hm₃
          · exact .ret fun _ hr _ _ => mine_rely handles hr hm₃
          · exact hdone _ _
          · obtain ⟨hiss, hc₃⟩ := hres _ rfl
            exact safe_claimed hm₃ hc₃ hiss (by omega) hcap
  · refine Safe.bind hi₂.quiet (safe_writeLease (t := (c, .main)) (x := x)
      (P := fun v => s.Claiming v c x (v₂.world.clock + s.lease c) 1) hm₂
      claiming_rely claiming_quiet ?_) ?_
    · intro v₃ hr₃ hi₃ st hst
      have hnone := (Store.write_ifNotExists_ok hst).1
      have hm₃ := mine_rely (v := v₂.push _ _) handles hr₃ hm₂
      exact claim_commit hm₃ (hknown₂.mono hr₃.le) (rely_clock (v := v₂.push _ _) hr₃) hst (fun _ => rfl)
        (fun o₀ ho₀ => absurd (hnone.symm.trans ho₀) (by simp)) (fun h => h)
    · rintro res v₃ hi₃ ⟨hm₃, hres⟩
      split
      · exact .ret fun _ hr _ _ => mine_rely handles hr hm₃
      · exact hdone _ _
      · obtain ⟨hiss, hc₃⟩ := hres _ rfl
        exact safe_claimed hm₃ hc₃ hiss le_rfl (fun h => h)
  · exact hdone _ _

end QueueSetup

end Blobster
