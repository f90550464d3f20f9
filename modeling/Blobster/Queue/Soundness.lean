import Blobster.Queue.Safety

/-!
# The renewer, `Ack` and `Nack` keep the contract

The second half of the symbolic execution: what happens on a handle once `TryReceive` has returned
it.

The renewer's compare-and-swap is the delicate step.  The version it swaps on was read back after
its last write, possibly late, so it may be the version of somebody else's record.  What makes the
swap harmless is the clock check before it: at that moment the handle is entitled to the message,
and a version issued by then can match later only if the record has stayed in place since, through
every step that removed the payload as well (`Backed`).

* `safe_renewOnce`, `safe_ack`, `safe_nack` — the operations on a handle.
* **`sound`** — the contract is sound for every queue over a store with fresh versions.
-/

set_option linter.unusedSectionVars false

namespace Blobster

open Interleave Contract

namespace QueueSetup

variable {B C : Type} [DecidableEq B] [DecidableEq C] {s : QueueSetup B C} {bk : B → Backend}
  {flt : Faults} {t : Thread C} {v v' : BView B C} {c : C} {x : String}

/-! ## The renewer -/

variable (s bk) in
/-- A record with this version can only be one under which the client owned the lease for as long as
the payload was there. -/
structure Backed (v : BView B C) (c : C) (x : String) (ver : Version) : Prop where
  issued : Store.Issued (bk s.bucket) (v.world.store s.bucket) ver
  holder : ∀ o, s.slot v.world .lease x = some o → o.version = ver → s.Holder v x c

/-- While its lease is running, a handle's version is backed, whosever it is. -/
lemma Inv.backed {r : ℕ} {ver : Version} {d : ℤ} (hi : s.Inv bk v)
    (hrun : Running v.world c x r ver d) (hlt : v.world.clock < d) : s.Backed bk v c x ver := by
  obtain ⟨m, hm, hst, rfl, -, rfl, rfl⟩ := hrun
  have hok := hi.handle c m hm
  refine ⟨hok.issued, fun _ _ _ => ?_⟩
  rcases hok.keeps with hk | hcl
  · exact (hk hlt).holder
  · exact absurd (hst.symm.trans hcl.2.1) (by simp)

/-- A record that stays in place goes on backing its version, also past the removal of the
payload. -/
lemma backed_interf (hb : (bk s.bucket).Fresh) {ver : Version}
    (hs : (s.contract bk flt).Interf t v v') (h : s.Backed bk v c x ver) :
    s.Backed bk v' c x ver := by
  have hi' : s.Inv bk v' := hs.2.1
  obtain ⟨d, rfl⟩ | ⟨u, e, w, -, rfl, hg⟩ := interf_cases hs
  · exact ⟨h.issued, fun o ho hov => holder_same (h.holder o ho hov) rfl rfl⟩
  · refine ⟨h.issued.follows hg.follows, fun o ho hov => ?_⟩
    have hold := hi'.store.get_of_issued hb hg.follows h.issued ho hov
    have hholder := h.holder o hold hov
    cases hp : s.slot w .payload x with
    | none =>
        obtain ⟨w₀, hw₀, h₀⟩ := hholder
        exact ⟨w₀, (lastWith_push_of_none hp).trans hw₀, h₀⟩
    | some p =>
        have hp' := (hg.effect.tame.payload x p hp).resolve_right (not_not.mpr hholder.known)
        exact holder_same hholder (hp.trans hp'.symm) (Eq.trans ho hold.symm)

lemma backed_rely (hb : (bk s.bucket).Fresh) {ver : Version}
    (hr : (s.contract bk flt).Rely t v v') (h : s.Backed bk v c x ver) : s.Backed bk v' c x ver :=
  hr.stable (P := fun v => s.Backed bk v c x ver) (backed_interf hb) h

lemma backed_quiet {e : BEvent B C} {ver : Version} (h : s.Backed bk v c x ver) :
    s.Backed bk (v.push e v.world) c x ver :=
  ⟨h.issued, fun o ho hov => holder_same (h.holder o ho hov) rfl rfl⟩

/-- The commit of a renew: over a record that is backed, so over its own. -/
lemma renew_commit (hb : (bk s.bucket).Fresh) {r : ℕ} {ver : Version} {now d : ℤ} {st : Store}
    (hi : s.Inv bk v) (hrun : Running v.world c x r ver d) (hback : s.Backed bk v c x ver)
    (hd : d ≤ now + s.lease c)
    (hst : (v.world.store s.bucket).write (bk s.bucket) (Slot.lease.key x) .empty
      ((s.queue c).leaseRecord (s.owner c) now r) [.ifMatch ver] = .ok st) :
    s.Effect (c, .renewer) v (v.world.setStore s.bucket st) ∧
      ∀ e : BEvent B C, e.thread = some (c, .renewer) →
        s.Keeps (v.push e (v.world.setStore s.bucket st)) c x (now + s.lease c) := by
  obtain ⟨o, ho, hov, rfl⟩ := Store.write_ifMatch_ok (hback.issued.ne_empty hb) hst
  obtain ⟨w₀, hw₀, o₀, ho₀, hown₀⟩ := hback.holder o ho hov
  obtain ⟨m, hm, -, rfl, rfl, -, rfl⟩ := hrun
  set md := (s.queue c).leaseRecord (s.owner c) now m.receives with hmd
  have hslot := s.slot_put_self v.world (bk s.bucket) (k := .lease) (x := m.id) .empty md
  refine ⟨.rewrite m.id _ m hm rfl (only_put v.world (bk s.bucket)) hslot
    (Queue.leaseRecord_owner _ _ _ _) (fun hne => ?_)
    (.inr ⟨rfl, _, Queue.leaseRecord_lease _ _ _ _, hd⟩) (.inl (Queue.leaseRecord_count _ _ _ _)),
    fun e _ _ => ⟨fun _ => ?_, fun hnone => ?_⟩⟩
  · obtain ⟨p, hp⟩ := Option.ne_none_iff_exists'.mp hne
    obtain rfl := Option.some.inj ((lastWith_of_some hp).symm.trans hw₀)
    exact ⟨o₀, ho₀, hown₀, ((hi.handle c m hm).ownCount hne o₀ ho₀ hown₀).symm⟩
  · exact ⟨_, hslot, Queue.leaseRecord_owner _ _ _ _, _, Queue.leaseRecord_lease _ _ _ _, le_rfl⟩
  · exact ⟨w₀, (lastWith_push_of_none hnone).trans hw₀, o₀, ho₀, hown₀⟩

lemma safe_renewOnce (hb : (bk s.bucket).Fresh) {r : ℕ} {ver : Version} {now d : ℤ}
    (hrun : Running v.world c x r ver d) (hback : s.Backed bk v c x ver)
    (hd : d ≤ now + s.lease c) (hnow : now ≤ v.world.clock) :
    (s.contract bk flt).Safe (c, .renewer) (fun _ v => Mine (c, .renewer) v.world)
      ((s.queue c).renewOnce (Slot.lease.key x) (s.owner c) r now) v := by
  refine safe_messageField handles hrun fun v₁ hr₁ hi₁ e m hm hver _ hrun₁ _ => ?_
  rw [hver]
  have hback₁ := backed_quiet (e := e) (backed_rely hb hr₁ hback)
  refine Safe.bind hi₁.quiet (safe_carries handles (safe_writeLease (t := (c, .renewer)) (x := x)
    (P := fun v => now ≤ v.world.clock ∧ s.Keeps v c x (now + s.lease c)) hrun₁.mine ?_ ?_ ?_)
    hrun₁.carries) ?_
  · exact fun hr hm h => ⟨h.1.trans (rely_clock hr), keeps_rely hr hm h.2⟩
  · exact fun h => ⟨h.1, keeps_quiet h.2⟩
  · intro v₂ hr₂ hi₂ st hst
    have hclock := (hnow.trans (rely_clock hr₁)).trans (rely_clock (v := v₁.push _ _) hr₂)
    obtain ⟨heff, hk⟩ := renew_commit hb hi₂ (running_rely (v := v₁.push _ _) handles hr₂ hrun₁)
      (backed_rely hb hr₂ hback₁) hd hst
    exact ⟨heff, fun e he => ⟨hclock, hk e he⟩⟩
  · rintro res v₂ hi₂ ⟨⟨hm₂, hres⟩, hc₂⟩
    cases res with
    | error e => exact .ret fun _ hr _ => mine_rely handles hr hm₂
    | ok newVersion =>
        obtain ⟨hiss₂, hclock₂, hk₂⟩ := hres newVersion rfl
        obtain ⟨ver₂, d₂, hrun₂⟩ := exists_running hm₂ hc₂
        refine safe_critical fun v₃ hr₃ hi₃ _ => ?_
        obtain ⟨m, hm, hst, hid, -⟩ := running_rely handles hr₃ hrun₂
        refine ⟨Guar.setMem ⟨m, hm, hst, _, Mem.onMessage_some hm, rfl, rfl, rfl, rfl⟩,
          hi₃.onMessage fun m' hm' => ?_,
          .ret fun _ hr _ => mine_rely handles hr ⟨_, World.message_onMessage hm, hst⟩⟩
        obtain rfl := Option.some.inj (hm.symm.trans hm')
        subst hid
        have hok := hi₃.handle c m hm
        have hclock₃ := hclock₂.trans (rely_clock hr₃)
        have hle : now + s.lease c ≤ v₃.world.clock + s.lease c := by omega
        exact ⟨hok.msgPath, hok.leasePath, hok.owner, hok.payload,
          hiss₂.follows (rely_follows hr₃), hle, .inl (keeps_rely hr₃ hm₂ hk₂), hok.ownCount,
          hok.raised, hok.pos, hok.cap⟩

/-- `renewOnce` after a tick that found the lease running. -/
lemma safe_renewTick (hb : (bk s.bucket).Fresh) {r : ℕ} {ver : Version} {d : ℤ}
    {v₂ v₃ : BView B C} {e₂ e₃ : BEvent B C} (hi₂ : s.Inv bk v₂)
    (hrun₂ : Running v₂.world c x r ver d) (hlt : v₂.world.clock < d)
    (hr₃ : (s.contract bk flt).Rely (c, .renewer) (v₂.push e₂ v₂.world) v₃)
    (hrun₃ : Running v₃.world c x r ver d) (_ : s.Inv bk (v₃.push e₃ v₃.world)) :
    (s.contract bk flt).Safe (c, .renewer) (fun _ v => Mine (c, .renewer) v.world)
      ((s.queue c).renewOnce (Slot.lease.key x) (s.owner c) r v₂.world.clock)
      (v₃.push e₃ v₃.world) := by
  have hd : d ≤ v₂.world.clock + s.lease c := by
    obtain ⟨m, hm, -, -, -, -, rfl⟩ := hrun₂
    exact (hi₂.handle c m hm).until_le
  have hback := backed_rely hb hr₃ (backed_quiet (hi₂.backed hrun₂ hlt))
  have hclock := rely_clock hr₃
  exact safe_renewOnce hb hrun₃ (backed_quiet hback) hd hclock

/-! ## Ack and Nack -/

/-- The owner's record, deleted or rewritten by compare-and-swap on the version that was read, is
still the owner's record. -/
lemma own_same (hb : (bk s.bucket).Fresh) {o o' : Object} (hi : s.Inv bk v)
    (ho : s.slot v.world .lease x = some o) (hi' : s.Inv bk v')
    (hf : (v.world.store s.bucket).Follows (v'.world.store s.bucket))
    (ho' : s.slot v'.world .lease x = some o') (hov : o'.version = o.version) : o' = o :=
  Option.some.inj ((hi'.store.get_of_issued hb hf (hi.store.issued ho) ho' hov).symm.trans ho)

lemma safe_ack (hb : (bk s.bucket).Fresh) {ver : Version} (hi : s.Inv bk v)
    (hc : DeliveredFor v.world c x ver)
    (hack : Acked v x) :
    (s.contract bk flt).Safe (c, .main) (fun _ _ => True)
      ((s.queue c).ack (Slot.payload.key x) (Slot.lease.key x) (s.owner c)) v := by
  refine safe_settle_then (K := s.contract bk flt) handles hi hc
    (fun _ => .ret fun _ _ _ => trivial) fun v₁ m hi₁ hle hcl₁ hid _ => ?_
  refine safe_getLease handles fun v₂ hr₂ hi₂ res e₂ hres => ?_
  have hcl₂ := closing_rely handles hr₂ hcl₁
  obtain ⟨o, ho, rfl⟩ | rfl | rfl := hres
  · simp only
    split
    · exact .ret fun _ _ _ => trivial
    · rename_i hown
      refine safe_delete (fun v₃ hr₃ hi₃ res st hst _ _ => ?_) (fun v₃ hr₃ hi₃ e _ _ => ?_)
      · have hcl₃ := closing_rely (v := v₂.push _ _) handles hr₃ hcl₂
        have hack₃ : Acked v₃ x :=
          (((hack.mono hle).mono hr₂.le).mono (View.le_push _ _ _)).mono hr₃.le
        have hknown₃ : s.Known v₃ x := hid ▸ (hi₃.handle c m hcl₃.1).known
        obtain ⟨o', ho', hov, rfl⟩ := Store.delete_ifMatch_ok (hi₂.store.version_ne hb ho) hst
        obtain rfl := own_same hb hi₂ ho hi₃ (rely_follows (v := v₂.push _ _) hr₃) ho' hov
        have heff := Effect.release (s := s) x hcl₃.mainActs (only_erase v₃.world)
          (s.slot_erase_self v₃.world) fun _ => ⟨hack₃, m, o', hcl₃.1, hid, ho', not_not.mp hown⟩
        refine ⟨(step_erase hi₃ (active_main _) heff).1, (step_erase hi₃ (active_main _) heff).2, ?_⟩
        split
        · exact .ret fun _ _ _ => trivial
        · exact .ret fun _ _ _ => trivial
        · exact .ret fun _ _ _ => trivial
        · refine safe_delete (fun v₄ hr₄ hi₄ res st hst _ _ => ?_) (fun v₄ hr₄ hi₄ e _ _ => ?_)
          · have hcl₄ := closing_rely (v := v₃.push _ _) handles hr₄ hcl₃
            obtain ⟨⟨p, hp⟩, rfl⟩ := Store.delete_ok hst
            -- a payload that is still there was there when the lease was deleted
            have hrel : s.Released v₄ x := by
              cases hp₃ : s.slot v₃.world .payload x with
              | none =>
                  have hgone := gone_rely hr₄ (gone_effect heff ⟨hknown₃, hp₃⟩)
                  exact absurd (hgone.2.symm.trans hp) (by simp)
              | some q =>
                  have hlease : s.slot v₃.world .lease x = some o' := ho'
                  exact Released.mono (released_push.mpr (.inr ⟨by simp [hp₃], by simp [hlease],
                    s.slot_erase_self v₃.world⟩)) hr₄.le
            have heff := Effect.remove (s := s) x p hcl₄.mainActs (only_erase v₄.world) hp
              (s.slot_erase_self v₄.world)
              (.inl ⟨(hack₃.mono (View.le_push _ _ _)).mono hr₄.le, hrel⟩)
            refine ⟨(step_erase hi₄ (active_main _) heff).1,
              (step_erase hi₄ (active_main _) heff).2, ?_⟩
            split <;> exact .ret fun _ _ _ => trivial
          · refine ⟨.quiet (active_main _), hi₄.quiet, ?_⟩
            split <;> exact .ret fun _ _ _ => trivial
      · refine ⟨.quiet (active_main _), hi₃.quiet, ?_⟩
        split
        · exact .ret fun _ _ _ => trivial
        · exact .ret fun _ _ _ => trivial
        · exact .ret fun _ _ _ => trivial
        · rename_i heq
          cases heq
  · exact .ret fun _ _ _ => trivial
  · exact .ret fun _ _ _ => trivial

lemma safe_nack (hb : (bk s.bucket).Fresh) {ver : Version} (hi : s.Inv bk v)
    (hc : DeliveredFor v.world c x ver) :
    (s.contract bk flt).Safe (c, .main) (fun _ _ => True)
      ((s.queue c).nack (Slot.lease.key x) (s.owner c)) v := by
  refine safe_settle_then (K := s.contract bk flt) handles hi hc
    (fun _ => .ret fun _ _ _ => trivial) fun v₁ m hi₁ hle hcl₁ hid _ => ?_
  refine safe_getLease handles fun v₂ hr₂ hi₂ res e₂ hres => ?_
  have hcl₂ := closing_rely handles hr₂ hcl₁
  obtain ⟨o, ho, rfl⟩ | rfl | rfl := hres
  · simp only
    split
    · exact .ret fun _ _ _ => trivial
    · rename_i hown
      refine safe_now fun v₃ hr₃ hi₃ _ => ⟨.quiet (active_main _), hi₃.quiet, ?_⟩
      have hcl₃ := closing_rely (v := v₂.push _ _) handles hr₃ hcl₂
      refine safe_writeAll (fun v₄ hr₄ hi₄ res st hst _ _ => ?_) (fun v₄ hr₄ hi₄ e _ _ => ?_)
      · have hcl₄ := closing_rely (v := v₃.push _ _) handles hr₄ hcl₃
        have hfollows := (rely_follows (v := v₂.push _ _) hr₃).trans
          (rely_follows (v := v₃.push _ _) hr₄)
        obtain ⟨o', ho', hov, rfl⟩ := Store.write_ifMatch_ok (hi₂.store.version_ne hb ho) hst
        obtain rfl := own_same hb hi₂ ho hi₄ hfollows ho' hov
        have heff := Effect.rewrite (s := s) (t := (c, .main)) x _ m hcl₄.1 hid
          (only_put v₄.world (bk s.bucket)) (s.slot_put_self v₄.world (bk s.bucket) .empty
            [(queueOwnerField, .text (s.owner c)), (queueLeaseField, .time v₃.world.clock),
              (queueReceivesField, .int (queueParseReceives o'.metadata))]) rfl
          (fun _ => ⟨o', ho', not_not.mp hown, rfl⟩) (.inl hcl₄.mainActs) (.inr ⟨o', ho', rfl⟩)
        refine ⟨(step_put hi₄ (active_main _) heff).1, (step_put hi₄ (active_main _) heff).2, ?_⟩
        split <;> exact .ret fun _ _ _ => trivial
      · refine ⟨.quiet (active_main _), hi₄.quiet, ?_⟩
        split <;> exact .ret fun _ _ _ => trivial
  · exact .ret fun _ _ _ => trivial
  · exact .ret fun _ _ _ => trivial

/-! ## Soundness -/

lemma Initial.inv {w : World B C} (h : s.Initial w) : s.Inv bk ⟨w, []⟩ where
  store := by rw [h.store]; exact Store.Ok.empty _
  uncalled c _ := by simp [h.mem c]
  unique x o o' ho := by
    obtain ⟨w', hw', ho⟩ := ho
    obtain rfl : w' = w := by simpa [View.worlds] using hw'
    exact absurd ((h.slot _).symm.trans ho) (by simp)
  kept x o ho := by
    obtain ⟨w', hw', ho⟩ := ho
    obtain rfl : w' = w := by simpa [View.worlds] using hw'
    exact absurd ((h.slot _).symm.trans ho) (by simp)
  handle c m hm := by simp [h.mem c] at hm
  counted x _ hp := absurd (h.slot _) hp
  raised_inj x _ c d r hr := by
    obtain ⟨p, hp, -⟩ := hr
    exact absurd hp List.not_mem_nil

/-- A client makes its first call. -/
lemma step_call {e : BEvent B C} (hi : s.Inv bk v) (hcalled : (v.world.mem c).called = false) :
    s.Guar (c, .main) v (v.push e (v.world.setMem c { called := true })) ∧
      s.Inv bk (v.push e (v.world.setMem c { called := true })) ∧
      Mine (c, .main) (v.world.setMem c { called := true }) :=
  ⟨Guar.setMem fun _ hm => absurd ((hi.uncalled c hcalled).symm.trans hm) (by simp),
    hi.setMem (fun _ => rfl) (fun _ hm => by cases hm), by simp, by simp⟩

variable (flt) in
/-- **The contract of the queue is sound.** -/
theorem sound (hb : (bk s.bucket).Fresh) (hl : (bk s.bucket).ListsStored) {w₀ : World B C}
    (h₀ : s.Initial w₀) : (s.contract bk flt).Sound w₀ where
  init := ⟨h₀.inv, fun _ => trivial⟩
  env := by
    rintro v v' hi ⟨d, w, hw, -, rfl⟩
    obtain rfl := Option.some.inj hw
    exact hi.advance d
  stable _ _ _ _ _ := trivial
  start := by
    rintro ⟨c, g⟩ e v p w hi - - hstart
    change s.start (c, g) e v.world = some (p, w) at hstart
    cases start_cases hstart with
    | enqueue body attrs h =>
        obtain ⟨hg, hi', hm⟩ := step_call hi h
        exact ⟨hg, hi', Safe.discard hi' (fun _ h => h) (safe_enqueue hm)⟩
    | enqueueWithID id body attrs h =>
        obtain ⟨hg, hi', hm⟩ := step_call hi h
        exact ⟨hg, hi', Safe.discard hi' (fun _ h => h) (safe_enqueueWithID hm)⟩
    | tryReceive h =>
        obtain ⟨hg, hi', hm⟩ := step_call hi h
        exact ⟨hg, hi', Safe.discard hi' (fun _ h => h) (safe_tryReceive (K := s.contract bk flt)
          handles hl (fun _ hm hk => safe_tryClaim hb hm hk) hm)⟩
    | ack m hm =>
        have hok := hi.handle c m hm
        refine ⟨.quiet (active_main _), hi.quiet, Safe.discard hi.quiet (fun _ h => h) ?_⟩
        rw [hok.msgPath, hok.leasePath, hok.owner]
        exact safe_ack hb hi.quiet ⟨m, hm, rfl, rfl⟩ ⟨_, List.mem_cons_self, _, m, rfl, hm, rfl⟩
    | nack m hm =>
        have hok := hi.handle c m hm
        refine ⟨.quiet (active_main _), hi.quiet, Safe.discard hi.quiet (fun _ h => h) ?_⟩
        rw [hok.leasePath, hok.owner]
        exact safe_nack hb hi.quiet ⟨m, hm, rfl, rfl⟩
    | renew fuel m hm hst =>
        have hok := hi.handle c m hm
        have hmine : Mine (c, .renewer) v.world := ⟨m, hm, hst⟩
        rw [hok.leasePath, hok.owner]
        exact ⟨.quiet hmine.active, hi.quiet, safe_renewLoop (K := s.contract bk flt) handles
          hi.quiet hmine ⟨m, hm, rfl, rfl⟩ fuel (safe_renewTick hb)⟩

end QueueSetup

end Blobster
