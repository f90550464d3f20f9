import Blobster.Queue.Delivery
import Blobster.Queue.Reuse

/-!
# Who removes a payload

The symbolic execution of the queue against the contract of `Blobster.Queue.Reuse`, one call at a
time, and what it comes to: as long as ids are reused at rest, a payload is removed only by an `Ack`
of a handle that was delivered for that very payload, or by a dead-letter move that has written it to
the dead record.

The steps to watch are the ones that remove something or vouch for it.  The lease that `Ack` deletes
is its own, so the payload next to it is its own; from there on it is busy with the id until it has
deleted the payload.  A dead-letter move is busy from its first look at the payload.  A renewer that
swaps a lease record is busy until it has read the new version back, so that the version it caches is
not one of a record for a later payload.
-/

set_option linter.unusedSectionVars false

namespace Blobster

open Interleave Contract

namespace QueueSetup

variable {B C : Type} [DecidableEq B] [DecidableEq C] {s : QueueSetup B C} {bk : B → Backend}
  {flt : Faults} {E : Type} {env : E → World B C → Option (World B C)} {t : Thread C}
  {v v' : BView B C} {c : C} {x : String}

variable (s) in
/-- How far a dead-letter move has come once it may delete the payload: the latest payload is in the
dead record, written by this client; or there is none left. -/
def Dying (v : BView B C) (c : C) (x : String) : Prop :=
  s.Known v x ∧ s.Busy v (c, .main) x ∧
    (s.slot v.world .payload x = none ∨
      ∃ o, s.latest v x = some o ∧ s.DeadHolds v.world x o ∧ s.BuriedBy v c x o)

namespace Rest

/-! ## The steps of a client -/

/-- A commit to the bucket. -/
lemma step_commit (hb : (bk s.bucket).Fresh) {e : BEvent B C} {st : Store} (hi : s.AllTied bk v)
    (ha : Active t v.world) (hok : st.Ok (bk s.bucket))
    (hf : (v.world.store s.bucket).Follows st)
    (hch : s.Change t v (v.world.setStore s.bucket st)) :
    s.Promise t v (v.push e (v.world.setStore s.bucket st)) ∧
      s.AllTied bk (v.push e (v.world.setStore s.bucket st)) :=
  ⟨⟨by simpa using hf, fun _ _ => rfl, hch, ha.handleStep⟩,
    hi.change hb hch rfl (by simpa using hok) (by simpa using hf)⟩

lemma step_put (hb : (bk s.bucket).Fresh) {e : BEvent B C} {key : String} {body : ByteArray}
    {md : Metadata} (hi : s.AllTied bk v) (ha : Active t v.world)
    (hch : s.Change t v (v.world.setStore s.bucket
      ((v.world.store s.bucket).put (bk s.bucket) key body md))) :
    s.Promise t v (v.push e (v.world.setStore s.bucket
        ((v.world.store s.bucket).put (bk s.bucket) key body md))) ∧
      s.AllTied bk (v.push e (v.world.setStore s.bucket
        ((v.world.store s.bucket).put (bk s.bucket) key body md))) :=
  step_commit hb hi ha hi.store.put .put hch

lemma step_erase (hb : (bk s.bucket).Fresh) {e : BEvent B C} {key : String} (hi : s.AllTied bk v)
    (ha : Active t v.world)
    (hch : s.Change t v (v.world.setStore s.bucket ((v.world.store s.bucket).erase key))) :
    s.Promise t v (v.push e (v.world.setStore s.bucket ((v.world.store s.bucket).erase key))) ∧
      s.AllTied bk (v.push e (v.world.setStore s.bucket ((v.world.store s.bucket).erase key))) :=
  step_commit hb hi ha hi.store.erase .erase hch

section Steps

variable (henv : ClockOnly env) (hb : (bk s.bucket).Fresh)

include henv hb

/-! ### Enqueue -/

lemma safe_writePayload {body : ByteArray} {attrs : Metadata} {α : Type}
    {Q : α → BView B C → Prop} {k : Except Err Unit → BProg B α}
    (hk : ∀ r v', (s.restContract bk flt env).Safe (c, .main) Q (k r) v') :
    (s.restContract bk flt env).Safe (c, .main) Q
      ((s.queue c).writePayload x body attrs >>= k) v := by
  refine safe_writeAll_last hk (fun v₁ hr₁ hi₁ r st hst hadm e => ?_)
    (fun v₁ hr₁ hi₁ e => ⟨.quiet (active_main _), hi₁.quiet⟩)
  obtain ⟨hnone, rfl⟩ := Store.write_ifNotExists_ok hst
  exact step_put hb hi₁ (active_main _) (.create x _ (only_put v₁.world (bk s.bucket))
    (s.slot_put_self v₁.world (bk s.bucket) body attrs) hnone (hadm _ x _ _ _ _ rfl hnone))

lemma safe_enqueue {uuid : String} {body : ByteArray} {attrs : Metadata} :
    (s.restContract bk flt env).Safe (c, .main) (fun _ _ => True)
      ((s.queue c).enqueue uuid body attrs) v := by
  refine safe_now fun v₁ hr₁ hi₁ _ => ⟨.quiet (active_main _), hi₁.quiet, ?_⟩
  refine safe_writePayload henv hb fun r v₂ => ?_
  split <;> exact .ret fun _ _ _ => trivial

lemma safe_enqueueWithID {id : String} {body : ByteArray} {attrs : Metadata} :
    (s.restContract bk flt env).Safe (c, .main) (fun _ _ => True)
      ((s.queue c).enqueueWithID id body attrs) v := by
  unfold Queue.enqueueWithID
  split
  · exact .ret fun _ _ _ => trivial
  · refine safe_writePayload henv hb fun r v₂ => ?_
    split <;> exact .ret fun _ _ _ => trivial

/-! ### Lease records -/

/-- `writeLease` next to the payload of the writer's own handle, if it has one.  The version that a
renewer reads back is not of a record for a later payload. -/
lemma safe_writeLease {now : ℤ} {r : ℕ} {pre : Precondition} {pv : Version} (hm : Mine t v.world)
    (hdel : t.2 = .renewer → s.Known v x ∧ DeliveredFor v.world t.1 x pv)
    (htied : ∀ v', (s.restContract bk flt env).Rely t v v' → s.AllTied bk v' → ∀ st,
      (v'.world.store s.bucket).write (bk s.bucket) (Slot.lease.key x) .empty
        ((s.queue t.1).leaseRecord (s.owner t.1) now r) [pre] = .ok st →
      ∀ m, (v'.world.mem t.1).message = some m → m.id = x →
        ∀ p, s.slot v'.world .payload x = some p → p.version = m.payloadVersion) :
    (s.restContract bk flt env).Safe t (fun res v => Mine t v.world ∧ ∀ ver, res = .ok ver →
        Store.Issued (bk s.bucket) (v.world.store s.bucket) ver ∧
          (t.2 = .renewer → s.TiedTo v.world x ver pv))
      ((s.queue t.1).writeLease (Slot.lease.key x) (s.owner t.1) now r pre) v := by
  have H : Handles (s.restContract bk flt env) := restHandles henv
  refine safe_writeAll (fun v₁ hr₁ hi₁ res st hst _ _ => ?_) (fun v₁ hr₁ hi₁ e _ _ => ?_)
  · have hm₁ := mine_rely H hr₁ hm
    have htied₁ := htied v₁ hr₁ hi₁ st hst
    obtain rfl := Store.write_ok hst
    have honly : s.OnlySlot v₁.world (v₁.world.setStore s.bucket ((v₁.world.store s.bucket).put
      (bk s.bucket) (Slot.lease.key x) .empty ((s.queue t.1).leaseRecord (s.owner t.1) now r)))
      .lease x := only_put v₁.world (bk s.bucket)
    have hch := Change.lease (s := s) (t := t) x _ honly
      (s.slot_put_self v₁.world (bk s.bucket) .empty _) (Queue.leaseRecord_owner _ _ _ _) htied₁
    have hstep := fun e => step_put (e := e) hb hi₁ hm₁.active hch
    refine ⟨(hstep _).1, (hstep _).2, ?_⟩
    cases res with
    | error e => exact .ret fun v₂ hr₂ _ => ⟨mine_rely H hr₂ hm₁, nofun⟩
    | ok u =>
        refine safe_attributes fun v₂ hr₂ hi₂ res hres _ => ?_
        have hm₂ := mine_rely (v := v₁.push _ _) H hr₂ hm₁
        -- the renewer is busy between its write and the read-back
        have hpay : t.2 = .renewer →
            s.Known v₂ x ∧ ∀ p, s.slot v₂.world .payload x = some p → p.version = pv := by
          intro ht
          obtain ⟨hk, hd⟩ := hdel ht
          obtain ⟨m, hmsg, hid, hpv⟩ := deliveredFor_rely H hr₁ hd
          have hun := unmoved_rely henv hr₂ ((hk.mono hr₁.le).mono (View.le_push _ _ _))
            (busy_push rfl (.renew _ _ _ ht))
          refine ⟨((hk.mono hr₁.le).mono (View.le_push _ _ _)).mono hr₂.le, fun p hp => ?_⟩
          have hp₁ := (honly.of_slot (by simp)).symm.trans (hun.payload p hp)
          exact (htied₁ m hmsg hid p hp₁).trans hpv
        refine ⟨.quiet hm₂.active, hi₂.quiet, ?_⟩
        obtain ⟨o, ho, rfl⟩ | ⟨-, rfl⟩ | rfl := hres
        · refine .ret fun v₃ hr₃ _ => ⟨mine_rely H hr₃ hm₂, ?_⟩
          rintro ver ⟨⟩
          have hiss := hi₂.store.issued ho
          have hf := rest_follows henv hr₃
          refine ⟨hiss.follows hf, fun ht => ?_⟩
          exact tiedTo_rely henv hb hr₃ ((hpay ht).1.mono (View.le_push _ _ _)) hiss
            fun _ _ _ => (hpay ht).2
        · exact .ret fun v₃ hr₃ _ => ⟨mine_rely H hr₃ hm₂, nofun⟩
        · exact .ret fun v₃ hr₃ _ => ⟨mine_rely H hr₃ hm₂, nofun⟩
  · have hm₁ := mine_rely H hr₁ hm
    exact ⟨.quiet hm₁.active, hi₁.quiet, .ret fun v₂ hr₂ _ => ⟨mine_rely H hr₂ hm₁, nofun⟩⟩

/-- A claimer has no handle, so its lease record may stand next to any payload. -/
lemma safe_claimLease {now : ℤ} {r : ℕ} {pre : Precondition} (hm : Mine (c, .main) v.world) :
    (s.restContract bk flt env).Safe (c, .main)
      (fun res v => Mine (c, .main) v.world ∧ ∀ ver, res = .ok ver →
        Store.Issued (bk s.bucket) (v.world.store s.bucket) ver)
      ((s.queue c).writeLease (Slot.lease.key x) (s.owner c) now r pre) v := by
  have hlease : (s.restContract bk flt env).Safe (c, .main)
      (fun res v => Mine (c, .main) v.world ∧ ∀ ver, res = .ok ver →
        Store.Issued (bk s.bucket) (v.world.store s.bucket) ver ∧
          ((c, Goroutine.main).2 = .renewer → s.TiedTo v.world x ver ""))
      ((s.queue c).writeLease (Slot.lease.key x) (s.owner c) now r pre) v :=
    safe_writeLease (t := (c, .main)) henv hb hm nofun fun v₁ hr₁ _ _ _ m hmsg =>
      absurd ((mine_rely (restHandles henv) hr₁ hm).2.symm.trans hmsg) (by simp)
  exact hlease.mono fun res v _ h => ⟨h.1, fun ver hver => (h.2 ver hver).1⟩

/-- A lease record may be deleted at any time. -/
lemma safe_deleteLease {ver : Version} {α : Type} {Q : α → BView B C → Prop}
    {k : Except Err Unit → BProg B α} (hm : Mine (c, .main) v.world)
    (hk : ∀ r v', Mine (c, .main) v'.world → (s.restContract bk flt env).Safe (c, .main) Q (k r) v') :
    (s.restContract bk flt env).Safe (c, .main) Q
      (delete s.bucket (Slot.lease.key x) [.ifMatch ver] >>= k) v := by
  refine safe_delete (fun v₁ hr₁ hi₁ r st hst _ _ => ?_) (fun v₁ hr₁ hi₁ e _ _ => ?_)
  · have hm₁ := mine_rely (restHandles henv) hr₁ hm
    obtain ⟨-, rfl⟩ := Store.delete_ok hst
    have hch := Change.unlease (s := s) (t := (c, .main)) x (only_erase v₁.world)
      (s.slot_erase_self v₁.world)
    have hstep := fun e => step_erase (e := e) hb hi₁ hm₁.active hch
    exact ⟨(hstep _).1, (hstep _).2, hk _ _ hm₁⟩
  · have hm₁ := mine_rely (restHandles henv) hr₁ hm
    exact ⟨.quiet hm₁.active, hi₁.quiet, hk _ _ hm₁⟩

/-! ### Dead letters -/

omit hb in
lemma dying_rely (hr : (s.restContract bk flt env).Rely (c, .main) v v') (h : s.Dying v c x) :
    s.Dying v' c x := by
  obtain ⟨hk, hbusy, hcase⟩ := h
  have hun := unmoved_rely henv hr hk hbusy
  refine ⟨hk.mono hr.le, busy_rely henv hr hbusy, hcase.imp (fun hnone => ?_) ?_⟩
  · cases hp : s.slot v'.world .payload x with
    | none => rfl
    | some p => exact absurd (hnone.symm.trans (hun.payload p hp)) (by simp)
  · rintro ⟨o, hlatest, hdead, hbur⟩
    exact ⟨o, hun.latest.trans hlatest, hun.dead o hlatest hdead, hbur.mono hr.le⟩

omit henv hb in
lemma settles_of_dying {o : Object} (h : s.Dying v c x)
    (ho : s.slot v.world .payload x = some o) : s.Settles (c, .main) v x o := by
  obtain ⟨-, -, hnone | ⟨o', hlatest, hdead, hbur⟩⟩ := h
  · exact absurd (hnone.symm.trans ho) (by simp)
  · obtain rfl := eq_of_latest hlatest ho
    exact ⟨rfl, .inr ⟨hbur, hdead⟩⟩

lemma safe_removeDead {ver : Version} (hm : Mine (c, .main) v.world)
    (hd : s.Dying v c x) :
    (s.restContract bk flt env).Safe (c, .main) (fun _ v => Mine (c, .main) v.world)
      ((s.queue c).removeDead x ver) v := by
  have H : Handles (s.restContract bk flt env) := restHandles henv
  have hlease : ∀ v' : BView B C, Mine (c, .main) v'.world →
      (s.restContract bk flt env).Safe (c, .main) (fun _ v => Mine (c, .main) v.world)
        ((s.queue c).removeDeadLease x ver) v' := by
    intro v' hm'
    refine safe_deleteLease henv hb hm' fun r v₁ hm₁ => ?_
    split <;> exact .ret fun _ hr _ => mine_rely H hr hm₁
  refine safe_delete (fun v₁ hr₁ hi₁ r st hst _ _ => ?_) (fun v₁ hr₁ hi₁ e he _ => ?_)
  · have hm₁ := mine_rely H hr₁ hm
    obtain ⟨⟨o, ho⟩, rfl⟩ := Store.delete_ok hst
    have hch := Change.remove (s := s) x o (only_erase v₁.world) ho
      (s.slot_erase_self v₁.world) (settles_of_dying (dying_rely henv hr₁ hd) ho)
    have hstep := fun e => step_erase (e := e) hb hi₁ hm₁.active hch
    refine ⟨(hstep _).1, (hstep _).2, ?_⟩
    split
    · exact hlease _ hm₁
    · exact hlease _ hm₁
    · exact .ret fun _ hr _ => mine_rely H hr hm₁
  · have hm₁ := mine_rely H hr₁ hm
    refine ⟨.quiet hm₁.active, hi₁.quiet, ?_⟩
    split
    · exact hlease _ hm₁
    · exact hlease _ hm₁
    · exact .ret fun _ hr _ => mine_rely H hr hm₁

/-- The dead record is written from the payload whose attributes were read. -/
lemma safe_writeDeadRecord {o : Object} {n : ℕ} (hm : Mine (c, .main) v.world)
    (hk : s.Known v x) (hbusy : s.Busy v (c, .main) x) (ho : s.latest v x = some o)
    (hattrs : Did v (c, .main) (.attributes s.bucket (Slot.payload.key x)) (.ok o.attributes)) :
    (s.restContract bk flt env).Safe (c, .main) (fun r v => Mine (c, .main) v.world ∧
        (r = .ok () → s.Dying v c x))
      ((s.queue c).writeDeadRecord x o.metadata n) v := by
  have H : Handles (s.restContract bk flt env) := restHandles henv
  refine safe_readAll fun v₁ hr₁ hi₁ r hr _ => ?_
  have hm₁ := mine_rely H hr₁ hm
  have hun₁ := unmoved_rely henv hr₁ hk hbusy
  have hlatest₁ := hun₁.latest.trans ho
  refine ⟨.quiet hm₁.active, hi₁.quiet, ?_⟩
  obtain ⟨o', ho', rfl⟩ | ⟨hnone, rfl⟩ | rfl := hr
  · obtain rfl := eq_of_latest hlatest₁ ho'
    refine safe_writeAll (fun v₂ hr₂ hi₂ r st hst _ _ => ?_) (fun v₂ hr₂ hi₂ e _ _ => ?_)
    · have hm₂ := mine_rely (v := v₁.push _ _) H hr₂ hm₁
      have hk₁ := (hk.mono hr₁.le)
      have hun₂ := unmoved_rely henv hr₂ (hk₁.mono (View.le_push _ _ _))
        (busy_push rfl (.read _ (by simp)))
      have hlatest₂ : s.latest v₂ x = some o' := by
        rw [hun₂.latest, latest_push_same rfl]
        exact hlatest₁
      obtain rfl := Store.write_ok hst
      have hslot := s.slot_put_self v₂.world (bk s.bucket) (k := .dead) (x := x) o'.body
        (o'.metadata.set queueReceivesField (.int n))
      have honly : s.OnlySlot v₂.world (v₂.world.setStore s.bucket ((v₂.world.store s.bucket).put
        (bk s.bucket) (Slot.dead.key x) o'.body (o'.metadata.set queueReceivesField (.int n))))
        .dead x := only_put v₂.world (bk s.bucket)
      have hch := Change.bury (s := s) (t := (c, .main)) x o' _ n honly hslot hlatest₂ rfl rfl
      have hstep := fun e => step_put (e := e) hb hi₂ hm₂.active hch
      refine ⟨(hstep _).1, (hstep _).2, .ret fun v₃ hr₃ _ =>
        ⟨mine_rely (v := v₂.push _ _) H hr₃ hm₂, ?_⟩⟩
      rintro rfl
      refine dying_rely henv hr₃ ⟨?_, busy_push rfl (.bury _ _ _),
        .inr ⟨o', ?_, ?_, ?_, n, did_push⟩⟩
      · exact ((hk₁.mono (View.le_push _ _ _)).mono hr₂.le).mono (View.le_push _ _ _)
      · exact (latest_push_same (honly.of_slot (by simp))).trans hlatest₂
      · exact ⟨_, n, hslot, rfl, rfl⟩
      · exact ((((hattrs.mono hr₁.le).mono (View.le_push _ _ _)).mono hr₂.le).mono
          (View.le_push _ _ _))
    · have hm₂ := mine_rely (v := v₁.push _ _) H hr₂ hm₁
      exact ⟨.quiet hm₂.active, hi₂.quiet,
        .ret fun v₃ hr₃ _ => ⟨mine_rely (v := v₂.push _ _) H hr₃ hm₂, nofun⟩⟩
  · refine .ret fun v₂ hr₂ _ => ⟨mine_rely (v := v₁.push _ _) H hr₂ hm₁, fun _ => ?_⟩
    exact dying_rely henv hr₂ ⟨(hk.mono hr₁.le).mono (View.le_push _ _ _),
      busy_push rfl (.read _ (by simp)), .inl hnone⟩
  · exact .ret fun v₂ hr₂ _ => ⟨mine_rely (v := v₁.push _ _) H hr₂ hm₁, nofun⟩

lemma safe_deadLetter {n : ℕ} {ver : Version} (hm : Mine (c, .main) v.world) (hk : s.Known v x) :
    (s.restContract bk flt env).Safe (c, .main) (fun _ v => Mine (c, .main) v.world)
      ((s.queue c).deadLetter x n ver) v := by
  have H : Handles (s.restContract bk flt env) := restHandles henv
  refine safe_attributes fun v₁ hr₁ hi₁ r hr _ => ?_
  have hm₁ := mine_rely H hr₁ hm
  have hk₁ := hk.mono hr₁.le
  refine ⟨.quiet hm₁.active, hi₁.quiet, ?_⟩
  obtain ⟨o, ho, rfl⟩ | ⟨hnone, rfl⟩ | rfl := hr
  · refine Safe.bind hi₁.quiet (safe_writeDeadRecord (v := v₁.push _ _) (o := o) henv hb hm₁
      (hk₁.mono (View.le_push _ _ _)) (busy_push rfl (.attributes _ (by simp))) ?_ did_push) ?_
    · exact (latest_push_same rfl).trans (latest_of_some ho)
    · rintro r v₂ hi₂ ⟨hm₂, hd⟩
      cases r with
      | error e => exact .ret fun _ hr _ => mine_rely H hr hm₂
      | ok u => exact safe_removeDead henv hb hm₂ (hd rfl)
  · exact safe_removeDead (v := v₁.push _ _) henv hb hm₁ ⟨hk₁.mono (View.le_push _ _ _),
      busy_push rfl (.attributes _ (by simp)), .inl hnone⟩
  · exact .ret fun _ hr _ => mine_rely (v := v₁.push _ _) H hr hm₁

/-! ### Receive -/

/-- The end of a claim: the handle is for the payload that was looked at. -/
lemma safe_claimed {now : ℤ} {r : ℕ} {ver : Version} (hm : Mine (c, .main) v.world)
    (hiss : Store.Issued (bk s.bucket) (v.world.store s.bucket) ver) :
    (s.restContract bk flt env).Safe (c, .main)
      (fun res v => res = .ok none → Mine (c, .main) v.world)
      ((s.queue c).claimed x (s.owner c) now r ver) v := by
  have H : Handles (s.restContract bk flt env) := restHandles henv
  refine safe_attributes fun v₁ hr₁ hi₁ res hres _ => ?_
  have hm₁ := mine_rely H hr₁ hm
  refine ⟨.quiet hm₁.active, hi₁.quiet, ?_⟩
  obtain ⟨o, ho, rfl⟩ | ⟨hnone, rfl⟩ | rfl := hres
  · refine safe_critical fun v₂ hr₂ hi₂ _ => ?_
    have hm₂ := mine_rely (v := v₁.push _ _) H hr₂ hm₁
    have hk₁ : s.Known v₁ x := ⟨o, committed_of_slot ho⟩
    have hun := unmoved_rely henv hr₂ (hk₁.mono (View.le_push _ _ _))
      (busy_push rfl (.attributes _ (by simp)))
    have hpay : ∀ p, s.slot v₂.world .payload x = some p → p.version = o.version := by
      intro p hp
      obtain rfl := Option.some.inj ((hun.payload p hp).symm.trans ho)
      rfl
    refine ⟨Promise.setMem fun m hmsg => absurd (hm₂.2.symm.trans hmsg) (by simp), ?_,
      .ret fun _ _ _ h => by cases h⟩
    refine hi₂.setMem (fun h => absurd (hm₂.1.symm.trans h) (by simp)) ?_
    rintro m ⟨⟩
    have hf := (rest_follows henv hr₁).trans (rest_follows (v := v₁.push _ _) henv hr₂)
    exact ⟨rfl, rfl, rfl, (hk₁.mono (View.le_push _ _ _)).mono hr₂.le, hiss.follows hf,
      fun _ _ _ => hpay, fun _ _ _ => hpay⟩
  · exact safe_deleteLease (v := v₁.push _ _) henv hb hm₁ fun r v₂ hm₂ =>
      .ret fun _ hr _ _ => mine_rely H hr hm₂
  · exact .ret fun _ _ _ h => by cases h

lemma safe_tryClaim (hm : Mine (c, .main) v.world) (hknown : s.Known v x) :
    (s.restContract bk flt env).Safe (c, .main)
      (fun res v => res = .ok none → Mine (c, .main) v.world)
      ((s.queue c).tryClaim x (s.owner c)) v := by
  have H : Handles (s.restContract bk flt env) := restHandles henv
  refine safe_getLease H fun v₁ hr₁ hi₁ lease e₁ hlease => ?_
  have hm₁ := mine_rely H hr₁ hm
  refine safe_now fun v₂ hr₂ hi₂ _ => ⟨.quiet (active_main _), hi₂.quiet, ?_⟩
  have hm₂ := mine_rely (v := v₁.push _ _) H hr₂ hm₁
  have hknown₂ : s.Known (v₂.push (BEvent.called (c, .main) .now v₂.world.clock) v₂.world) x :=
    (((hknown.mono hr₁.le).mono (View.le_push _ _ _)).mono hr₂.le).mono (View.le_push _ _ _)
  have hdone : ∀ (e : Err) (v' : BView B C), (s.restContract bk flt env).Safe (c, .main)
      (fun res v => res = .ok none → Mine (c, .main) v.world)
      (.ret (.error e) : BProg B (Except Err (Option Message))) v' :=
    fun e v' => .ret fun _ _ _ h => by cases h
  obtain ⟨o, ho, rfl⟩ | rfl | rfl := hlease
  · simp only
    split
    · exact .ret fun _ hr _ _ => mine_rely H hr hm₂
    · split
      · refine Safe.bind hi₂.quiet ((safe_claimLease (v := v₂.push _ _) henv hb hm₂).grow (P := fun v => s.Known v x)
          (fun hle h => h.mono hle) hknown₂) ?_
        rintro res v₃ hi₃ ⟨⟨hm₃, hiss⟩, hk₃⟩
        split
        · exact .ret fun _ hr _ _ => mine_rely H hr hm₃
        · exact .ret fun _ hr _ _ => mine_rely H hr hm₃
        · exact hdone _ _
        · refine Safe.bind hi₃ (safe_deadLetter henv hb hm₃ hk₃) fun r v₄ hi₄ hm₄ => ?_
          split
          · exact hdone _ _
          · exact .ret fun _ hr _ _ => mine_rely H hr hm₄
      · refine Safe.bind hi₂.quiet (safe_claimLease (v := v₂.push _ _) henv hb hm₂) ?_
        rintro res v₃ hi₃ ⟨hm₃, hiss⟩
        split
        · exact .ret fun _ hr _ _ => mine_rely H hr hm₃
        · exact .ret fun _ hr _ _ => mine_rely H hr hm₃
        · exact hdone _ _
        · exact safe_claimed henv hb hm₃ (hiss _ rfl)
  · refine Safe.bind hi₂.quiet (safe_claimLease (v := v₂.push _ _) henv hb hm₂) ?_
    rintro res v₃ hi₃ ⟨hm₃, hiss⟩
    split
    · exact .ret fun _ hr _ _ => mine_rely H hr hm₃
    · exact hdone _ _
    · exact safe_claimed henv hb hm₃ (hiss _ rfl)
  · exact hdone _ _

/-! ### The renewer -/

/-- The renewer swaps only next to the payload of its handle, and the version it reads back is not of
a record for a later payload. -/
lemma safe_renewOnce {r : ℕ} {ver : Version} {now d : ℤ} (hrun : Running v.world c x r ver d) :
    (s.restContract bk flt env).Safe (c, .renewer) (fun _ v => Mine (c, .renewer) v.world)
      ((s.queue c).renewOnce (Slot.lease.key x) (s.owner c) r now) v := by
  have H : Handles (s.restContract bk flt env) := restHandles henv
  refine safe_messageField H hrun fun v₁ hr₁ hi₁ e m hm hver _ hrun₁ _ => ?_
  rw [hver]
  obtain ⟨m', hm', -, hid, -⟩ := id hrun₁
  obtain rfl := Option.some.inj (hm.symm.trans hm')
  have hdel : DeliveredFor v₁.world c x m.payloadVersion := ⟨m, hm, hid, rfl⟩
  have hk : s.Known v₁ x := hid ▸ (hi₁.handle c m hm).known
  have hlease : (s.restContract bk flt env).Safe (c, .renewer)
      (fun res v => Mine (c, .renewer) v.world ∧ ∀ ver, res = .ok ver →
        Store.Issued (bk s.bucket) (v.world.store s.bucket) ver ∧
          ((c, Goroutine.renewer).2 = .renewer → s.TiedTo v.world x ver m.payloadVersion))
      ((s.queue c).writeLease (Slot.lease.key x) (s.owner c) now r (.ifMatch ver))
      (v₁.push e v₁.world) := by
    refine safe_writeLease (t := (c, .renewer)) (v := v₁.push e v₁.world) henv hb hrun₁.mine
      (fun _ => ⟨hk.mono (View.le_push _ _ _), hdel⟩) ?_
    rintro v₂ hr₂ hi₂ st hst m₂ hm₂ rfl p hp
    obtain ⟨m', hm', -, -, -, hver₂, -⟩ := running_rely (v := v₁.push _ _) H hr₂ hrun₁
    obtain rfl := Option.some.inj (hm₂.symm.trans hm')
    have hok := hi₂.handle c m₂ hm₂
    subst hver₂
    obtain ⟨o, ho, hov, -⟩ := Store.write_ifMatch_ok (hok.issued.ne_empty hb) hst
    exact hok.tied o ho hov p hp
  refine Safe.bind (hi₁.quiet) ((safe_delivered H hlease hdel).grow (P := fun v => s.Known v x)
    (fun hle h => h.mono hle) (hk.mono (View.le_push _ _ _))) ?_
  rintro res v₂ hi₂ ⟨⟨⟨hm₂, hres⟩, hdel₂⟩, hk₂⟩
  cases res with
  | error e => exact .ret fun _ hr _ => mine_rely H hr hm₂
  | ok newVersion =>
      obtain ⟨hiss, htied⟩ := hres newVersion rfl
      refine safe_critical fun v₃ hr₃ hi₃ _ => ?_
      obtain ⟨m₃, hm₃, hst₃⟩ := mine_rely H hr₃ hm₂
      obtain ⟨m', hm', hid₃, hpv₃⟩ := deliveredFor_rely H hr₃ hdel₂
      obtain rfl := Option.some.inj (hm₃.symm.trans hm')
      refine ⟨Promise.setMem ⟨m₃, hm₃, hst₃, _, Mem.onMessage_some hm₃, rfl, rfl, rfl, rfl⟩,
        hi₃.onMessage fun m₄ hm₄ => ?_,
        .ret fun _ hr _ => mine_rely H hr ⟨_, World.message_onMessage hm₃, hst₃⟩⟩
      obtain rfl := Option.some.inj (hm₃.symm.trans hm₄)
      have hok := hi₃.handle c m₃ hm₃
      have htied₃ := tiedTo_rely henv hb hr₃ hk₂ hiss (htied rfl)
      rw [← hid₃, ← hpv₃] at htied₃
      exact ⟨hok.msgPath, hok.leasePath, hok.owner, hok.known,
        hiss.follows (rest_follows henv hr₃), htied₃, hok.own⟩

/-! ### Ack and Nack -/

omit henv in
/-- The owner's record, swapped or deleted on the version that was read, is still the record that was
read. -/
lemma own_same {o o' : Object} (hi : s.AllTied bk v) (ho : s.slot v.world .lease x = some o)
    (hi' : s.AllTied bk v') (hf : (v.world.store s.bucket).Follows (v'.world.store s.bucket))
    (ho' : s.slot v'.world .lease x = some o') (hov : o'.version = o.version) : o' = o :=
  Option.some.inj ((hi'.store.get_of_issued hb hf (hi.store.issued ho) ho' hov).symm.trans ho)

lemma safe_ack {ver : Version} (hi : s.AllTied bk v) (hc : DeliveredFor v.world c x ver)
    (hack : AckedFor v c x ver) :
    (s.restContract bk flt env).Safe (c, .main) (fun _ _ => True)
      ((s.queue c).ack (Slot.payload.key x) (Slot.lease.key x) (s.owner c)) v := by
  have H : Handles (s.restContract bk flt env) := restHandles henv
  refine safe_settle_then H hi hc (fun _ => .ret fun _ _ _ => trivial)
    fun v₁ m hi₁ hle hcl₁ hid hpv => ?_
  refine safe_getLease H fun v₂ hr₂ hi₂ res e₂ hres => ?_
  have hcl₂ := closing_rely H hr₂ hcl₁
  obtain ⟨o, ho, rfl⟩ | rfl | rfl := hres
  · simp only
    split
    · exact .ret fun _ _ _ => trivial
    · rename_i hown
      refine safe_delete (fun v₃ hr₃ hi₃ res st hst _ _ => ?_) (fun v₃ hr₃ hi₃ e _ _ => ?_)
      · have hcl₃ := closing_rely (v := v₂.push _ _) H hr₃ hcl₂
        have hok := hi₃.handle c m hcl₃.1
        have hack₃ : AckedFor v₃ c x ver :=
          (((hack.mono hle).mono hr₂.le).mono (View.le_push _ _ _)).mono hr₃.le
        obtain ⟨o', ho', hov, rfl⟩ := Store.delete_ifMatch_ok (hi₂.store.version_ne hb ho) hst
        obtain rfl := own_same hb hi₂ ho hi₃ (rest_follows (v := v₂.push _ _) henv hr₃) ho' hov
        have honly : s.OnlySlot v₃.world (v₃.world.setStore s.bucket
          ((v₃.world.store s.bucket).erase (Slot.lease.key x))) .lease x := only_erase v₃.world
        have hch := Change.unlease (s := s) (t := (c, .main)) x honly (s.slot_erase_self v₃.world)
        have hstep := fun e => step_erase (e := e) hb hi₃ (active_main _) hch
        refine ⟨(hstep _).1, (hstep _).2, ?_⟩
        split
        · exact .ret fun _ _ _ => trivial
        · exact .ret fun _ _ _ => trivial
        · exact .ret fun _ _ _ => trivial
        · -- the lease was its own, so the payload is; and it is busy until it has deleted it
          refine safe_delete_last (fun r v₄ => ?_) (fun v₄ hr₄ hi₄ st hst e => ?_)
            (fun v₄ hr₄ hi₄ e => ⟨.quiet (active_main _), hi₄.quiet⟩)
          · split <;> exact .ret fun _ _ _ => trivial
          · obtain ⟨⟨p, hp⟩, rfl⟩ := Store.delete_ok hst
            have hun := unmoved_rely henv hr₄ ((hid ▸ hok.known).mono (View.le_push _ _ _))
              (busy_push rfl (.release ver ⟨m, hcl₃.1, hid, hpv⟩ _))
            have hp₃ := (honly.of_slot (by simp)).symm.trans (hun.payload p hp)
            have hver : p.version = ver := by
              subst hid
              exact (hok.own o' ho' (not_not.mp hown) p hp₃).trans hpv
            exact step_erase hb hi₄ (active_main _) (.remove x p (only_erase v₄.world) hp
              (s.slot_erase_self v₄.world)
              ⟨rfl, .inl (hver ▸ (hack₃.mono (View.le_push _ _ _)).mono hr₄.le)⟩)
      · refine ⟨.quiet (active_main _), hi₃.quiet, ?_⟩
        split
        · exact .ret fun _ _ _ => trivial
        · exact .ret fun _ _ _ => trivial
        · exact .ret fun _ _ _ => trivial
        · rename_i heq
          cases heq
  · exact .ret fun _ _ _ => trivial
  · exact .ret fun _ _ _ => trivial

lemma safe_nack {ver : Version} (hi : s.AllTied bk v) (hc : DeliveredFor v.world c x ver) :
    (s.restContract bk flt env).Safe (c, .main) (fun _ _ => True)
      ((s.queue c).nack (Slot.lease.key x) (s.owner c)) v := by
  have H : Handles (s.restContract bk flt env) := restHandles henv
  refine safe_settle_then H hi hc (fun _ => .ret fun _ _ _ => trivial)
    fun v₁ m hi₁ hle hcl₁ hid _ => ?_
  refine safe_getLease H fun v₂ hr₂ hi₂ res e₂ hres => ?_
  have hcl₂ := closing_rely H hr₂ hcl₁
  obtain ⟨o, ho, rfl⟩ | rfl | rfl := hres
  · simp only
    split
    · exact .ret fun _ _ _ => trivial
    · rename_i hown
      refine safe_now fun v₃ hr₃ hi₃ _ => ⟨.quiet (active_main _), hi₃.quiet, ?_⟩
      have hcl₃ := closing_rely (v := v₂.push _ _) H hr₃ hcl₂
      refine safe_writeAll_last (fun r v₄ => ?_) (fun v₄ hr₄ hi₄ _ st hst _ e => ?_)
        (fun v₄ hr₄ hi₄ e => ⟨.quiet (active_main _), hi₄.quiet⟩)
      · split <;> exact .ret fun _ _ _ => trivial
      · have hfollows := (rest_follows (v := v₂.push _ _) henv hr₃).trans
          (rest_follows (v := v₃.push _ _) henv hr₄)
        obtain ⟨o', ho', hov, rfl⟩ := Store.write_ifMatch_ok (hi₂.store.version_ne hb ho) hst
        obtain rfl := own_same hb hi₂ ho hi₄ hfollows ho' hov
        refine step_put hb hi₄ (active_main _) (.lease x _ (only_put v₄.world (bk s.bucket))
          (s.slot_put_self v₄.world (bk s.bucket) .empty _) rfl fun m' hm' hid' p hp => ?_)
        subst hid'
        exact (hi₄.handle c m' hm').own o' ho' (not_not.mp hown) p hp
  · exact .ret fun _ _ _ => trivial
  · exact .ret fun _ _ _ => trivial

end Steps

/-! ## Soundness -/

/-- A client makes its first call. -/
lemma step_call {e : BEvent B C} (hi : s.AllTied bk v) (hcalled : (v.world.mem c).called = false) :
    s.Promise (c, .main) v (v.push e (v.world.setMem c { called := true })) ∧
      s.AllTied bk (v.push e (v.world.setMem c { called := true })) ∧
      Mine (c, .main) (v.world.setMem c { called := true }) :=
  ⟨Promise.setMem fun _ hm => absurd ((hi.uncalled c hcalled).symm.trans hm) (by simp),
    hi.setMem (fun _ => rfl) (fun _ hm => by cases hm), by simp, by simp⟩

variable (flt) in
/-- **The contract is sound**, whatever the clock does. -/
theorem sound (henv : ClockOnly env) (hb : (bk s.bucket).Fresh) (hl : (bk s.bucket).ListsStored)
    {w₀ : World B C} (h₀ : s.Initial w₀) : (s.restContract bk flt env).Sound w₀ where
  init := by
    refine ⟨⟨?_, fun c _ => by simp [h₀.mem c], fun c m hm => ?_⟩, fun _ => trivial⟩
    · change (w₀.store s.bucket).Ok _
      rw [h₀.store]
      exact Store.Ok.empty _
    · simp [h₀.mem c] at hm
  env := by
    rintro v v' hi ⟨d, w, hw, -, rfl⟩
    exact hi.same (henv d _ w hw).1 (henv d _ w hw).2
  stable _ _ _ _ _ := trivial
  start := by
    rintro ⟨c, g⟩ e v p w hi - - hstart
    change s.start (c, g) e v.world = some (p, w) at hstart
    cases start_cases hstart with
    | enqueue body attrs h =>
        obtain ⟨hg, hi', -⟩ := step_call hi h
        exact ⟨hg, hi', Safe.discard hi' (fun _ h => h) (safe_enqueue henv hb)⟩
    | enqueueWithID id body attrs h =>
        obtain ⟨hg, hi', -⟩ := step_call hi h
        exact ⟨hg, hi', Safe.discard hi' (fun _ h => h) (safe_enqueueWithID henv hb)⟩
    | tryReceive h =>
        obtain ⟨hg, hi', hm⟩ := step_call hi h
        exact ⟨hg, hi', Safe.discard hi' (fun _ h => h) (safe_tryReceive
          (K := s.restContract bk flt env) (restHandles henv) hl
          (fun _ hm hk => safe_tryClaim henv hb hm hk) hm)⟩
    | ack m hm =>
        have hok := hi.handle c m hm
        have hdel : DeliveredFor v.world c m.id m.payloadVersion := ⟨m, hm, rfl, rfl⟩
        refine ⟨.quiet (active_main _), hi.quiet, Safe.discard hi.quiet (fun _ h => h) ?_⟩
        rw [hok.msgPath, hok.leasePath, hok.owner]
        exact safe_ack henv hb hi.quiet hdel ⟨_, List.mem_cons_self, rfl, hdel⟩
    | nack m hm =>
        have hok := hi.handle c m hm
        have hdel : DeliveredFor v.world c m.id m.payloadVersion := ⟨m, hm, rfl, rfl⟩
        refine ⟨.quiet (active_main _), hi.quiet, Safe.discard hi.quiet (fun _ h => h) ?_⟩
        rw [hok.leasePath, hok.owner]
        exact safe_nack henv hb hi.quiet hdel
    | renew fuel m hm hst =>
        have hok := hi.handle c m hm
        have hmine : Mine (c, .renewer) v.world := ⟨m, hm, hst⟩
        rw [hok.leasePath, hok.owner]
        exact ⟨.quiet hmine.active, hi.quiet, safe_renewLoop (K := s.restContract bk flt env)
          (restHandles henv) hi.quiet hmine ⟨m, hm, rfl, rfl⟩ fuel
          (fun _ _ _ _ hrun _ => safe_renewOnce henv hb hrun)⟩

end Rest

/-! ## Removals -/

variable {w' w₀ : World B C} {e : BEvent B C} {o : Object}
  {cfg : Config (bucketSig B) (World B C) (Thread C)}

/-- A payload that is not there any more has been removed, by someone entitled to. -/
lemma Change.removed (hch : s.Change t v w') (ho : s.slot v.world .payload x = some o)
    (hgone : s.slot w' .payload x ≠ some o) :
    s.slot w' .payload x = none ∧ s.slot w' .dead x = s.slot v.world .dead x ∧
      s.Settles t v x o := by
  cases hch with
  | quiet hq => exact absurd ((hq _ _).trans ho) hgone
  | create x' o' honly ho' hnone hrest =>
      by_cases hx : x = x'
      · subst hx
        exact absurd (hnone.symm.trans ho) (by simp)
      · exact absurd ((honly.of_id hx).trans ho) hgone
  | lease x' o' honly ho' hown htied => exact absurd ((honly.of_slot (by simp)).trans ho) hgone
  | unlease x' honly hnone => exact absurd ((honly.of_slot (by simp)).trans ho) hgone
  | remove x' o' honly ho' hnone hby =>
      by_cases hx : x = x'
      · subst hx
        obtain rfl := Option.some.inj (ho.symm.trans ho')
        exact ⟨hnone, honly.of_slot (by simp), hby⟩
      · exact absurd ((honly.of_id hx).trans ho) hgone
  | bury x' o' d n honly hd ho' hbody hmd =>
      exact absurd ((honly.of_slot (by simp)).trans ho) hgone

/-- **A payload is removed by those who settled it.**  In every run that reuses ids at rest only:
every step that takes a payload away is a step of a client that has called `Ack` on a handle
delivered for that very payload, or that has written that very payload to the dead record, which holds
it at that moment. -/
theorem removed_by_settler (hb : (bk s.bucket).Fresh) (hl : (bk s.bucket).ListsStored)
    (h₀ : s.Initial w₀) (hc : Reach (s.machine bk flt) s.reusedAtRest w₀ cfg) (x : String) :
    ∀ p ∈ cfg.view.steps, ∀ o, s.slot p.1 .payload x = some o → s.slot p.2.2 .payload x ≠ some o →
      s.slot p.2.2 .payload x = none ∧ ∃ d, p.2.1.thread = some (d, .main) ∧
        (AckedFor cfg.view d x o.version ∨
          (s.BuriedBy cfg.view d x o ∧ s.DeadHolds p.1 x o)) := by
  intro p hp o ho hgone
  have hsound := Rest.sound flt clockOnly_advance hb hl h₀
  obtain ⟨v, -, hv, hle, ⟨d, w, hw, -, heq⟩ | ⟨⟨d, g⟩, ht, -, hg⟩⟩ := hsound.steps hc hp
  · -- time passes
    obtain rfl := Option.some.inj hw
    have hw' : p.2.2 = v.world.advance d := congrArg View.world heq
    rw [hw'] at hgone
    rw [← hv] at ho
    exact absurd ho hgone
  · have hle' : v.Le cfg.view := (View.le_push _ _ _).trans hle
    rw [← hv] at ho ⊢
    obtain ⟨hnone, -, rfl, hby⟩ := hg.change.removed ho hgone
    exact ⟨hnone, d, ht, hby.imp (fun h => h.mono hle') fun h => ⟨h.1.mono hle', h.2⟩⟩

/-! ### A run that reuses an id at rest -/

variable (s) in
/-- Whether the latest step of the thread may leave it busy with the id. -/
def maybeBusy (v : BView B C) (t : Thread C) (x : String) : Bool :=
  match v.lastOf t with
  | some (.call _ (.attributes _ key) _) => key == Slot.payload.key x
  | some (.call _ (.read _ key) _) => key == Slot.payload.key x
  | some (.call _ (.write _ key _ _ _) _) => key == Slot.dead.key x || key == Slot.lease.key x
  | some (.call _ (.delete _ key _) _) => key == Slot.lease.key x
  | _ => false

lemma Busy.maybeBusy (h : s.Busy v t x) : maybeBusy v t x = true := by
  obtain ⟨e, hlast, hcom⟩ := h
  cases hcom <;> simp [QueueSetup.maybeBusy, hlast]

variable (s) in
/-- Whether a step keeps to the condition. -/
def isAtRest (v : BView B C) (e : BEvent B C) : Bool :=
  s.isFirstUse v e || match e with
    | .call _ (.write _ key _ _ _) _ => (cutPrefix key queueMsgPrefix).all fun x =>
        (s.slot v.world .lease x).isNone &&
          v.hist.all fun p => p.1.thread.all fun u => !maybeBusy v u x
    | _ => true

lemma reusedAtRest_of_neverReused (h : s.neverReused v e) : s.reusedAtRest v e :=
  fun t x body md pre r he hnone hk => absurd hk (h t x body md pre r he hnone)

lemma reusedAtRest_of_isAtRest (h : s.isAtRest v e = true) : s.reusedAtRest v e := by
  rcases Bool.or_eq_true_iff.mp h with h | h
  · exact reusedAtRest_of_neverReused (neverReused_of_isFirstUse h)
  · rintro t x body md pre r rfl hnone hk
    have hcut : cutPrefix (Slot.payload.key x) queueMsgPrefix = some x := cutPrefix_append _ _
    simp only [hcut, Option.all_some, Bool.and_eq_true, Option.isNone_iff_eq_none,
      List.all_eq_true] at h
    refine ⟨h.1, fun u hbusy => ?_⟩
    obtain ⟨e, hlast, -⟩ := id hbusy
    obtain ⟨p, hp, rfl⟩ := List.mem_map.mp (List.mem_of_find?_eq_some hlast)
    have hu : p.1.thread = some u := by simpa using List.find?_some hlast
    have hall := h.2 p hp
    rw [hu, Option.all_some, hbusy.maybeBusy] at hall
    cases hall

/-- Two producers and two workers on one queue. -/
def quartet : QueueSetup Unit (Fin 4) where
  bucket := ()
  lease _ := 30
  headWindow _ := 100
  maxReceives _ := 5
  owner := !["p", "a", "b", "q"]
  owner_inj := by decide
  uuid _ := "u"

/-- A schedule whose steps pass a test, on the four. -/
lemma quartet_reach (test : BView Unit (Fin 4) → BEvent Unit (Fin 4) → Bool)
    (adm : BView Unit (Fin 4) → BEvent Unit (Fin 4) → Prop)
    (htest : ∀ v e, test v e = true → adm v e)
    (as : List (Action (quartet.machine (fun _ => memBackend) ⟨false, false⟩)))
    (p : Config (bucketSig Unit) (World Unit (Fin 4)) (Thread (Fin 4)) → Bool)
    (h : ((quartet.machine (fun _ => memBackend) ⟨false, false⟩).run
      (Config.init _ _ pristine) as).any
      (fun c => admitsAll test c.view.hist && p c) = true) :
    ∃ c, Reach (quartet.machine (fun _ => memBackend) ⟨false, false⟩) adm pristine c ∧
      p c = true :=
  reach_of_run_adm htest h

/-- The message is acknowledged and enqueued again when all is done; it is then delivered to the second
worker, whose `Ack` removes it. -/
theorem removed_by_settler_reused :
    ∃ c, Reach (quartet.machine (fun _ => memBackend) ⟨false, false⟩) quartet.reusedAtRest
        pristine c ∧
      ∃ p ∈ c.view.steps, quartet.slot p.1 .payload "m" = some ⟨.empty, [], "3", 2⟩ ∧
        quartet.slot p.2.2 .payload "m" = none ∧
        ∃ d, p.2.1.thread = some (d, .main) ∧
          (AckedFor c.view d "m" "3" ∨ (quartet.BuriedBy c.view d "m" ⟨.empty, [], "3", 2⟩ ∧
            quartet.DeadHolds p.1 "m" ⟨.empty, [], "3", 2⟩)) := by
  obtain ⟨c, hreach, htest⟩ := quartet_reach quartet.isAtRest quartet.reusedAtRest
    (fun _ _ => reusedAtRest_of_isAtRest)
    (enqueued 0 .empty ++ received 1 ++ settled 1 .ack ++ calls 1 .main 3 ++ enqueued 3 .empty ++
      received 2 ++ settled 2 .ack ++ calls 2 .main 3)
    (fun c => c.view.steps.any fun p =>
      decide (quartet.slot p.1 .payload "m" = some ⟨.empty, [], "3", 2⟩) &&
        decide (quartet.slot p.2.2 .payload "m" = none)) (by decide +kernel)
  simp only [List.any_eq_true, Bool.and_eq_true, decide_eq_true_eq] at htest
  obtain ⟨p, hp, ho, hgone⟩ := htest
  exact ⟨c, hreach, p, hp, ho, hgone, (removed_by_settler memBackend_fresh memBackend_listsStored
    ⟨rfl, fun _ => rfl⟩ hreach "m" p hp _ ho (by rw [hgone]; simp)).2⟩

/-- The step is a write to the key by the thread, and it was answered without an error. -/
def wrote (t : Thread C) (key : String) : BEvent B C → Bool
  | .call u (.write _ k _ _ _) (.ok _) => decide (u = t) && decide (k = key)
  | _ => false

/-- **A message is lost when its id is reused too early.**  The first worker's `Ack` deletes the lease
and pauses; the second worker receives the message, acknowledges it and removes it; the second
producer enqueues the id again, successfully; then the first worker's `Ack` goes on and deletes the
new payload, which was never delivered to anyone and never moved to the dead letters. -/
theorem reused_payload_lost :
    ∃ c, Reach (quartet.machine (fun _ => memBackend) ⟨false, false⟩) anyStep pristine c ∧
      ∃ o, (∃ q ∈ c.view.steps, wrote (3, .main) (Slot.payload.key "m") q.2.1 = true ∧
          quartet.slot q.1 .payload "m" = none ∧ quartet.slot q.2.2 .payload "m" = some o) ∧
        (∃ p ∈ c.view.steps, quartet.slot p.1 .payload "m" = some o ∧
          quartet.slot p.2.2 .payload "m" = none) ∧
        ∀ w ∈ c.view.worlds, (∀ d, ¬ DeliveredFor w d "m" o.version) ∧
          quartet.slot w .dead "m" = none := by
  obtain ⟨c, hreach, htest⟩ := quartet_reach (fun _ _ => true) anyStep (fun _ _ _ => trivial)
    (enqueued 0 .empty ++ received 1 ++ settled 1 .ack ++ calls 1 .main 2 ++ received 2 ++
      settled 2 .ack ++ calls 2 .main 3 ++ enqueued 3 .empty ++ calls 1 .main 1)
    (fun c =>
      (c.view.steps.any fun q => wrote (3, .main) (Slot.payload.key "m") q.2.1 &&
        decide (quartet.slot q.1 .payload "m" = none) &&
        decide (quartet.slot q.2.2 .payload "m" = some ⟨.empty, [], "4", 3⟩)) &&
      (c.view.steps.any fun p =>
        decide (quartet.slot p.1 .payload "m" = some ⟨.empty, [], "4", 3⟩) &&
          decide (quartet.slot p.2.2 .payload "m" = none)) &&
      c.view.worlds.all fun w => decide (∀ d, ¬ DeliveredFor w d "m" "4") &&
        decide (quartet.slot w .dead "m" = none)) (by decide +kernel)
  simp only [List.any_eq_true, List.all_eq_true, Bool.and_eq_true, decide_eq_true_eq] at htest
  obtain ⟨⟨⟨q, hq, ⟨hw, hq₁⟩, hq₂⟩, p, hp, hp₁, hp₂⟩, hall⟩ := htest
  exact ⟨c, hreach, _, ⟨q, hq, hw, hq₁, hq₂⟩, ⟨p, hp, hp₁, hp₂⟩, hall⟩

/-! ## Fresh ids -/

lemma AckedFor.acked {ver : Version} (h : AckedFor v c x ver) : Acked v x := by
  obtain ⟨p, hp, he, m, hm, hid, -⟩ := h
  exact ⟨p, hp, _, m, he, hm, hid⟩

lemma committed_of_latest (h : s.latest v x = some o) : s.Committed v x o := by
  obtain ⟨w, hw, ho⟩ := Option.bind_eq_some_iff.mp h
  exact ⟨w, List.mem_of_find?_eq_some hw, ho⟩

variable (s) in
/-- What holds while ids are not reused: an id has one payload, which is there until it has been
acknowledged or the dead record holds it. -/
structure Kept (v : BView B C) : Prop where
  unique : ∀ x o o', s.Committed v x o → s.Committed v x o' → o = o'
  kept : ∀ x o, s.Committed v x o →
    s.slot v.world .payload x = some o ∨ Acked v x ∨ s.DeadHolds v.world x o

/-- A dead record of the one payload of an id is only ever overwritten by another one of it. -/
lemma Change.deadHolds (hch : s.Change t v w') (huniq : ∀ o', s.Committed v x o' → o' = o)
    (hd : s.DeadHolds v.world x o) : s.DeadHolds w' x o := by
  have hsame : s.slot w' .dead x = s.slot v.world .dead x → s.DeadHolds w' x o := by
    intro h
    simpa only [DeadHolds, h] using hd
  cases hch with
  | quiet hq => exact hsame (hq _ _)
  | create x' o' honly ho' hnone hrest => exact hsame (honly.of_slot (by simp))
  | lease x' o' honly ho' hown htied => exact hsame (honly.of_slot (by simp))
  | unlease x' honly hnone => exact hsame (honly.of_slot (by simp))
  | remove x' o' honly ho' hnone hby => exact hsame (honly.of_slot (by simp))
  | bury x' o' d n honly hd' ho' hbody hmd =>
      by_cases hx : x = x'
      · subst hx
        obtain rfl := huniq o' (committed_of_latest ho')
        exact ⟨d, n, hd', hbody, hmd⟩
      · exact hsame (honly.of_id hx)

/-- What one step keeps. -/
lemma Kept.step (h : s.Kept v) (hch : s.Change t v w')
    (hnew : ∀ x o, s.slot w' .payload x = some o → s.slot v.world .payload x ≠ some o →
      ¬ s.Known v x) : s.Kept (v.push e w') where
  unique x o o' ho ho' := by
    have hold : ∀ {o o'}, s.slot w' .payload x = some o → s.Committed v x o' → o = o' := by
      intro o o' ho ho'
      by_cases hv : s.slot v.world .payload x = some o
      · exact h.unique x o o' (committed_of_slot hv) ho'
      · exact absurd ⟨o', ho'⟩ (hnew x o ho hv)
    rcases committed_push.mp ho with ho | ho <;> rcases committed_push.mp ho' with ho' | ho'
    · exact Option.some.inj (ho.symm.trans ho')
    · exact hold ho ho'
    · exact (hold ho' ho).symm
    · exact h.unique x o o' ho ho'
  kept x o ho := by
    rcases committed_push.mp ho with ho | ho
    · exact .inl ho
    · have huniq : ∀ o', s.Committed v x o' → o' = o := fun o' ho' => h.unique x o' o ho' ho
      rcases h.kept x o ho with hp | hack | hdead
      · by_cases hp' : s.slot w' .payload x = some o
        · exact .inl hp'
        · obtain ⟨-, -, -, hby | ⟨-, hd⟩⟩ := hch.removed hp hp'
          · exact .inr (.inl (hby.acked.mono (View.le_push _ _ _)))
          · exact .inr (.inr (hch.deadHolds huniq hd))
      · exact .inr (.inl (hack.mono (View.le_push _ _ _)))
      · exact .inr (.inr (hch.deadHolds huniq hdead))

/-- Nothing in the bucket changes. -/
lemma Kept.same (h : s.Kept v) (hstore : w'.store = v.world.store) : s.Kept (v.push e w') := by
  have hslot : ∀ k x, s.slot w' k x = s.slot v.world k x := by
    intro k x
    simp only [slot, hstore]
  have hcom : ∀ {x o}, s.Committed (v.push e w') x o → s.Committed v x o := by
    intro x o ho
    rcases committed_push.mp ho with ho | ho
    · exact committed_of_slot ((hslot _ _).symm.trans ho)
    · exact ho
  refine ⟨fun x o o' ho ho' => h.unique x o o' (hcom ho) (hcom ho'), fun x o ho => ?_⟩
  refine (h.kept x o (hcom ho)).imp (fun hp => (hslot _ _).trans hp) (Or.imp ?_ ?_)
  · exact fun hack => hack.mono (View.le_push _ _ _)
  · intro hd
    simpa only [DeadHolds, View.push_world, hslot] using hd

/-- **No message is lost.**  When ids are never reused, a payload that was committed is in the store,
unchanged, until `Ack` was called on a message that was received for its id, or the dead record of the
id holds it; whatever fails, whoever stops, and whatever the clocks say. -/
theorem payload_kept (hb : (bk s.bucket).Fresh) (hl : (bk s.bucket).ListsStored)
    (h₀ : s.Initial w₀)
    (hc : Reach (bucketMachine bk flt s.start anyClock) s.neverReused w₀ cfg)
    (ho : s.Committed cfg.view x o) :
    s.slot cfg.view.world .payload x = some o ∨ Acked cfg.view x ∨
      s.DeadHolds cfg.view.world x o := by
  have hsound := Rest.sound flt clockOnly_anyClock hb hl h₀
  refine (?_ : s.Kept cfg.view).kept x o ho
  clear ho
  induction hc with
  | init =>
      have hnone : ∀ x o, ¬ s.Committed (Config.init (bucketSig B) (Thread C) w₀).view x o := by
        rintro x o ⟨w, hw, ho⟩
        obtain rfl : w = w₀ := by simpa [View.worlds, Config.init] using hw
        exact absurd ((h₀.slot _).symm.trans ho) (by simp)
      exact ⟨fun x o _ ho => absurd ho (hnone x o), fun x o ho => absurd ho (hnone x o)⟩
  | @step c c' e hc hs ha ih =>
      have hc' := hc.mono fun _ _ h => reusedAtRest_of_neverReused h
      rcases hsound.step_guar hc' hs (reusedAtRest_of_neverReused ha) with
        ⟨now, w, hw, -, hv⟩ | ⟨t, -, -, hg⟩
      · rw [hv]
        exact ih.same (clockOnly_anyClock now _ w hw).1
      · have hnew : ∀ x o, s.slot c'.view.world .payload x = some o →
            s.slot c.view.world .payload x ≠ some o → ¬ s.Known c.view x := by
          intro x o ho hne
          obtain ⟨t', body, md, pre, r, rfl, -⟩ := step_write clockOnly_anyClock hs ho hne
          refine ha t' x body md pre r rfl ?_
          cases hp : s.slot c.view.world .payload x with
          | none => rfl
          | some o' =>
              have hgone : s.slot c'.view.world .payload x ≠ some o' := by
                rw [ho, ← hp]
                exact hne.symm
              exact absurd ((hg.change.removed hp hgone).1.symm.trans ho) (by simp)
        obtain ⟨w, hv⟩ := hs.push
        rw [hv] at hg hnew ⊢
        exact ih.step hg.change hnew

/-- With a limit of one delivery and a clock that jumps: the first worker receives the message, the
second moves it to the dead letters; the payload is gone, nobody has acknowledged it, and the dead
record holds it. -/
theorem payload_kept_buried :
    ∃ c, Reach (bucketMachine (fun _ => memBackend) ⟨true, true⟩ (trio 1).start anyClock)
        (trio 1).neverReused pristine c ∧
      (trio 1).slot c.view.world .payload "m" = none ∧ ¬ Acked c.view "m" ∧
      (trio 1).DeadHolds c.view.world "m" ⟨.empty, [], "1", 0⟩ := by
  obtain ⟨c, hreach, htest⟩ := firstUse_reach (trio 1) ⟨true, true⟩ anyClock
    (enqueued 0 .empty ++ received 1 ++ [.env (100 : ℤ)] ++ looked 2 ++ calls 2 .main 2 ++
      [.env (-7 : ℤ)] ++ calls 2 .main 5)
    (fun c => decide ((trio 1).slot c.view.world .payload "m" = none) &&
      decide (¬ Acked c.view "m") && c.view.worlds.any fun w =>
        decide ((trio 1).slot w .payload "m" = some ⟨.empty, [], "1", 0⟩)) (by decide +kernel)
  simp only [List.any_eq_true, Bool.and_eq_true, decide_eq_true_eq] at htest
  obtain ⟨⟨hnone, hack⟩, hcom⟩ := htest
  refine ⟨c, hreach, hnone, hack, ?_⟩
  rcases payload_kept memBackend_fresh memBackend_listsStored (trio_initial 1) hreach hcom with
    hp | hack' | hdead
  · exact absurd (hnone.symm.trans hp) (by simp)
  · exact absurd hack' hack
  · exact hdead

end QueueSetup

end Blobster
