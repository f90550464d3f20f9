import Blobster.Locker.Loss
import Blobster.Queue.Delivery

/-!
# Losing a message

The workers of a queue as tenants of its lease records (`QueueSetup.tenancy`).  A worker without a
handle writes leases in its own name: when it claims a message, and when it takes a lease over to
move its message aside.  With a handle, only the renewer does (`Queue.renewLoop_eq`), until `Ack` or
`Nack` has seen it exit.

* `tenancy_sound` — each operation keeps the tenants' contract.
* **`no_false_loss`** — so every loss of a lock or of a message has a reason, if no read-back of a
  renew fails.
* **`loss_reported_held`** — a run in which a read-back does fail: the next renew is refused, and
  the loss is reported although the lease is running and the record is still the holder's.
-/

set_option linter.unusedSectionVars false

namespace Blobster

open Interleave Contract

/-- The handle, as far as its renewer is concerned. -/
def Message.tenure (m : Message) : Tenure :=
  ⟨m.leasePath, m.owner, m.version, m.leaseUntil, m.stopped, decide (m.err = some .messageLost)⟩

/-- `finish` without an error reports no loss. -/
lemma Message.finish_none_same (m : Message) : m.tenure.Same (m.finish none).tenure := by
  have hsame := m.sameClaim_finish none
  refine ⟨hsame.leasePath, hsame.owner, hsame.version, hsame.leaseUntil, m.finish_stopped none, ?_⟩
  unfold Message.finish
  split
  · exact fun h => h
  · simp [Message.tenure]

/-- What the renew loop of a message works on. -/
def Queue.renewer {B : Type} (q : Queue B) (leasePath owner : String) (receives : ℕ) :
    Renewer B where
  bucket := q.bucket
  path := leasePath
  fields now := q.leaseRecord owner now receives
  lease := q.lease
  cancelled mem := (mem.message.map Message.cancelled).getD false
  leaseUntil mem := (mem.message.map Message.leaseUntil).getD 0
  version mem := (mem.message.map Message.version).getD ""
  renewed ver d := Mem.onMessage fun m => { m with version := ver, leaseUntil := d }
  lose := Mem.onMessage (Message.finish (some .messageLost))
  stop := Mem.onMessage fun m => { m with stopped := true }

lemma Queue.renewLoop_eq {B : Type} (q : Queue B) (leasePath owner : String) (receives fuel : ℕ) :
    q.renewLoop leasePath owner receives fuel = (q.renewer leasePath owner receives).renewLoop fuel :=
  rfl

namespace QueueSetup

variable {B C : Type} [DecidableEq B] [DecidableEq C] (s : QueueSetup B C) {bk : B → Backend}
  {flt : Faults} {v : BView B C} {c : C} {x : String}

/-- The workers of a queue keep its lease records. -/
def tenancy : Tenancy B C where
  bucket := s.bucket
  ownerField := queueOwnerField
  owner := s.owner
  owner_inj := s.owner_inj
  IsRecord key := ∃ x, key = Slot.lease.key x
  handle mem := mem.message.map Message.tenure
  handle_empty _ := rfl

variable {s}

lemma handle_some {mem : Mem} {h : Tenure} (hh : s.tenancy.handle mem = some h) :
    ∃ m, mem.message = some m ∧ m.tenure = h := Option.map_eq_some_iff.mp hh

lemma fits {receives : ℕ} :
    s.tenancy.Fits ((s.queue c).renewer (Slot.lease.key x) (s.owner c) receives) c where
  bucket := rfl
  record := ⟨x, rfl⟩
  own now := (s.queue c).leaseRecord_owner _ now receives
  version mem h hh := by
    obtain ⟨m, hm, rfl⟩ := handle_some hh
    simp [Queue.renewer, hm, Message.tenure]
  leaseUntil mem h hh := by
    obtain ⟨m, hm, rfl⟩ := handle_some hh
    simp [Queue.renewer, hm, Message.tenure]
  renewed ver d mem h hh := by
    obtain ⟨m, hm, rfl⟩ := handle_some hh
    exact ⟨rfl, by simp [tenancy, Queue.renewer, Mem.onMessage, hm, Message.tenure]⟩
  lose mem h hh := by
    obtain ⟨m, hm, rfl⟩ := handle_some hh
    have hsame := m.sameClaim_finish (some .messageLost)
    refine ⟨rfl, decide ((m.finish (some .messageLost)).err = some .messageLost), ?_⟩
    simp [tenancy, Queue.renewer, Mem.onMessage, hm, Message.tenure, hsame.leasePath, hsame.owner,
      hsame.version, hsame.leaseUntil]
  stop mem h hh := by
    obtain ⟨m, hm, rfl⟩ := handle_some hh
    exact ⟨rfl, by simp [tenancy, Queue.renewer, Mem.onMessage, hm, Message.tenure]⟩

/-- Payloads and dead records are no leases. -/
lemma not_isRecord {k : Slot} (hk : k ≠ .lease) : ¬ s.tenancy.IsRecord (k.key x) := by
  rintro ⟨x', h⟩
  exact hk (Slot.key_inj h).1

/-! ## Enqueuing -/

lemma tenancy_safe_writePayload {α : Type} {Q : α → BView B C → Prop} {body : ByteArray}
    {attrs : Metadata} {k : Except Err Unit → BProg B α}
    (hk : ∀ r v', (s.tenancy.contract bk flt s.start).Safe (c, .main) Q (k r) v') :
    (s.tenancy.contract bk flt s.start).Safe (c, .main) Q
      ((s.queue c).writePayload x body attrs >>= k) v :=
  Tenancy.caller_writeAll (T := s.tenancy) Tenancy.lasting_true trivial
    (fun h => absurd h (not_isRecord (k := .payload) (x := x) (by simp))) fun r v' _ _ => hk r v'

lemma tenancy_safe_enqueue {body : ByteArray} {attrs : Metadata} :
    (s.tenancy.contract bk flt s.start).Safe (c, .main) (fun _ _ => True)
      ((s.queue c).enqueue (s.uuid c) body attrs) v := by
  refine Tenancy.caller_now Tenancy.lasting_true trivial fun now v₁ _ _ => ?_
  refine tenancy_safe_writePayload fun r v₂ => ?_
  cases r <;> exact .ret fun _ _ _ => trivial

lemma tenancy_safe_enqueueWithID {body : ByteArray} {attrs : Metadata} :
    (s.tenancy.contract bk flt s.start).Safe (c, .main) (fun _ _ => True)
      ((s.queue c).enqueueWithID x body attrs) v := by
  unfold Queue.enqueueWithID
  split
  · exact .ret fun _ _ _ => trivial
  · refine tenancy_safe_writePayload fun r v₂ => ?_
    split <;> exact .ret fun _ _ _ => trivial

/-! ## Claiming -/

variable (s) in
/-- A worker that has got nothing from a candidate has no handle either. -/
def Empty (c : C) (r : Except Err (Option Message)) (v : BView B C) : Prop :=
  r = .ok none → s.tenancy.Applying v.world c

lemma safe_ret_empty {r : Except Err (Option Message)} (ha : s.tenancy.Applying v.world c) :
    (s.tenancy.contract bk flt s.start).Safe (c, .main) (s.Empty c) (.ret r) v :=
  .ret fun _ hr _ _ => Tenancy.applying_rely hr ha

/-- With the lease won: the handle comes into being in step with it, or not at all. -/
lemma tenancy_safe_claimed {now : ℤ} {receives : ℕ} {ver : Version}
    (ha : s.tenancy.Applying v.world c)
    (hstep : s.tenancy.InStep v.world c (Slot.lease.key x) ver) :
    (s.tenancy.contract bk flt s.start).Safe (c, .main) (s.Empty c)
      ((s.queue c).claimed x (s.owner c) now receives ver) v := by
  refine safe_attributes fun v₁ hr₁ hi₁ r _ _ => ⟨.quiet (Tenancy.active_main _), hi₁, ?_⟩
  have ha₁ := Tenancy.applying_rely hr₁ ha
  have hstep₁ := Tenancy.inStep_rely hr₁ ⟨x, rfl⟩ ha hstep
  split
  · exact Tenancy.caller_delete (T := s.tenancy) (v := v₁.push _ _) Tenancy.lasting_applying ha₁
      fun _ _ _ ha₂ => safe_ret_empty ha₂
  · exact safe_ret_empty (v := v₁.push _ _) ha₁
  · exact Tenancy.safe_found (T := s.tenancy) (v := v₁.push _ _)
      (h := ⟨Slot.lease.key x, s.owner c, ver, now + s.lease c, false, false⟩) ha₁ ⟨x, rfl⟩ hstep₁
      rfl (fun _ => ⟨rfl, rfl⟩) nofun

lemma safe_ret_applying {α : Type} {r : α} (ha : s.tenancy.Applying v.world c) :
    (s.tenancy.contract bk flt s.start).Safe (c, .main)
      (fun _ v => s.tenancy.Applying v.world c) (.ret r) v :=
  .ret fun _ hr _ => Tenancy.applying_rely hr ha

lemma tenancy_safe_removeDead {ver : Version} (ha : s.tenancy.Applying v.world c) :
    (s.tenancy.contract bk flt s.start).Safe (c, .main)
      (fun _ v => s.tenancy.Applying v.world c) ((s.queue c).removeDead x ver) v := by
  have hlease {v : BView B C} (ha : s.tenancy.Applying v.world c) :
      (s.tenancy.contract bk flt s.start).Safe (c, .main)
        (fun _ v => s.tenancy.Applying v.world c) ((s.queue c).removeDeadLease x ver) v := by
    refine Tenancy.caller_delete (T := s.tenancy) Tenancy.lasting_applying ha fun r v₁ _ ha₁ => ?_
    split <;> exact safe_ret_applying ha₁
  refine Tenancy.caller_delete (T := s.tenancy) Tenancy.lasting_applying ha fun r v₁ _ ha₁ => ?_
  split
  · exact hlease ha₁
  · exact hlease ha₁
  · exact safe_ret_applying ha₁

/-- The dead-letter branch writes the dead record and deletes; it touches no other record. -/
lemma tenancy_safe_deadLetter {receives : ℕ} {ver : Version}
    (ha : s.tenancy.Applying v.world c) :
    (s.tenancy.contract bk flt s.start).Safe (c, .main)
      (fun _ v => s.tenancy.Applying v.world c) ((s.queue c).deadLetter x receives ver) v := by
  refine Tenancy.caller_attributes Tenancy.lasting_applying ha fun r v₁ hi₁ ha₁ => ?_
  split
  · exact tenancy_safe_removeDead ha₁
  · exact safe_ret_applying ha₁
  · refine Safe.bind (Q := fun _ v => s.tenancy.Applying v.world c) hi₁ ?_ ?_
    · refine Tenancy.caller_readAll Tenancy.lasting_applying ha₁ fun r v₂ hi₂ ha₂ => ?_
      split
      · exact safe_ret_applying ha₂
      · exact safe_ret_applying ha₂
      · exact Tenancy.caller_writeAll (T := s.tenancy) (k := .ret) Tenancy.lasting_applying ha₂
          (fun h => absurd h (not_isRecord (k := .dead) (x := x) (by simp)))
          fun _ _ _ ha₃ => safe_ret_applying ha₃
    · intro r v₂ _ ha₂
      cases r with
      | error e => exact safe_ret_applying ha₂
      | ok _ => exact tenancy_safe_removeDead ha₂

/-- Every lease is written in the worker's own name. -/
lemma tenancy_safe_writeLease {now : ℤ} (ha : s.tenancy.Applying v.world c) (receives : ℕ)
    (pre : Precondition) :
    (s.tenancy.contract bk flt s.start).Safe (c, .main)
      (fun r v => s.tenancy.Applying v.world c ∧
        ∀ ver, r = .ok ver → s.tenancy.InStep v.world c (Slot.lease.key x) ver)
      ((s.queue c).writeLease (Slot.lease.key x) (s.owner c) now receives pre) v :=
  Tenancy.safe_writeBack (T := s.tenancy) ⟨x, rfl⟩ ha
    ((s.queue c).leaseRecord_owner (s.owner c) now receives)

lemma tenancy_safe_tryClaim (ha : s.tenancy.Applying v.world c) :
    (s.tenancy.contract bk flt s.start).Safe (c, .main) (s.Empty c)
      ((s.queue c).tryClaim x (s.owner c)) v := by
  refine Tenancy.caller_readRecord Tenancy.lasting_applying ha fun lease v₁ _ ha₁ => ?_
  refine Tenancy.caller_now Tenancy.lasting_applying ha₁ fun now v₂ hi₂ ha₂ => ?_
  split
  · refine Safe.bind hi₂ (tenancy_safe_writeLease ha₂ 1 .ifNotExists) ?_
    rintro r v₃ - ⟨ha₃, hstep⟩
    split
    · exact safe_ret_empty ha₃
    · exact safe_ret_empty ha₃
    · exact tenancy_safe_claimed ha₃ (hstep _ rfl)
  · exact safe_ret_empty ha₂
  · rename_i fields version
    split
    · exact safe_ret_empty ha₂
    · dsimp only
      split
      · refine Safe.bind hi₂ (tenancy_safe_writeLease ha₂ _ (.ifMatch version)) ?_
        rintro r v₃ hi₃ ⟨ha₃, -⟩
        split
        · exact safe_ret_empty ha₃
        · exact safe_ret_empty ha₃
        · exact safe_ret_empty ha₃
        · refine Safe.bind hi₃ (tenancy_safe_deadLetter ha₃) ?_
          rintro r v₄ - ha₄
          cases r <;> exact safe_ret_empty ha₄
      · refine Safe.bind hi₂ (tenancy_safe_writeLease ha₂ _ (.ifMatch version)) ?_
        rintro r v₃ - ⟨ha₃, hstep⟩
        split
        · exact safe_ret_empty ha₃
        · exact safe_ret_empty ha₃
        · exact safe_ret_empty ha₃
        · exact tenancy_safe_claimed ha₃ (hstep _ rfl)

/-- The candidates, one after the other. -/
lemma tenancy_safe_tryCandidates (keys : List String) (hi : s.tenancy.Inv v.world.mem)
    (ha : s.tenancy.Applying v.world c) :
    (s.tenancy.contract bk flt s.start).Safe (c, .main) (fun _ _ => True)
      ((s.queue c).tryCandidates (s.owner c) keys) v := by
  induction keys generalizing v with
  | nil => exact .ret fun _ _ _ => trivial
  | cons key keys ih =>
      unfold Queue.tryCandidates
      split
      · exact ih hi ha
      · split
        · exact ih hi ha
        · refine Safe.bind hi (tenancy_safe_tryClaim ha) ?_
          rintro r v₁ hi₁ hempty
          split
          · exact .ret fun _ _ _ => trivial
          · exact .ret fun _ _ _ => trivial
          · exact ih hi₁ (hempty rfl)

lemma tenancy_safe_tryReceive (ha : s.tenancy.Applying v.world c) :
    (s.tenancy.contract bk flt s.start).Safe (c, .main) (fun _ _ => True)
      ((s.queue c).tryReceive (s.owner c)) v := by
  refine Tenancy.caller_listPage Tenancy.lasting_applying ha fun r v₁ _ ha₁ => ?_
  split
  · exact .ret fun _ _ _ => trivial
  · split
    · exact .ret fun _ _ _ => trivial
    · exact Tenancy.caller_randIntN Tenancy.lasting_applying ha₁ fun _ _ hi₂ ha₂ =>
        tenancy_safe_tryCandidates _ hi₂ ha₂

/-! ## Settling -/

/-- A critical section of `settle` changes no field that the renewer relies on. -/
lemma tenancy_safe_flags {α : Type} {Q : α → BView B C → Prop} {f : Message → Message}
    {k : Mem → BProg B α} {I : Mem → Prop} (hf : ∀ m : Message, m.tenure.Same (f m).tenure)
    (hI : s.tenancy.Lasting bk flt s.start c I) (hIf : ∀ mem, I mem → I (mem.onMessage f))
    (h : I (v.world.mem c))
    (hk : ∀ r v', I (v'.world.mem c) →
      (s.tenancy.contract bk flt s.start).Safe (c, .main) Q (k r) v') :
    (s.tenancy.contract bk flt s.start).Safe (c, .main) Q (critical (Mem.onMessage f) >>= k) v := by
  refine Tenancy.caller_flags (fun _ => rfl) (fun mem h hh => ?_) (fun mem hm => ?_) hI hIf h
    fun r v' _ h' => hk r v' h'
  · obtain ⟨m, hm, rfl⟩ := handle_some hh
    exact ⟨(f m).tenure, by simp [tenancy, Mem.onMessage, hm], hf m⟩
  · have hm : mem.message = none := Option.map_eq_none_iff.mp hm
    simp [tenancy, Mem.onMessage, hm]

variable (s) in
/-- The renewer of the handle has exited. -/
def Exited (mem : Mem) : Prop := ∃ h, s.tenancy.handle mem = some h ∧ h.stopped = true

/-- `settle` answers yes only when the renewer has exited. -/
lemma tenancy_safe_settle :
    (s.tenancy.contract bk flt s.start).Safe (c, .main)
      (fun r v => r = true → s.Exited (v.world.mem c)) Queue.settle v := by
  have hsame (m m' : Message) (h : m'.tenure = m.tenure) : m.tenure.Same m'.tenure := h ▸ .refl _
  refine tenancy_safe_flags (fun m => hsame _ _ rfl) Tenancy.lasting_true (fun _ _ => trivial)
    trivial fun before v₁ _ => ?_
  split
  · exact .ret nofun
  refine tenancy_safe_flags (fun m => hsame _ _ rfl) Tenancy.lasting_true (fun _ _ => trivial)
    trivial fun _ v₂ _ => ?_
  refine Tenancy.caller_await (I := s.Exited) (fun mem hst => ?_) fun v₃ _ hex => ?_
  · obtain ⟨m, hm, hst⟩ : ∃ m, mem.message = some m ∧ m.stopped = true := by
      cases hm : mem.message with
      | none => simp [hm] at hst
      | some m => exact ⟨m, rfl, by simpa [hm] using hst⟩
    exact ⟨m.tenure, by simp [tenancy, hm], hst⟩
  · refine tenancy_safe_flags Message.finish_none_same Tenancy.lasting_stopped (fun mem hex => ?_)
      hex fun _ v₄ hex₄ => .ret fun v₅ hr₅ _ _ => Tenancy.lasting_stopped _ _ hr₅ hex₄
    obtain ⟨h, hh, hst⟩ := hex
    obtain ⟨m, hm, rfl⟩ := handle_some hh
    exact ⟨(m.finish none).tenure, by simp [tenancy, Mem.onMessage, hm],
      (m.finish_stopped none).trans hst⟩

lemma tenancy_safe_ack (hi : s.tenancy.Inv v.world.mem) {msgPath leasePath : String} :
    (s.tenancy.contract bk flt s.start).Safe (c, .main) (fun _ _ => True)
      ((s.queue c).ack msgPath leasePath (s.owner c)) v := by
  refine Safe.bind hi tenancy_safe_settle ?_
  rintro b v₁ - -
  split
  · refine Tenancy.caller_readRecord Tenancy.lasting_true trivial fun r v₂ _ _ => ?_
    split
    · exact .ret fun _ _ _ => trivial
    · exact .ret fun _ _ _ => trivial
    · split
      · exact .ret fun _ _ _ => trivial
      · refine Tenancy.caller_delete (T := s.tenancy) Tenancy.lasting_true trivial
          fun r v₃ _ _ => ?_
        split
        · exact .ret fun _ _ _ => trivial
        · exact .ret fun _ _ _ => trivial
        · exact .ret fun _ _ _ => trivial
        · refine Tenancy.caller_delete (T := s.tenancy) Tenancy.lasting_true trivial
            fun r v₄ _ _ => ?_
          split <;> exact .ret fun _ _ _ => trivial
  · exact .ret fun _ _ _ => trivial

/-- `Nack` writes the lease in the worker's own name, after its renewer. -/
lemma tenancy_safe_nack (hi : s.tenancy.Inv v.world.mem) {leasePath : String} :
    (s.tenancy.contract bk flt s.start).Safe (c, .main) (fun _ _ => True)
      ((s.queue c).nack leasePath (s.owner c)) v := by
  refine Safe.bind hi tenancy_safe_settle ?_
  rintro b v₁ - hex
  split
  · rename_i hb
    refine Tenancy.caller_readRecord Tenancy.lasting_stopped (hex hb) fun r v₂ _ hex₂ => ?_
    split
    · exact .ret fun _ _ _ => trivial
    · exact .ret fun _ _ _ => trivial
    · split
      · exact .ret fun _ _ _ => trivial
      · refine Tenancy.caller_now Tenancy.lasting_stopped hex₂ fun now v₃ _ hex₃ => ?_
        refine Tenancy.caller_writeAll (T := s.tenancy) Tenancy.lasting_stopped hex₃
          (fun _ => ⟨rfl, ?_⟩) fun r v₄ _ _ => ?_
        · rintro mem ⟨h, hh, hst⟩ h' hh'
          exact Option.some.inj (hh.symm.trans hh') ▸ hst
        · split <;> exact .ret fun _ _ _ => trivial
  · exact .ret fun _ _ _ => trivial

/-! ## The theorem -/

/-- The contract's obligations. -/
lemma tenancy_sound (hflt : flt.after = false) {w₀ : World B C} (h₀ : ∀ c, w₀.mem c = {}) :
    (s.tenancy.contract bk flt s.start).Sound w₀ := by
  refine Tenancy.sound_of_start h₀ ?_
  rintro ⟨c, g⟩ e v p w hi hidle hstart
  cases start_cases hstart with
  | enqueue body attrs h =>
      obtain ⟨hguar, hi', -⟩ := Tenancy.step_call hi h
      exact ⟨hguar, hi', Tenancy.safe_call hi' tenancy_safe_enqueue⟩
  | enqueueWithID id body attrs h =>
      obtain ⟨hguar, hi', -⟩ := Tenancy.step_call hi h
      exact ⟨hguar, hi', Tenancy.safe_call hi' tenancy_safe_enqueueWithID⟩
  | tryReceive h =>
      obtain ⟨hguar, hi', ha⟩ := Tenancy.step_call hi h
      exact ⟨hguar, hi', Tenancy.safe_call hi' (tenancy_safe_tryReceive ha)⟩
  | ack m hm =>
      obtain ⟨-, -, howner⟩ := hi c m.tenure (by simp [tenancy, hm])
      have howner : m.owner = s.owner c := howner
      refine ⟨.quiet (Tenancy.active_main _), hi, Tenancy.safe_call hi ?_⟩
      rw [howner]
      exact tenancy_safe_ack (v := v.push _ _) hi
  | nack m hm =>
      obtain ⟨-, -, howner⟩ := hi c m.tenure (by simp [tenancy, hm])
      have howner : m.owner = s.owner c := howner
      refine ⟨.quiet (Tenancy.active_main _), hi, Tenancy.safe_call hi ?_⟩
      rw [howner]
      exact tenancy_safe_nack (v := v.push _ _) hi
  | renew fuel m hm hst =>
      have hh : s.tenancy.handle (v.world.mem c) = some m.tenure := by simp [tenancy, hm]
      obtain ⟨-, ⟨x, hpath⟩, howner⟩ := hi c m.tenure hh
      have hpath : m.leasePath = Slot.lease.key x := hpath
      have howner : m.owner = s.owner c := howner
      have hstep := hidle rfl m.tenure hh hst
      have ht : s.tenancy.Tending v.world c (Slot.lease.key x) :=
        ⟨m.version, m.leaseUntil, ⟨m.tenure, hh, hst, hpath, rfl, rfl⟩, hpath ▸ hstep⟩
      refine ⟨.quiet fun _ => ⟨_, hh, hst⟩, hi, ?_⟩
      rw [hpath, howner, Queue.renewLoop_eq]
      exact Tenancy.safe_renewLoop (v := v.push _ _) hflt fits hi ht fuel

/-! ## Losses -/

/-- The step reports the loss of the message. -/
def Loses (p : World B C × BEvent B C × World B C) (d : C) (m : Message) : Prop :=
  m.err ≠ some .messageLost ∧ ∃ m' ∈ (p.2.2.mem d).message, m'.err = some .messageLost

variable (s) in
/-- The stored lease carries the handle's owner. -/
def StillHeld (w : World B C) (m : Message) : Prop :=
  ∃ o ∈ (w.store s.bucket).get m.leasePath, o.metadata.text queueOwnerField = m.owner

instance (p : World B C × BEvent B C × World B C) (d : C) (m : Message) :
    Decidable (Loses p d m) := by unfold Loses; infer_instance

instance (w : World B C) (m : Message) : Decidable (s.StillHeld w m) := by unfold StillHeld; infer_instance

variable {w₀ : World B C}

/-- A loss of a message has a reason. -/
lemma justified_loss (hflt : flt.after = false) (h₀ : ∀ c, w₀.mem c = {})
    {c : Config (bucketSig B) (World B C) (Thread C)}
    (hc : Reach (s.machine bk flt) readsBack w₀ c) {p : World B C × BEvent B C × World B C}
    (hp : p ∈ c.view.steps) {d : C} {m : Message} (hm : m ∈ (p.1.mem d).message)
    (hlost : Loses p d m) : m.leaseUntil ≤ p.1.clock ∨ ¬ s.StillHeld p.1 m := by
  obtain ⟨herr, m', hm', herr'⟩ := hlost
  have hh : s.tenancy.handle (p.1.mem d) = some m.tenure := congrArg (Option.map Message.tenure) hm
  have hh' : s.tenancy.handle (p.2.2.mem d) = some m'.tenure :=
    congrArg (Option.map Message.tenure) hm'
  refine (Tenancy.justified (tenancy_sound hflt h₀) hc hp hh hh' (decide_eq_false herr)
    (decide_eq_true herr')).imp_right ?_
  rintro hforeign ⟨o, ho, hown⟩
  exact hforeign o ho hown

/-- **No false loss.**  Calls may fail without effect, any number of times; but no version read-back
of a renewer fails.  Then whenever a renewer reports its lock or its message lost, the handle's
lease has run out, or the stored record is absent or carries another owner. -/
theorem no_false_loss {B' C' : Type} [DecidableEq B'] [DecidableEq C'] (l : LockSetup B C)
    (q : QueueSetup B' C') (bk : B → Backend) (bk' : B' → Backend) (flt : Faults)
    (hflt : flt.after = false) :
    (∀ w₀ c, (∀ d, w₀.mem d = {}) → Reach (l.machine bk flt) readsBack w₀ c →
      ∀ p ∈ c.view.steps, ∀ d, ∀ lk ∈ (p.1.mem d).lock, LockSetup.Loses p d lk →
        lk.leaseUntil ≤ p.1.clock ∨ ¬ l.StillHeld p.1 lk) ∧
    ∀ w₀ c, (∀ d, w₀.mem d = {}) → Reach (q.machine bk' flt) readsBack w₀ c →
      ∀ p ∈ c.view.steps, ∀ d, ∀ m ∈ (p.1.mem d).message, Loses p d m →
        m.leaseUntil ≤ p.1.clock ∨ ¬ q.StillHeld p.1 m :=
  ⟨fun _ _ h₀ hc _ hp _ _ hlk hlost => LockSetup.justified_loss hflt h₀ hc hp hlk hlost,
    fun _ _ h₀ hc _ hp _ _ hm hlost => justified_loss hflt h₀ hc hp hm hlost⟩

section Schedules

/-- Calls fail without effect or succeed. -/
abbrev flaky : Faults := ⟨true, false⟩

abbrev flakyPair := LockSetup.pair.machine (fun _ => memBackend) flaky

abbrev flakyTrio := (trio 5).machine (fun _ => memBackend) flaky

/-- A client acquires the lock. -/
def acquired : List (Action flakyPair) :=
  [.start (true, .main) .tryAcquire] ++ List.replicate 5 (.call (true, .main) .ok)

/-- A round of the renewer, up to and including the swap. -/
def swapped : List (Action flakyPair) :=
  [.call (true, .renewer) (.branch false)] ++ List.replicate 4 (.call (true, .renewer) .ok)

variable {C : Type} [DecidableEq C] (M : Machine (bucketSig Unit) (World Unit C) (Thread C))
  (as : List (Action M)) (p : Config (bucketSig Unit) (World Unit C) (Thread C) → Bool)

lemma pristine_reach (h : (M.run (Config.init _ _ pristine) as).any p = true) :
    ∃ c, Reach M anyStep pristine c ∧ p c = true := reach_of_run_any h

lemma readsBack_reach
    (h : (M.run (Config.init _ _ pristine) as).any
      (fun c => admitsAll isReadBack c.view.hist && p c) = true) :
    ∃ c, Reach M readsBack pristine c ∧ p c = true :=
  reach_of_run_adm (fun _ _ => readsBack_of_isReadBack) h

end Schedules

/-- A lock and a message whose leases run out are lost at the next round of their renewers. -/
theorem no_false_loss_expired :
    (∃ c, Reach flakyPair readsBack pristine c ∧
      ∃ p ∈ c.view.steps, ∃ lk ∈ (p.1.mem true).lock, LockSetup.Loses p true lk ∧
        (lk.leaseUntil ≤ p.1.clock ∨ ¬ LockSetup.pair.StillHeld p.1 lk)) ∧
    ∃ c, Reach flakyTrio readsBack pristine c ∧
      ∃ p ∈ c.view.steps, ∃ m ∈ (p.1.mem 1).message, Loses p 1 m ∧
        (m.leaseUntil ≤ p.1.clock ∨ ¬ (trio 5).StillHeld p.1 m) := by
  obtain ⟨hlock, hmessage⟩ := no_false_loss LockSetup.pair (trio 5) (fun _ => memBackend)
    (fun _ => memBackend) flaky rfl
  constructor
  · obtain ⟨c, hc, hp⟩ := readsBack_reach flakyPair
      (acquired ++ [.env (15 : ℕ), .start (true, .renewer) (.renewLock 1),
        .call (true, .renewer) (.branch false)] ++ List.replicate 3 (.call (true, .renewer) .ok))
      (fun c => decide (∃ p ∈ c.view.steps, ∃ lk ∈ (p.1.mem true).lock,
        LockSetup.Loses p true lk)) (by decide +kernel)
    obtain ⟨p, hp, lk, hlk, hlost⟩ := of_decide_eq_true hp
    exact ⟨c, hc, p, hp, lk, hlk, hlost, hlock _ c (fun _ => rfl) hc p hp true lk hlk hlost⟩
  · obtain ⟨c, hc, hp⟩ := readsBack_reach flakyTrio
      (enqueued 0 .empty ++ received 1 ++ elapsed 30 ++ [.start (1, .renewer) (.renewMessage 1),
        .call (1, .renewer) (.branch false)] ++ calls 1 .renewer 3)
      (fun c => decide (∃ p ∈ c.view.steps, ∃ m ∈ (p.1.mem 1).message, Loses p 1 m))
      (by decide +kernel)
    obtain ⟨p, hp, m, hm, hlost⟩ := of_decide_eq_true hp
    exact ⟨c, hc, p, hp, m, hm, hlost, hmessage _ c (fun _ => rfl) hc p hp 1 m hm hlost⟩

/-- One read-back of a renew fails.  The swap before it took effect, so the cached version is out of
date and the next swap is refused: the renewer reports its lock, or its message, lost at once, with
the lease running and the record its own. -/
theorem loss_reported_held :
    (∃ c, Reach flakyPair anyStep pristine c ∧
      ∃ p ∈ c.view.steps, ∃ lk ∈ (p.1.mem true).lock, LockSetup.Loses p true lk ∧
        p.1.clock < lk.leaseUntil ∧ LockSetup.pair.StillHeld p.1 lk) ∧
    ∃ c, Reach flakyTrio anyStep pristine c ∧
      ∃ p ∈ c.view.steps, ∃ m ∈ (p.1.mem 1).message, Loses p 1 m ∧
        p.1.clock < m.leaseUntil ∧ (trio 5).StillHeld p.1 m := by
  constructor
  · obtain ⟨c, hc, hp⟩ := pristine_reach flakyPair
      (acquired ++ [.start (true, .renewer) (.renewLock 2)] ++ swapped ++
        [.call (true, .renewer) .failBefore] ++ swapped ++ [.call (true, .renewer) .ok])
      (fun c => decide (∃ p ∈ c.view.steps, ∃ lk ∈ (p.1.mem true).lock,
        LockSetup.Loses p true lk ∧ p.1.clock < lk.leaseUntil ∧ LockSetup.pair.StillHeld p.1 lk))
      (by decide +kernel)
    exact ⟨c, hc, of_decide_eq_true hp⟩
  · obtain ⟨c, hc, hp⟩ := pristine_reach flakyTrio
      (enqueued 0 .empty ++ received 1 ++ [.start (1, .renewer) (.renewMessage 2),
        .call (1, .renewer) (.branch false)] ++ calls 1 .renewer 4 ++
        [.call (1, .renewer) .failBefore, .call (1, .renewer) (.branch false)] ++
        calls 1 .renewer 5)
      (fun c => decide (∃ p ∈ c.view.steps, ∃ m ∈ (p.1.mem 1).message,
        Loses p 1 m ∧ p.1.clock < m.leaseUntil ∧ (trio 5).StillHeld p.1 m))
      (by decide +kernel)
    exact ⟨c, hc, of_decide_eq_true hp⟩

end QueueSetup

end Blobster
