import Blobster.Queue.Stream

/-!
# The calls of the queue's programs

Which calls the programs of the queue can make at all, whatever the answers are
(`Blobster.Interleave.Footprint`).  Apart from the records they write, the programs of the workers and
of the retention pass only read, delete, and change their own handle.

* `Calm P` — the calls that all of them make satisfy `P`; `Writes P b key` — so does every write of the
  key.
* `within_tryReceive`, `within_ack`, `within_nack`, `within_renewLoop`, `within_trim`,
  `within_enqueueStream`, `within_enqueueWithIDStream` — one lemma for each program, over any such `P`.
-/

set_option linter.unusedSectionVars false

namespace Blobster

open Interleave

variable {B : Type}

/-- The handle's lease is not a payload. -/
def Mem.PathsOk (mem : Mem) : Prop :=
  ∀ m, mem.message = some m → m.leasePath = queueLeasePrefix ++ m.id

/-- A critical section that leaves the result of the call alone. -/
structure Mem.KeepsReport (mem mem' : Mem) : Prop where
  called : mem'.called = mem.called
  reported : mem'.reported = mem.reported
  paths : mem.PathsOk → mem'.PathsOk

lemma Mem.KeepsReport.refl (mem : Mem) : mem.KeepsReport mem := ⟨rfl, rfl, id⟩

/-- So it does, however the result is kept. -/
structure Mem.KeepsResult (mem mem' : Mem) : Prop extends Mem.KeepsReport mem mem' where
  outcome : mem'.outcome = mem.outcome

lemma Mem.KeepsResult.refl (mem : Mem) : mem.KeepsResult mem := ⟨.refl mem, rfl⟩

lemma Mem.keepsResult_onMessage {f : Message → Message}
    (hid : ∀ m, (f m).id = m.id) (hpath : ∀ m, (f m).leasePath = m.leasePath) (mem : Mem) :
    mem.KeepsResult (mem.onMessage f) := by
  refine ⟨⟨rfl, rfl, fun h m hm => ?_⟩, rfl⟩
  obtain ⟨m₀, hm₀, rfl⟩ := Option.map_eq_some_iff.mp hm
  rw [hid, hpath]
  exact h m₀ hm₀

/-- The calls that a worker makes besides its writes satisfy `P`. -/
structure Calm (P : Op B → Prop) : Prop where
  attributes : ∀ b key, P (.attributes b key)
  read : ∀ b key, P (.read b key)
  delete : ∀ b key pre, P (.delete b key pre)
  listPage : ∀ b token pageSize pref, P (.listPage b token pageSize pref)
  now : P .now
  randIntN : ∀ n, P (.randIntN n)
  mem : ∀ f, (∀ mem, Mem.KeepsResult mem (f mem)) → P (.mem f)
  await : ∀ p, P (.await p)
  select : ∀ ready, P (.select ready)
  park : P .park

/-- Every write of the key satisfies `P`. -/
def Writes (P : Op B → Prop) (b : B) (key : String) : Prop :=
  ∀ body md pre, P (.write b key body md pre)

section Programs

variable {P : Op B → Prop} (hP : Calm P) (q : Queue B)
include hP

lemma within_removeDead (id : String) (ver : Version) : (q.removeDead id ver).Within P := by
  have hlease : (q.removeDeadLease id ver).Within P := by
    refine .call (hP.delete _ _ _) fun r => ?_
    split <;> trivial
  refine .call (hP.delete _ _ _) fun r => ?_
  split <;> first | exact hlease | trivial

lemma within_deadLetter {id : String} (hdead : Writes P q.bucket (queueDeadPrefix ++ id))
    (receives : ℕ) (ver : Version) : (q.deadLetter id receives ver).Within P := by
  refine .call (hP.attributes _ _) fun r => ?_
  split
  · exact within_removeDead hP q id ver
  · trivial
  · refine Prog.Within.bind (.call (hP.read _ _) fun r => ?_) fun r => ?_
    · split
      · trivial
      · trivial
      · exact ⟨hdead _ _ _, fun _ => trivial⟩
    · split
      · trivial
      · exact within_removeDead hP q id ver

lemma within_claimed (id owner : String) (now : ℤ) (receives : ℕ) (ver : Version) :
    (q.claimed id owner now receives ver).Within P := by
  refine .call (hP.attributes _ _) fun r => ?_
  split
  · exact ⟨hP.delete _ _ _, fun _ => trivial⟩
  · trivial
  · refine ⟨hP.mem _ fun mem => ⟨⟨rfl, rfl, fun _ m hm => ?_⟩, rfl⟩, fun _ => trivial⟩
    obtain rfl := Option.some.inj hm
    rfl

lemma within_tryClaim {id : String} (hlease : Writes P q.bucket (queueLeasePrefix ++ id))
    (hdead : Writes P q.bucket (queueDeadPrefix ++ id)) (owner : String) :
    (q.tryClaim id owner).Within P := by
  have hwrite (now : ℤ) (n : ℕ) (pre : Precondition) :
      (q.writeLease (queueLeasePrefix ++ id) owner now n pre).Within P :=
    within_writeBack (hlease _ _ _) (hP.attributes _ _)
  refine (within_readRecord (hP.attributes _ _)).bind fun lease => .call hP.now fun now => ?_
  split
  · refine (hwrite _ _ _).bind fun r => ?_
    split
    · trivial
    · trivial
    · exact within_claimed hP q id owner _ _ _
  · trivial
  · split
    · trivial
    · dsimp only
      split
      · refine (hwrite _ _ _).bind fun r => ?_
        split
        · trivial
        · trivial
        · trivial
        · refine (within_deadLetter hP q hdead _ _).bind fun r => ?_
          split <;> trivial
      · refine (hwrite _ _ _).bind fun r => ?_
        split
        · trivial
        · trivial
        · trivial
        · exact within_claimed hP q id owner _ _ _

section Receive

variable (hlease : ∀ x, Writes P q.bucket (queueLeasePrefix ++ x))
  (hdead : ∀ x, Writes P q.bucket (queueDeadPrefix ++ x))
include hlease hdead

lemma within_tryCandidates (owner : String) :
    ∀ keys : List String, (q.tryCandidates owner keys).Within P
  | [] => trivial
  | key :: keys => by
      have ih := within_tryCandidates owner keys
      unfold Queue.tryCandidates
      split
      · exact ih
      · split
        · exact ih
        · refine (within_tryClaim hP q (hlease _) (hdead _) owner).bind fun r => ?_
          split
          · trivial
          · trivial
          · exact ih

lemma within_tryReceive (owner : String) : (q.tryReceive owner).Within P := by
  refine .call (hP.listPage _ _ _ _) fun r => ?_
  split
  · trivial
  · split
    · trivial
    · exact ⟨hP.randIntN _, fun start => within_tryCandidates hP q hlease hdead owner _⟩

end Receive

lemma within_settle : (Queue.settle : BProg B Bool).Within P := by
  refine .call (hP.mem _ (Mem.keepsResult_onMessage (fun _ => rfl) fun _ => rfl)) fun before => ?_
  split
  · trivial
  · refine .call (hP.mem _ (Mem.keepsResult_onMessage (fun _ => rfl) fun _ => rfl)) fun _ =>
      .call (hP.await _) fun _ => ?_
    exact ⟨hP.mem _ (Mem.keepsResult_onMessage (fun m => (m.sameClaim_finish none).id)
      fun m => (m.sameClaim_finish none).leasePath), fun _ => trivial⟩

lemma within_ack (msgPath leasePath owner : String) :
    (q.ack msgPath leasePath owner).Within P := by
  refine (within_settle hP).bind fun won => ?_
  split
  · refine (within_readRecord (hP.attributes _ _)).bind fun r => ?_
    split
    · trivial
    · trivial
    · split
      · trivial
      · refine .call (hP.delete _ _ _) fun r => ?_
        split
        · trivial
        · trivial
        · trivial
        · refine .call (hP.delete _ _ _) fun r => ?_
          split <;> trivial
  · trivial

lemma within_nack {leasePath : String} (hlease : Writes P q.bucket leasePath) (owner : String) :
    (q.nack leasePath owner).Within P := by
  refine (within_settle hP).bind fun won => ?_
  split
  · refine (within_readRecord (hP.attributes _ _)).bind fun r => ?_
    split
    · trivial
    · trivial
    · split
      · trivial
      · refine .call hP.now fun now => .call (hlease _ _ _) fun r => ?_
        split <;> trivial
  · trivial

lemma within_messageField {α : Type} (f : Message → α) (z : α) :
    (messageField f z : BProg B α).Within P :=
  ⟨hP.mem _ Mem.KeepsResult.refl, fun _ => trivial⟩

lemma within_finish (a : Unit ⊕ Unit) (err : Option Err) :
    (critical (Mem.onMessage (Message.finish err)) >>= fun _ => .ret a :
      BProg B (Unit ⊕ Unit)).Within P :=
  ⟨hP.mem _ (Mem.keepsResult_onMessage (fun m => (m.sameClaim_finish err).id)
    fun m => (m.sameClaim_finish err).leasePath), fun _ => trivial⟩

lemma within_renewRound {leasePath : String} (hlease : Writes P q.bucket leasePath)
    (owner : String) (receives : ℕ) : (q.renewRound leasePath owner receives).Within P := by
  refine .call (hP.select _) fun stop => ?_
  split
  · trivial
  · refine .call hP.now fun now => (within_messageField hP _ _).bind fun until_ => ?_
    split
    · exact within_finish hP _ _
    · refine Prog.Within.bind ?_ fun r => ?_
      · refine (within_messageField hP _ _).bind fun ver => ?_
        refine (within_writeBack (hlease _ _ _) (hP.attributes _ _)).bind fun r => ?_
        split
        · trivial
        · exact ⟨hP.mem _ (Mem.keepsResult_onMessage (fun _ => rfl) fun _ => rfl), fun _ => trivial⟩
      · split
        · exact within_finish hP _ _
        · exact within_finish hP _ _
        · trivial

lemma within_renewLoop {leasePath : String} (hlease : Writes P q.bucket leasePath)
    (owner : String) (receives fuel : ℕ) :
    (q.renewLoop leasePath owner receives fuel).Within P :=
  (Prog.Within.loop (by exact ⟨hP.park, fun r => r.elim⟩)
    (fun _ => within_renewRound hP q hlease owner receives) fuel ()).bind fun _ =>
      ⟨hP.mem _ (Mem.keepsResult_onMessage (fun _ => rfl) fun _ => rfl), fun _ => trivial⟩

lemma within_deleteIfPresent (key : String) : (q.deleteIfPresent key).Within P := by
  refine .call (hP.delete _ _ _) fun r => ?_
  split <;> trivial

lemma within_sweepObjects (pref : String) (horizon : ℤ) (paired : Bool) :
    ∀ (keys : List String) (removed budget : ℕ),
      (q.sweepObjects pref horizon paired keys removed budget).Within P
  | [], _, _ => trivial
  | key :: keys, removed, budget => by
      have ih := within_sweepObjects pref horizon paired keys
      unfold Queue.sweepObjects
      split
      · exact ih _ _
      · split
        · exact ih _ _
        · split
          · exact ih _ _
          · split
            · trivial
            · refine Prog.Within.bind ?_ fun r => ?_
              · refine (within_deleteIfPresent hP q _).bind fun r => ?_
                split
                · trivial
                · split
                  · exact within_deleteIfPresent hP q _
                  · trivial
              · split
                · trivial
                · split
                  · trivial
                  · exact ih _ _

lemma within_trimSweep (pref : String) (horizon : ℤ) (budget : ℕ) (paired : Bool) (fuel : ℕ) :
    (q.trimSweep pref horizon budget paired fuel).Within P := by
  refine Prog.Within.loop (by exact ⟨hP.park, fun r => r.elim⟩) (fun s => ?_) fuel _
  unfold Queue.sweepRound
  dsimp only
  split
  · trivial
  · refine .call (hP.listPage _ _ _ _) fun r => ?_
    split
    · trivial
    · refine (within_sweepObjects hP q _ _ _ _ _ _).bind fun r => ?_
      split
      · trivial
      · split <;> trivial

lemma within_trim (retention : ℤ) (fuel : ℕ) : (q.trim retention fuel).Within P := by
  unfold Queue.trim
  split
  · trivial
  · refine .call hP.now fun now => (within_trimSweep hP q _ _ _ _ _).bind fun r => ?_
    dsimp only
    split
    · trivial
    · exact (within_trimSweep hP q _ _ _ _ _).bind fun _ => trivial

lemma within_writeChunks (w : MemDriver.Writer) (ps : List ByteArray) :
    (Queue.writeChunks w ps : BProg B (Except Err MemDriver.Writer)).Within P := by
  induction ps generalizing w with
  | nil => trivial
  | cons p ps ih =>
      refine Prog.Within.bind (.call (hP.select _) fun done => ?_) fun ctx => ?_
      · split <;> trivial
      · split
        · trivial
        · exact ih _

section Produce

variable (hpayload : ∀ key, Writes P q.bucket key) (pf : Platform)
include hpayload

lemma within_streamPayload (id : String) (r : Body) (attrs : UserMetadata) :
    (q.streamPayload pf id r attrs).Within P := by
  unfold Queue.streamPayload
  split
  · trivial
  · refine Prog.Within.bind ((within_writeChunks hP _ _).bind fun res => ?_) fun res => ?_
    · split
      · trivial
      · split <;> trivial
    · split
      · trivial
      · exact ⟨hpayload _ _ _ _, fun _ => trivial⟩

lemma within_enqueueStream (uuid : String) (r : Body) (attrs : UserMetadata) :
    (q.enqueueStream pf uuid r attrs).Within P := by
  refine .call hP.now fun now => (within_streamPayload hP q hpayload pf _ r attrs).bind fun res => ?_
  split <;> trivial

lemma within_enqueueWithIDStream (id : String) (r : Body) (attrs : UserMetadata) :
    (q.enqueueWithIDStream pf id r attrs).Within P := by
  unfold Queue.enqueueWithIDStream
  split
  · trivial
  · refine (within_streamPayload hP q hpayload pf id r attrs).bind fun res => ?_
    split <;> trivial

end Produce

end Programs

end Blobster
