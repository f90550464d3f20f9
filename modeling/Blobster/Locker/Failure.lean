import Blobster.Bucket.Alone
import Blobster.Bucket.Mem
import Blobster.Locker.Model

/-!
# Failed acquisitions

A `TryAcquire` during which one backend call returns an error without taking effect.  It makes at
most three: the read of the record, the conditional write, and the read of the version that the write
produced.  Only behind the last of them is the lock reported as held, and by then the write has been
committed.

* `AcquireCall`, `faultAt` — the call that fails, as a stream of choices.
* `tryAcquireRun` — the attempt that runs alone, and **`tryAcquireRun_eq`** — what it does.
* **`failed_acquire_iff`** — a failed attempt leaves the record as it was, so that the next attempt of
  any client goes as if it had never been made, if and only if the call that fails is not the
  read-back or the record is live.
-/

namespace Blobster

open Interleave

/-- The backend calls of `TryAcquire`. -/
inductive AcquireCall where
  | read | write | readBack
deriving DecidableEq

/-- The place of the call among the steps of `tryAcquire`; between the read and the write the clock is
read. -/
def AcquireCall.index : AcquireCall → ℕ
  | .read => 0
  | .write => 2
  | .readBack => 3

/-- One call fails without effect, and no other. -/
def faultAt (f : AcquireCall) (i : ℕ) : Choice := if i = f.index then .failBefore else .ok

section Runs

variable {B C : Type} [DecidableEq B] [DecidableEq C] (bk : B → Backend) (l : Locker B)

/-- A `TryAcquire` of the client `c` that runs alone, under the given choices.  Calls may fail without
effect. -/
def tryAcquireRun (c : C) (key owner : String) (ch : ℕ → Choice) (w : World B C) :
    Option (Except Err Lock × World B C) :=
  ((l.TryAcquire key owner).play (alone bk ⟨true, false⟩ c) ch w).map fun r => (r.1, r.2.1)

/-- The record under the path is there and has not expired. -/
def Live (w : World B C) (path : String) : Prop :=
  ∃ o, (w.store l.bucket).get path = some o ∧ lockExpired o.metadata w.clock = false

/-- The world in which the record of an acquisition was committed. -/
def acquired (owner path : String) (w : World B C) : World B C :=
  w.setStore l.bucket
    ((w.store l.bucket).put (bk l.bucket) path .empty (l.record owner w.clock))

variable {bk l} {c : C} {key path owner : String} {w : World B C} {ch : ℕ → Choice}

lemma play_tryAcquire_read_fail (h : ch 0 = .failBefore) :
    (l.tryAcquire key path owner).play (alone bk ⟨true, false⟩ c) ch w =
      some (.error .backend, w, fun i => ch (i + 2)) := by
  rw [Locker.tryAcquire, Prog.play_bind, Locker.getRecord, play_readRecord_fail rfl h]
  rfl

/-- Against a live record the attempt writes nothing. -/
lemma play_tryAcquire_live (h : ch 0 = .ok) (hlive : Live l w path) :
    (l.tryAcquire key path owner).play (alone bk ⟨true, false⟩ c) ch w =
      some (.error .lockHeld, w, fun i => ch (i + 2)) := by
  obtain ⟨o, ho, he⟩ := hlive
  simp only [Locker.tryAcquire, Locker.getRecord, Prog.play_bind, play_readRecord h, recordOf, ho,
    Option.bind_some, play_now, he, Bool.not_false, if_true]
  rfl

variable (bk c key owner ch) in
/-- Without a live record the attempt writes one, under a precondition that lets it through, and its
outcome is that of the write. -/
lemma play_tryAcquire_free (h : ch 0 = .ok) (hfree : ¬ Live l w path) :
    ∃ pre, (w.store l.bucket).write (bk l.bucket) path .empty (l.record owner w.clock) [pre] =
        .ok ((w.store l.bucket).put (bk l.bucket) path .empty (l.record owner w.clock)) ∧
      ∀ r w' ch', (writeBack l.bucket path (l.record owner w.clock) pre).play
          (alone bk ⟨true, false⟩ c) (fun i => ch (i + 2)) w = some (r, w', ch') →
        (r = .error .backend → (l.tryAcquire key path owner).play (alone bk ⟨true, false⟩ c) ch w =
          some (.error .backend, w', ch')) ∧
        ∀ v, r = .ok v → (l.tryAcquire key path owner).play (alone bk ⟨true, false⟩ c) ch w =
          (Locker.start key path owner v (w.clock + l.lease)).play (alone bk ⟨true, false⟩ c) ch' w' := by
  cases ho : (w.store l.bucket).get path with
  | none =>
      refine ⟨.ifNotExists, Store.write_ifNotExists_none _ _ _ ho, fun r w' ch' hr => ?_⟩
      simp only [Locker.tryAcquire, Locker.getRecord, Prog.play_bind, play_readRecord h, recordOf, ho,
        Option.bind_some, play_now, Locker.createRecord, Locker.writeRecord, hr]
      exact ⟨fun hr => by rw [hr]; rfl, fun v hr => by rw [hr]⟩
  | some o =>
      have he : lockExpired o.metadata w.clock = true := by
        by_contra hne
        exact hfree ⟨o, ho, Bool.not_eq_true _ ▸ hne⟩
      refine ⟨.ifMatch o.version, Store.write_ifMatch_self _ _ _ ho, fun r w' ch' hr => ?_⟩
      simp only [Locker.tryAcquire, Locker.getRecord, Prog.play_bind, play_readRecord h, recordOf, ho,
        Option.bind_some, play_now, he, Bool.not_true, Bool.false_eq_true, if_false,
        Locker.updateRecord, Locker.writeRecord, hr]
      exact ⟨fun hr => by rw [hr]; rfl, fun v hr => by rw [hr]⟩

lemma tryAcquireRun_eq (hpath : l.path key = .ok path) (ch : ℕ → Choice) :
    tryAcquireRun bk l c key owner ch w =
      ((l.tryAcquire key path owner).play (alone bk ⟨true, false⟩ c) ch w).map
        fun r => (r.1, r.2.1) := by
  rw [tryAcquireRun, Locker.TryAcquire, hpath]

lemma tryAcquireRun_live (hpath : l.path key = .ok path) (hlive : Live l w path)
    (h : ch 0 = .ok) : tryAcquireRun bk l c key owner ch w = some (.error .lockHeld, w) := by
  rw [tryAcquireRun_eq hpath, play_tryAcquire_live h hlive]
  rfl

variable (bk c owner) in
/-- **What an attempt does under a fault**: it fails, and has written its record if the fault was that
of the read-back. -/
theorem tryAcquireRun_fault (hpath : l.path key = .ok path) (hfree : ¬ Live l w path)
    (f : AcquireCall) :
    tryAcquireRun bk l c key owner (faultAt f) w =
      some (.error .backend, if f = .readBack then acquired bk l owner path w else w) := by
  rw [tryAcquireRun_eq hpath]
  cases f with
  | read =>
      rw [play_tryAcquire_read_fail rfl]
      rfl
  | write =>
      obtain ⟨pre, -, hout⟩ := play_tryAcquire_free bk c key owner (faultAt .write) rfl hfree
      rw [(hout _ _ _ (play_writeBack_fail rfl rfl)).1 rfl]
      rfl
  | readBack =>
      obtain ⟨pre, hwrite, hout⟩ :=
        play_tryAcquire_free bk c key owner (faultAt .readBack) rfl hfree
      rw [(hout _ _ _ (play_writeBack_unread hwrite rfl rfl rfl)).1 rfl]
      rfl

variable (bk c owner) in
/-- Without a fault and without a live record the attempt succeeds. -/
lemma tryAcquireRun_free (hpath : l.path key = .ok path) (hfree : ¬ Live l w path) :
    ∃ lk w', tryAcquireRun bk l c key owner (fun _ => .ok) w = some (.ok lk, w') := by
  obtain ⟨pre, hwrite, hout⟩ := play_tryAcquire_free bk c key owner (fun _ => .ok) rfl hfree
  obtain ⟨v, hv⟩ := play_writeBack ⟨true, false⟩ c (fun _ => .ok) hwrite rfl rfl
  rw [tryAcquireRun_eq hpath, (hout _ _ _ hv).2 v rfl]
  exact ⟨_, _, rfl⟩

variable (bk owner path w) in
/-- The record of an acquisition is live at the moment of the acquisition. -/
lemma live_acquired (hlease : 0 < l.lease) : Live l (acquired bk l owner path w) path := by
  refine ⟨_, by rw [acquired, World.setStore_store_self, Store.get_put_self], ?_⟩
  refine leaseExpired_eq_false (u := w.clock + l.lease) rfl ?_
  change w.clock < w.clock + l.lease
  omega

/-- **When a failed acquisition leaves no lease behind.**  Whichever of its backend calls fails, an
attempt that returns an error leaves the record as it was, and the next attempt of any client goes as
if it had never been made, if and only if the call that fails is not the read-back of the version or
the record is live. -/
theorem failed_acquire_iff (hpath : l.path key = .ok path) (hlease : 0 < l.lease)
    (f : AcquireCall) :
    (∀ e w', tryAcquireRun bk l c key owner (faultAt f) w = some (.error e, w') →
      (w'.store l.bucket).get path = (w.store l.bucket).get path ∧
        ∀ (l' : Locker B) (c' : C) (owner' : String),
          (tryAcquireRun bk l' c' key owner' (fun _ => .ok) w').map Prod.fst =
            (tryAcquireRun bk l' c' key owner' (fun _ => .ok) w).map Prod.fst) ↔
      f ≠ .readBack ∨ Live l w path := by
  constructor
  · intro h
    by_contra hnot
    rw [not_or, not_not] at hnot
    have hrun := tryAcquireRun_fault bk c owner hpath hnot.2 f
    rw [if_pos hnot.1] at hrun
    obtain ⟨hsame, -⟩ := h _ _ hrun
    obtain ⟨o, ho, he⟩ := live_acquired bk path owner w hlease
    exact hnot.2 ⟨o, hsame ▸ ho, he⟩
  · rintro h e w' hrun
    suffices hw : w' = w by
      subst hw
      exact ⟨rfl, fun _ _ _ => rfl⟩
    by_cases hlive : Live l w path
    · by_cases hread : f = .read
      · subst hread
        rw [tryAcquireRun_eq hpath, play_tryAcquire_read_fail rfl] at hrun
        exact (Prod.mk.inj (Option.some.inj hrun)).2.symm
      · have hok : faultAt f 0 = .ok := by
          cases f with
          | read => exact absurd rfl hread
          | write => rfl
          | readBack => rfl
        rw [tryAcquireRun_live hpath hlive hok] at hrun
        exact (Prod.mk.inj (Option.some.inj hrun)).2.symm
    · rw [tryAcquireRun_fault bk c owner hpath hlive, if_neg (h.resolve_right hlive)] at hrun
      exact (Prod.mk.inj (Option.some.inj hrun)).2.symm

end Runs

/-! ## The lease that is left behind -/

/-- Two clients, and no record. -/
def unlocked : World Unit Bool := ⟨0, fun _ => {}, fun _ => {}⟩

/-- A locker with a lease of 15. -/
def jobLocker : Locker Unit := ⟨(), "locks/", 15⟩

lemma jobLocker_path : jobLocker.path "job" = .ok "locks/job" := by decide +kernel

lemma unlocked_free : ¬ Live jobLocker unlocked "locks/job" := by
  rintro ⟨o, ho, -⟩
  rw [unlocked, Store.get_empty] at ho
  cases ho

/-- The version of a record that was just created cannot be read back: the attempt fails, and the next
client finds the lock held for a whole lease, where it would have acquired it. -/
theorem acquired_and_failed :
    ∃ w', tryAcquireRun (fun _ => memBackend) jobLocker false "job" "a" (faultAt .readBack) unlocked =
        some (.error .backend, w') ∧
      (w'.store ()).get "locks/job" ≠ (unlocked.store ()).get "locks/job" ∧
      (tryAcquireRun (fun _ => memBackend) jobLocker true "job" "b" (fun _ => .ok) w').map Prod.fst =
        some (.error .lockHeld) ∧
      ∃ lk, (tryAcquireRun (fun _ => memBackend) jobLocker true "job" "b" (fun _ => .ok)
        unlocked).map Prod.fst = some (.ok lk) := by
  have hlive := live_acquired (l := jobLocker) (fun _ => memBackend) "locks/job" "a" unlocked
    (by decide)
  obtain ⟨lk, w', hok⟩ := tryAcquireRun_free (fun _ => memBackend) true "b" jobLocker_path
    unlocked_free
  refine ⟨_, tryAcquireRun_fault _ _ _ jobLocker_path unlocked_free _, ?_, ?_, lk, by rw [hok]; rfl⟩
  · rw [if_pos rfl]
    intro hsame
    obtain ⟨o, ho, he⟩ := hlive
    exact unlocked_free ⟨o, hsame ▸ ho, he⟩
  · rw [if_pos rfl, tryAcquireRun_live jobLocker_path hlive rfl]
    rfl

/-- A write that fails leaves nothing behind. -/
theorem failed_acquire_write :
    ∃ w', tryAcquireRun (fun _ => memBackend) jobLocker false "job" "a" (faultAt .write) unlocked =
        some (.error .backend, w') ∧
      (w'.store ()).get "locks/job" = (unlocked.store ()).get "locks/job" := by
  have hrun := tryAcquireRun_fault (fun _ => memBackend) false "a" jobLocker_path unlocked_free .write
  exact ⟨_, hrun, ((failed_acquire_iff jobLocker_path (by decide) .write).mpr (.inl (by decide))
    _ _ hrun).1⟩

end Blobster
