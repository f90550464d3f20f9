import Blobster.Bucket.Tenure
import Blobster.Locker.Exclusion

/-!
# Losing a lock

The clients of a lock as tenants of one record (`LockSetup.tenancy`): `TryAcquire` writes the record
and reads its version back before the handle exists, the renewer is the renew loop of
`Blobster.Bucket.Tenure` (`Locker.renewLoop_eq`), and `Release` touches the record only once the
renewer has exited.

* `tenancy_sound` — each operation keeps the tenants' contract.
* **`justified_loss`** — so every loss of a lock has a reason, if no read-back of a renew fails.
-/

set_option linter.unusedSectionVars false

namespace Blobster

open Interleave Contract

/-- The handle, as far as its renewer is concerned. -/
def Lock.tenure (lk : Lock) : Tenure :=
  ⟨lk.path, lk.owner, lk.version, lk.leaseUntil, lk.stopped, decide (lk.err = some .lockLost)⟩

/-- `finish` without an error reports no loss. -/
lemma Lock.finish_none_same (lk : Lock) : lk.tenure.Same (lk.finish none).tenure := by
  refine ⟨by simp [Lock.tenure], by simp [Lock.tenure], by simp [Lock.tenure],
    by simp [Lock.tenure], by simp [Lock.tenure], ?_⟩
  unfold Lock.finish
  split
  · exact id
  · simp [Lock.tenure]

/-- What the renew loop of a lock works on. -/
def Locker.renewer {B : Type} (l : Locker B) (path owner : String) : Renewer B where
  bucket := l.bucket
  path := path
  fields := l.record owner
  lease := l.lease
  cancelled m := (m.lock.map Lock.cancelled).getD false
  leaseUntil m := (m.lock.map Lock.leaseUntil).getD 0
  version m := (m.lock.map Lock.version).getD ""
  renewed ver d := Mem.onLock fun lk => { lk with version := ver, leaseUntil := d }
  lose := Mem.onLock (Lock.finish (some .lockLost))
  stop := Mem.onLock fun lk => { lk with stopped := true }

lemma Locker.renewLoop_eq {B : Type} (l : Locker B) (path owner : String) (fuel : ℕ) :
    l.renewLoop path owner fuel = (l.renewer path owner).renewLoop fuel := rfl

namespace LockSetup

variable {B C : Type} [DecidableEq B] [DecidableEq C] (s : LockSetup B C) {bk : B → Backend}
  {flt : Faults} {v : BView B C} {c : C}

/-- The clients of a lock keep one record. -/
def tenancy : Tenancy B C where
  bucket := s.bucket
  ownerField := lockOwnerField
  owner := s.owner
  owner_inj := s.owner_inj
  IsRecord key := key = s.path
  handle m := m.lock.map Lock.tenure
  handle_empty _ := rfl

variable {s}

lemma fits : s.tenancy.Fits ((s.locker c).renewer s.path (s.owner c)) c where
  bucket := rfl
  record := rfl
  own now := record_owner _ _ now
  version m h hh := by
    obtain ⟨lk, hlk, rfl⟩ := Option.map_eq_some_iff.mp hh
    simp [Locker.renewer, hlk, Lock.tenure]
  leaseUntil m h hh := by
    obtain ⟨lk, hlk, rfl⟩ := Option.map_eq_some_iff.mp hh
    simp [Locker.renewer, hlk, Lock.tenure]
  renewed ver d m h hh := by
    obtain ⟨lk, hlk, rfl⟩ := Option.map_eq_some_iff.mp hh
    exact ⟨rfl, by simp [tenancy, Locker.renewer, Mem.onLock, hlk, Lock.tenure]⟩
  lose m h hh := by
    obtain ⟨lk, hlk, rfl⟩ := Option.map_eq_some_iff.mp hh
    refine ⟨rfl, decide ((lk.finish (some .lockLost)).err = some .lockLost), ?_⟩
    simp [tenancy, Locker.renewer, Mem.onLock, hlk, Lock.tenure]
  stop m h hh := by
    obtain ⟨lk, hlk, rfl⟩ := Option.map_eq_some_iff.mp hh
    exact ⟨rfl, by simp [tenancy, Locker.renewer, Mem.onLock, hlk, Lock.tenure]⟩

/-- `start`: the handle comes into being in step with the record. -/
lemma tenancy_safe_start {ver : Version} {d : ℤ} (ha : s.tenancy.Applying v.world c)
    (hstep : s.tenancy.InStep v.world c s.path ver) :
    (s.tenancy.contract bk flt s.start).Safe (c, .main) (fun _ _ => True)
      (Locker.start s.key s.path (s.owner c) ver d) v :=
  Tenancy.safe_found (h := ⟨s.path, s.owner c, ver, d, false, false⟩) ha rfl hstep rfl
    (fun _ => ⟨rfl, rfl⟩) fun _ => trivial

/-- The record is written in the client's own name. -/
lemma tenancy_safe_writeRecord {now : ℤ} (ha : s.tenancy.Applying v.world c) (pre : Precondition) :
    (s.tenancy.contract bk flt s.start).Safe (c, .main)
      (fun r v => s.tenancy.Applying v.world c ∧
        ∀ ver, r = .ok ver → s.tenancy.InStep v.world c s.path ver)
      ((s.locker c).writeRecord s.path ((s.locker c).record (s.owner c) now) pre) v :=
  Tenancy.safe_writeBack (T := s.tenancy) rfl ha (record_owner (s.locker c) (s.owner c) now)

lemma tenancy_safe_tryAcquire (ha : s.tenancy.Applying v.world c) :
    (s.tenancy.contract bk flt s.start).Safe (c, .main) (fun _ _ => True)
      ((s.locker c).tryAcquire s.key s.path (s.owner c)) v := by
  refine Tenancy.caller_readRecord Tenancy.lasting_applying ha fun record v₁ _ ha₁ => ?_
  refine Tenancy.caller_now Tenancy.lasting_applying ha₁ fun now v₂ hi₂ ha₂ => ?_
  split
  · refine Safe.bind hi₂ (tenancy_safe_writeRecord ha₂ .ifNotExists) ?_
    rintro r v₃ - ⟨ha₃, hstep⟩
    split
    · exact .ret fun _ _ _ => trivial
    · exact .ret fun _ _ _ => trivial
    · exact tenancy_safe_start ha₃ (hstep _ rfl)
  · exact .ret fun _ _ _ => trivial
  · rename_i fields version
    split
    · exact .ret fun _ _ _ => trivial
    · refine Safe.bind hi₂ (tenancy_safe_writeRecord ha₂ (.ifMatch version)) ?_
      rintro r v₃ - ⟨ha₃, hstep⟩
      split
      · exact .ret fun _ _ _ => trivial
      · exact .ret fun _ _ _ => trivial
      · exact .ret fun _ _ _ => trivial
      · exact tenancy_safe_start ha₃ (hstep _ rfl)

/-- A critical section of `Release` changes no field that the renewer relies on. -/
lemma tenancy_safe_flags {α : Type} {Q : α → BView B C → Prop} {f : Lock → Lock}
    {k : Mem → BProg B α} (hf : ∀ lk : Lock, lk.tenure.Same (f lk).tenure)
    (hk : ∀ r v', s.tenancy.Inv v'.world.mem →
      (s.tenancy.contract bk flt s.start).Safe (c, .main) Q (k r) v') :
    (s.tenancy.contract bk flt s.start).Safe (c, .main) Q (critical (Mem.onLock f) >>= k) v := by
  refine Tenancy.caller_flags (fun _ => rfl) (fun m h hh => ?_) (fun m hm => ?_)
    Tenancy.lasting_true (fun _ _ => trivial) trivial fun r v' hi _ => hk r v' hi
  · obtain ⟨lk, hlk, rfl⟩ := Option.map_eq_some_iff.mp hh
    exact ⟨(f lk).tenure, by simp [tenancy, Mem.onLock, hlk], hf lk⟩
  · have hlk : m.lock = none := Option.map_eq_none_iff.mp hm
    simp [tenancy, Mem.onLock, hlk]

lemma tenancy_safe_release :
    (s.tenancy.contract bk flt s.start).Safe (c, .main) (fun _ _ => True)
      ((s.locker c).release s.path (s.owner c)) v := by
  have hsame (lk lk' : Lock) (h : lk'.tenure = lk.tenure) : lk.tenure.Same lk'.tenure :=
    h ▸ .refl _
  refine tenancy_safe_flags (fun lk => hsame _ _ rfl) fun before v₁ _ => ?_
  split
  · exact .ret fun _ _ _ => trivial
  refine tenancy_safe_flags (fun lk => hsame _ _ rfl) fun _ v₂ _ => ?_
  refine Tenancy.caller_await (fun _ _ => trivial) fun v₃ _ _ => ?_
  refine tenancy_safe_flags Lock.finish_none_same fun _ v₄ _ => ?_
  refine Tenancy.caller_readRecord Tenancy.lasting_true trivial fun r v₅ _ _ => ?_
  split
  · exact .ret fun _ _ _ => trivial
  · exact .ret fun _ _ _ => trivial
  · split
    · exact .ret fun _ _ _ => trivial
    · refine Tenancy.caller_delete (T := s.tenancy) Tenancy.lasting_true trivial fun r v₆ _ _ => ?_
      split <;> exact .ret fun _ _ _ => trivial

/-- The contract's obligations. -/
lemma tenancy_sound (hflt : flt.after = false) {w₀ : World B C} (h₀ : ∀ c, w₀.mem c = {}) :
    (s.tenancy.contract bk flt s.start).Sound w₀ := by
  refine Tenancy.sound_of_start h₀ ?_
  rintro ⟨c, g⟩ e v p w hi hidle hstart
  unfold LockSetup.start at hstart
  split at hstart
  · rename_i hg
    obtain rfl : g = .main := hg
    split at hstart
    · cases hstart
    · rename_i hcalled
      obtain ⟨rfl, rfl⟩ := Prod.mk.inj (Option.some.inj hstart)
      obtain ⟨hguar, hi', ha⟩ := Tenancy.step_call hi (by simpa using hcalled)
      refine ⟨hguar, hi', Tenancy.safe_call hi' ?_⟩
      unfold Locker.TryAcquire
      split
      · exact .ret fun _ _ _ => trivial
      · rename_i path hpath
        obtain rfl := path_eq hpath
        exact tenancy_safe_tryAcquire ha
  · rename_i hg
    obtain rfl : g = .main := hg
    obtain ⟨lk, hlk, heq⟩ := Option.map_eq_some_iff.mp hstart
    obtain ⟨rfl, rfl⟩ := Prod.mk.inj heq
    obtain ⟨-, hpath, howner⟩ := hi c lk.tenure (by simp [tenancy, hlk])
    have hpath : lk.path = s.path := hpath
    have howner : lk.owner = s.owner c := howner
    refine ⟨.quiet (Tenancy.active_main _), hi, Tenancy.safe_call hi ?_⟩
    rw [hpath, howner]
    exact tenancy_safe_release
  · rename_i hg
    obtain rfl : g = .renewer := hg
    obtain ⟨lk, hlk, heq⟩ := Option.bind_eq_some_iff.mp hstart
    split at heq
    · cases heq
    · rename_i fuel hst
      obtain ⟨rfl, rfl⟩ := Prod.mk.inj (Option.some.inj heq)
      have hh : s.tenancy.handle (v.world.mem c) = some lk.tenure := by simp [tenancy, hlk]
      have hst : lk.tenure.stopped = false := by simpa [Lock.tenure] using hst
      obtain ⟨-, hpath, howner⟩ := hi c lk.tenure hh
      have hpath : lk.path = s.path := hpath
      have howner : lk.owner = s.owner c := howner
      have hstep := hidle rfl lk.tenure hh hst
      refine ⟨.quiet fun _ => ⟨_, hh, hst⟩, hi, ?_⟩
      rw [hpath, howner, Locker.renewLoop_eq]
      have ht : s.tenancy.Tending v.world c s.path :=
        ⟨lk.version, lk.leaseUntil, ⟨lk.tenure, hh, hst, hpath, rfl, rfl⟩, hpath ▸ hstep⟩
      exact Tenancy.safe_renewLoop (v := v.push _ _) hflt (fits (c := c)) hi ht fuel
  · cases hstart

/-! ## Losses -/

/-- The step reports the loss of the lock. -/
def Loses (p : World B C × BEvent B C × World B C) (d : C) (lk : Lock) : Prop :=
  lk.err ≠ some .lockLost ∧ ∃ lk' ∈ (p.2.2.mem d).lock, lk'.err = some .lockLost

variable (s) in
/-- The stored record carries the handle's owner. -/
def StillHeld (w : World B C) (lk : Lock) : Prop :=
  ∃ o ∈ (w.store s.bucket).get lk.path, o.metadata.text lockOwnerField = lk.owner

instance (p : World B C × BEvent B C × World B C) (d : C) (lk : Lock) :
    Decidable (Loses p d lk) := by unfold Loses; infer_instance

instance (w : World B C) (lk : Lock) : Decidable (s.StillHeld w lk) := by unfold StillHeld; infer_instance

/-- A loss of the lock has a reason. -/
lemma justified_loss (hflt : flt.after = false) {w₀ : World B C} (h₀ : ∀ c, w₀.mem c = {})
    {c : Config (bucketSig B) (World B C) (Thread C)}
    (hc : Reach (s.machine bk flt) readsBack w₀ c) {p : World B C × BEvent B C × World B C}
    (hp : p ∈ c.view.steps) {d : C} {lk : Lock} (hlk : lk ∈ (p.1.mem d).lock)
    (hlost : Loses p d lk) : lk.leaseUntil ≤ p.1.clock ∨ ¬ s.StillHeld p.1 lk := by
  obtain ⟨herr, lk', hlk', herr'⟩ := hlost
  have hh : s.tenancy.handle (p.1.mem d) = some lk.tenure := congrArg (Option.map Lock.tenure) hlk
  have hh' : s.tenancy.handle (p.2.2.mem d) = some lk'.tenure :=
    congrArg (Option.map Lock.tenure) hlk'
  refine (Tenancy.justified (tenancy_sound hflt h₀) hc hp hh hh' (decide_eq_false herr)
    (decide_eq_true herr')).imp_right ?_
  rintro hforeign ⟨o, ho, hown⟩
  exact hforeign o ho hown

end LockSetup

end Blobster
