import Blobster.Bucket.Races
import Blobster.Locker.Footprints

/-!
# Contending for a lock

`TryAcquire` and `Acquire` next to everything that other clients do to the record: they take it over,
renew it and release it.  A client that loses a race is told that the lock is held, with one exception.
`tryAcquire` takes "precondition failed" and "not found" for a lost race after a takeover, but after a
create only "precondition failed": if the new record is taken over and released before its version
has been read back, the read-back's "not found" is returned as it is.

* `LockSetup.contend` — the entry points, with the results that the callers get.
* **`LockSetup.contention_sound`** — if nobody deletes a record whose creator has not read it back, every
  result is a lock or "held".
-/

set_option linter.unusedSectionVars false

namespace Blobster

open Interleave Contract

namespace Locker

variable {B C : Type} [DecidableEq B] [DecidableEq C] (l : Locker B) {t : Thread C}
  {last : Option (BEvent B C)}

/-! ## What the calls return -/

/-- `tryAcquire` gets the lock or finds it held. -/
lemma yields_tryAcquire (key path owner : String) :
    (l.tryAcquire key path owner).Yields Answer t (fun r => ∀ e, r = .error e → e = .lockHeld)
      last := by
  refine yields_readRecord.bind fun record hrecord last => Prog.Yields.call fun now _ => ?_
  have hstart : ∀ ver until_ last, (start key path owner ver until_ : BProg B (Except Err Lock)).Yields
      Answer t (fun r => ∀ e, r = .error e → e = .lockHeld) last :=
    fun ver until_ last mem _ e he => by cases he
  rcases record with e | ⟨fields, version⟩
  · obtain rfl := hrecord e rfl
    refine yields_writeBack_create.bind fun res hres last => ?_
    cases res with
    | error e =>
        obtain rfl := hres e rfl
        exact fun e he => (Except.error.inj he).symm
    | ok ver => exact hstart _ _ _
  · dsimp only
    split
    · exact fun e he => (Except.error.inj he).symm
    · refine (yields_writeBack (.ifMatch version)).bind fun res hres last => ?_
      cases res with
      | error e =>
          obtain rfl | rfl := hres e rfl
          · exact fun e he => (Except.error.inj he).symm
          · exact fun e he => (Except.error.inj he).symm
      | ok ver => exact hstart _ _ _

/-- Until the context is done, a round of `Acquire` gets the lock or goes on. -/
lemma yields_acquireRound (key path owner : String) :
    (l.acquireRound key path owner).Yields Uncancelled t
      (fun r => ∀ a, r = .inr a → a.map (fun _ => ()) = .ok ()) last := by
  have htry : (l.tryAcquire key path owner).Yields Answer t _ last := l.yields_tryAcquire key path owner
  refine (htry.restrict uncancelled_answer).bind fun res hres last => ?_
  cases res with
  | ok held =>
      rintro a ⟨⟩
      rfl
  | error e =>
      obtain rfl := hres e rfl
      rintro done (rfl : done = false) a h
      cases h

/-! ## The calls leave the result alone -/

lemma lockCalls_quiet (path : String) : l.LockCalls Quiet path where
  attributes := trivial
  write _ _ _ := trivial
  delete _ := trivial
  now := trivial
  mem _ hf := hf
  await _ := trivial
  select _ := trivial
  park := trivial

lemma quiet_tryAcquire (key path owner : String) : (l.tryAcquire key path owner).Within Quiet :=
  within_tryAcquire (l.lockCalls_quiet path) key owner

lemma quiet_Acquire (key owner : String) (fuel : ℕ) : (l.Acquire key owner fuel).Within Quiet :=
  within_Acquire (fun path _ => l.lockCalls_quiet path) owner fuel

lemma quiet_renewLoop (path owner : String) (fuel : ℕ) :
    (l.renewLoop path owner fuel).Within Quiet :=
  within_renewLoop (l.lockCalls_quiet path) owner fuel

lemma quiet_release (path owner : String) : (l.release path owner).Within Quiet :=
  within_release (l.lockCalls_quiet path) owner

end Locker

/-! ## The system -/

namespace LockSetup

variable {B C : Type} [DecidableEq B] [DecidableEq C] (s : LockSetup B C)

/-- The entry points: one `TryAcquire` or `Acquire` for each client, whose result it gets, then its
renewer and `Release`. -/
def contend (t : Thread C) (e : Entry) (w : World B C) : Option (BProg B Unit × World B C) :=
  let call (p : BProg B Unit) : Option (BProg B Unit × World B C) :=
    if (w.mem t.1).called then none else some (p, w.setMem t.1 { called := true })
  match t.2, e with
  | .main, .tryAcquire => call (report e ((s.locker t.1).TryAcquire s.key (s.owner t.1)))
  | .main, .acquire fuel => call (report e ((s.locker t.1).Acquire s.key (s.owner t.1) fuel))
  | _, _ => s.start t e w

/-- Any number of clients that contend for the lock, on a backend that never fails. -/
def contention (bk : B → Backend) {E : Type} (env : E → World B C → Option (World B C)) :
    Machine (bucketSig B) (World B C) (Thread C) :=
  bucketMachine bk faultless s.contend env

variable {s} {bk : B → Backend} {E : Type} {env : E → World B C → Option (World B C)} {c : C}
  {v : BView B C}

lemma yields_TryAcquire (hkey : ∃ path, (s.locker c).path s.key = .ok path)
    (last : Option (BEvent B C)) :
    ((s.locker c).TryAcquire s.key (s.owner c)).Yields Answer (c, .main)
      (fun r => ∀ v : BView B C, Benign v c .tryAcquire (r.map fun _ => ())) last := by
  obtain ⟨path, hpath⟩ := hkey
  rw [Locker.TryAcquire, hpath]
  refine ((s.locker c).yields_tryAcquire s.key path (s.owner c)).mono fun r hr v => ?_
  cases r with
  | ok lk => exact .inl rfl
  | error e => exact .inr (by rw [hr e rfl]; rfl)

lemma yields_Acquire (hkey : ∃ path, (s.locker c).path s.key = .ok path) (fuel : ℕ)
    (last : Option (BEvent B C)) :
    ((s.locker c).Acquire s.key (s.owner c) fuel).Yields Uncancelled (c, .main)
      (fun r => r.map (fun _ => ()) = .ok ()) last := by
  obtain ⟨path, hpath⟩ := hkey
  rw [Locker.Acquire, hpath]
  exact Prog.Yields.loop yields_park
    (fun _ _ => (s.locker c).yields_acquireRound s.key path (s.owner c)) fuel () last

/-- **Contending for a lock is sound.** -/
lemma contention_sound (hkey : ∀ c, ∃ path, (s.locker c).path s.key = .ok path)
    (henv : ClockOnly env) {w₀ : World B C} (h₀ : ∀ c, (w₀.mem c).outcome = none) :
    (racesContract bk s.contend env).Sound w₀ := by
  refine sound_of_starts henv h₀ ?_
  rintro ⟨c, g⟩ e v p w hs
  cases g with
  | main =>
      cases e with
      | tryAcquire =>
          obtain ⟨rfl, rfl⟩ := called_cases hs
          refine ⟨.inr rfl, fun v₁ hi => safe_report hi ?_ (yields_TryAcquire (hkey c))⟩
          unfold Locker.TryAcquire
          split
          · trivial
          · exact (s.locker c).quiet_tryAcquire _ _ _
      | acquire fuel =>
          obtain ⟨rfl, rfl⟩ := called_cases hs
          exact ⟨.inr rfl, fun v₁ hi => safe_report_blocking hi ((s.locker c).quiet_Acquire _ _ _)
            (yields_Acquire (hkey c) fuel) fun _ _ h => h⟩
      | release =>
          obtain ⟨lk, -, heq⟩ := Option.map_eq_some_iff.mp hs
          obtain ⟨rfl, rfl⟩ := Prod.mk.inj heq
          exact ⟨.inl rfl, fun v₁ _ => safe_quiet ((s.locker c).quiet_release _ _).discard⟩
      | _ => cases hs
  | renewer =>
      cases e with
      | renewLock fuel =>
          obtain ⟨lk, -, heq⟩ := Option.bind_eq_some_iff.mp hs
          split at heq
          · cases heq
          · obtain ⟨rfl, rfl⟩ := Prod.mk.inj (Option.some.inj heq)
            exact ⟨.inl rfl, fun v₁ _ => safe_quiet ((s.locker c).quiet_renewLoop _ _ _)⟩
      | _ => cases hs

end LockSetup

end Blobster
