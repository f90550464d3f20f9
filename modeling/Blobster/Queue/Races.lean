import Blobster.Bucket.Mem
import Blobster.Locker.Exclusion
import Blobster.Locker.Races
import Blobster.Queue.Footprints

/-!
# Contending for messages

`TryReceive` and `Receive` next to everything that others do to the queue: they claim messages, ack and
nack them, renew their leases, move dead letters and trim.  As with the lock (`Blobster.Locker.Races`),
a worker that loses a race moves on to the next candidate, but for the read-back after the creation of
a lease: if the lease is gone by then, `tryClaim` returns "not found", and `TryReceive` with it.

* `Queue.yields_tryReceive` — what it returns.
* `Consumers` — the whole queue, with the results that the consumers get.
* **`no_false_alarm`** — lock and queue, in every run in which nobody deletes a record whose creator has not
  read it back.
* **`false_alarm`** — runs in which somebody does.
-/

set_option linter.unusedSectionVars false

namespace Blobster

open Interleave Contract

namespace Queue

variable {B C : Type} [DecidableEq B] [DecidableEq C] (q : Queue B) {t : Thread C}
  {last : Option (BEvent B C)}

/-! ## What the calls return -/

lemma yields_removeDead (id : String) (ver : Version) :
    (q.removeDead id ver).Yields Answer t (fun r => r = .ok ()) last := by
  have hlease : ∀ last, (q.removeDeadLease id ver).Yields Answer t (fun r => r = .ok ()) last := by
    rintro last r (rfl | rfl | ⟨e, rfl, he⟩)
    · rfl
    · rfl
    · obtain rfl := he.singleton
      rfl
  rintro r (rfl | rfl | ⟨e, rfl, he⟩)
  · exact hlease _
  · exact hlease _
  · exact absurd he not_refused_nil

lemma yields_writeDeadRecord (id : String) (attrs : Metadata) (n : ℕ) :
    (q.writeDeadRecord id attrs n).Yields Answer t (fun r => r = .ok ()) last := by
  rintro r (⟨body, rfl⟩ | rfl)
  · rintro r (rfl | ⟨e, rfl, he⟩)
    · rfl
    · exact absurd he not_refused_nil
  · rfl

lemma yields_deadLetter (id : String) (n : ℕ) (ver : Version) :
    (q.deadLetter id n ver).Yields Answer t (fun r => r = .ok ()) last := by
  rintro r (⟨attrs, rfl⟩ | ⟨rfl, -⟩)
  · refine (q.yields_writeDeadRecord id attrs.metadata n).bind fun res hres last => ?_
    subst hres
    exact q.yields_removeDead id ver
  · exact q.yields_removeDead id ver

lemma yields_claimed (id owner : String) (now : ℤ) (n : ℕ) (ver : Version) :
    (q.claimed id owner now n ver).Yields Answer t (fun r => ∀ e, r ≠ .error e) last := by
  rintro r (⟨attrs, rfl⟩ | ⟨rfl, -⟩)
  · intro mem _ e he
    cases he
  · intro res _ e he
    cases he

/-- `tryClaim` takes every lost race for a candidate that is not claimable. -/
lemma yields_tryClaim (id owner : String) :
    (q.tryClaim id owner).Yields Answer t (fun r => ∀ e, r ≠ .error e) last := by
  refine yields_readRecord.bind fun lease hlease last => Prog.Yields.call fun now _ => ?_
  rcases lease with e | ⟨fields, version⟩
  · obtain rfl := hlease e rfl
    refine yields_writeBack_create.bind fun res hres last => ?_
    cases res with
    | error e =>
        obtain rfl := hres e rfl
        exact fun e he => by cases he
    | ok ver => exact q.yields_claimed id owner _ _ ver
  · dsimp only
    split
    · exact fun e he => by cases he
    · split
      · refine (yields_writeBack (.ifMatch version)).bind fun res hres last => ?_
        cases res with
        | error e => obtain rfl | rfl := hres e rfl <;> exact fun e he => by cases he
        | ok ver =>
            refine (q.yields_deadLetter id _ ver).bind fun res hres last => ?_
            subst hres
            exact fun e he => by cases he
      · refine (yields_writeBack (.ifMatch version)).bind fun res hres last => ?_
        cases res with
        | error e => obtain rfl | rfl := hres e rfl <;> exact fun e he => by cases he
        | ok ver => exact q.yields_claimed id owner _ _ ver

lemma yields_tryCandidates (owner : String) (keys : List String) :
    (q.tryCandidates owner keys).Yields Answer t (fun r => ∀ e, r = .error e → e = .noMessages)
      last := by
  induction keys generalizing last with
  | nil => exact fun e he => (Except.error.inj he).symm
  | cons key keys ih =>
      unfold tryCandidates
      split
      · exact ih
      · split
        · exact ih
        · refine (q.yields_tryClaim _ owner).bind fun res hres last => ?_
          rcases res with e | _ | m
          · exact absurd rfl (hres e)
          · exact ih
          · exact fun e he => by cases he

/-- `tryReceive` gets a message or finds none. -/
lemma yields_tryReceive (owner : String) :
    (q.tryReceive owner).Yields Answer t (fun r => ∀ e, r = .error e → e = .noMessages) last := by
  refine Prog.Yields.call ?_
  rintro r ⟨⟨objs, next⟩, rfl⟩
  dsimp only
  split
  · exact fun e he => (Except.error.inj he).symm
  · exact fun start _ => q.yields_tryCandidates owner _

/-- Until the context is done, a round of `Receive` gets a message or goes on. -/
lemma yields_receiveRound (owners : ℕ → String) (n : ℕ) :
    (q.receiveRound owners n).Yields Uncancelled t
      (fun r => ∀ a, r = .inr a → a.map (fun _ => ()) = .ok ()) last := by
  have htry : (q.tryReceive (owners n)).Yields Answer t _ last := q.yields_tryReceive (owners n)
  refine (htry.restrict uncancelled_answer).bind fun res hres last => ?_
  cases res with
  | ok msg =>
      rintro a ⟨⟩
      rfl
  | error e =>
      obtain rfl := hres e rfl
      rintro done (rfl : done = false) a h
      cases h

/-- So does `Receive`. -/
lemma yields_Receive (owners : ℕ → String) (fuel : ℕ) (last : Option (BEvent B C)) :
    (q.Receive owners fuel).Yields Uncancelled t (fun r => r.map (fun _ => ()) = .ok ()) last :=
  Prog.Yields.loop yields_park (fun n _ => q.yields_receiveRound owners n) fuel 0 last

end Queue

/-! ## The calls leave the result alone -/

section Quiet

variable {B : Type} (q : Queue B)

lemma calm_quiet : Calm (Quiet : Op B → Prop) where
  attributes _ _ := trivial
  read _ _ := trivial
  delete _ _ _ := trivial
  listPage _ _ _ _ := trivial
  now := trivial
  randIntN _ := trivial
  mem _ h := fun mem => (h mem).outcome
  await _ := trivial
  select _ := trivial
  park := trivial

lemma quiet_tryReceive (owner : String) : (q.tryReceive owner).Within Quiet :=
  within_tryReceive calm_quiet q (fun _ _ _ _ => trivial) (fun _ _ _ _ => trivial) owner

lemma quiet_Receive (owners : ℕ → String) (fuel : ℕ) : (q.Receive owners fuel).Within Quiet := by
  refine Prog.Within.loop (by exact ⟨trivial, fun r => r.elim⟩) (fun n => ?_) fuel 0
  refine (quiet_tryReceive q (owners n)).bind fun res => ?_
  split
  · trivial
  · refine .call trivial fun done => ?_
    split <;> trivial
  · trivial

lemma quiet_reporting {p : BProg B (Except Err (String × Bool))} (hp : p.Within Quiet) :
    (Queue.reporting p).Within Quiet :=
  hp.bind fun _ => ⟨fun _ => rfl, fun _ => trivial⟩

end Quiet

/-! ## The system -/

/-- The whole queue, and the owners that the rounds of each consumer's `Receive` draw. -/
structure Consumers (B C : Type) extends Service B C where
  owners : C → ℕ → String

namespace Consumers

variable {B C : Type} [DecidableEq B] [DecidableEq C] (s : Consumers B C)

/-- The entry points of `Service`, where `TryReceive` gives its result to the caller, and `Receive`. -/
def contend (t : Thread C) (e : Entry) (w : World B C) : Option (BProg B Unit × World B C) :=
  let call (p : BProg B Unit) : Option (BProg B Unit × World B C) :=
    if (w.mem t.1).called then none else some (p, w.setMem t.1 { called := true })
  match t.2, e with
  | .main, .tryReceive => call (report e ((s.queue t.1).tryReceive (s.owner t.1)))
  | .main, .receive fuel => call (report e ((s.queue t.1).Receive (s.owners t.1) fuel))
  | _, _ => s.toService.start t e w

/-- Any number of clients of the queue, on a backend that never fails. -/
def contention (bk : B → Backend) {E : Type} (env : E → World B C → Option (World B C)) :
    Machine (bucketSig B) (World B C) (Thread C) :=
  bucketMachine bk faultless s.contend env

variable {s} {bk : B → Backend} {E : Type} {env : E → World B C → Option (World B C)}

/-- The other entry points report nothing here. -/
lemma quiet_start {c : C} {g : Goroutine} {e : Entry} {w w' : World B C} {p : BProg B Unit}
    (h : s.Starts c w g e p w') :
    (w' = w ∨ w' = w.setMem c { called := true }) ∧ p.Within Quiet := by
  cases h with
  | enqueueStream r attrs =>
      exact ⟨.inr rfl, quiet_reporting (within_enqueueStream calm_quiet _ (fun _ _ _ _ => trivial)
        _ _ r attrs)⟩
  | enqueueWithIDStream id r attrs =>
      exact ⟨.inr rfl, quiet_reporting (within_enqueueWithIDStream calm_quiet _
        (fun _ _ _ _ => trivial) _ id r attrs)⟩
  | trim retention fuel => exact ⟨.inr rfl, (within_trim calm_quiet _ retention fuel).discard⟩
  | tryReceive => exact ⟨.inr rfl, (quiet_tryReceive _ _).discard⟩
  | ack m => exact ⟨.inl rfl, (within_ack calm_quiet _ _ _ _).discard⟩
  | nack m => exact ⟨.inl rfl, (within_nack calm_quiet _ (fun _ _ _ => trivial) _).discard⟩
  | renew fuel m => exact ⟨.inl rfl, within_renewLoop calm_quiet _ (fun _ _ _ => trivial) _ _ _⟩

/-- **Contending for messages is sound.** -/
lemma contention_sound (henv : ClockOnly env) {w₀ : World B C} (h₀ : ∀ c, (w₀.mem c).outcome = none) :
    (racesContract bk s.contend env).Sound w₀ := by
  refine sound_of_starts henv h₀ ?_
  rintro ⟨c, g⟩ e v p w hs
  have hother : s.toService.start (c, g) e v.world = some (p, w) →
      (w = v.world ∨ w = v.world.setMem c { called := true }) ∧
        ∀ v₁, (racesContract bk s.contend env).inv v₁ →
          (racesContract bk s.contend env).Safe (c, g) (fun _ _ => True) p v₁ := by
    intro h
    obtain ⟨hw, hp⟩ := quiet_start (Service.start_cases h)
    exact ⟨hw, fun _ _ => safe_quiet hp⟩
  cases g with
  | main =>
      cases e with
      | tryReceive =>
          obtain ⟨rfl, rfl⟩ := called_cases hs
          refine ⟨.inr rfl, fun v₁ hi => safe_report hi (quiet_tryReceive _ _) fun last => ?_⟩
          refine ((s.queue c).yields_tryReceive (s.owner c)).mono fun r hr v => ?_
          cases r with
          | ok m => exact .inl rfl
          | error e => exact .inr (by rw [hr e rfl]; rfl)
      | receive fuel =>
          obtain ⟨rfl, rfl⟩ := called_cases hs
          exact ⟨.inr rfl, fun v₁ hi => safe_report_blocking hi (quiet_Receive _ _ _)
            ((s.queue c).yields_Receive (s.owners c) fuel) fun _ _ h => h⟩
      | _ => exact hother hs
  | renewer => exact hother hs

end Consumers

/-! ## Runs -/

section Runs

variable {B C : Type} [DecidableEq B] [DecidableEq C]

/-- **A race is no false alarm.**  Contending for a lock or for messages on a backend that never fails,
whatever the others do to the records in between: in every run in which nobody deletes a record whose
creator has not read it back, `TryAcquire` returns a lock or that it is held, `TryReceive` returns a
message or that there is none, and `Acquire` and `Receive` only give up with their context. -/
theorem no_false_alarm (lock : LockSetup B C) (queue : Consumers B C)
    (hkey : ∀ c, ∃ path, (lock.locker c).path lock.key = .ok path) {bk : B → Backend} {E : Type}
    {env : E → World B C → Option (World B C)} (henv : ClockOnly env) {w₀ : World B C}
    (h₀ : ∀ c, (w₀.mem c).outcome = none) (cfg : Config (bucketSig B) (World B C) (Thread C)) :
    (Reach (lock.contention bk env) SparesCreated w₀ cfg → NoFalseAlarm cfg.view) ∧
      (Reach (queue.contention bk env) SparesCreated w₀ cfg → NoFalseAlarm cfg.view) := by
  constructor
  · intro hreach
    have hsound : (racesContract bk lock.contend env).Sound w₀ :=
      LockSetup.contention_sound hkey henv h₀
    exact (hsound.reach hreach).1.2
  · intro hreach
    have hsound : (racesContract bk queue.contend env).Sound w₀ :=
      Consumers.contention_sound henv h₀
    exact (hsound.reach hreach).1.2

/-- No delete succeeds. -/
def isSparing (_ : BView B C) : BEvent B C → Bool
  | .call _ (.delete _ _ _) (.ok _) => false
  | _ => true

lemma sparesCreated_of_isSparing (v : BView B C) (e : BEvent B C) (h : isSparing v e = true) :
    SparesCreated v e := by
  rintro t b key pre rfl
  cases h

/-- Two workers of one queue. -/
def twoWorkers : Consumers Unit Bool where
  bucket := ()
  lease _ := 30
  headWindow _ := 256
  maxReceives _ := 0
  owner c := if c then "a" else "b"
  owner_inj := LockSetup.pair.owner_inj
  uuid _ := "u"
  pf := ⟨id, fun _ => "", id⟩
  owners c _ := if c then "a" else "b"

/-- Time passes. -/
def passing (d : ℕ) (w : World Unit Bool) : Option (World Unit Bool) := some (w.advance d)

/-- A queue with one message. -/
def oneWaiting : World Unit Bool :=
  ⟨0, fun _ => ({} : Store).put memBackend (queueMsgPrefix ++ "m") .empty [], fun _ => {}⟩

/-- Both clients find no record, and both create one: the second is told that the lock is held.  So it
is with two workers that claim one message. -/
theorem no_false_alarm_lost :
    (∃ cfg, Reach (LockSetup.pair.contention (fun _ => memBackend) passing) SparesCreated
        ⟨0, fun _ => {}, fun _ => {}⟩ cfg ∧
      (cfg.view.world.mem false).outcome = some (.tryAcquire, .error .lockHeld) ∧
      NoFalseAlarm cfg.view) ∧
    ∃ cfg, Reach (twoWorkers.contention (fun _ => memBackend) passing) SparesCreated oneWaiting cfg ∧
      (cfg.view.world.mem false).outcome = some (.tryReceive, .error .noMessages) ∧
      NoFalseAlarm cfg.view := by
  constructor
  · obtain ⟨cfg, hreach, htest⟩ := reach_of_run_adm
      (M := LockSetup.pair.contention (fun _ => memBackend) passing)
      (w := ⟨0, fun _ => {}, fun _ => {}⟩) sparesCreated_of_isSparing
      (l := [.start (true, .main) .tryAcquire, .start (false, .main) .tryAcquire,
        .call (true, .main) .ok, .call (false, .main) .ok, .call (true, .main) .ok,
        .call (false, .main) .ok, .call (true, .main) .ok, .call (false, .main) .ok,
        .call (false, .main) .ok])
      (p := fun cfg => decide ((cfg.view.world.mem false).outcome =
        some (.tryAcquire, .error .lockHeld))) (by decide +kernel)
    exact ⟨cfg, hreach, of_decide_eq_true htest, (no_false_alarm LockSetup.pair twoWorkers
      (fun _ => ⟨_, rfl⟩) clockOnly_advance (fun _ => rfl) cfg).1 hreach⟩
  · obtain ⟨cfg, hreach, htest⟩ := reach_of_run_adm
      (M := twoWorkers.contention (fun _ => memBackend) passing) (w := oneWaiting)
      sparesCreated_of_isSparing
      (l := [.start (true, .main) .tryReceive, .start (false, .main) .tryReceive,
        .call (true, .main) (.page [queueMsgPrefix ++ "m"] .done),
        .call (false, .main) (.page [queueMsgPrefix ++ "m"] .done),
        .call (true, .main) (.pick 0), .call (false, .main) (.pick 0), .call (true, .main) .ok,
        .call (false, .main) .ok, .call (true, .main) .ok, .call (false, .main) .ok,
        .call (true, .main) .ok, .call (false, .main) .ok, .call (false, .main) .ok])
      (p := fun cfg => decide ((cfg.view.world.mem false).outcome =
        some (.tryReceive, .error .noMessages))) (by decide +kernel)
    exact ⟨cfg, hreach, of_decide_eq_true htest, (no_false_alarm LockSetup.pair twoWorkers
      (fun _ => ⟨_, rfl⟩) clockOnly_advance (fun _ => rfl) cfg).2 hreach⟩

/-- **A false alarm.**  A client creates the record and pauses.  When its lease has run out, another takes
the record over and gives it back, so that the first finds nothing to read back: `TryAcquire` returns
"not found".  So does `TryReceive` after another worker has claimed and acked the message. -/
theorem false_alarm :
    (∃ cfg, Reach (LockSetup.pair.contention (fun _ => memBackend) passing) anyStep
        ⟨0, fun _ => {}, fun _ => {}⟩ cfg ∧
      (cfg.view.world.mem true).outcome = some (.tryAcquire, .error .notFound)) ∧
    ∃ cfg, Reach (twoWorkers.contention (fun _ => memBackend) passing) anyStep oneWaiting cfg ∧
      (cfg.view.world.mem true).outcome = some (.tryReceive, .error .notFound) := by
  constructor
  · obtain ⟨cfg, hreach, htest⟩ := reach_of_run_any
      (M := LockSetup.pair.contention (fun _ => memBackend) passing)
      (w := ⟨0, fun _ => {}, fun _ => {}⟩)
      (l := [.start (true, .main) .tryAcquire] ++ List.replicate 3 (.call (true, .main) .ok) ++
        [.env (15 : ℕ), .start (false, .main) .tryAcquire] ++
        List.replicate 6 (.call (false, .main) .ok) ++
        [.start (false, .renewer) (.renewLock 1), .start (false, .main) .release,
          .call (false, .main) .ok, .call (false, .main) .ok, .call (false, .renewer) (.branch true),
          .call (false, .renewer) .ok] ++ List.replicate 4 (.call (false, .main) .ok) ++
        [.call (true, .main) .ok, .call (true, .main) .ok])
      (p := fun cfg => decide ((cfg.view.world.mem true).outcome =
        some (.tryAcquire, .error .notFound))) (by decide +kernel)
    exact ⟨cfg, hreach, of_decide_eq_true htest⟩
  · obtain ⟨cfg, hreach, htest⟩ := reach_of_run_any
      (M := twoWorkers.contention (fun _ => memBackend) passing) (w := oneWaiting)
      (l := [.start (true, .main) .tryReceive,
          .call (true, .main) (.page [queueMsgPrefix ++ "m"] .done), .call (true, .main) (.pick 0)] ++
        List.replicate 3 (.call (true, .main) .ok) ++
        [.env (30 : ℕ), .start (false, .main) .tryReceive,
          .call (false, .main) (.page [queueMsgPrefix ++ "m"] .done), .call (false, .main) (.pick 0)] ++
        List.replicate 7 (.call (false, .main) .ok) ++
        [.start (false, .renewer) (.renewMessage 1), .start (false, .main) .ack,
          .call (false, .main) .ok, .call (false, .main) .ok, .call (false, .renewer) (.branch true),
          .call (false, .renewer) .ok] ++ List.replicate 5 (.call (false, .main) .ok) ++
        [.call (true, .main) .ok, .call (true, .main) .ok])
      (p := fun cfg => decide ((cfg.view.world.mem true).outcome =
        some (.tryReceive, .error .notFound))) (by decide +kernel)
    exact ⟨cfg, hreach, of_decide_eq_true htest⟩

end Runs

end Blobster
