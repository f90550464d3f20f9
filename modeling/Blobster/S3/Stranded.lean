import Blobster.Interleave.Transition
import Blobster.S3.CrossCopy

/-!
# Cross-region copy on S3: no upload is left behind

A multipart upload that is neither completed nor aborted keeps its parts, which are paid for.  `multipart`
(`s3/crosscopy.go`) completes the upload it has created or aborts it, whatever happens to its requests:
this module follows the client of `Blobster.S3.CrossCopy` from its `CreateMultipartUpload` on and keeps a
log of its requests, each with the upload id it carries.

The requests run on the context of the caller, which can be cancelled at any moment, and the parts on one
that the first failing part cancels too; the abort runs on a context of its own.  Whether the API honours a
cancelled context is a parameter.

* `Exchange`, `Session`, `Session.step` — the copy with its log.
* `AllCopied`, `NothingInFlight` — what a log says about the parts; `Settled` — how an upload ends.
* `Session.Inv` — what the log holds in each phase.
* **`never_stranded`** — every run that is taken as far as it goes settles the upload, for every limit on
  the goroutines but zero; **`stranded`** — an errgroup with the limit zero starts no goroutine, and the
  copy waits for ever.
-/

namespace Blobster.S3

open Interleave

/-! ## The copy and its requests -/

/-- A request or an answer of a multipart copy, with the upload id that the request carries.  The id is a
`*string` of the SDK. -/
inductive Exchange where
  | createFailed
  | created (id : Option String)
  | partSent (id : Option String) (i : ℕ)
  | partAnswered (id : Option String) (i : ℕ) (ok : Bool)
  | complete (id : Option String) (ok : Bool)
  | abort (id : Option String)
deriving DecidableEq

/-- A multipart copy: where it is, its variable `uploadID`, whether its context is cancelled, the parts
that were sent on a cancelled context, and its requests so far, the newest first. -/
structure Session where
  phase : Phase
  uploadID : Option String := none
  cancelled : Bool := false
  late : List ℕ := []
  log : List Exchange := []
deriving DecidableEq

/-- A move: the caller cancels, S3 creates the upload, or the client takes another step. -/
inductive Move where
  | cancel
  | created (id : Option String)
  | client (a : Action)
deriving DecidableEq

namespace Session

/-- What the step adds to the log. -/
def exchange (s : Session) : Action → List Exchange
  | .spawn => match s.phase with
    | .group g => [.partSent s.uploadID g.next]
    | _ => []
  | .partCopied i _ => [.partAnswered s.uploadID i true]
  | .partFailed i => [.partAnswered s.uploadID i false]
  | .completed => [.complete s.uploadID true]
  | .aborted => [.abort s.uploadID]
  | .failed => match s.phase with
    | .create _ _ => [.createFailed]
    | .complete _ _ => [.complete s.uploadID false]
    | _ => []
  | _ => []

/-- The parts sent on a cancelled context, after the step. -/
def lateAfter (s : Session) : Action → List ℕ
  | .spawn => match s.phase with
    | .group g => if s.cancelled || g.failed then g.next :: s.late else s.late
    | _ => s.late
  | _ => s.late

/-- The request was sent on a cancelled context and yet succeeds.  The abort has a context of its own. -/
def outlives (s : Session) : Action → Bool
  | .partCopied i _ => decide (i ∈ s.late)
  | .completed => s.cancelled
  | _ => false

variable (c : CrossCopy) (honours : Bool)

/-- One step.  `honours` says that a request on a cancelled context does not succeed. -/
def step (s : Session) : Move → Option Session
  | .cancel => some { s with cancelled := true }
  | .created id =>
      if honours && s.cancelled then none
      else (c.step s.phase .created).map fun p =>
        { s with phase := p, uploadID := id, log := .created id :: s.log }
  | .client a =>
      if (honours && s.outlives a) || a == .created then none
      else (c.step s.phase a).map fun p =>
        { s with phase := p, late := s.lateAfter a, log := s.exchange a ++ s.log }

end Session

/-! ## Settled uploads -/

/-- Every one of the `n` parts was copied. -/
def AllCopied (n : ℕ) (id : Option String) (log : List Exchange) : Prop :=
  ∀ i < n, .partAnswered id i true ∈ log

/-- Every part request has finished. -/
def NothingInFlight (id : Option String) (log : List Exchange) : Prop :=
  ∀ i, .partSent id i ∈ log → ∃ ok, .partAnswered id i ok ∈ log

/-- How an upload ends: completed with all its parts and never aborted, and `run` returns nil; or aborted
once, after every part request has finished, and `run` returns an error. -/
inductive Settled (n : ℕ) (id : Option String) : List Exchange → Bool → Prop where
  | completed {log : List Exchange} (hparts : AllCopied n id log)
      (hcomplete : .complete id true ∈ log) (habort : ∀ id', .abort id' ∉ log) : Settled n id log true
  | aborted {log : List Exchange} (hflight : NothingInFlight id log)
      (honce : ∀ id', .abort id' ∉ log) (hcomplete : ∀ id', .complete id' true ∉ log) :
      Settled n id (.abort id :: log) false

/-- A bound on the steps that are left: each part is sent and answered, and then three more. -/
def Phase.left (n : ℕ) : Phase → ℕ
  | .create _ _ => 2 * n + 4
  | .group g => 2 * (n - g.next) + g.running.length + 3
  | .complete _ _ => 2
  | .abort => 1
  | _ => 0

/-- What can be said of a copy of `n` parts at any moment.  A run that is taken as far as it goes returns,
because it can go on until it does (`progress`) and every step of it uses up some of a bound (`shrinks`). -/
structure NeverStranded (c : CrossCopy) (honours : Bool) (n : ℕ) (s : Session) : Prop where
  /-- When `run` returns, the upload is settled. -/
  settled : ∀ id ok, .created id ∈ s.log → s.phase = .returned ok → Settled n id s.log ok
  /-- `CompleteMultipartUpload` is sent only when every part was copied. -/
  complete : ∀ id ok after before, s.log = after ++ .complete id ok :: before →
    AllCopied n id before
  /-- If the upload is not created nothing else is sent. -/
  uncreated : .createFailed ∈ s.log → s.log = [.createFailed]
  progress : (∀ ok, s.phase ≠ .returned ok) → ∃ a s', s.step c honours (.client a) = some s'
  shrinks : ∀ move s', move ≠ .cancel → s.step c honours move = some s' →
    s'.phase.left n < s.phase.left n

/-! ## The log in each phase -/

/-- What is not the request of a part puts no part into flight. -/
lemma NothingInFlight.cons {id : Option String} {log : List Exchange} (h : NothingInFlight id log)
    {e : Exchange} (he : ∀ id i, e ≠ .partSent id i) : NothingInFlight id (e :: log) := by
  intro i hi
  obtain ⟨ok, hok⟩ := h i ((List.mem_cons.mp hi).resolve_left (he id i).symm)
  exact ⟨ok, List.mem_cons_of_mem _ hok⟩

lemma AllCopied.cons {n : ℕ} {id : Option String} {log : List Exchange} (h : AllCopied n id log)
    (e : Exchange) : AllCopied n id (e :: log) := fun i hi => List.mem_cons_of_mem _ (h i hi)

namespace Session

variable {c : CrossCopy} {honours : Bool} {n : ℕ} {size : ℤ}

/-- What a step is. -/
lemma step_cases {s s' : Session} {move : Move} (h : s.step c honours move = some s') :
    (move = .cancel ∧ s' = { s with cancelled := true }) ∨
    (∃ id p, move = .created id ∧ c.step s.phase .created = some p ∧
      s' = { s with phase := p, uploadID := id, log := .created id :: s.log }) ∨
    ∃ a p, move = .client a ∧ a ≠ .created ∧ c.step s.phase a = some p ∧
      s' = { s with phase := p, late := s.lateAfter a, log := s.exchange a ++ s.log } := by
  cases move with
  | cancel => exact .inl ⟨rfl, (Option.some.inj h).symm⟩
  | created id =>
      rw [step] at h
      split at h
      · cases h
      · obtain ⟨p, hp, rfl⟩ := Option.map_eq_some_iff.mp h
        exact .inr (.inl ⟨id, p, rfl, hp, rfl⟩)
  | client a =>
      rw [step] at h
      split at h
      · cases h
      · rename_i hcond
        obtain ⟨p, hp, rfl⟩ := Option.map_eq_some_iff.mp h
        refine .inr (.inr ⟨a, p, rfl, ?_, hp, rfl⟩)
        rintro rfl
        simp at hcond

/-- The upload of that id has been created, and no other. -/
structure Begun (id : Option String) (log : List Exchange) : Prop where
  created : ∀ id', .created id' ∈ log ↔ id' = id
  notFailed : .createFailed ∉ log

/-- Nothing has been sent that ends the upload. -/
structure Open (log : List Exchange) : Prop where
  noComplete : ∀ id ok, .complete id ok ∉ log
  noAbort : ∀ id, .abort id ∉ log

/-- What the log says about the parts while the errgroup runs: those that were started run or have been
answered, and with success as long as none has failed. -/
structure Parts (n : ℕ) (id : Option String) (log : List Exchange) (g : Group) : Prop where
  next_le : g.next ≤ n
  sent : ∀ i, .partSent id i ∈ log → i < g.next
  answered : ∀ i < g.next, i ∈ g.running ∨ ∃ ok, .partAnswered id i ok ∈ log
  copied : g.failed = false → ∀ i < g.next, i ∈ g.running ∨ .partAnswered id i true ∈ log

/-- What the log holds in each phase. -/
def Inv (n : ℕ) (size : ℤ) (s : Session) : Prop :=
  match s.phase with
  | .create _ size' => size' = size ∧ s.log = []
  | .group g => g.size = size ∧ Begun s.uploadID s.log ∧ Open s.log ∧ Parts n s.uploadID s.log g
  | .complete _ _ => Begun s.uploadID s.log ∧ Open s.log ∧ AllCopied n s.uploadID s.log ∧
      NothingInFlight s.uploadID s.log
  | .abort => Begun s.uploadID s.log ∧ NothingInFlight s.uploadID s.log ∧ (∀ id, .abort id ∉ s.log) ∧
      ∀ id, .complete id true ∉ s.log
  | .returned ok => (ok = false ∧ s.log = [.createFailed]) ∨
      (Begun s.uploadID s.log ∧ Settled n s.uploadID s.log ok)
  | _ => False

/-- Every completing request in the log was sent after all parts had been copied. -/
def Careful (n : ℕ) (log : List Exchange) : Prop :=
  ∀ id ok after before, log = after ++ .complete id ok :: before → AllCopied n id before

lemma Careful.cons {log : List Exchange} {e : Exchange} (h : Careful n log)
    (he : ∀ id ok, e = .complete id ok → AllCopied n id log) : Careful n (e :: log) := by
  intro id ok after before heq
  cases after with
  | nil =>
      obtain ⟨rfl, rfl⟩ := List.cons.inj heq
      exact he id ok rfl
  | cons e' after => exact h id ok after before (List.cons.inj heq).2

lemma Begun.cons {id : Option String} {log : List Exchange} (h : Begun id log) {e : Exchange}
    (he : e ≠ .createFailed ∧ ∀ id, e ≠ .created id) : Begun id (e :: log) := by
  refine ⟨fun id' => ?_, fun hmem => ?_⟩
  · rw [List.mem_cons, or_iff_right (he.2 id').symm]
    exact h.created id'
  · rcases List.mem_cons.mp hmem with heq | hold
    · exact he.1 heq.symm
    · exact h.notFailed hold

lemma Open.cons {log : List Exchange} (h : Open log) {e : Exchange}
    (he : (∀ id ok, e ≠ .complete id ok) ∧ ∀ id, e ≠ .abort id) : Open (e :: log) := by
  refine ⟨fun id ok hmem => ?_, fun id hmem => ?_⟩
  · exact (List.mem_cons.mp hmem).elim (fun heq => he.1 id ok heq.symm) (h.noComplete id ok)
  · exact (List.mem_cons.mp hmem).elim (fun heq => he.2 id heq.symm) (h.noAbort id)

section Parts

variable {id : Option String} {log : List Exchange} {g g' : Group}

/-- A part is sent. -/
lemma Parts.spawn (h : Parts n id log g) (hlt : g.next < n) :
    Parts n id (.partSent id g.next :: log) (CrossCopy.goNext g) where
  next_le := hlt
  sent i hmem := by
    change i < g.next + 1
    rcases List.mem_cons.mp hmem with heq | hold
    · cases heq
      omega
    · have := h.sent i hold
      omega
  answered i hi := by
    rcases Nat.lt_succ_iff_lt_or_eq.mp hi with hlt | rfl
    · exact (h.answered i hlt).imp (List.mem_cons_of_mem _) fun ⟨ok, hok⟩ =>
        ⟨ok, List.mem_cons_of_mem _ hok⟩
    · exact .inl List.mem_cons_self
  copied hf i hi := by
    rcases Nat.lt_succ_iff_lt_or_eq.mp hi with hlt | rfl
    · exact (h.copied hf i hlt).imp (List.mem_cons_of_mem _) (List.mem_cons_of_mem _)
    · exact .inl List.mem_cons_self

/-- A part is answered. -/
lemma Parts.answer (h : Parts n id log g) {i : ℕ} {ok : Bool} (hnext : g'.next = g.next)
    (hrun : g'.running = g.running.erase i)
    (hfailed : g'.failed = false → g.failed = false ∧ ok = true) :
    Parts n id (.partAnswered id i ok :: log) g' where
  next_le := hnext ▸ h.next_le
  sent j hmem := by
    rw [hnext]
    rcases List.mem_cons.mp hmem with heq | hold
    · cases heq
    · exact h.sent j hold
  answered j hj := by
    by_cases hji : j = i
    · exact .inr ⟨ok, hji ▸ List.mem_cons_self⟩
    · rw [hrun, List.mem_erase_of_ne hji]
      exact (h.answered j (hnext ▸ hj)).imp_right fun ⟨ok', hok⟩ =>
        ⟨ok', List.mem_cons_of_mem _ hok⟩
  copied hf j hj := by
    obtain ⟨hf, rfl⟩ := hfailed hf
    by_cases hji : j = i
    · exact .inr (hji ▸ List.mem_cons_self)
    · rw [hrun, List.mem_erase_of_ne hji]
      exact (h.copied hf j (hnext ▸ hj)).imp_right (List.mem_cons_of_mem _)

/-- When the errgroup has finished, so has every part. -/
lemma Parts.nothingInFlight (h : Parts n id log g) (hrun : g.running = []) :
    NothingInFlight id log := by
  intro i hi
  refine (h.answered i (h.sent i hi)).resolve_left ?_
  rw [hrun]
  exact List.not_mem_nil

lemma Parts.allCopied (h : Parts n id log g) (hrun : g.running = []) (hf : g.failed = false)
    (hnext : n ≤ g.next) : AllCopied n id log := by
  intro i hi
  refine (h.copied hf i (by omega)).resolve_left ?_
  rw [hrun]
  exact List.not_mem_nil

end Parts

/-! ## Steps -/

/-- The invariant of a copy of `n` parts. -/
structure Holds (n : ℕ) (size : ℤ) (s : Session) : Prop where
  inv : s.Inv n size
  careful : Careful n s.log

/-- The upload is created. -/
lemma Holds.created {s : Session} (h : s.Holds n size) (hn : c.partCount size = n) {p : Phase}
    (hstep : c.step s.phase .created = some p) (id : Option String) :
    Holds n size { s with phase := p, uploadID := id, log := .created id :: s.log } := by
  obtain ⟨phase, id₀, cancelled, late, log⟩ := s
  obtain ⟨hinv, hcareful⟩ := h
  cases phase with
  | create head size' =>
      obtain ⟨rfl, rfl⟩ : size' = size ∧ log = [] := hinv
      have hcount : ¬ c.partCount size' < 0 := by omega
      simp only [CrossCopy.step, if_neg hcount, Option.some.injEq] at hstep
      subst hstep
      have hbegun : Begun id [.created id] := ⟨fun id' => by simp, by simp⟩
      have hparts : Parts n id [.created id] (c.firstGroup size') :=
        ⟨Nat.zero_le n, by simp, fun i hi => absurd hi (Nat.not_lt_zero i),
          fun _ i hi => absurd hi (Nat.not_lt_zero i)⟩
      exact ⟨⟨rfl, hbegun, ⟨by simp, by simp⟩, hparts⟩, hcareful.cons (by simp)⟩
  | group g => simp [CrossCopy.step, CrossCopy.stepGroup] at hstep
  | _ => simp [CrossCopy.step] at hstep

/-- A step of the errgroup. -/
lemma Holds.group {s : Session} {g : Group} (h : s.Holds n size) (hphase : s.phase = .group g)
    (hn : c.partCount size = n) {a : Action} {p : Phase} (hstep : c.stepGroup g a = some p) :
    Holds n size { s with phase := p, late := s.lateAfter a, log := s.exchange a ++ s.log } := by
  obtain ⟨phase, id, cancelled, late, log⟩ := s
  obtain ⟨hinv, hcareful⟩ := h
  obtain rfl : phase = .group g := hphase
  obtain ⟨rfl, hbegun, hopen, hparts⟩ := hinv
  cases a with
  | spawn =>
      obtain ⟨⟨hlt, -⟩, rfl⟩ : _ ∧ _ = p := by simpa [CrossCopy.stepGroup] using hstep
      exact ⟨⟨rfl, hbegun.cons ⟨by simp, by simp⟩, hopen.cons ⟨by simp, by simp⟩,
        hparts.spawn (by omega)⟩, hcareful.cons (by simp)⟩
  | partCopied i eTag =>
      obtain ⟨-, rfl⟩ : _ ∧ _ = p := by simpa [CrossCopy.stepGroup] using hstep
      exact ⟨⟨rfl, hbegun.cons ⟨by simp, by simp⟩, hopen.cons ⟨by simp, by simp⟩,
        hparts.answer rfl rfl fun hf => ⟨hf, rfl⟩⟩, hcareful.cons (by simp)⟩
  | partFailed i =>
      obtain ⟨-, rfl⟩ : _ ∧ _ = p := by simpa [CrossCopy.stepGroup] using hstep
      exact ⟨⟨rfl, hbegun.cons ⟨by simp, by simp⟩, hopen.cons ⟨by simp, by simp⟩,
        hparts.answer rfl rfl (by simp [CrossCopy.giveUp])⟩, hcareful.cons (by simp)⟩
  | waited =>
      obtain ⟨⟨hnext, hrun⟩, hstep⟩ : _ ∧
          (if g.failed then some Phase.abort else some (.complete g.size g.parts)) = some p := by
        simpa [CrossCopy.stepGroup] using hstep
      have hflight := hparts.nothingInFlight hrun
      by_cases hf : g.failed
      · obtain rfl : Phase.abort = p := by simpa [hf] using hstep
        exact ⟨⟨hbegun, hflight, hopen.noAbort, fun id => hopen.noComplete id true⟩, hcareful⟩
      · obtain rfl : Phase.complete g.size g.parts = p := by simpa [hf] using hstep
        have hall := hparts.allCopied hrun (by simpa using hf) (by omega)
        exact ⟨⟨hbegun, hopen, hall, hflight⟩, hcareful⟩
  | _ => simp [CrossCopy.stepGroup] at hstep

/-- A step of the client. -/
lemma Holds.client {s : Session} (h : s.Holds n size) (hn : c.partCount size = n) {a : Action}
    (ha : a ≠ .created) {p : Phase} (hstep : c.step s.phase a = some p) :
    Holds n size { s with phase := p, late := s.lateAfter a, log := s.exchange a ++ s.log } := by
  obtain ⟨phase, id, cancelled, late, log⟩ := s
  cases phase with
  | group g => exact h.group rfl hn hstep
  | create head size' =>
      obtain ⟨⟨-, rfl⟩, hcareful⟩ : (size' = size ∧ log = []) ∧ Careful n log := ⟨h.inv, h.careful⟩
      cases a with
      | failed =>
          obtain rfl := Option.some.inj hstep
          exact ⟨.inl ⟨rfl, rfl⟩, hcareful.cons (by simp)⟩
      | created => exact absurd rfl ha
      | _ => simp [CrossCopy.step] at hstep
  | complete size' parts =>
      obtain ⟨⟨hbegun, hopen, hall, hflight⟩, hcareful⟩ := h
      have hcareful' : ∀ ok, Careful n (.complete id ok :: log) := fun ok =>
        hcareful.cons fun _ _ heq => by
          cases heq
          exact hall
      have hnoAbort : ∀ ok id', Exchange.abort id' ∉ Exchange.complete id ok :: log := fun ok id' =>
        List.not_mem_cons_of_ne_of_not_mem (by simp) (hopen.noAbort id')
      cases a with
      | completed =>
          obtain rfl := Option.some.inj hstep
          exact ⟨.inr ⟨hbegun.cons ⟨by simp, by simp⟩, .completed (hall.cons _) List.mem_cons_self
            (hnoAbort true)⟩, hcareful' true⟩
      | failed =>
          obtain rfl := Option.some.inj hstep
          refine ⟨⟨hbegun.cons ⟨by simp, by simp⟩, hflight.cons (by simp), hnoAbort false, fun id' => ?_⟩,
            hcareful' false⟩
          exact List.not_mem_cons_of_ne_of_not_mem (by simp) (hopen.noComplete id' true)
      | _ => simp [CrossCopy.step] at hstep
  | abort =>
      obtain ⟨⟨hbegun, hflight, hnoAbort, hnoComplete⟩, hcareful⟩ := h
      cases a with
      | aborted =>
          obtain rfl := Option.some.inj hstep
          exact ⟨.inr ⟨hbegun.cons ⟨by simp, by simp⟩, .aborted hflight hnoAbort hnoComplete⟩,
            hcareful.cons (by simp)⟩
      | _ => simp [CrossCopy.step] at hstep
  | returned ok => cases a <;> simp [CrossCopy.step] at hstep
  | _ => exact h.inv.elim

/-- A step of the copy. -/
lemma Holds.step {s s' : Session} (h : s.Holds n size) (hn : c.partCount size = n) {move : Move}
    (hs : s.step c honours move = some s') : s'.Holds n size := by
  obtain ⟨-, rfl⟩ | ⟨id, p, -, hstep, rfl⟩ | ⟨a, p, -, ha, hstep, rfl⟩ := step_cases hs
  · exact ⟨h.inv, h.careful⟩
  · exact h.created hn hstep id
  · exact h.client hn ha hstep

/-! ## Progress -/

/-- The errgroup can go on: it starts a goroutine, a part that runs is answered, or it is done.  A limit of
zero would leave it with none of these. -/
lemma exists_step_group (hlimit : c.concurrency ≠ 0) (g : Group) :
    ∃ a p, a ≠ .created ∧ (∀ s : Session, s.outlives a = false) ∧ c.stepGroup g a = some p := by
  by_cases hrun : g.running = []
  · by_cases hnext : c.partCount g.size ≤ g.next
    · refine ⟨.waited, if g.failed then .abort else .complete g.size g.parts, by simp, fun _ => rfl, ?_⟩
      rw [CrossCopy.stepGroup, if_pos ⟨hnext, hrun⟩]
      split <;> rfl
    · have hslot : c.HasSlot g.running := by
        rw [CrossCopy.HasSlot, hrun]
        simp only [List.length_nil, Nat.cast_zero]
        omega
      exact ⟨.spawn, _, by simp, fun _ => rfl, if_pos ⟨by omega, hslot⟩⟩
  · obtain ⟨i, hi⟩ := List.exists_mem_of_ne_nil _ hrun
    exact ⟨.partFailed i, _, by simp, fun _ => rfl, if_pos hi⟩

/-- Until it returns, the copy can go on. -/
lemma Holds.progress {s : Session} (h : s.Holds n size) (hlimit : c.concurrency ≠ 0)
    (hret : ∀ ok, s.phase ≠ .returned ok) : ∃ a s', s.step c honours (.client a) = some s' := by
  have hsome : ∃ a p, a ≠ .created ∧ (s.outlives a = false) ∧ c.step s.phase a = some p := by
    obtain ⟨phase, id, cancelled, late, log⟩ := s
    cases phase with
    | create head size' => exact ⟨.failed, _, nofun, rfl, rfl⟩
    | group g =>
        obtain ⟨a, p, ha, hlate, hstep⟩ := exists_step_group hlimit g
        exact ⟨a, p, ha, hlate _, hstep⟩
    | complete size' parts => exact ⟨.failed, _, nofun, rfl, rfl⟩
    | abort => exact ⟨.aborted, _, nofun, rfl, rfl⟩
    | returned ok => exact absurd rfl (hret ok)
    | _ => exact h.inv.elim
  obtain ⟨a, p, ha, hlate, hstep⟩ := hsome
  refine ⟨a, { s with phase := p, late := s.lateAfter a, log := s.exchange a ++ s.log }, ?_⟩
  simp [Session.step, hlate, ha, hstep]

/-- Every step of the client leaves fewer. -/
lemma Holds.left_lt {s : Session} (h : s.Holds n size) (hn : c.partCount size = n) {a : Action}
    {p : Phase} (hstep : c.step s.phase a = some p) : p.left n < s.phase.left n := by
  obtain ⟨phase, id, cancelled, late, log⟩ := s
  cases phase with
  | create head size' =>
      obtain ⟨rfl, -⟩ : size' = size ∧ log = [] := h.inv
      cases a with
      | created =>
          have hcount : ¬ c.partCount size' < 0 := by omega
          simp only [CrossCopy.step, if_neg hcount, Option.some.injEq] at hstep
          subst hstep
          simp [Phase.left, CrossCopy.firstGroup]
      | failed =>
          obtain rfl := Option.some.inj hstep
          simp [Phase.left]
      | _ => simp [CrossCopy.step] at hstep
  | group g =>
      obtain ⟨rfl, -⟩ := h.inv
      cases a with
      | spawn =>
          obtain ⟨⟨hlt, -⟩, rfl⟩ : _ ∧ _ = p := by
            simpa [CrossCopy.step, CrossCopy.stepGroup] using hstep
          simp only [Phase.left, CrossCopy.goNext, List.length_cons]
          omega
      | partCopied i eTag =>
          obtain ⟨hi, rfl⟩ : _ ∧ _ = p := by
            simpa [CrossCopy.step, CrossCopy.stepGroup] using hstep
          have := List.length_pos_of_mem hi
          simp only [Phase.left, CrossCopy.store, List.length_erase_of_mem hi]
          omega
      | partFailed i =>
          obtain ⟨hi, rfl⟩ : _ ∧ _ = p := by
            simpa [CrossCopy.step, CrossCopy.stepGroup] using hstep
          have := List.length_pos_of_mem hi
          simp only [Phase.left, CrossCopy.giveUp, List.length_erase_of_mem hi]
          omega
      | waited =>
          obtain ⟨-, hstep⟩ : _ ∧
              (if g.failed then some Phase.abort else some (.complete g.size g.parts)) = some p := by
            simpa [CrossCopy.step, CrossCopy.stepGroup] using hstep
          split at hstep <;> obtain rfl := Option.some.inj hstep <;> simp only [Phase.left] <;> omega
      | _ => simp [CrossCopy.step, CrossCopy.stepGroup] at hstep
  | complete size' parts =>
      cases a <;> simp only [CrossCopy.step, Option.some.injEq, reduceCtorEq] at hstep <;>
        subst hstep <;> simp [Phase.left]
  | abort =>
      cases a <;> simp only [CrossCopy.step, Option.some.injEq, reduceCtorEq] at hstep
      subst hstep
      simp [Phase.left]
  | returned ok => cases a <;> simp [CrossCopy.step] at hstep
  | _ => exact h.inv.elim

/-- What the invariant gives. -/
lemma Holds.neverStranded {s : Session} (h : s.Holds n size) (hn : c.partCount size = n)
    (hlimit : c.concurrency ≠ 0) : NeverStranded c honours n s where
  settled id ok hcreated hphase := by
    have hinv := h.inv
    rw [Inv, hphase] at hinv
    rcases hinv with ⟨-, hlog⟩ | ⟨hbegun, hsettled⟩
    · simp [hlog] at hcreated
    · obtain rfl := (hbegun.created id).mp hcreated
      exact hsettled
  complete := h.careful
  uncreated hfailed := by
    have hnot : ∀ {id : Option String}, Begun id s.log → False := fun hb => hb.notFailed hfailed
    have hinv := h.inv
    rw [Inv] at hinv
    split at hinv
    · simp [hinv.2] at hfailed
    · exact (hnot hinv.2.1).elim
    · exact (hnot hinv.1).elim
    · exact (hnot hinv.1).elim
    · exact hinv.elim (fun hlog => hlog.2) fun hb => (hnot hb.1).elim
    · exact hinv.elim
  progress := h.progress hlimit
  shrinks move s' hmove hs := by
    obtain ⟨rfl, -⟩ | ⟨id, p, -, hstep, rfl⟩ | ⟨a, p, -, -, hstep, rfl⟩ := step_cases hs
    · exact absurd rfl hmove
    · exact h.left_lt hn hstep
    · exact h.left_lt hn hstep

end Session

/-! ## Runs -/

/-- **A multipart copy never strands its upload**, whatever the number of parts, the order in which they
start and finish, the requests that fail and the moment of a cancellation, as long as the errgroup may
start a goroutine at all: at every moment of every run, `NeverStranded`. -/
theorem never_stranded (c : CrossCopy) (honours : Bool) (head : HeadObjectOutput) {size : ℤ} {n : ℕ}
    (hn : c.partCount size = n) (hlimit : c.concurrency ≠ 0) {states : List Session}
    (hrun : Run (Session.step c honours) (fun _ _ => True) { phase := .create head size } states) :
    ∀ s ∈ states, NeverStranded c honours n s := by
  have hholds : ∀ s ∈ states, s.Holds n size := by
    refine hrun.keeps (I := fun states => ∀ s ∈ states, s.Holds n size) ?_ ?_
    · intro s hs
      obtain rfl := List.mem_singleton.mp hs
      exact ⟨⟨rfl, rfl⟩, fun id ok after before heq => by simp at heq⟩
    · intro s s' past move ih _ hs t ht
      rcases List.mem_cons.mp ht with rfl | ht
      · exact (ih s List.mem_cons_self).step hn hs
      · exact ih t ht
  exact fun s hs => (hholds s hs).neverStranded hn hlimit

/-- The caller cancels while two of three parts are in flight: one of them arrives, the other and the third,
which is sent too late, do not. -/
def cancelled : List Move :=
  [.created (some "upload"), .client .spawn, .client .spawn, .cancel, .client (.partCopied 1 "b"),
    .client .spawn, .client (.partFailed 2), .client (.partFailed 0), .client .waited,
    .client .aborted]

theorem never_stranded_cancelled :
    ∃ s past, Run (Session.step CrossCopy.smallCopy true) (fun _ _ => True)
        { phase := .create (CrossCopy.sized 5) 5 } (s :: past) ∧
      s.phase = .returned false ∧ Settled 3 (some "upload") s.log false := by
  have hplay : (playStates (Session.step CrossCopy.smallCopy true) (fun _ _ => true)
      { phase := .create (CrossCopy.sized 5) 5 } [] cancelled).any (fun states => match states with
        | s :: _ => decide (s.phase = .returned false) &&
            decide (Exchange.created (some "upload") ∈ s.log)
        | [] => false) = true := by decide +kernel
  obtain ⟨states, hrun, htest⟩ := run_of_play (fun _ _ => True) (fun _ _ _ => trivial) hplay
  obtain _ | ⟨s, past⟩ := states
  · cases htest
  · simp only [Bool.and_eq_true, decide_eq_true_eq] at htest
    have hnever := never_stranded CrossCopy.smallCopy true (CrossCopy.sized 5) (n := 3)
      (by decide +kernel) (by decide) hrun s List.mem_cons_self
    exact ⟨s, past, hrun, htest.1, hnever.settled (some "upload") false htest.2 htest.1⟩

/-- A copy whose errgroup has the limit zero. -/
def blockedCopy : CrossCopy := { CrossCopy.smallCopy with concurrency := 0 }

/-- Its errgroup does nothing. -/
lemma stepGroup_blocked (a : Action) :
    blockedCopy.stepGroup (blockedCopy.firstGroup 5) a = none := by
  have hslot : ¬ blockedCopy.HasSlot [] := by decide
  have hcount : ¬ blockedCopy.partCount 5 ≤ 0 := by decide +kernel
  cases a <;> simp [CrossCopy.stepGroup, CrossCopy.firstGroup, hslot, hcount]

/-- **With a limit of zero the upload is stranded**: `g.Go` waits for a slot that there is not, and only the
caller can still cancel, to no effect. -/
theorem stranded :
    ∃ s past, Run (Session.step blockedCopy true) (fun _ _ => True)
        { phase := .create (CrossCopy.sized 5) 5 } (s :: past) ∧
      s.log = [.created (some "upload")] ∧ (∀ ok, s.phase ≠ .returned ok) ∧
      ∀ move s', s.step blockedCopy true move = some s' → move = .cancel := by
  refine ⟨⟨.group (blockedCopy.firstGroup 5), some "upload", false, [], [.created (some "upload")]⟩, _,
    .step (a := .created (some "upload")) .init trivial (by decide +kernel), rfl, nofun, ?_⟩
  intro move s' hs
  obtain ⟨rfl, -⟩ | ⟨id, p, -, hstep, -⟩ | ⟨a, p, -, -, hstep, -⟩ := Session.step_cases hs
  · rfl
  · exact nomatch (stepGroup_blocked .created).symm.trans hstep
  · exact nomatch (stepGroup_blocked a).symm.trans hstep

end Blobster.S3
