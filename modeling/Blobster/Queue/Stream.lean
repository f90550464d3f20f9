import Blobster.Driver.Tokens
import Blobster.Queue.History
import Blobster.Queue.Trim

/-!
# The whole queue

Producers whose bodies arrive in pieces, workers, and the retention pass, on one queue.

`Blobster.Queue.Model` takes an enqueue for the commit that ends it.  Here the call is taken apart as
in `writePayload`: the mem driver's writer is opened with the create-only condition, `io.Copy` fills
its buffer chunk by chunk while everybody else goes on, and only `Close` looks at the store.  The
reader may fail and the caller may give up before that; then the writer is closed with an error and
nothing has happened.

* `Queue.copyBody`, `Queue.streamPayload`, `Queue.enqueueStream`, `Queue.enqueueWithIDStream` — the
  calls; `reporting` keeps what they return.
* **`MemDriver.close_simulates`** — the commit of the driver's writer is the store's conditional write.
* `Service`, `Service.machine` — any number of clients, each with one call.
-/

set_option linter.unusedSectionVars false

namespace Blobster

open Interleave

/-! ## Streaming a payload -/

/-- The user metadata of a payload, as the store keeps it. -/
def textMetadata (md : UserMetadata) : Metadata := md.map fun kv => (kv.1, .text kv.2)

namespace Queue

variable {B : Type} (q : Queue B)

/-- `ctx.Err()`: the caller may have given up by now. -/
def ctxErr : BProg B (Option Err) := do
  if ← select (fun _ => true) then return some .backend else return none

/-- One `Write` after the other, each of them asking the context first. -/
def writeChunks (w : MemDriver.Writer) : List ByteArray → BProg B (Except Err MemDriver.Writer)
  | [] => return .ok w
  | p :: ps => do
      match w.write (← ctxErr) p with
      | (.error e, _) => return .error e
      | (.ok _, w') => writeChunks w' ps

/-- `io.Copy(w, r)`: a reader that copies itself calls `Write` for each chunk, any other is read by
the writer's `ReadFrom`; the reader's own error comes last. -/
def copyBody (w : MemDriver.Writer) (r : Body) : BProg B (Except Err MemDriver.Writer) := do
  match ← writeChunks w (if r.writerTo then r.chunks else [r.bytes]) with
  | .error e => return .error e
  | .ok w' =>
      match r.err with
      | some e => return .error e
      | none => return .ok w'

/-- The writer options of a payload. -/
def payloadOptions (attrs : UserMetadata) : WriterOptions where
  headers := { contentType := "application/octet-stream" }
  disableContentTypeDetection := true
  metadata := attrs

/-- `writePayload`.  A writer that is closed with an error leaves nothing behind; `Close` is the
create-only commit of its buffer. -/
def streamPayload (pf : Platform) (id : String) (r : Body) (attrs : UserMetadata) :
    BProg B (Except Err Unit) := do
  match MemDriver.Bucket.newWriter pf {} (queueMsgPrefix ++ id) (payloadOptions attrs)
      [.ifNotExists] with
  | .error e => return .error e
  | .ok w =>
      match ← copyBody w r with
      | .error e => return .error e
      | .ok w => writeAll q.bucket w.key w.buf (textMetadata w.opts.metadata) [.ifNotExists]

/-- `Enqueue`: the id of the message, which did not exist before. -/
def enqueueStream (pf : Platform) (uuid : String) (r : Body) (attrs : UserMetadata) :
    BProg B (Except Err (String × Bool)) := do
  let id := newQueueID (← now) uuid
  match ← q.streamPayload pf id r attrs with
  | .error e => return .error e
  | .ok _ => return .ok (id, false)

/-- `EnqueueWithID`: the id and whether the message already existed. -/
def enqueueWithIDStream (pf : Platform) (id : String) (r : Body) (attrs : UserMetadata) :
    BProg B (Except Err (String × Bool)) := do
  match validateQueueMessageID id with
  | .error e => return .error e
  | .ok _ =>
      match ← q.streamPayload pf id r attrs with
      | .error .preconditionFailed => return .ok (id, true)
      | .error e => return .error e
      | .ok _ => return .ok (id, false)

/-- The caller of an enqueue gets its result. -/
def reporting (p : BProg B (Except Err (String × Bool))) : BProg B Unit := do
  let r ← p
  let _ ← critical fun mem => { mem with reported := some r }

end Queue

/-! ## The writer it opens -/

namespace MemDriver

/-- **`Close` is the store's conditional commit** of the writer's buffer. -/
theorem close_simulates {pf : Platform} {st : State} {s : Store} (h : Simulates st s)
    (hlen : s.next + 1 < 2 ^ 64) {w : Writer} (hopen : w.closed = false)
    (hmd5 : w.opts.contentMD5 = .empty) {pre : List Precondition}
    (hpre : compilePreconditions pre = .ok w.preconditions) (now : ℤ) (md : Metadata) :
    match s.write memBackend (w.bucket.objectKey w.key) w.buf md pre with
    | .error e => w.close pf none now st = (.error e, { w with closed := true }, st)
    | .ok s' => ∃ st', w.close pf none now st = (.ok (), { w with closed := true }, st') ∧
        Simulates st' s' := by
  have hsize : ¬ (w.opts.contentMD5.size > 0 ∧ pf.md5 w.buf ≠ w.opts.contentMD5) := by
    simp [hmd5]
  rw [Store.write, hpre, ← h.version, Writer.close, hopen]
  simp only [Bool.false_eq_true, if_false, if_neg hsize]
  by_cases hpass : conditionsPass w.preconditions (st.version (w.bucket.objectKey w.key))
  · simp only [if_pos hpass]
    exact ⟨_, rfl, h.commit hlen _ _ (fun version => w.attrs pf now version) (fun _ => rfl) md⟩
  · simp only [if_neg hpass]

/-- A writer opened for a payload: its conditions, its key, and the normalised attributes. -/
lemma newWriter_payload {pf : Platform} {key : String} {attrs : UserMetadata}
    {pre : List Precondition} {w : Writer}
    (h : Bucket.newWriter pf {} key (Queue.payloadOptions attrs) pre = .ok w) :
    w.key = key ∧ w.closed = false ∧ w.buf = .empty ∧
      normalizeMetadata pf attrs = .ok w.opts.metadata := by
  unfold Bucket.newWriter at h
  split at h
  · cases h
  · split at h
    · cases h
    · rename_i cloned hcloned
      split at h
      · cases h
      · cases h
        simp only [WriterOptions.clone, Queue.payloadOptions] at hcloned
        cases hmd : normalizeMetadata pf attrs with
        | error e => simp [hmd, Except.map] at hcloned
        | ok md =>
            simp only [hmd, Except.map, Except.ok.injEq] at hcloned
            exact ⟨rfl, rfl, rfl, by rw [← hcloned]⟩

/-- A `Write` into an open writer appends. -/
lemma write_ok {w w' : Writer} {ctx : Option Err} {p : ByteArray}
    (h : w.write ctx p = (.ok (), w')) : w' = { w with buf := w.buf ++ p } := by
  unfold Writer.write at h
  split at h
  · cases h
  · cases ctx with
    | some e => cases h
    | none => exact (Prod.mk.inj h).2.symm

end MemDriver

/-! ## The system -/

/-- The whole queue: every client makes one call. -/
structure Service (B C : Type) extends QueueSetup B C where
  pf : Platform

namespace Service

variable {B C : Type} [DecidableEq C] (s : Service B C)

/-- The entry points: the streaming enqueues and the retention pass, and those of `QueueSetup` but
for its enqueues. -/
def start (t : Thread C) (e : Entry) (w : World B C) : Option (BProg B Unit × World B C) :=
  let q := s.queue t.1
  let call (p : BProg B Unit) : Option (BProg B Unit × World B C) :=
    if (w.mem t.1).called then none else some (p, w.setMem t.1 { called := true })
  match t.2, e with
  | .main, .enqueueStream r attrs =>
      call (Queue.reporting (q.enqueueStream s.pf (s.uuid t.1) r attrs))
  | .main, .enqueueWithIDStream id r attrs =>
      call (Queue.reporting (q.enqueueWithIDStream s.pf id r attrs))
  | .main, .trim retention fuel => call (discard (q.trim retention fuel))
  | .main, .enqueue _ _ => none
  | .main, .enqueueWithID _ _ _ => none
  | _, _ => s.toQueueSetup.start t e w

/-- What an entry point starts. -/
inductive Starts (c : C) (w : World B C) : Goroutine → Entry → BProg B Unit → World B C → Prop where
  | enqueueStream (r : Body) (attrs : UserMetadata) (h : (w.mem c).called = false) :
      Starts c w .main (.enqueueStream r attrs)
        (Queue.reporting ((s.queue c).enqueueStream s.pf (s.uuid c) r attrs))
        (w.setMem c { called := true })
  | enqueueWithIDStream (id : String) (r : Body) (attrs : UserMetadata)
      (h : (w.mem c).called = false) :
      Starts c w .main (.enqueueWithIDStream id r attrs)
        (Queue.reporting ((s.queue c).enqueueWithIDStream s.pf id r attrs))
        (w.setMem c { called := true })
  | trim (retention : ℤ) (fuel : ℕ) (h : (w.mem c).called = false) :
      Starts c w .main (.trim retention fuel) (discard ((s.queue c).trim retention fuel))
        (w.setMem c { called := true })
  | tryReceive (h : (w.mem c).called = false) :
      Starts c w .main .tryReceive (discard ((s.queue c).tryReceive (s.owner c)))
        (w.setMem c { called := true })
  | ack (m : Message) (hm : (w.mem c).message = some m) :
      Starts c w .main .ack (discard ((s.queue c).ack m.msgPath m.leasePath m.owner)) w
  | nack (m : Message) (hm : (w.mem c).message = some m) :
      Starts c w .main .nack (discard ((s.queue c).nack m.leasePath m.owner)) w
  | renew (fuel : ℕ) (m : Message) (hm : (w.mem c).message = some m) (hst : m.stopped = false) :
      Starts c w .renewer (.renewMessage fuel)
        ((s.queue c).renewLoop m.leasePath m.owner m.receives fuel) w

variable {s} in
/-- The entry points are all there is to start. -/
lemma start_cases {c : C} {g : Goroutine} {e : Entry} {w w' : World B C} {p : BProg B Unit}
    (h : s.start (c, g) e w = some (p, w')) : s.Starts c w g e p w' := by
  have hcall : ∀ {q : BProg B Unit}, (if (w.mem c).called then none
      else some (q, w.setMem c { called := true })) = some (p, w') →
      (w.mem c).called = false ∧ q = p ∧ w.setMem c { called := true } = w' := by
    intro q hq
    split at hq
    · cases hq
    · rename_i hcalled
      exact ⟨by simpa using hcalled, Prod.mk.inj (Option.some.inj hq)⟩
  dsimp only [start] at h
  split at h
  · obtain ⟨hc, rfl, rfl⟩ := hcall h
    exact .enqueueStream _ _ hc
  · obtain ⟨hc, rfl, rfl⟩ := hcall h
    exact .enqueueWithIDStream _ _ _ hc
  · obtain ⟨hc, rfl, rfl⟩ := hcall h
    exact .trim _ _ hc
  · cases h
  · cases h
  · rename_i hne hne'
    cases QueueSetup.start_cases h with
    | enqueue body attrs hc => exact (hne body attrs rfl rfl).elim
    | enqueueWithID id body attrs hc => exact (hne' id body attrs rfl rfl).elim
    | tryReceive hc => exact .tryReceive hc
    | ack m hm => exact .ack m hm
    | nack m hm => exact .nack m hm
    | renew fuel m hm hst => exact .renew fuel m hm hst

/-- The machine: any number of clients, any backend, any faults, and a clock that moves forward. -/
def machine [DecidableEq B] (bk : B → Backend) (flt : Faults) :
    Machine (bucketSig B) (World B C) (Thread C) :=
  bucketMachine bk flt s.start fun (d : ℕ) w => some (w.advance d)

end Service

end Blobster
