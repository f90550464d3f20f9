import Mathlib.Data.List.Rotate
import Blobster.Bucket.Lease

/-!
# The work queue

`queue.go` and `queuemessage.go`, function by function: enqueue, the claim of a message with its
dead-letter branch, the background renewer, `Ack` and `Nack`.

A message is a payload object under `msg/` and a lease record under `lease/`; a message that has
used up its deliveries is moved to `dead/`.  The payload is written once; everything that happens to
a message afterwards is a compare-and-swap on its lease record, followed by separate reads and
deletes that are not tied to it.

`QueueSetup` is the system: each client is one call of `Enqueue`, `EnqueueWithID` or `TryReceive`,
the latter with the `Message` it may return, its renewer, `Ack` and `Nack`.  `Trim` is not part of
this system.
-/

namespace Blobster

open Interleave

/-- Sub-prefixes of the queue's keyspace. -/
def queueMsgPrefix : String := "msg/"

def queueLeasePrefix : String := "lease/"

def queueDeadPrefix : String := "dead/"

/-- Field names of the lease record. -/
def queueOwnerField : String := "owner"

def queueLeaseField : String := "lease"

def queueReceivesField : String := "receives"

/-- How far from the head of the listing a claim attempt may start. -/
def queueJitterWindow : ℕ := 16

/-- A `Queue`.  `bucket` is rooted at the queue's prefix; the renew and poll intervals only set
timers, and the retention is only read by `Trim`. -/
structure Queue (B : Type) where
  bucket : B
  lease : ℤ
  headWindow : ℕ
  maxReceives : ℕ

/-- `strings.CutPrefix`. -/
def cutPrefix (s pref : String) : Option String :=
  if pref.toList.isPrefixOf s.toList then some (String.ofList (s.toList.drop pref.toList.length))
  else none

/-- `%0<width>d`. -/
def formatPadded (width : ℕ) (n : ℤ) : String :=
  let digits := Nat.repr n.natAbs
  if n < 0 then "-" ++ String.ofList (List.replicate (width - 1 - digits.length) '0') ++ digits
  else String.ofList (List.replicate (width - digits.length) '0') ++ digits

/-- `newQueueID`: the creation time in milliseconds and a random UUID. -/
def newQueueID (now : ℤ) (uuid : String) : String :=
  formatPadded 13 (now / 1000000) ++ "-" ++ uuid

/-- `validateQueueMessageID`: a non-empty single path segment. -/
def validateQueueMessageID (id : String) : Except Err Unit :=
  if id = "" then .error .invalidMessageID
  else if id.toList.contains '/' || decide ("..".toList <:+: id.toList) || id == "." then
    .error .invalidMessageID
  else .ok ()

/-- `queueLeaseExpired`. -/
def queueLeaseExpired (fields : Metadata) (now : ℤ) : Bool :=
  leaseExpired queueLeaseField fields now

/-- `queueParseReceives`: a missing, malformed or negative count reads as zero. -/
def queueParseReceives (fields : Metadata) : ℕ :=
  match fields.atoi queueReceivesField with
  | none => 0
  | some n => n.toNat

namespace Queue

variable {B : Type} (q : Queue B)

/-! ## Enqueue -/

/-- `writePayload`: the create-only write of the payload, committed by the writer's `Close`. -/
def writePayload (id : String) (body : ByteArray) (attrs : Metadata) : BProg B (Except Err Unit) :=
  writeAll q.bucket (queueMsgPrefix ++ id) body attrs [.ifNotExists]

/-- `Enqueue`. -/
def enqueue (uuid : String) (body : ByteArray) (attrs : Metadata) :
    BProg B (Except Err String) := do
  let id := newQueueID (← now) uuid
  match ← q.writePayload id body attrs with
  | .error e => return .error e
  | .ok _ => return .ok id

/-- `EnqueueWithID`: whether the message already existed. -/
def enqueueWithID (id : String) (body : ByteArray) (attrs : Metadata) :
    BProg B (Except Err Bool) := do
  match validateQueueMessageID id with
  | .error e => return .error e
  | .ok _ =>
      match ← q.writePayload id body attrs with
      | .error .preconditionFailed => return .ok true
      | .error e => return .error e
      | .ok _ => return .ok false

/-! ## Lease records -/

/-- `leaseRecord`. -/
def leaseRecord (owner : String) (now : ℤ) (receives : ℕ) : Metadata :=
  [(queueOwnerField, .text owner), (queueLeaseField, .time (now + q.lease)),
    (queueReceivesField, .int receives)]

lemma leaseRecord_owner (owner : String) (now : ℤ) (r : ℕ) :
    (q.leaseRecord owner now r).text queueOwnerField = owner := rfl

lemma leaseRecord_lease (owner : String) (now : ℤ) (r : ℕ) :
    (q.leaseRecord owner now r).parseTime queueLeaseField = some (now + q.lease) := rfl

lemma leaseRecord_count (owner : String) (now : ℤ) (r : ℕ) :
    queueParseReceives (q.leaseRecord owner now r) = r := rfl

/-- `getLease`. -/
def getLease (path : String) : BProg B (Except Err (Metadata × Version)) :=
  readRecord q.bucket path

/-- `writeLease`. -/
def writeLease (path owner : String) (now : ℤ) (receives : ℕ) (pre : Precondition) :
    BProg B (Except Err Version) :=
  writeBack q.bucket path (q.leaseRecord owner now receives) pre

/-! ## Dead letters -/

/-- `writeDeadRecord`: the payload with the final receive count merged into its attributes. -/
def writeDeadRecord (id : String) (attrs : Metadata) (receives : ℕ) :
    BProg B (Except Err Unit) := do
  let md := attrs.set queueReceivesField (.int receives)
  match ← readAll q.bucket (queueMsgPrefix ++ id) with
  | .error .notFound => return .ok ()
  | .error e => return .error e
  | .ok body => writeAll q.bucket (queueDeadPrefix ++ id) body md []

/-- How `deadLetter` ends: the lease, if it is still the one it took over. -/
def removeDeadLease (id : String) (leaseVersion : Version) : BProg B (Except Err Unit) := do
  match ← delete q.bucket (queueLeasePrefix ++ id) [.ifMatch leaseVersion] with
  | .ok _ | .error .preconditionFailed | .error .notFound => return .ok ()
  | .error e => return .error e

/-- The removal of the live message in `deadLetter`: the payload, then the lease. -/
def removeDead (id : String) (leaseVersion : Version) : BProg B (Except Err Unit) := do
  match ← delete q.bucket (queueMsgPrefix ++ id) [] with
  | .ok _ | .error .notFound => q.removeDeadLease id leaseVersion
  | .error e => return .error e

/-- `deadLetter`. -/
def deadLetter (id : String) (receives : ℕ) (leaseVersion : Version) :
    BProg B (Except Err Unit) := do
  match ← attributes q.bucket (queueMsgPrefix ++ id) with
  | .error .notFound => q.removeDead id leaseVersion
  | .error e => return .error e
  | .ok attrs =>
      match ← q.writeDeadRecord id attrs.metadata receives with
      | .error e => return .error e
      | .ok _ => q.removeDead id leaseVersion

/-! ## Receive -/

/-- `startMessage`: the handle comes into being; its renewer may run from here on. -/
def startMessage (id owner : String) (payload : Attributes) (receives : ℕ) (version : Version)
    (leaseUntil : ℤ) : BProg B (Except Err (Option Message)) := do
  let m : Message :=
    { id, msgPath := queueMsgPrefix ++ id, leasePath := queueLeasePrefix ++ id, owner,
      attrs := payload.metadata, receives, version, leaseUntil, payloadVersion := payload.version }
  let _ ← critical fun mem => { mem with message := some m }
  return .ok (some m)

/-- The end of `tryClaim`, with the lease won: check the payload; if it is gone, drop the lease that
was just written. -/
def claimed (id owner : String) (now : ℤ) (receives : ℕ) (newVersion : Version) :
    BProg B (Except Err (Option Message)) := do
  match ← attributes q.bucket (queueMsgPrefix ++ id) with
  | .error .notFound =>
      let _ ← delete q.bucket (queueLeasePrefix ++ id) [.ifMatch newVersion]
      return .ok none
  | .error e => return .error e
  | .ok attrs => startMessage id owner attrs receives newVersion (now + q.lease)

/-- `tryClaim`: `none` when the candidate is not claimable. -/
def tryClaim (id owner : String) : BProg B (Except Err (Option Message)) := do
  let lease ← q.getLease (queueLeasePrefix ++ id)
  let now ← now
  match lease with
  | .error .notFound =>
      match ← q.writeLease (queueLeasePrefix ++ id) owner now 1 .ifNotExists with
      | .error .preconditionFailed => return .ok none
      | .error e => return .error e
      | .ok newVersion => q.claimed id owner now 1 newVersion
  | .error e => return .error e
  | .ok (fields, version) =>
      if !queueLeaseExpired fields now then return .ok none
      else
        let prev := queueParseReceives fields
        if 0 < q.maxReceives ∧ q.maxReceives ≤ prev then
          match ← q.writeLease (queueLeasePrefix ++ id) owner now prev (.ifMatch version) with
          | .error .preconditionFailed | .error .notFound => return .ok none
          | .error e => return .error e
          | .ok holdVersion =>
              match ← q.deadLetter id prev holdVersion with
              | .error e => return .error e
              | .ok _ => return .ok none
        else
          match ← q.writeLease (queueLeasePrefix ++ id) owner now (prev + 1) (.ifMatch version) with
          | .error .preconditionFailed | .error .notFound => return .ok none
          | .error e => return .error e
          | .ok newVersion => q.claimed id owner now (prev + 1) newVersion

/-- The candidates of `tryReceive`, in order. -/
def tryCandidates (owner : String) : List String → BProg B (Except Err Message)
  | [] => return .error .noMessages
  | key :: keys =>
      match cutPrefix key queueMsgPrefix with
      | none => tryCandidates owner keys
      | some id =>
          if id = "" then tryCandidates owner keys
          else do
            match ← q.tryClaim id owner with
            | .error e => return .error e
            | .ok (some m) => return .ok m
            | .ok none => tryCandidates owner keys

/-- `tryReceive`, with the owner that `randomOwner` drew: list the head of the queue and start at a
random offset within the front window. -/
def tryReceive (owner : String) : BProg B (Except Err Message) := do
  match ← listPage q.bucket .first q.headWindow queueMsgPrefix with
  | .error e => return .error e
  | .ok (objs, _) =>
      if objs = [] then return .error .noMessages
      else
        let start ← randIntN (min objs.length queueJitterWindow)
        q.tryCandidates owner (objs.rotate start)

/-- One round of `Receive`, with the owners that its rounds draw; `inr` is a `return`.  While the queue
is empty, it waits for the context or for the timer. -/
def receiveRound (owners : ℕ → String) (n : ℕ) : BProg B (ℕ ⊕ Except Err Message) := do
  match ← q.tryReceive (owners n) with
  | .ok msg => return .inr (.ok msg)
  | .error .noMessages =>
      if ← select (fun _ => true) then return .inr (.error .backend) else return .inl (n + 1)
  | .error e => return .inr (.error e)

/-- `Receive`. -/
def Receive (owners : ℕ → String) (fuel : ℕ) : BProg B (Except Err Message) :=
  Prog.loop park (q.receiveRound owners) fuel 0

end Queue

/-! ## The claimed message -/

namespace Message

/-- `finish`: the first outcome stands. -/
def finish (err : Option Err) (m : Message) : Message :=
  if m.finished then m else { m with finished := true, err := err }

/-- The two handles differ at most in their flags and their outcome. -/
structure SameClaim (m m' : Message) : Prop where
  id : m'.id = m.id
  msgPath : m'.msgPath = m.msgPath
  leasePath : m'.leasePath = m.leasePath
  owner : m'.owner = m.owner
  attrs : m'.attrs = m.attrs
  receives : m'.receives = m.receives
  version : m'.version = m.version
  leaseUntil : m'.leaseUntil = m.leaseUntil
  payloadVersion : m'.payloadVersion = m.payloadVersion

section Finish

variable (m : Message) (err : Option Err)

lemma sameClaim_finish : m.SameClaim (m.finish err) := by
  unfold finish
  split <;> exact ⟨rfl, rfl, rfl, rfl, rfl, rfl, rfl, rfl, rfl⟩

@[simp] lemma finish_settled : (m.finish err).settled = m.settled := by
  unfold finish; split <;> rfl

@[simp] lemma finish_stopped : (m.finish err).stopped = m.stopped := by
  unfold finish; split <;> rfl

@[simp] lemma finish_finished : (m.finish err).finished = true := by
  unfold finish
  split
  · assumption
  · rfl

end Finish

end Message

/-- A field of the message handle, read in a critical section. -/
def messageField {B α : Type} (f : Message → α) (default : α) : BProg B α := do
  let mem ← critical id
  return (mem.message.map f).getD default

namespace Queue

variable {B : Type} (q : Queue B)

/-- `renewOnce`. -/
def renewOnce (leasePath owner : String) (receives : ℕ) (now : ℤ) : BProg B (Except Err Unit) := do
  let version ← messageField Message.version ""
  match ← q.writeLease leasePath owner now receives (.ifMatch version) with
  | .error e => return .error e
  | .ok newVersion =>
      let _ ← critical (Mem.onMessage fun m =>
        { m with version := newVersion, leaseUntil := now + q.lease })
      return .ok ()

/-- One round of `renewLoop`; `inr` is a `return`. -/
def renewRound (leasePath owner : String) (receives : ℕ) : BProg B (Unit ⊕ Unit) := do
  if ← select (fun mem => (mem.message.map Message.cancelled).getD false) then
    return .inr ()
  else
    let now ← now
    let leaseUntil ← messageField Message.leaseUntil 0
    if !decide (now < leaseUntil) then
      let _ ← critical (Mem.onMessage (Message.finish (some .messageLost)))
      return .inr ()
    else
      match ← q.renewOnce leasePath owner receives now with
      | .error .preconditionFailed =>
          let _ ← critical (Mem.onMessage (Message.finish (some .messageLost)))
          return .inr ()
      | .error .notFound =>
          let _ ← critical (Mem.onMessage (Message.finish (some .messageLost)))
          return .inr ()
      | _ => return .inl ()

/-- `renewLoop`; the deferred `close(m.stopped)` is its last step. -/
def renewLoop (leasePath owner : String) (receives fuel : ℕ) : BProg B Unit := do
  Prog.loop park (fun _ => q.renewRound leasePath owner receives) fuel ()
  let _ ← critical (Mem.onMessage fun m => { m with stopped := true })

/-- How `Ack` and `Nack` begin: settle the handle once, stop the renewer, wait for it to exit.
Answers whether this call is the one that settled it. -/
def settle : BProg B Bool := do
  let before ← critical (Mem.onMessage fun m => { m with settled := true })
  if (before.message.map Message.settled).getD false then
    return false
  else
    let _ ← critical (Mem.onMessage fun m => { m with cancelled := true })
    await (fun mem => (mem.message.map Message.stopped).getD false)
    let _ ← critical (Mem.onMessage (Message.finish none))
    return true

/-- `Ack`: delete the lease if it is still ours, then the payload. -/
def ack (msgPath leasePath owner : String) : BProg B (Except Err Unit) := do
  if ← settle then
    match ← q.getLease leasePath with
    | .error .notFound => return .ok ()
    | .error e => return .error e
    | .ok (fields, version) =>
        if fields.text queueOwnerField ≠ owner then return .ok ()
        else
          match ← delete q.bucket leasePath [.ifMatch version] with
          | .error .preconditionFailed | .error .notFound => return .ok ()
          | .error e => return .error e
          | .ok _ =>
              match ← delete q.bucket msgPath [] with
              | .ok _ | .error .notFound => return .ok ()
              | .error e => return .error e
  else return .ok ()

/-- `Nack`: expire the lease in place, if it is still ours. -/
def nack (leasePath owner : String) : BProg B (Except Err Unit) := do
  if ← settle then
    match ← q.getLease leasePath with
    | .error .notFound => return .ok ()
    | .error e => return .error e
    | .ok (fields, version) =>
        if fields.text queueOwnerField ≠ owner then return .ok ()
        else
          let now ← now
          let md : Metadata := [(queueOwnerField, .text owner), (queueLeaseField, .time now),
            (queueReceivesField, .int (queueParseReceives fields))]
          match ← writeAll q.bucket leasePath .empty md [.ifMatch version] with
          | .error .preconditionFailed | .error .notFound => return .ok ()
          | .error e => return .error e
          | .ok _ => return .ok ()
  else return .ok ()

end Queue

/-! ## The system -/

/-- Producers and workers on one queue.  The workers' configurations may differ; every receive draws
an owner of its own. -/
structure QueueSetup (B C : Type) where
  bucket : B
  lease : C → ℤ
  headWindow : C → ℕ
  maxReceives : C → ℕ
  owner : C → String
  owner_inj : Function.Injective owner
  uuid : C → String

namespace QueueSetup

variable {B C : Type} (s : QueueSetup B C)

/-- A client's `Queue`. -/
def queue (c : C) : Queue B := ⟨s.bucket, s.lease c, s.headWindow c, s.maxReceives c⟩

/-- The entry points: one `Enqueue`, `EnqueueWithID` or `TryReceive` for each client; after a
`TryReceive` that returned a message, its renewer, `Ack` and `Nack`. -/
def start [DecidableEq C] (t : Thread C) (e : Entry) (w : World B C) :
    Option (BProg B Unit × World B C) :=
  let q := s.queue t.1
  let call (p : BProg B Unit) : Option (BProg B Unit × World B C) :=
    if (w.mem t.1).called then none else some (p, w.setMem t.1 { called := true })
  match t.2, e with
  | .main, .enqueue body attrs => call (discard (q.enqueue (s.uuid t.1) body attrs))
  | .main, .enqueueWithID id body attrs => call (discard (q.enqueueWithID id body attrs))
  | .main, .tryReceive => call (discard (q.tryReceive (s.owner t.1)))
  | .main, .ack =>
      (w.mem t.1).message.map fun m => (discard (q.ack m.msgPath m.leasePath m.owner), w)
  | .main, .nack =>
      (w.mem t.1).message.map fun m => (discard (q.nack m.leasePath m.owner), w)
  | .renewer, .renewMessage fuel =>
      (w.mem t.1).message.bind fun m =>
        if m.stopped then none else some (q.renewLoop m.leasePath m.owner m.receives fuel, w)
  | _, _ => none

/-- What an entry point of a client starts. -/
inductive Starts [DecidableEq C] (c : C) (w : World B C) :
    Goroutine → Entry → BProg B Unit → World B C → Prop where
  | enqueue (body : ByteArray) (attrs : Metadata) (h : (w.mem c).called = false) :
      Starts c w .main (.enqueue body attrs)
        (discard ((s.queue c).enqueue (s.uuid c) body attrs)) (w.setMem c { called := true })
  | enqueueWithID (id : String) (body : ByteArray) (attrs : Metadata)
      (h : (w.mem c).called = false) :
      Starts c w .main (.enqueueWithID id body attrs)
        (discard ((s.queue c).enqueueWithID id body attrs)) (w.setMem c { called := true })
  | tryReceive (h : (w.mem c).called = false) :
      Starts c w .main .tryReceive (discard ((s.queue c).tryReceive (s.owner c)))
        (w.setMem c { called := true })
  | ack (m : Message) (hm : (w.mem c).message = some m) :
      Starts c w .main .ack (discard ((s.queue c).ack m.msgPath m.leasePath m.owner)) w
  | nack (m : Message) (hm : (w.mem c).message = some m) :
      Starts c w .main .nack (discard ((s.queue c).nack m.leasePath m.owner)) w
  | renew (fuel : ℕ) (m : Message) (hm : (w.mem c).message = some m) (hst : m.stopped = false) :
      Starts c w .renewer (.renewMessage fuel)
        ((s.queue c).renewLoop m.leasePath m.owner m.receives fuel) w

variable {s} in
/-- The entry points are all there is to start. -/
lemma start_cases [DecidableEq C] {c : C} {g : Goroutine} {e : Entry} {w w' : World B C}
    {p : BProg B Unit} (h : s.start (c, g) e w = some (p, w')) : s.Starts c w g e p w' := by
  have hcall : ∀ {q : BProg B Unit}, (if (w.mem c).called then none
      else some (q, w.setMem c { called := true })) = some (p, w') →
      (w.mem c).called = false ∧ q = p ∧ w.setMem c { called := true } = w' := by
    intro q hq
    split at hq
    · cases hq
    · rename_i hcalled
      exact ⟨by simpa using hcalled, Prod.mk.inj (Option.some.inj hq)⟩
  dsimp only [start] at h
  split at h
  · obtain ⟨hc, rfl, rfl⟩ := hcall h
    exact .enqueue _ _ hc
  · obtain ⟨hc, rfl, rfl⟩ := hcall h
    exact .enqueueWithID _ _ _ hc
  · obtain ⟨hc, rfl, rfl⟩ := hcall h
    exact .tryReceive hc
  · obtain ⟨m, hm, heq⟩ := Option.map_eq_some_iff.mp h
    obtain ⟨rfl, rfl⟩ := Prod.mk.inj heq
    exact .ack m hm
  · obtain ⟨m, hm, heq⟩ := Option.map_eq_some_iff.mp h
    obtain ⟨rfl, rfl⟩ := Prod.mk.inj heq
    exact .nack m hm
  · obtain ⟨m, hm, heq⟩ := Option.bind_eq_some_iff.mp h
    split at heq
    · cases heq
    · rename_i hst
      obtain ⟨rfl, rfl⟩ := Prod.mk.inj (Option.some.inj heq)
      exact .renew _ m hm (by simpa using hst)
  · cases h

variable {s} in
/-- Nothing is stored by starting a program. -/
lemma start_store [DecidableEq C] {t : Thread C} {e : Entry} {w w' : World B C}
    {p : BProg B Unit} (h : s.start t e w = some (p, w')) : w'.store = w.store := by
  obtain ⟨c, g⟩ := t
  cases start_cases h <;> rfl

/-- The machine: any number of clients, any backend, any faults, and a clock that moves forward. -/
def machine [DecidableEq B] [DecidableEq C] (bk : B → Backend) (flt : Faults) :
    Machine (bucketSig B) (World B C) (Thread C) :=
  bucketMachine bk flt s.start fun (d : ℕ) w => some (w.advance d)

end QueueSetup

end Blobster
