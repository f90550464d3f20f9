import Mathlib.Data.List.Infix
import Blobster.Bucket.Lease

/-!
# The lease lock

`locker.go`, function by function.  A lock is one object whose user metadata holds the owner and an
absolute deadline; acquiring, taking over and renewing are compare-and-swap writes on it, each
followed by a separate read of the new version token.

The clock is read where the source reads it, and the version is read back where the source reads it
back, so a thread can be held up between any two of these steps.

`lockStart` is the system of clients contending for one key: each client makes one `TryAcquire`;
once that has returned a lock, its renewer runs and its holder may call `Release`, as often as it
likes.
-/

namespace Blobster

open Interleave

/-- Record field names in the lock object's user metadata. -/
def lockOwnerField : String := "owner"

def lockLeaseField : String := "lease"

/-- A `Locker`: its bucket, where the records live, and how long an acquisition is valid.  The renew
and retry intervals only set timers and are left out. -/
structure Locker (B : Type) where
  bucket : B
  pref : String
  lease : ℤ

/-- `lockExpired`. -/
def lockExpired (fields : Metadata) (now : ℤ) : Bool := leaseExpired lockLeaseField fields now

namespace Locker

variable {B : Type} (l : Locker B)

/-- `record`. -/
def record (owner : String) (now : ℤ) : Metadata :=
  [(lockOwnerField, .text owner), (lockLeaseField, .time (now + l.lease))]

/-- `path`: reject an empty key and one that would escape the lock prefix. -/
def path (key : String) : Except Err String :=
  if key = "" then .error .invalidLockKey
  else if "/".toList.isPrefixOf key.toList || decide ("..".toList <:+: key.toList) then
    .error .invalidLockKey
  else .ok (l.pref ++ key)

/-- `getRecord`. -/
def getRecord (path : String) : BProg B (Except Err (Metadata × Version)) :=
  readRecord l.bucket path

/-- `writeRecord`. -/
def writeRecord (path : String) (fields : Metadata) (pre : Precondition) :
    BProg B (Except Err Version) :=
  writeBack l.bucket path fields pre

/-- `createRecord`. -/
def createRecord (path : String) (fields : Metadata) : BProg B (Except Err Version) :=
  l.writeRecord path fields .ifNotExists

/-- `updateRecord`. -/
def updateRecord (path : String) (fields : Metadata) (expected : Version) :
    BProg B (Except Err Version) :=
  l.writeRecord path fields (.ifMatch expected)

/-- `deleteRecord`. -/
def deleteRecord (path : String) (expected : Version) : BProg B (Except Err Unit) :=
  delete l.bucket path [.ifMatch expected]

/-- `start`: the handle comes into being; its renewer may run from here on. -/
def start (key path owner : String) (version : Version) (leaseUntil : ℤ) :
    BProg B (Except Err Lock) := do
  let lk : Lock := { key, path, owner, version, leaseUntil }
  let _ ← critical fun m => { m with lock := some lk }
  return .ok lk

/-- `tryAcquire`. -/
def tryAcquire (key path owner : String) : BProg B (Except Err Lock) := do
  let record ← l.getRecord path
  let now ← now
  match record with
  | .error .notFound =>
      match ← l.createRecord path (l.record owner now) with
      | .error .preconditionFailed => return .error .lockHeld
      | .error e => return .error e
      | .ok newVersion => start key path owner newVersion (now + l.lease)
  | .error e => return .error e
  | .ok (fields, version) =>
      if !lockExpired fields now then return .error .lockHeld
      else
        match ← l.updateRecord path (l.record owner now) version with
        | .error .preconditionFailed => return .error .lockHeld
        | .error .notFound => return .error .lockHeld
        | .error e => return .error e
        | .ok newVersion => start key path owner newVersion (now + l.lease)

/-- `TryAcquire`, with the owner that `resolveOwner` settled on. -/
def TryAcquire (key owner : String) : BProg B (Except Err Lock) :=
  match l.path key with
  | .error e => return .error e
  | .ok path => l.tryAcquire key path owner

/-- One round of `Acquire`; `inr` is a `return`.  While the lock is held, it waits for the context or
for the timer. -/
def acquireRound (key path owner : String) : BProg B (Unit ⊕ Except Err Lock) := do
  match ← l.tryAcquire key path owner with
  | .ok held => return .inr (.ok held)
  | .error .lockHeld =>
      if ← select (fun _ => true) then return .inr (.error .backend) else return .inl ()
  | .error e => return .inr (.error e)

/-- `Acquire`. -/
def Acquire (key owner : String) (fuel : ℕ) : BProg B (Except Err Lock) :=
  match l.path key with
  | .error e => return .error e
  | .ok path => Prog.loop park (fun _ => l.acquireRound key path owner) fuel ()

end Locker

/-- `finish`: the first outcome stands. -/
def Lock.finish (err : Option Err) (lk : Lock) : Lock :=
  if lk.finished then lk else { lk with finished := true, err := err }

section Finish

variable (err : Option Err) (lk : Lock)

@[simp] lemma Lock.finish_path : (lk.finish err).path = lk.path := by
  unfold Lock.finish; split <;> rfl

@[simp] lemma Lock.finish_owner : (lk.finish err).owner = lk.owner := by
  unfold Lock.finish; split <;> rfl

@[simp] lemma Lock.finish_version : (lk.finish err).version = lk.version := by
  unfold Lock.finish; split <;> rfl

@[simp] lemma Lock.finish_leaseUntil : (lk.finish err).leaseUntil = lk.leaseUntil := by
  unfold Lock.finish; split <;> rfl

@[simp] lemma Lock.finish_released : (lk.finish err).released = lk.released := by
  unfold Lock.finish; split <;> rfl

@[simp] lemma Lock.finish_stopped : (lk.finish err).stopped = lk.stopped := by
  unfold Lock.finish; split <;> rfl

end Finish

/-- A field of the lock handle, read in a critical section. -/
def lockField {B α : Type} (f : Lock → α) (default : α) : BProg B α := do
  let m ← critical id
  return (m.lock.map f).getD default

namespace Locker

variable {B : Type} (l : Locker B)

/-- `renewOnce`. -/
def renewOnce (path owner : String) (now : ℤ) : BProg B (Except Err Unit) := do
  let version ← lockField Lock.version ""
  match ← l.updateRecord path (l.record owner now) version with
  | .error e => return .error e
  | .ok newVersion =>
      let _ ← critical (Mem.onLock fun lk =>
        { lk with version := newVersion, leaseUntil := now + l.lease })
      return .ok ()

/-- One round of `renewLoop`; `inr` is a `return`. -/
def renewRound (path owner : String) : BProg B (Unit ⊕ Unit) := do
  if ← select (fun m => (m.lock.map Lock.cancelled).getD false) then
    return .inr ()
  else
    let now ← now
    let leaseUntil ← lockField Lock.leaseUntil 0
    if !decide (now < leaseUntil) then
      let _ ← critical (Mem.onLock (Lock.finish (some .lockLost)))
      return .inr ()
    else
      match ← l.renewOnce path owner now with
      | .error .preconditionFailed =>
          let _ ← critical (Mem.onLock (Lock.finish (some .lockLost)))
          return .inr ()
      | .error .notFound =>
          let _ ← critical (Mem.onLock (Lock.finish (some .lockLost)))
          return .inr ()
      | _ => return .inl ()

/-- `renewLoop`; the deferred `close(lk.stopped)` is its last step. -/
def renewLoop (path owner : String) (fuel : ℕ) : BProg B Unit := do
  Prog.loop park (fun _ => l.renewRound path owner) fuel ()
  let _ ← critical (Mem.onLock fun lk => { lk with stopped := true })

/-- `Release`. -/
def release (path owner : String) : BProg B (Except Err Unit) := do
  let before ← critical (Mem.onLock fun lk => { lk with released := true })
  if (before.lock.map Lock.released).getD false then
    return .ok ()
  else
    let _ ← critical (Mem.onLock fun lk => { lk with cancelled := true })
    await (fun m => (m.lock.map Lock.stopped).getD false)
    let _ ← critical (Mem.onLock (Lock.finish none))
    match ← l.getRecord path with
    | .error .notFound => return .ok ()
    | .error e => return .error e
    | .ok (fields, version) =>
        if fields.text lockOwnerField ≠ owner then return .ok ()
        else
          match ← l.deleteRecord path version with
          | .error .preconditionFailed => return .ok ()
          | .error .notFound => return .ok ()
          | .error e => return .error e
          | .ok _ => return .ok ()

end Locker

/-! ## The system -/

/-- Clients contending for one key of one bucket.  Their leases may differ; every acquisition has an
owner of its own. -/
structure LockSetup (B C : Type) where
  bucket : B
  pref : String
  key : String
  lease : C → ℤ
  owner : C → String
  owner_inj : Function.Injective owner

namespace LockSetup

variable {B C : Type} (s : LockSetup B C)

/-- A client's `Locker`. -/
def locker (c : C) : Locker B := ⟨s.bucket, s.pref, s.lease c⟩

/-- Where the lock record lives. -/
def path : String := s.pref ++ s.key

/-- The entry points: one `TryAcquire` for each client, then its renewer and `Release`. -/
def start [DecidableEq C] (t : Thread C) (e : Entry) (w : World B C) :
    Option (BProg B Unit × World B C) :=
  match t.2, e with
  | .main, .tryAcquire =>
      if (w.mem t.1).called then none
      else some (discard ((s.locker t.1).TryAcquire s.key (s.owner t.1)),
        w.setMem t.1 { called := true })
  | .main, .release =>
      (w.mem t.1).lock.map fun lk => (discard ((s.locker t.1).release lk.path lk.owner), w)
  | .renewer, .renewLock fuel =>
      (w.mem t.1).lock.bind fun lk =>
        if lk.stopped then none else some ((s.locker t.1).renewLoop lk.path lk.owner fuel, w)
  | _, _ => none

/-- The machine: any number of clients, any backend, any faults, and a clock that moves forward. -/
def machine [DecidableEq B] [DecidableEq C] (bk : B → Backend) (flt : Faults) :
    Machine (bucketSig B) (World B C) (Thread C) :=
  bucketMachine bk flt s.start fun (d : ℕ) w => some (w.advance d)

end LockSetup

end Blobster
