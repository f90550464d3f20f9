import Blobster.Lexical.Path
import Blobster.Locker.Model
import Blobster.Queue.Tail

/-!
# The watcher

`watcher.go`: the bridge that follows the log of a source queue and enqueues each message again in a
queue of its own, under the same id.  It works page by page: a page of the tail behind its cursor,
the copies of the messages on it, and then one compare-and-swap that moves the durable cursor.

Any number of instances may run.  A lock elects one of them, but nothing that is said about the
cursor rests on the lock: an instance that has lost it may go on for a while, and finds out at its
next compare-and-swap.

* `Watcher.replicate` — the copy of one message.
* `Watch` — a watcher with its lock, its name and the lag of its tail; `Watch.readCursor`,
  `Watch.writeCursor`, `Watch.holdRound`, `Watch.runAsHolder`, `Watch.run` — its programs.
* `cursorText_toUTF8` — the cursor is read back as it was written.
* `Watch.lockPath_ne_cursorPath`, `Watch.msg_ne_cursorPath` — the cursor has an object of its own.
-/

namespace Blobster

open Interleave

/-! ## Copies -/

/-- A `Watcher`: the queue whose log it follows, and the one it copies to. -/
structure Watcher (B : Type) where
  source : Queue B
  localQueue : Queue B

/-- `replicate`: a message that is gone from the source is skipped; the verdict of the enqueue is not
looked at. -/
def Watcher.replicate {B : Type} (w : Watcher B) (id : String) : BProg B (Except Err Unit) := do
  match ← attributes w.source.bucket (queueMsgPrefix ++ id) with
  | .error .notFound => return .ok ()
  | .error e => return .error e
  | .ok attrs =>
      match ← readAll w.source.bucket (queueMsgPrefix ++ id) with
      | .error .notFound => return .ok ()
      | .error e => return .error e
      | .ok body =>
          match ← w.localQueue.enqueueWithID id body attrs.metadata with
          | .error e => return .error e
          | .ok _ => return .ok ()

/-! ## The programs -/

/-- A watcher with its lock, its name and the lag of its tail.  The poll intervals only set timers and
are left out. -/
structure Watch (B : Type) extends Watcher B where
  lag : ℤ
  locker : Locker B
  name : String

/-- The check of the name in `NewWatcher`. -/
def validWatchName (name : String) : Bool :=
  !(name == "" || name.toList.contains '/' || decide ("..".toList <:+: name.toList) || name == ".")

/-- The name of a watcher that is not given one. -/
lemma validWatchName_default : validWatchName "default" = true := by decide

/-- `watchPageSize`. -/
def watchPageSize : ℤ := 256

/-- `watchCursorPrefix` and `watchLockPrefix`. -/
def watchCursorPrefix : String := ".blobster/watch/"

@[inherit_doc watchCursorPrefix]
def watchLockPrefix : String := "watch/"

/-- `string(b)`, for bytes that are a string. -/
def cursorText (b : ByteArray) : String := (String.fromUTF8? b).getD ""

/-- **The cursor is read back as it was written.** -/
@[simp] lemma cursorText_toUTF8 (s : String) : cursorText s.toUTF8 = s := by
  have h : String.fromUTF8? s.toUTF8 = some s := dif_pos s.isValidUTF8
  rw [cursorText, h, Option.getD_some]

namespace Watch

variable {B : Type} (w : Watch B)

/-- The tail that the watcher follows. -/
def tail : Tail B := ⟨w.source, w.lag⟩

/-- The bucket of the lock holds the cursor. -/
def bucket : B := w.locker.bucket

/-- `cursorPath`. -/
def cursorPath : String := watchCursorPrefix ++ w.name ++ "/cursor"

/-- `lockKey`. -/
def lockKey : String := watchLockPrefix ++ w.name

/-- `readCursor`: the cursor and the version to swap it against. -/
def readCursor : BProg B (Except Err (String × Version)) := do
  match ← attributes w.bucket w.cursorPath with
  | .error .notFound => return .ok ("", "")
  | .error e => return .error e
  | .ok attrs =>
      match ← readAll w.bucket w.cursorPath with
      | .error e => return .error e
      | .ok b => return .ok (cursorText b, attrs.version)

/-- The condition that `writeCursor` writes under. -/
def cursorCondition (version : Version) : Precondition :=
  if version ≠ "" then .ifMatch version else .ifNotExists

/-- `writeCursor`: swap the cursor, and read the version of the new one back. -/
def writeCursor (cursor : String) (version : Version) : BProg B (Except Err Version) := do
  match ← writeAll w.bucket w.cursorPath cursor.toUTF8 [] [cursorCondition version] with
  | .error e => return .error e
  | .ok _ =>
      match ← attributes w.bucket w.cursorPath with
      | .error e => return .error e
      | .ok attrs => return .ok attrs.version

/-- The loop over the messages of a page. -/
def replicateAll : List String → BProg B (Except Err Unit)
  | [] => return .ok ()
  | m :: msgs => do
      match ← w.replicate m with
      | .error e => return .error e
      | .ok _ => replicateAll msgs

/-- The lock is no longer held. -/
def lockDone (m : Mem) : Bool := (m.lock.map Lock.finished).getD false

/-- One round of the loop of `runAsHolder`, with the cursor and its version as they are so far; `inr`
is a `return`. -/
def holdRound (fuel : ℕ) : String × Version → BProg B ((String × Version) ⊕ Except Err Unit)
  | (cursor, version) => do
      if ← select (fun _ => true) then return .inr (.error .backend)
      else if ← select lockDone then return .inr (.ok ())
      else
        match ← w.tail.page cursor watchPageSize fuel with
        | .error e => return .inr (.error e)
        | .ok (msgs, next) =>
            match ← w.replicateAll msgs with
            | .error e => return .inr (.error e)
            | .ok _ =>
                if next = cursor then
                  -- idle: wait for the context, for the loss of the lock, or for the timer
                  if ← select (fun _ => true) then return .inr (.error .backend)
                  else if ← select lockDone then return .inr (.ok ())
                  else return .inl (cursor, version)
                else
                  match ← w.writeCursor next version with
                  | .error .preconditionFailed => return .inr (.ok ())
                  | .error e => return .inr (.error e)
                  | .ok version => return .inl (next, version)

/-- What `runAsHolder` does between acquiring the lock and releasing it. -/
def hold (fuel : ℕ) : BProg B (Except Err Unit) := do
  match ← w.readCursor with
  | .error e => return .error e
  | .ok start => Prog.loop park (w.holdRound fuel) fuel start

/-- `runAsHolder`, with the owner that `resolveOwner` draws. -/
def runAsHolder (owner : String) (fuel : ℕ) : BProg B (Except Err Unit) := do
  match ← w.locker.Acquire w.lockKey owner fuel with
  | .error e => return .error e
  | .ok lock =>
      let r ← w.hold fuel
      let _ ← w.locker.release lock.path lock.owner
      return r

/-- `Run`: a new owner for each acquisition. -/
def run (owners : ℕ → String) (fuel : ℕ) : BProg B (Except Err Unit) :=
  Prog.loop park (fun n => do
    match ← w.runAsHolder (owners n) fuel with
    | .error e => return .inr (.error e)
    | .ok _ => return .inl (n + 1)) fuel 0

/-! ## Where things are -/

/-- The record of the lock. -/
def lockPath : String := w.locker.pref ++ w.lockKey

lemma no_slash_of_valid {name : String} (h : validWatchName name = true) : '/' ∉ name.toList := by
  intro hmem
  simp [validWatchName, hmem] at h

/-- **The lock is not the cursor**, wherever the locker keeps its records: the last element of the one
path is the name and the one before it is not, and with the other it is the other way round. -/
lemma lockPath_ne_cursorPath (h : validWatchName w.name = true) : w.lockPath ≠ w.cursorPath := by
  intro heq
  have hpaths : (w.locker.pref.toList ++ "watch".toList) ++ '/' :: w.name.toList =
      (watchCursorPrefix.toList ++ w.name.toList) ++ '/' :: "cursor".toList := by
    simpa [lockPath, lockKey, cursorPath, watchLockPrefix] using congrArg String.toList heq
  obtain ⟨hfront, hname⟩ := Lexical.Path.append_slash_inj (no_slash_of_valid h) (by decide) hpaths
  rw [hname] at hfront
  have hlast := congrArg List.getLast? hfront
  simp at hlast

/-- A payload is not the cursor. -/
lemma msg_ne_cursorPath (x : String) : queueMsgPrefix ++ x ≠ w.cursorPath := by
  intro heq
  have hhead := congrArg (fun s => s.toList.head?) heq
  simp [queueMsgPrefix, cursorPath, watchCursorPrefix] at hhead

end Watch

end Blobster
