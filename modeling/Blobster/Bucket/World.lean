import Mathlib.Algebra.Order.Ring.Int
import Blobster.Interleave.Contract
import Blobster.Bucket.Store

/-!
# Clients over buckets

The world the lock, the queue and the watcher run in: named buckets, one shared clock, and for each
client the memory its goroutines share.  A *client* is one call that may leave a handle behind — one
`TryAcquire` with its `Lock`, one `TryReceive` with its `Message`, one `Enqueue` — so a process that
makes many calls is many clients, and each has an owner of its own.  It runs as two threads: the
caller (`main`) and the handle's background renewer.  A reader of a queue's log is a client that
keeps its cursor from one call to the next.

* `Lock`, `Message`, `Mem` — the handles, as the goroutines see them.
* `Op` — the atomic steps: bucket calls, clock and random reads, and the critical sections and
  channel operations on the handle.
* `exec` — what each step does.  A bucket call may also fail, before or after it took effect, as
  far as the `Faults` allow; a crash or a pause is a thread that is not scheduled any more.
* `exec_attributes`, …, `exec_select` — one inversion lemma per step.  Nothing else unfolds `exec`.
-/

set_option linter.unusedSectionVars false

namespace Blobster

open Interleave

/-- A held lock.  `cancelled` says that `cancelRenew` was called, `stopped` that the channel of that
name is closed. -/
structure Lock where
  key : String
  path : String
  owner : String
  version : Version
  leaseUntil : ℤ
  err : Option Err := none
  finished : Bool := false
  released : Bool := false
  cancelled : Bool := false
  stopped : Bool := false

/-- A claimed message.  `payloadVersion` is not a field of the source: it records which payload
object the delivery looked at. -/
structure Message where
  id : String
  msgPath : String
  leasePath : String
  owner : String
  attrs : Metadata
  receives : ℕ
  version : Version
  leaseUntil : ℤ
  err : Option Err := none
  finished : Bool := false
  settled : Bool := false
  cancelled : Bool := false
  stopped : Bool := false
  payloadVersion : Version

/-- What the `io.Reader` of a producer gives: its chunks, and the error it then ends with.
`writerTo` says that it copies itself (`io.WriterTo`). -/
structure Body where
  chunks : List ByteArray
  err : Option Err := none
  writerTo : Bool := false
deriving DecidableEq

/-- All that the reader gives. -/
def Body.bytes (r : Body) : ByteArray := r.chunks.foldl (· ++ ·) .empty

/-- The entry points of the API.  Loops are unrolled as far as the call says. -/
inductive Entry where
  | tryAcquire
  | release
  | renewLock (fuel : ℕ)
  | enqueue (body : ByteArray) (attrs : Metadata)
  | enqueueWithID (id : String) (body : ByteArray) (attrs : Metadata)
  /-- `Enqueue` and `EnqueueWithID` of a body that arrives in pieces. -/
  | enqueueStream (r : Body) (attrs : List (String × String))
  | enqueueWithIDStream (id : String) (r : Body) (attrs : List (String × String))
  | tryReceive
  | renewMessage (fuel : ℕ)
  | ack
  | nack
  | runAsHolder (fuel : ℕ)
  | page (pageSize : ℤ) (fuel : ℕ)
  | trim (retention : ℤ) (fuel : ℕ)
  /-- The step by which `Ack`, `bury` or `Trim` deletes a payload, on its own. -/
  | remove (id : String)
  | acquire (fuel : ℕ)
  | receive (fuel : ℕ)
  | replicate (id : String)
deriving DecidableEq

/-- What the goroutines of one client share: whether its call has been issued, and the handle the
call returned; for a reader of the log, how far it has read and what it has been given; for a
producer, the id its enqueue reported and whether the message existed before; and, where a system
keeps it, the call that returned last and whether it returned an error. -/
structure Mem where
  called : Bool := false
  lock : Option Lock := none
  message : Option Message := none
  cursor : String := ""
  surfaced : List String := []
  reported : Option (Except Err (String × Bool)) := none
  outcome : Option (Entry × Except Err Unit) := none

/-- A critical section on the lock handle. -/
def Mem.onLock (f : Lock → Lock) (m : Mem) : Mem := { m with lock := m.lock.map f }

/-- A critical section on the message handle. -/
def Mem.onMessage (f : Message → Message) (m : Mem) : Mem :=
  { m with message := m.message.map f }

lemma Mem.onLock_some {f : Lock → Lock} {m : Mem} {lk : Lock} (h : m.lock = some lk) :
    (m.onLock f).lock = some (f lk) := by
  simp [Mem.onLock, h]

lemma Mem.onMessage_some {f : Message → Message} {m : Mem} {h : Message}
    (hm : m.message = some h) : (m.onMessage f).message = some (f h) := by
  simp [Mem.onMessage, hm]

/-- The two goroutines of a client. -/
inductive Goroutine where
  | main
  | renewer
deriving DecidableEq, Repr

/-- A thread: a client and one of its goroutines. -/
abbrev Thread (C : Type) := C × Goroutine

/-- The shared state. -/
structure World (B C : Type) where
  clock : ℤ
  store : B → Store
  mem : C → Mem

/-- The atomic steps of a program. -/
inductive Op (B : Type) where
  /-- `Attributes`. -/
  | attributes (b : B) (key : String)
  /-- `NewReader` and `ReadAll`: the bytes of the object as of the moment it is opened. -/
  | read (b : B) (key : String)
  /-- `WriteAll`, and the commit of a writer's `Close`. -/
  | write (b : B) (key : String) (body : ByteArray) (metadata : Metadata) (pre : List Precondition)
  /-- `Delete`. -/
  | delete (b : B) (key : String) (pre : List Precondition)
  /-- `ListPage`, without a delimiter. -/
  | listPage (b : B) (token : PageToken) (pageSize : ℕ) (pref : String)
  /-- `clock()`. -/
  | now
  /-- `rand.IntN(n)`. -/
  | randIntN (n : ℕ)
  /-- A critical section; answers the memory it found. -/
  | mem (f : Mem → Mem)
  /-- A receive from a channel that is closed once `p` holds. -/
  | await (p : Mem → Bool)
  /-- A `select` between a channel that is closed once `ready` holds (`true`) and a timer or a
  default (`false`). -/
  | select (ready : Mem → Bool)
  /-- Never returns. -/
  | park

/-- What each step answers. -/
def Op.Res {B : Type} : Op B → Type
  | .attributes _ _ => Except Err Attributes
  | .read _ _ => Except Err ByteArray
  | .write _ _ _ _ _ => Except Err Unit
  | .delete _ _ _ => Except Err Unit
  | .listPage _ _ _ _ => Except Err (List String × PageToken)
  | .now => ℤ
  | .randIntN _ => ℕ
  | .mem _ => Mem
  | .await _ => Unit
  | .select _ => Bool
  | .park => Empty

/-- The signature of the programs. -/
def bucketSig (B : Type) : Sig := ⟨Op B, Op.Res, Entry⟩

/-- A program over the buckets `B`. -/
abbrev BProg (B : Type) (α : Type) := Prog (bucketSig B) α

/-- The shared state with its history. -/
abbrev BView (B C : Type) := View (bucketSig B) (World B C) (Thread C)

/-- A step of a run of clients over buckets. -/
abbrev BEvent (B C : Type) := Event (bucketSig B) (Thread C)

/-- The call `o` of the thread `t`, answered by `r`. -/
abbrev BEvent.called {B C : Type} (t : Thread C) (o : Op B) (r : o.Res) : BEvent B C :=
  Event.call t o r

/-! ## The steps as programs -/

section Calls

variable {B : Type} {α : Type}

def attributes (b : B) (key : String) : BProg B (Except Err Attributes) :=
  Prog.perform (S := bucketSig B) (.attributes b key)

def readAll (b : B) (key : String) : BProg B (Except Err ByteArray) :=
  Prog.perform (S := bucketSig B) (.read b key)

def writeAll (b : B) (key : String) (body : ByteArray) (metadata : Metadata)
    (pre : List Precondition) : BProg B (Except Err Unit) :=
  Prog.perform (S := bucketSig B) (.write b key body metadata pre)

def delete (b : B) (key : String) (pre : List Precondition) : BProg B (Except Err Unit) :=
  Prog.perform (S := bucketSig B) (.delete b key pre)

def listPage (b : B) (token : PageToken) (pageSize : ℕ) (pref : String) :
    BProg B (Except Err (List String × PageToken)) :=
  Prog.perform (S := bucketSig B) (.listPage b token pageSize pref)

def now : BProg B ℤ := Prog.perform (S := bucketSig B) .now

def randIntN (n : ℕ) : BProg B ℕ := Prog.perform (S := bucketSig B) (.randIntN n)

def critical (f : Mem → Mem) : BProg B Mem := Prog.perform (S := bucketSig B) (.mem f)

def await (p : Mem → Bool) : BProg B Unit := Prog.perform (S := bucketSig B) (.await p)

def select (ready : Mem → Bool) : BProg B Bool := Prog.perform (S := bucketSig B) (.select ready)

def park : BProg B α := Prog.call (S := bucketSig B) .park Empty.elim

end Calls

/-! ## Executing a step -/

variable {B C : Type} [DecidableEq B] [DecidableEq C]

/-- The world with another content of one bucket. -/
def World.setStore (w : World B C) (b : B) (s : Store) : World B C :=
  { w with store := Function.update w.store b s }

/-- The world with another memory of one client. -/
def World.setMem (w : World B C) (c : C) (m : Mem) : World B C :=
  { w with mem := Function.update w.mem c m }

/-- Time passes. -/
def World.advance (w : World B C) (d : ℕ) : World B C := { w with clock := w.clock + d }

section WorldLemmas

variable (w : World B C) (b : B) (s : Store) (c : C) (m : Mem)

@[simp] lemma World.setStore_clock : (w.setStore b s).clock = w.clock := rfl

@[simp] lemma World.setStore_mem : (w.setStore b s).mem = w.mem := rfl

@[simp] lemma World.setStore_store_self : (w.setStore b s).store b = s := by
  simp [World.setStore]

@[simp] lemma World.setStore_setStore (s' : Store) :
    (w.setStore b s).setStore b s' = w.setStore b s' := by
  simp [World.setStore]

@[simp] lemma World.setMem_clock : (w.setMem c m).clock = w.clock := rfl

@[simp] lemma World.setMem_store : (w.setMem c m).store = w.store := rfl

@[simp] lemma World.setMem_mem_self : (w.setMem c m).mem c = m := by
  simp [World.setMem]

@[simp] lemma World.setMem_self : w.setMem c (w.mem c) = w := by
  simp [World.setMem]

lemma World.lock_onLock {w : World B C} {c : C} {f : Lock → Lock} {lk : Lock}
    (h : (w.mem c).lock = some lk) :
    ((w.setMem c ((w.mem c).onLock f)).mem c).lock = some (f lk) := by
  rw [World.setMem_mem_self, Mem.onLock_some h]

lemma World.message_onMessage {w : World B C} {c : C} {f : Message → Message} {m : Message}
    (h : (w.mem c).message = some m) :
    ((w.setMem c ((w.mem c).onMessage f)).mem c).message = some (f m) := by
  rw [World.setMem_mem_self, Mem.onMessage_some h]

lemma World.setMem_mem_ne {c' : C} (h : c' ≠ c) : (w.setMem c m).mem c' = w.mem c' := by
  simp [World.setMem, h]

lemma World.setStore_store_ne {b' : B} (h : b' ≠ b) : (w.setStore b s).store b' = w.store b' := by
  simp [World.setStore, h]

end WorldLemmas

/-- Which failures the backend may show: a call that fails without effect, and a commit that takes
effect and then fails. -/
structure Faults where
  before : Bool
  after : Bool

/-- How the nondeterminism of a step is resolved.  A call that fails without effect reports an error
that is no sentinel; a commit that took effect may then report any error at all, as when a retried
request trips over its own first attempt. -/
inductive Choice where
  | ok
  | failBefore
  | failAfter (e : Err)
  | pick (n : ℕ)
  | branch (b : Bool)
  | page (keys : List String) (next : PageToken)

/-- A bucket call that reads and would answer `r`. -/
def execRead (flt : Faults) {α : Type} (w : World B C) (r : Except Err α) :
    Choice → Option (Except Err α × World B C)
  | .ok => some (r, w)
  | .failBefore => if flt.before then some (.error .backend, w) else none
  | _ => none

/-- A bucket call that would replace the content of `b` by `s?`. -/
def execCommit (flt : Faults) (w : World B C) (b : B) (s? : Except Err Store) :
    Choice → Option (Except Err Unit × World B C)
  | .ok =>
      match s? with
      | .ok s => some (.ok (), w.setStore b s)
      | .error e => some (.error e, w)
  | .failBefore => if flt.before then some (.error .backend, w) else none
  | .failAfter e =>
      match s? with
      | .ok s => if flt.after then some (.error e, w.setStore b s) else none
      | .error _ => none
  | _ => none

/-- One atomic step of a thread. -/
def exec (bk : B → Backend) (flt : Faults) (t : Thread C) :
    (o : Op B) → Choice → World B C → Option (o.Res × World B C)
  | .attributes b key, ch, w =>
      execRead flt w (match (w.store b).get key with
        | some o => .ok o.attributes
        | none => .error .notFound) ch
  | .read b key, ch, w =>
      execRead flt w (match (w.store b).get key with
        | some o => .ok o.body
        | none => .error .notFound) ch
  | .write b key body md pre, ch, w =>
      execCommit flt w b ((w.store b).write (bk b) key body md pre) ch
  | .delete b key pre, ch, w => execCommit flt w b ((w.store b).delete key pre) ch
  | .listPage b token pageSize pref, ch, w =>
      match ch with
      | .page keys next =>
          if (bk b).lists (w.store b) token pageSize pref keys next then some (.ok (keys, next), w)
          else none
      | .failBefore => if flt.before then some (.error .backend, w) else none
      | _ => none
  | .now, _, w => some (w.clock, w)
  | .randIntN n, .pick i, w => if i < n then some (i, w) else none
  | .randIntN _, _, _ => none
  | .mem f, _, w => some (w.mem t.1, w.setMem t.1 (f (w.mem t.1)))
  | .await p, _, w => if p (w.mem t.1) then some ((), w) else none
  | .select ready, .branch b, w => if b && !ready (w.mem t.1) then none else some (b, w)
  | .select _, _, _ => none
  | .park, _, _ => none

/-- A listing that the backend may return. -/
lemma exec_listPage_of {bk : B → Backend} (flt : Faults) (t : Thread C) {w : World B C} {b : B}
    {token next : PageToken} {pageSize : ℕ} {pref : String} {keys : List String}
    (h : (bk b).lists (w.store b) token pageSize pref keys next = true) :
    exec bk flt t (.listPage b token pageSize pref) (.page keys next) w = some (.ok (keys, next), w) :=
  if_pos h

/-- A delete that the store allows. -/
lemma exec_delete_of (bk : B → Backend) (flt : Faults) (t : Thread C) {w : World B C} {b : B}
    {key : String} {pre : List Precondition} {s : Store} (h : (w.store b).delete key pre = .ok s) :
    exec bk flt t (.delete b key pre) .ok w = some (.ok (), w.setStore b s) := by
  simp only [exec, execCommit, h]
  rfl

section Inversion

variable {bk : B → Backend} {flt : Faults} {t : Thread C} {ch : Choice} {w w' : World B C}
  {b : B} {key : String}

lemma execRead_cases {α : Type} {r x : Except Err α}
    (h : execRead flt w r ch = some (x, w')) : w' = w ∧ (x = r ∨ x = .error .backend) := by
  cases ch <;> simp only [execRead, Option.some.injEq, Prod.mk.injEq,
    Option.ite_none_right_eq_some, reduceCtorEq] at h
  · exact ⟨h.2.symm, .inl h.1.symm⟩
  · exact ⟨h.2.2.symm, .inr h.2.1.symm⟩

lemma exec_attributes {r : Except Err Attributes}
    (h : exec bk flt t (.attributes b key) ch w = some (r, w')) :
    w' = w ∧ ((∃ o, (w.store b).get key = some o ∧ r = .ok o.attributes) ∨
      ((w.store b).get key = none ∧ r = .error .notFound) ∨ r = .error .backend) := by
  obtain ⟨hw, hr | hr⟩ := execRead_cases h
  · refine ⟨hw, ?_⟩
    cases hg : (w.store b).get key with
    | none => exact .inr (.inl ⟨rfl, by simpa [hg] using hr⟩)
    | some o => exact .inl ⟨o, rfl, by simpa [hg] using hr⟩
  · exact ⟨hw, .inr (.inr hr)⟩

lemma exec_read {r : Except Err ByteArray}
    (h : exec bk flt t (.read b key) ch w = some (r, w')) :
    w' = w ∧ ((∃ o, (w.store b).get key = some o ∧ r = .ok o.body) ∨
      ((w.store b).get key = none ∧ r = .error .notFound) ∨ r = .error .backend) := by
  obtain ⟨hw, hr | hr⟩ := execRead_cases h
  · refine ⟨hw, ?_⟩
    cases hg : (w.store b).get key with
    | none => exact .inr (.inl ⟨rfl, by simpa [hg] using hr⟩)
    | some o => exact .inl ⟨o, rfl, by simpa [hg] using hr⟩
  · exact ⟨hw, .inr (.inr hr)⟩

/-- A commit either happened, and the call said so or failed afterwards, or it did not, and the
call reported why. -/
lemma execCommit_cases {s? : Except Err Store} {r : Except Err Unit}
    (h : execCommit flt w b s? ch = some (r, w')) :
    (∃ s, s? = .ok s ∧ w' = w.setStore b s ∧ (r = .ok () ∨ flt.after = true)) ∨
      (w' = w ∧ ((∃ e, s? = .error e ∧ r = .error e) ∨ r = .error .backend)) := by
  cases ch with
  | ok =>
      cases s? with
      | ok s =>
          cases h
          exact .inl ⟨s, rfl, rfl, .inl rfl⟩
      | error e =>
          cases h
          exact .inr ⟨rfl, .inl ⟨e, rfl, rfl⟩⟩
  | failBefore =>
      simp only [execCommit, Option.ite_none_right_eq_some, Option.some.injEq,
        Prod.mk.injEq] at h
      exact .inr ⟨h.2.2.symm, .inr h.2.1.symm⟩
  | failAfter e =>
      cases s? with
      | ok s =>
          simp only [execCommit, Option.ite_none_right_eq_some, Option.some.injEq,
            Prod.mk.injEq] at h
          exact .inl ⟨s, rfl, h.2.2.symm, .inr h.1⟩
      | error e => cases h
  | _ => cases h

lemma exec_write {body : ByteArray} {md : Metadata} {pre : List Precondition}
    {r : Except Err Unit}
    (h : exec bk flt t (.write b key body md pre) ch w = some (r, w')) :
    (∃ s, (w.store b).write (bk b) key body md pre = .ok s ∧ w' = w.setStore b s ∧
        (r = .ok () ∨ flt.after = true)) ∨
      (w' = w ∧ ((∃ e, (w.store b).write (bk b) key body md pre = .error e ∧ r = .error e) ∨
        r = .error .backend)) :=
  execCommit_cases h

lemma exec_delete {pre : List Precondition} {r : Except Err Unit}
    (h : exec bk flt t (.delete b key pre) ch w = some (r, w')) :
    (∃ s, (w.store b).delete key pre = .ok s ∧ w' = w.setStore b s ∧
        (r = .ok () ∨ flt.after = true)) ∨
      (w' = w ∧ ((∃ e, (w.store b).delete key pre = .error e ∧ r = .error e) ∨
        r = .error .backend)) :=
  execCommit_cases h

lemma exec_listPage {token : PageToken} {pageSize : ℕ} {pref : String}
    {r : Except Err (List String × PageToken)}
    (h : exec bk flt t (.listPage b token pageSize pref) ch w = some (r, w')) :
    w' = w ∧ ((∃ keys next, (bk b).lists (w.store b) token pageSize pref keys next = true ∧
      r = .ok (keys, next)) ∨ r = .error .backend) := by
  simp only [exec] at h
  split at h
  · split at h
    · rename_i hl
      cases h
      exact ⟨rfl, .inl ⟨_, _, hl, rfl⟩⟩
    · cases h
  · split at h
    · cases h
      exact ⟨rfl, .inr rfl⟩
    · cases h
  · cases h

lemma exec_now {r : ℤ} (h : exec bk flt t .now ch w = some (r, w')) :
    w' = w ∧ r = w.clock := by
  cases h
  exact ⟨rfl, rfl⟩

lemma exec_randIntN {n r : ℕ} (h : exec bk flt t (.randIntN n) ch w = some (r, w')) :
    w' = w ∧ r < n := by
  cases ch with
  | pick i =>
      simp only [exec] at h
      split at h
      · cases h
        exact ⟨rfl, by assumption⟩
      · cases h
  | _ => cases h

lemma exec_mem {f : Mem → Mem} {r : Mem} (h : exec bk flt t (.mem f) ch w = some (r, w')) :
    r = w.mem t.1 ∧ w' = w.setMem t.1 (f (w.mem t.1)) := by
  cases h
  exact ⟨rfl, rfl⟩

lemma exec_await {p : Mem → Bool} {r : Unit} (h : exec bk flt t (.await p) ch w = some (r, w')) :
    w' = w ∧ p (w.mem t.1) = true := by
  simp only [exec] at h
  split at h
  · cases h
    exact ⟨rfl, by assumption⟩
  · cases h

lemma exec_select {ready : Mem → Bool} {r : Bool}
    (h : exec bk flt t (.select ready) ch w = some (r, w')) :
    w' = w ∧ (r = true → ready (w.mem t.1) = true) := by
  cases ch with
  | branch b =>
      simp only [exec] at h
      split at h
      · cases h
      · rename_i hb
        cases h
        exact ⟨rfl, fun hr => by simpa [hr] using hb⟩
  | _ => cases h

/-- Only a write or a delete of the key changes what is stored under it; a write leaves there what it
was given. -/
lemma exec_get {o : Op B} {r : o.Res} (h : exec bk flt t o ch w = some (r, w')) (b : B)
    (key : String) (hne : (w'.store b).get key ≠ (w.store b).get key) :
    (∃ body md pre, o = .write b key body md pre ∧ (∃ obj, (w'.store b).get key = some obj ∧
        obj.body = body ∧ obj.metadata = md) ∧ (w.store b).Accepts key pre) ∨
      ∃ pre, o = .delete b key pre ∧ (w'.store b).get key = none := by
  have hsame : w' = w → False := fun hw => hne (hw ▸ rfl)
  cases o with
  | attributes b' key => exact (hsame (exec_attributes h).1).elim
  | read b' key => exact (hsame (exec_read h).1).elim
  | write b' key' body md pre =>
      obtain ⟨s, hs, rfl, -⟩ | ⟨hw, -⟩ := exec_write h
      · have hacc := Store.write_accepts hs
        obtain rfl := Store.write_ok hs
        by_cases hb : b = b'
        · subst hb
          rw [World.setStore_store_self] at hne ⊢
          by_cases hk : key = key'
          · subst hk
            exact .inl ⟨body, md, pre, rfl, ⟨_, Store.get_put_self _ _ _ _ _, rfl, rfl⟩, hacc⟩
          · exact absurd (Store.get_put_ne _ _ _ _ _ hk) hne
        · rw [World.setStore_store_ne w b' _ hb] at hne
          exact absurd rfl hne
      · exact (hsame hw).elim
  | delete b' key' pre =>
      obtain ⟨s, hs, rfl, -⟩ | ⟨hw, -⟩ := exec_delete h
      · obtain ⟨-, rfl⟩ := Store.delete_ok hs
        by_cases hb : b = b'
        · subst hb
          rw [World.setStore_store_self] at hne ⊢
          by_cases hk : key = key'
          · subst hk
            exact .inr ⟨pre, rfl, Store.get_erase_self _ _⟩
          · exact absurd (Store.get_erase_ne _ _ hk) hne
        · rw [World.setStore_store_ne w b' _ hb] at hne
          exact absurd rfl hne
      · exact (hsame hw).elim
  | listPage b' token pageSize pref => exact (hsame (exec_listPage h).1).elim
  | now => exact (hsame (exec_now h).1).elim
  | randIntN n => exact (hsame (exec_randIntN h).1).elim
  | mem f => exact absurd (congrArg (fun w : World B C => (w.store b).get key) (exec_mem h).2) hne
  | await p => exact (hsame (exec_await h).1).elim
  | select ready => exact (hsame (exec_select h).1).elim
  | park => exact r.elim

end Inversion

/-- An environment that moves the clock, one way or the other, and nothing else. -/
def ClockOnly {E : Type} (env : E → World B C → Option (World B C)) : Prop :=
  ∀ e w w', env e w = some w' → w'.store = w.store ∧ w'.mem = w.mem

lemma clockOnly_advance : ClockOnly fun (d : ℕ) (w : World B C) => some (w.advance d) := by
  rintro d w w' ⟨⟩
  exact ⟨rfl, rfl⟩

/-- Entry points that set a client up and touch nothing else. -/
def StartsQuietly (start : Thread C → Entry → World B C → Option (BProg B Unit × World B C)) :
    Prop :=
  ∀ t e w p w', start t e w = some (p, w') → w'.store = w.store ∧ w'.clock = w.clock

/-- A clock that may jump anywhere at any time: all that clients whose clocks disagree can observe. -/
def anyClock (now : ℤ) (w : World B C) : Option (World B C) := some { w with clock := now }

lemma clockOnly_anyClock : ClockOnly (anyClock : ℤ → World B C → Option (World B C)) := by
  rintro now w w' ⟨⟩
  exact ⟨rfl, rfl⟩

/-- The machine of a system of clients: its steps are `exec`, its entry points and its environment
are given by the system. -/
def bucketMachine (bk : B → Backend) (flt : Faults) {E : Type}
    (start : Thread C → Entry → World B C → Option (BProg B Unit × World B C))
    (env : E → World B C → Option (World B C)) :
    Machine (bucketSig B) (World B C) (Thread C) where
  Choice := Choice
  Env := E
  exec := exec bk flt
  start := start
  env := env

/-- Only a write or a delete of the key changes what is stored under it. -/
lemma step_get {bk : B → Backend} {flt : Faults} {E : Type}
    {start : Thread C → Entry → World B C → Option (BProg B Unit × World B C)}
    {env : E → World B C → Option (World B C)} (hstart : StartsQuietly start)
    (henv : ClockOnly env) {c c' : Config (bucketSig B) (World B C) (Thread C)} {e : BEvent B C}
    (hs : Step (bucketMachine bk flt start env) c e c') {b : B} {key : String}
    (hne : (c'.view.world.store b).get key ≠ (c.view.world.store b).get key) :
    (∃ t body md pre r, e = BEvent.called t (.write b key body md pre) r ∧
        (∃ obj, (c'.view.world.store b).get key = some obj ∧ obj.body = body ∧ obj.metadata = md) ∧
        (c.view.world.store b).Accepts key pre) ∨
      ∃ t pre r, e = BEvent.called t (.delete b key pre) r ∧
        (c'.view.world.store b).get key = none := by
  cases hs with
  | env he =>
      rw [View.push_world, (henv _ _ _ he).1] at hne
      exact absurd rfl hne
  | start hp he =>
      rw [View.push_world, (hstart _ _ _ _ _ he).1] at hne
      exact absurd rfl hne
  | @call t o k ch r w hp he =>
      have he' : exec bk flt t o ch c.view.world = some (r, w) := he
      obtain ⟨body, md, pre, rfl, hobj, hacc⟩ | ⟨pre, rfl, hnone⟩ := exec_get he' b key hne
      · exact .inl ⟨t, body, md, pre, r, rfl, hobj, hacc⟩
      · exact .inr ⟨t, pre, r, rfl, hnone⟩

/-- No call moves the clock. -/
lemma exec_clock {bk : B → Backend} {flt : Faults} {t : Thread C} {ch : Choice} {w w' : World B C}
    {o : Op B} {r : o.Res} (h : exec bk flt t o ch w = some (r, w')) : w'.clock = w.clock := by
  cases o with
  | attributes b key => rw [(exec_attributes h).1]
  | read b key => rw [(exec_read h).1]
  | write b key body md pre =>
      obtain ⟨s, -, rfl, -⟩ | ⟨rfl, -⟩ := exec_write h <;> rfl
  | delete b key pre =>
      obtain ⟨s, -, rfl, -⟩ | ⟨rfl, -⟩ := exec_delete h <;> rfl
  | listPage b token pageSize pref => rw [(exec_listPage h).1]
  | now => rw [(exec_now h).1]
  | randIntN n => rw [(exec_randIntN h).1]
  | mem f => rw [(exec_mem h).2, World.setMem_clock]
  | await p => rw [(exec_await h).1]
  | select ready => rw [(exec_select h).1]
  | park => exact r.elim

/-- What a bucket holds after a call was there before, or was committed by it. -/
lemma exec_follows {bk : B → Backend} {flt : Faults} {t : Thread C} {ch : Choice} {w w' : World B C}
    {o : Op B} {r : o.Res} (h : exec bk flt t o ch w = some (r, w')) (b : B) :
    (w.store b).Follows (w'.store b) := by
  have hset : ∀ {b' : B} {s : Store}, (w.store b').Follows s →
      (w.store b).Follows ((w.setStore b' s).store b) := by
    intro b' s hs
    by_cases hb : b = b'
    · subst hb
      rwa [World.setStore_store_self]
    · rw [World.setStore_store_ne w b' s hb]
      exact .refl _
  cases o with
  | attributes b' key => rw [(exec_attributes h).1]; exact .refl _
  | read b' key => rw [(exec_read h).1]; exact .refl _
  | write b' key body md pre =>
      obtain ⟨s, hs, rfl, -⟩ | ⟨rfl, -⟩ := exec_write h
      · exact hset (Store.write_ok hs ▸ .put)
      · exact .refl _
  | delete b' key pre =>
      obtain ⟨s, hs, rfl, -⟩ | ⟨rfl, -⟩ := exec_delete h
      · exact hset ((Store.delete_ok hs).2 ▸ .erase)
      · exact .refl _
  | listPage b' token pageSize pref => rw [(exec_listPage h).1]; exact .refl _
  | now => rw [(exec_now h).1]; exact .refl _
  | randIntN n => rw [(exec_randIntN h).1]; exact .refl _
  | mem f => rw [(exec_mem h).2]; exact .refl _
  | await p => rw [(exec_await h).1]; exact .refl _
  | select ready => rw [(exec_select h).1]; exact .refl _
  | park => exact r.elim

/-- What a call leaves in a bucket was stored by commits of its backend, if that was so before. -/
lemma exec_ok {bk : B → Backend} {flt : Faults} {t : Thread C} {ch : Choice} {w w' : World B C}
    {o : Op B} {r : o.Res} (h : exec bk flt t o ch w = some (r, w')) {b : B}
    (hok : (w.store b).Ok (bk b)) : (w'.store b).Ok (bk b) := by
  have hset : ∀ {b' : B} {s : Store}, (b = b' → s.Ok (bk b)) →
      ((w.setStore b' s).store b).Ok (bk b) := by
    intro b' s hs
    by_cases hb : b = b'
    · subst hb
      rw [World.setStore_store_self]
      exact hs rfl
    · rwa [World.setStore_store_ne w b' s hb]
  cases o with
  | attributes b' key => rwa [(exec_attributes h).1]
  | read b' key => rwa [(exec_read h).1]
  | write b' key body md pre =>
      obtain ⟨s, hs, rfl, -⟩ | ⟨rfl, -⟩ := exec_write h
      · refine hset fun hb => ?_
        subst hb
        exact Store.write_ok hs ▸ Store.Ok.put hok
      · exact hok
  | delete b' key pre =>
      obtain ⟨s, hs, rfl, -⟩ | ⟨rfl, -⟩ := exec_delete h
      · refine hset fun hb => ?_
        subst hb
        exact (Store.delete_ok hs).2 ▸ Store.Ok.erase hok
      · exact hok
  | listPage b' token pageSize pref => rwa [(exec_listPage h).1]
  | now => rwa [(exec_now h).1]
  | randIntN n => rwa [(exec_randIntN h).1]
  | mem f => rwa [(exec_mem h).2]
  | await p => rwa [(exec_await h).1]
  | select ready => rwa [(exec_select h).1]
  | park => exact r.elim

/-- Only a critical section changes a memory. -/
lemma exec_memory {bk : B → Backend} {flt : Faults} {t : Thread C} {ch : Choice} {w w' : World B C}
    {o : Op B} {r : o.Res} (h : exec bk flt t o ch w = some (r, w')) (hne : ∀ f, o ≠ .mem f) :
    w'.mem = w.mem := by
  cases o with
  | attributes b key => rw [(exec_attributes h).1]
  | read b key => rw [(exec_read h).1]
  | write b key body md pre =>
      obtain ⟨s, -, rfl, -⟩ | ⟨rfl, -⟩ := exec_write h <;> rfl
  | delete b key pre =>
      obtain ⟨s, -, rfl, -⟩ | ⟨rfl, -⟩ := exec_delete h <;> rfl
  | listPage b token pageSize pref => rw [(exec_listPage h).1]
  | now => rw [(exec_now h).1]
  | randIntN n => rw [(exec_randIntN h).1]
  | mem f => exact absurd rfl (hne f)
  | await p => rw [(exec_await h).1]
  | select ready => rw [(exec_select h).1]
  | park => exact r.elim

end Blobster
