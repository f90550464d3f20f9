import Blobster.Bucket.Mem
import Blobster.Driver.Options

/-!
# The mem driver, call by call

`mem/mem.go`: views (`Sub`), open writers, and the shared `uint64` counter that makes the version
tokens.  This is the driver itself; `Blobster.Bucket.Mem` is what the lock and the queue need to
know of it, and `writeAll_simulates` and `delete_simulates` say that they know it rightly.

A call takes what `ctx.Err()` answers when it is made (`ctx`), what the caller's hook answers
(`beforeWrite`, `before`) and the time, and returns its result and the state of the bucket.

* `State`, `Bucket`, `Writer` and the calls, under the source's names.
* `System`, `Call`, `System.step` — any number of views and open writers over one state.
* **`step_effect`** — all that a call can do to the stored objects: nothing, the removal of one, or one
  commit under the next token.
-/

namespace Blobster

namespace MemDriver

/-! ## The state -/

/-- A stored object. -/
structure Object where
  data : ByteArray
  attrs : ObjectAttrs
deriving DecidableEq

/-- The objects and the counter that all views share. -/
structure State where
  objects : AList (fun _ : String => Object) := ∅
  nextVersion : UInt64 := 0

instance : DecidableEq State := fun st st' =>
  decidable_of_iff (st.objects.entries = st'.objects.entries ∧ st.nextVersion = st'.nextVersion) <| by
    cases st
    cases st'
    simp [AList.ext_iff]

/-- A view of the state under a key prefix. -/
structure Bucket where
  pref : String := ""
deriving DecidableEq

/-- `strconv.FormatUint(n, 10)`. -/
def formatUint (n : UInt64) : Version := Nat.repr n.toNat

namespace State

/-- The object under a full key. -/
def get (st : State) (key : String) : Option Object := st.objects.lookup key

/-- The version of the object under a full key. -/
def version (st : State) (key : String) : Option Version := (st.get key).map fun o => o.attrs.version

/-- Store an object under the next version token. -/
def commit (st : State) (key : String) (make : Version → Object) : State :=
  { objects := st.objects.insert key (make (formatUint (st.nextVersion + 1)))
    nextVersion := st.nextVersion + 1 }

/-- Remove an object. -/
def erase (st : State) (key : String) : State := { st with objects := st.objects.erase key }

section Lemmas

variable (st : State) (key : String) (make : Version → Object)

@[simp] lemma get_commit_self :
    (st.commit key make).get key = some (make (formatUint (st.nextVersion + 1))) := by
  simp [get, commit]

lemma get_commit_ne {key' : String} (h : key' ≠ key) :
    (st.commit key make).get key' = st.get key' := by
  simp [get, commit, AList.lookup_insert_ne h]

@[simp] lemma nextVersion_commit : (st.commit key make).nextVersion = st.nextVersion + 1 := rfl

@[simp] lemma get_erase_self : (st.erase key).get key = none := by
  simp [get, erase]

lemma get_erase_ne {key' : String} (h : key' ≠ key) : (st.erase key).get key' = st.get key' := by
  simp [get, erase, AList.lookup_erase_ne h]

@[simp] lemma nextVersion_erase : (st.erase key).nextVersion = st.nextVersion := rfl

lemma commit_ne : st.commit key make ≠ st := by
  intro h
  have hn := congrArg (fun st : State => st.nextVersion.toNat) h
  have hlt := st.nextVersion.toNat_lt
  simp only [nextVersion_commit, UInt64.toNat_add, UInt64.toNat_one] at hn
  omega

@[simp] lemma get_empty : ({} : State).get key = none := by
  simp [get]

end Lemmas

end State

namespace Bucket

variable (pf : Platform) (b : Bucket)

/-- `objectKey`. -/
def objectKey (key : String) : String := b.pref ++ key

/-- `Sub`. -/
def sub (pref : String) : Bucket := ⟨b.pref ++ pref⟩

/-- `Attributes`. -/
def attributes (ctx : Option Err) (key : String) (st : State) : Except Err ObjectAttrs :=
  match ctx with
  | some e => .error e
  | none =>
      match st.get (b.objectKey key) with
      | none => .error .notFound
      | some o => .ok o.attrs

/-- `Copy`. -/
def copy (ctx before : Option Err) (dstKey srcKey : String) (now : ℤ) (st : State) :
    Except Err Unit × State :=
  match ctx, before with
  | some e, _ => (.error e, st)
  | none, some e => (.error e, st)
  | none, none =>
      match st.get (b.objectKey srcKey) with
      | none => (.error .notFound, st)
      | some src =>
          (.ok (), st.commit (b.objectKey dstKey) fun version =>
            ⟨src.data, { src.attrs with createTime := now, modTime := now, version := version }⟩)

/-- `Delete`. -/
def delete (ctx : Option Err) (key : String) (pre : List Precondition) (st : State) :
    Except Err Unit × State :=
  match ctx with
  | some e => (.error e, st)
  | none =>
      match compilePreconditions pre with
      | .error e => (.error e, st)
      | .ok compiled =>
          match st.get (b.objectKey key) with
          | none => (.error .notFound, st)
          | some current =>
              if conditionsPass compiled (some current.attrs.version) then
                (.ok (), st.erase (b.objectKey key))
              else (.error .preconditionFailed, st)

/-- `UpdateMetadata`. -/
def updateMetadata (ctx : Option Err) (key : String) (md : UserMetadata) (now : ℤ) (st : State) :
    Except Err Version × State :=
  match ctx with
  | some e => (.error e, st)
  | none =>
      match normalizeMetadata pf md with
      | .error e => (.error e, st)
      | .ok normalized =>
          match st.get (b.objectKey key) with
          | none => (.error .notFound, st)
          | some current =>
              (.ok (formatUint (st.nextVersion + 1)),
                st.commit (b.objectKey key) fun version => ⟨current.data,
                  { current.attrs with metadata := normalized, modTime := now, version := version }⟩)

end Bucket

/-! ## Writers -/

/-- An open writer.  Its conditions are compiled ones. -/
structure Writer where
  bucket : Bucket
  key : String
  opts : WriterOptions
  preconditions : Preconditions
  compiled : ∃ pre, compilePreconditions pre = .ok preconditions
  buf : ByteArray := .empty
  closed : Bool := false

/-- `NewWriter`. -/
def Bucket.newWriter (pf : Platform) (b : Bucket) (key : String) (opts : WriterOptions)
    (pre : List Precondition) : Except Err Writer :=
  match h : compilePreconditions pre with
  | .error e => .error e
  | .ok compiled =>
      match opts.clone pf with
      | .error e => .error e
      | .ok cloned =>
          match cloned.beforeWrite with
          | some e => .error e
          | none =>
              .ok { bucket := b, key := key, opts := cloned, preconditions := compiled,
                    compiled := ⟨pre, h⟩ }

namespace Writer

variable (pf : Platform) (w : Writer)

/-- `Write`, and `ReadFrom` of a reader that holds `p`. -/
def write (ctx : Option Err) (p : ByteArray) : Except Err Unit × Writer :=
  if w.closed then (.error .backend, w)
  else match ctx with
    | some e => (.error e, w)
    | none => (.ok (), { w with buf := w.buf ++ p })

/-- The attributes that `Close` stores. -/
def attrs (now : ℤ) (version : Version) : ObjectAttrs where
  headers := w.opts.headers
  metadata := w.opts.metadata
  createTime := now
  modTime := now
  size := w.buf.size
  md5 := pf.md5 w.buf
  version := version

/-- `Close`. -/
def close (ctx : Option Err) (now : ℤ) (st : State) : Except Err Unit × Writer × State :=
  if w.closed then (.ok (), w, st)
  else
    let closed := { w with closed := true }
    match ctx with
    | some e => (.error e, closed, st)
    | none =>
        if w.opts.contentMD5.size > 0 ∧ pf.md5 w.buf ≠ w.opts.contentMD5 then
          (.error .invalidOption, closed, st)
        else
          let fullKey := w.bucket.objectKey w.key
          if conditionsPass w.preconditions (st.version fullKey) then
            (.ok (), closed, st.commit fullKey fun version => ⟨w.buf, w.attrs pf now version⟩)
          else (.error .preconditionFailed, closed, st)

/-- `CloseWithError`. -/
def closeWithError : Writer := { w with closed := true }

end Writer

/-- `WriteAll`. -/
def Bucket.writeAll (pf : Platform) (b : Bucket) (ctx : Option Err) (key : String) (p : ByteArray)
    (opts : WriterOptions) (pre : List Precondition) (now : ℤ) (st : State) :
    Except Err Unit × State :=
  match prepareWriteAllOptions pf opts p with
  | .error e => (.error e, st)
  | .ok cloned =>
      match b.newWriter pf key cloned pre with
      | .error e => (.error e, st)
      | .ok writer =>
          match writer.write ctx p with
          | (.error e, _) => (.error e, st)
          | (.ok _, writer) => ((writer.close pf ctx now st).1, (writer.close pf ctx now st).2.2)

/-! ## The system -/

/-- A bucket's state and the writers open on it.  `Sub` only makes another view, so the views are in
the calls. -/
structure System where
  state : State := {}
  writers : List Writer := []

/-- A call through any view, or on the `i`-th writer.  Each of them reads and changes the state
once, under its mutex. -/
inductive Call where
  | newWriter (b : Bucket) (key : String) (opts : WriterOptions) (pre : List Precondition)
  | write (i : ℕ) (ctx : Option Err) (p : ByteArray)
  | close (i : ℕ) (ctx : Option Err) (now : ℤ)
  | closeWithError (i : ℕ)
  | writeAll (b : Bucket) (ctx : Option Err) (key : String) (p : ByteArray) (opts : WriterOptions)
      (pre : List Precondition) (now : ℤ)
  | copy (b : Bucket) (ctx before : Option Err) (dstKey srcKey : String) (now : ℤ)
  | updateMetadata (b : Bucket) (ctx : Option Err) (key : String) (md : UserMetadata) (now : ℤ)
  | delete (b : Bucket) (ctx : Option Err) (key : String) (pre : List Precondition)

namespace System

variable (pf : Platform)

/-- What a call does to the system. -/
def step (s : System) : Call → System
  | .newWriter b key opts pre =>
      match b.newWriter pf key opts pre with
      | .error _ => s
      | .ok w => { s with writers := s.writers ++ [w] }
  | .write i ctx p =>
      match s.writers[i]? with
      | none => s
      | some w => { s with writers := s.writers.set i (w.write ctx p).2 }
  | .close i ctx now =>
      match s.writers[i]? with
      | none => s
      | some w =>
          { state := (w.close pf ctx now s.state).2.2
            writers := s.writers.set i (w.close pf ctx now s.state).2.1 }
  | .closeWithError i =>
      match s.writers[i]? with
      | none => s
      | some w => { s with writers := s.writers.set i w.closeWithError }
  | .writeAll b ctx key p opts pre now =>
      { s with state := (b.writeAll pf ctx key p opts pre now s.state).2 }
  | .copy b ctx before dstKey srcKey now =>
      { s with state := (b.copy ctx before dstKey srcKey now s.state).2 }
  | .updateMetadata b ctx key md now =>
      { s with state := (b.updateMetadata pf ctx key md now s.state).2 }
  | .delete b ctx key pre => { s with state := (b.delete ctx key pre s.state).2 }

/-- The system after a run of calls. -/
def run (s : System) (calls : List Call) : System := calls.foldl (step pf) s

/-- The full key whose object a call may change. -/
def target (s : System) : Call → Option String
  | .close i _ _ => s.writers[i]?.map fun w => w.bucket.objectKey w.key
  | .writeAll b _ key _ _ _ _ => some (b.objectKey key)
  | .copy b _ _ dstKey _ _ => some (b.objectKey dstKey)
  | .updateMetadata b _ key _ _ => some (b.objectKey key)
  | .delete b _ key _ => some (b.objectKey key)
  | _ => none

@[simp] lemma run_nil (s : System) : s.run pf [] = s := rfl

@[simp] lemma run_cons (s : System) (c : Call) (calls : List Call) :
    s.run pf (c :: calls) = (s.step pf c).run pf calls := rfl

end System

/-! ## What a call can do -/

/-- What a call that names `target` can do to the state. -/
inductive Effect (target : Option String) (st : State) : State → Prop
  | none : Effect target st st
  | erased (key : String) (ht : target = some key) : Effect target st (st.erase key)
  | committed (key : String) (make : Version → Object) (ht : target = some key)
      (hv : ∀ version, (make version).attrs.version = version) :
      Effect target st (st.commit key make)

section Effects

variable (pf : Platform) (b : Bucket) (st : State)

lemma close_effect (w : Writer) (ctx : Option Err) (now : ℤ) :
    Effect (some (w.bucket.objectKey w.key)) st (w.close pf ctx now st).2.2 := by
  unfold Writer.close
  split
  · exact .none
  · cases ctx with
    | some e => exact .none
    | none =>
        dsimp only
        split
        · exact .none
        · split
          · dsimp only
            exact .committed _ _ rfl fun _ => rfl
          · exact .none

lemma newWriter_names {key : String} {opts : WriterOptions} {pre : List Precondition} {w : Writer}
    (h : b.newWriter pf key opts pre = .ok w) :
    compilePreconditions pre = .ok w.preconditions ∧ w.bucket = b ∧ w.key = key ∧
      w.closed = false := by
  unfold Bucket.newWriter at h
  split at h
  · cases h
  · rename_i compiled hp
    split at h
    · cases h
    · split at h
      · cases h
      · cases h
        exact ⟨hp, rfl, rfl, rfl⟩

lemma write_names (w : Writer) (ctx : Option Err) (p : ByteArray) :
    (w.write ctx p).2.bucket = w.bucket ∧ (w.write ctx p).2.key = w.key ∧
      (w.write ctx p).2.preconditions = w.preconditions := by
  unfold Writer.write
  split
  · exact ⟨rfl, rfl, rfl⟩
  · cases ctx <;> exact ⟨rfl, rfl, rfl⟩

lemma writeAll_effect (ctx : Option Err) (key : String) (p : ByteArray) (opts : WriterOptions)
    (pre : List Precondition) (now : ℤ) :
    Effect (some (b.objectKey key)) st (b.writeAll pf ctx key p opts pre now st).2 := by
  unfold Bucket.writeAll
  split
  · exact .none
  · split
    · exact .none
    · rename_i writer hw
      obtain ⟨-, hb, hk, -⟩ := newWriter_names pf b hw
      obtain ⟨hb', hk', -⟩ := write_names writer ctx p
      split
      · exact .none
      · rename_i w' heq
        rw [heq] at hb' hk'
        have h := close_effect pf st w' ctx now
        rwa [hb', hk', hb, hk] at h

lemma copy_effect (ctx before : Option Err) (dstKey srcKey : String) (now : ℤ) :
    Effect (some (b.objectKey dstKey)) st (b.copy ctx before dstKey srcKey now st).2 := by
  unfold Bucket.copy
  split
  · exact .none
  · exact .none
  · split
    · exact .none
    · dsimp only
      exact .committed _ _ rfl fun _ => rfl

lemma updateMetadata_effect (ctx : Option Err) (key : String) (md : UserMetadata) (now : ℤ) :
    Effect (some (b.objectKey key)) st (b.updateMetadata pf ctx key md now st).2 := by
  unfold Bucket.updateMetadata
  split
  · exact .none
  · split
    · exact .none
    · split
      · exact .none
      · dsimp only
        exact .committed _ _ rfl fun _ => rfl

lemma delete_effect (ctx : Option Err) (key : String) (pre : List Precondition) :
    Effect (some (b.objectKey key)) st (b.delete ctx key pre st).2 := by
  unfold Bucket.delete
  split
  · exact .none
  · split
    · exact .none
    · split
      · exact .none
      · split
        · exact .erased _ rfl
        · exact .none

/-- **All that a call can do to the stored objects.** -/
theorem step_effect (s : System) (c : Call) :
    Effect (s.target c) s.state (s.step pf c).state := by
  cases c with
  | newWriter b key opts pre =>
      unfold System.step
      dsimp only
      split <;> exact .none
  | write i ctx p =>
      unfold System.step
      dsimp only
      split <;> exact .none
  | closeWithError i =>
      unfold System.step
      dsimp only
      split <;> exact .none
  | close i ctx now =>
      cases hw : s.writers[i]? with
      | none => simpa only [System.step, hw] using Effect.none
      | some w => simpa only [System.step, System.target, hw, Option.map_some] using
          close_effect pf s.state w ctx now
  | writeAll b ctx key p opts pre now => exact writeAll_effect pf b s.state ctx key p opts pre now
  | copy b ctx before dstKey srcKey now => exact copy_effect b s.state ctx before dstKey srcKey now
  | updateMetadata b ctx key md now => exact updateMetadata_effect pf b s.state ctx key md now
  | delete b ctx key pre => exact delete_effect b s.state ctx key pre

end Effects

end MemDriver

end Blobster
