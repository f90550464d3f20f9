import Blobster.Driver.Handles
import Blobster.Driver.Ranges

/-!
# The two local drivers behind one interface

The calls that a client can make of a bucket and of the writers that it has opened, and what the mem
driver and the file driver answer.  A client sees attributes, bytes and listings; it hands versions
back as conditions.

* `Request`, `Reply` — the calls and their answers.
* `MemDriver.System.answer` — the answers of the mem driver, beside `System.step`.
* `FileDriver.Bucket.newWriter`, `FileDriver.Bucket.writeAll` and the checks of an open writer — the
  calls of the file driver that its commits do not need.
* `FileDriver.System.respond` — the file driver, over any disk: a device that carries out the
  filesystem steps.
* `Reply.shown` — an answer without its times, and with its versions renamed.
-/

namespace Blobster

open Interleave

/-! ## Requests and answers -/

/-- A call through a view of the bucket, or on the `i`-th writer that was opened. -/
inductive Request where
  | call (c : MemDriver.Call)
  | attributes (b : MemDriver.Bucket) (ctx : Option Err) (key : String)
  | newRangeReader (b : MemDriver.Bucket) (ctx beforeRead : Option Err) (key : String)
      (offset length : Int64)
  | listPage (b : MemDriver.Bucket) (ctx : Option Err) (pageToken : String) (pageSize : Int64)
      (opts : ListOptions)

/-- What a call returns. -/
inductive Reply where
  | result (r : Except Err Unit)
  | version (r : Except Err Version)
  | attributes (r : Except Err ObjectAttrs)
  | bytes (r : Outcome Err (ByteArray × ObjectAttrs))
  | page (r : Outcome ListErr (List ListObject × String))
deriving DecidableEq

/-- Attributes without their times, and with the version renamed. -/
def ObjectAttrs.shown (φ : Version → Version) (a : ObjectAttrs) : ObjectAttrs :=
  { a with createTime := 0, modTime := 0, version := φ a.version }

/-- An entry of a listing without its time. -/
def ListObject.shown (o : ListObject) : ListObject := { o with modTime := 0 }

/-- What an outcome holds, replaced. -/
def Outcome.map {ε α β : Type} (f : α → β) : Outcome ε α → Outcome ε β
  | .ok a => .ok (f a)
  | .error e => .error e
  | .panicked => .panicked

/-- The outcome of a call that does not panic. -/
def Outcome.ofExcept {ε α : Type} : Except ε α → Outcome ε α
  | .ok a => .ok a
  | .error e => .error e

/-- An answer without its times, and with its versions renamed. -/
def Reply.shown (φ : Version → Version) : Reply → Reply
  | .result r => .result r
  | .version r => .version (r.map φ)
  | .attributes r => .attributes (r.map (ObjectAttrs.shown φ))
  | .bytes r => .bytes (r.map fun x => (x.1, x.2.shown φ))
  | .page r => .page (r.map fun x => (x.1.map ListObject.shown, x.2))

/-- A condition on the renamed version. -/
def Precondition.rename (φ : Version → Version) : Precondition → Precondition
  | .ifNotExists => .ifNotExists
  | .ifMatch v => .ifMatch (φ v)
  | .ifNotMatch v => .ifNotMatch (φ v)

/-- The same call, with the versions of its conditions renamed. -/
def MemDriver.Call.rename (φ : Version → Version) : MemDriver.Call → MemDriver.Call
  | .newWriter b key opts pre => .newWriter b key opts (pre.map (Precondition.rename φ))
  | .writeAll b ctx key p opts pre now =>
      .writeAll b ctx key p opts (pre.map (Precondition.rename φ)) now
  | .delete b ctx key pre => .delete b ctx key (pre.map (Precondition.rename φ))
  | c => c

@[inherit_doc MemDriver.Call.rename]
def Request.rename (φ : Version → Version) : Request → Request
  | .call c => .call (c.rename φ)
  | r => r

/-! ## The mem driver -/

namespace MemDriver.System

variable (pf : Platform)

/-- What the mem driver answers.  There is nothing to answer for a writer that was never opened. -/
def answer (s : System) : Request → Reply
  | .call (.newWriter b key opts pre) => .result ((b.newWriter pf key opts pre).map fun _ => ())
  | .call (.write i ctx p) =>
      .result (match s.writers[i]? with
        | none => .ok ()
        | some w => (w.write ctx p).1)
  | .call (.close i ctx now) =>
      .result (match s.writers[i]? with
        | none => .ok ()
        | some w => (w.close pf ctx now s.state).1)
  | .call (.closeWithError _) => .result (.ok ())
  | .call (.writeAll b ctx key p opts pre now) =>
      .result (b.writeAll pf ctx key p opts pre now s.state).1
  | .call (.copy b ctx before dstKey srcKey now) =>
      .result (b.copy ctx before dstKey srcKey now s.state).1
  | .call (.updateMetadata b ctx key md now) =>
      .version (b.updateMetadata pf ctx key md now s.state).1
  | .call (.delete b ctx key pre) => .result (b.delete ctx key pre s.state).1
  | .attributes b ctx key => .attributes (b.attributes ctx key s.state)
  | .newRangeReader b ctx beforeRead key offset length =>
      .bytes (b.newRangeReader ctx beforeRead key offset length s.state)
  | .listPage b ctx pageToken pageSize opts =>
      .page (b.listPage ctx pageToken pageSize opts s.state)

/-- What a request does to the system. -/
def after (s : System) : Request → System
  | .call c => s.step pf c
  | _ => s

end MemDriver.System

/-! ## The file driver -/

namespace FileDriver

variable (pf : Platform) (json : Codec)

/-- `NewWriter`. -/
def Bucket.newWriter (env : Env) (b : Bucket) (key : String) (opts : WriterOptions)
    (pre : List Precondition) : FsProg (Except Err Writer) :=
  match compilePreconditions pre with
  | .error e => return .error e
  | .ok compiled =>
      match opts.clone pf with
      | .error e => return .error e
      | .ok cloned =>
          match cloned.beforeWrite with
          | some e => return .error e
          | none =>
              match b.paths key with
              | .error e => return .error e
              | .ok rel => do
                  match ← newTemp env with
                  | .error e => return .error e
                  | .ok (.temp n) =>
                      return .ok { rel := rel, tmp := n, opts := cloned, preconditions := compiled,
                                   hashed := .empty, size := 0 }
                  | .ok _ => return .error .backend

/-- `Write`, with its checks, and `ReadFrom` of a reader that holds `p`. -/
def Writer.tryWrite (env : Env) (w : Writer) (ctx : Option Err) (p : ByteArray) :
    FsProg (Except Err Unit × Writer) :=
  if w.closed then return (.error .backend, w)
  else match ctx with
    | some e => return (.error e, w)
    | none => do
        match ← w.write env p with
        | .error e => return (.error e, w)
        | .ok w => return (.ok (), w)

/-- `CloseWithError`, with its check. -/
def Writer.giveUp (w : Writer) : FsProg Unit :=
  if w.closed then return () else w.closeWithError

/-- `WriteAll`. -/
def Bucket.writeAll (env : Env) (b : Bucket) (ctx : Option Err) (key : String) (p : ByteArray)
    (opts : WriterOptions) (pre : List Precondition) : FsProg (Except Err Unit) :=
  match prepareWriteAllOptions pf opts p with
  | .error e => return .error e
  | .ok cloned => do
      match ← b.newWriter pf env key cloned pre with
      | .error e => return .error e
      | .ok w =>
          match ← w.tryWrite env ctx p with
          | (.error e, w) =>
              w.giveUp
              return .error e
          | (.ok _, w) => w.close pf json env ctx

/-- `Attributes`. -/
def Bucket.attributes (b : Bucket) (ctx : Option Err) (key : String) :
    FsProg (Except Err ObjectAttrs) :=
  match ctx, b.paths key with
  | some e, _ => return .error e
  | none, .error e => return .error e
  | none, .ok rel => readAttributes json rel

/-- The files and the writers open on them. -/
structure System (σ : Type) where
  files : σ
  writers : List Writer := []

section Respond

variable {σ : Type} (disk : Device fsSig σ) (walk : σ → List WalkEntry)

/-- A program that works on no writer. -/
def System.run {α : Type} (s : System σ) (p : FsProg α) (reply : α → Reply) : Reply × System σ :=
  (reply (p.exec disk s.files).1, { s with files := (p.exec disk s.files).2 })

/-- A program on the `i`-th writer. -/
def System.onWriter (s : System σ) (i : ℕ) (p : Writer → FsProg (Except Err Unit × Writer)) :
    Reply × System σ :=
  match s.writers[i]? with
  | none => (.result (.ok ()), s)
  | some w =>
      let out := (p w).exec disk s.files
      (.result out.1.1, { files := out.2, writers := s.writers.set i out.1.2 })

/-- The checksum that a listing shows: none, if the attributes cannot be read. -/
def listedMD5 (files : σ) (fullKey : String) : ByteArray :=
  match (Bucket.mk "").paths fullKey with
  | .error _ => .empty
  | .ok rel =>
      match ((readAttributes json rel).exec disk files).1 with
      | .error _ => .empty
      | .ok attrs => attrs.md5

/-- What the file driver answers, and the files then.  `walk` is what `filepath.Walk` finds below
`data`. -/
def System.respond (env : Env) (s : System σ) : Request → Reply × System σ
  | .call (.newWriter b key opts pre) =>
      let out := (Bucket.newWriter pf env ⟨b.pref⟩ key opts pre).exec disk s.files
      match out.1 with
      | .error e => (.result (.error e), { s with files := out.2 })
      | .ok w => (.result (.ok ()), { files := out.2, writers := s.writers ++ [w] })
  | .call (.write i ctx p) => s.onWriter disk i fun w => w.tryWrite env ctx p
  | .call (.close i ctx _) => s.onWriter disk i fun w => do
      let r ← w.close pf json env ctx
      return (r, { w with closed := true })
  | .call (.closeWithError i) => s.onWriter disk i fun w => do
      w.giveUp
      return (.ok (), { w with closed := true })
  | .call (.writeAll b ctx key p opts pre _) =>
      s.run disk (Bucket.writeAll pf json env ⟨b.pref⟩ ctx key p opts pre) .result
  | .call (.copy b ctx before dstKey srcKey _) =>
      s.run disk (FileDriver.copy json env ⟨b.pref⟩ ctx before dstKey srcKey) .result
  | .call (.updateMetadata b ctx key md _) =>
      s.run disk (FileDriver.updateMetadata pf json env ⟨b.pref⟩ ctx key md) .version
  | .call (.delete b ctx key pre) => s.run disk (FileDriver.delete json ⟨b.pref⟩ ctx key pre) .result
  | .attributes b ctx key => s.run disk (Bucket.attributes json ⟨b.pref⟩ ctx key) .attributes
  | .newRangeReader b ctx beforeRead key offset length =>
      s.run disk (FileDriver.newRangeReader json ⟨b.pref⟩ ctx beforeRead key offset length)
        fun r => .bytes (.ofExcept r)
  | .listPage b ctx pageToken pageSize opts =>
      (.page (Bucket.listPage ⟨b.pref⟩ ctx pageToken pageSize opts (.ok (walk s.files))
        (listedMD5 json disk s.files)), s)

/-- The answers of the file driver, each request with what it draws from outside. -/
def System.answers (s : System σ) : List (Request × Env) → List Reply
  | [] => []
  | (r, env) :: rs =>
      (s.respond pf json disk walk env r).1 :: (s.respond pf json disk walk env r).2.answers rs

end Respond

end FileDriver

/-- The answers of the mem driver to a run of requests. -/
def MemDriver.System.answers (pf : Platform) (s : MemDriver.System) : List Request → List Reply
  | [] => []
  | r :: rs => s.answer pf r :: (s.after pf r).answers pf rs

end Blobster
