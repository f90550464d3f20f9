import Blobster.Driver.Options
import Blobster.Interleave.Crash
import Mathlib.Logic.Function.Basic

/-!
# The file driver

`file/file.go` over a filesystem with three trees: `data/` for the bytes of the objects, `meta/` for
a JSON sidecar per object and `tmp/` for files in flight.  Every operation is a program of filesystem
steps, each of which can fail, and the process can stop before any of them.

The calls run under the bucket's mutex (a writer's `Close` from its first look at the committed state
on), so one operation is one sequential program.  Directories are not modelled: what a file in the way
of a directory does to a step is one of the ways in which the step fails.

* `FS`, `FsOp`, `disk` — the filesystem and what its steps do.
* `Codec` — `json.Marshal` and `json.Unmarshal` of a sidecar; `Codec.unary` is one.
* `Writer`, and the programs under the source's names.
* `observe` — what `Attributes`, `ReadAll` and the conditional checks see of a key.
-/

namespace Blobster.FileDriver

open Interleave

/-! ## The filesystem -/

/-- The files of a bucket: an object's bytes and its sidecar, by the components of its path, and the
temporary files. -/
inductive Path where
  | data (rel : List String)
  | side (rel : List String)
  | temp (n : ℕ)
deriving DecidableEq

/-- A file. -/
structure File where
  content : ByteArray
  modTime : ℤ
deriving DecidableEq

/-- The files, and the number of the next temporary file. -/
structure FS where
  file : Path → Option File := fun _ => none
  temps : ℕ := 0

/-- A filesystem step.  `mkdirAll` makes the directories that `path` is in. -/
inductive FsOp where
  | stat (path : Path)
  | readFile (path : Path)
  | mkdirAll (path : Path)
  | createTemp (mtime : ℤ)
  | write (path : Path) (p : ByteArray) (mtime : ℤ)
  | sync (path : Path)
  | close (path : Path)
  | rename (src dst : Path)
  | remove (path : Path)

/-- What a step answers: for `stat` the modification time and the size, for `createTemp` the name. -/
def FsOp.Res : FsOp → Type
  | .stat _ => Except Err (ℤ × ℕ)
  | .readFile _ => Except Err ByteArray
  | .createTemp _ => Except Err Path
  | _ => Except Err Unit

/-- The signature of the programs. -/
def fsSig : Sig := ⟨FsOp, FsOp.Res, Empty⟩

/-- A program of filesystem steps. -/
abbrev FsProg := Prog fsSig

namespace FS

/-- One file set or removed. -/
def set (fs : FS) (path : Path) (f : Option File) : FS :=
  { fs with file := Function.update fs.file path f }

@[simp] lemma set_self (fs : FS) (path : Path) (f : Option File) : (fs.set path f).file path = f := by
  simp [set]

lemma set_ne (fs : FS) {path path' : Path} (h : path' ≠ path) (f : Option File) :
    (fs.set path f).file path' = fs.file path' := by
  simp [set, h]

/-- Append to a file. -/
def written (fs : FS) (path : Path) (p : ByteArray) (mtime : ℤ) : Except Err Unit × FS :=
  match fs.file path with
  | none => (.error .notFound, fs)
  | some f => (.ok (), fs.set path (some ⟨f.content ++ p, mtime⟩))

/-- Move a file, in place of the one that was there. -/
def renamed (fs : FS) (src dst : Path) : Except Err Unit × FS :=
  match fs.file src with
  | none => (.error .notFound, fs)
  | some f => (.ok (), (fs.set src none).set dst (some f))

/-- Remove a file. -/
def removed (fs : FS) (path : Path) : Except Err Unit × FS :=
  match fs.file path with
  | none => (.error .notFound, fs)
  | some _ => (.ok (), fs.set path none)

/-- What a step does.  One on a file that is not there answers `os.ErrNotExist`. -/
def apply (fs : FS) : (o : FsOp) → o.Res × FS
  | .stat path =>
      (match fs.file path with
        | none => .error .notFound
        | some f => .ok (f.modTime, f.content.size), fs)
  | .readFile path =>
      (match fs.file path with
        | none => .error .notFound
        | some f => .ok f.content, fs)
  | .mkdirAll _ => (.ok (), fs)
  | .createTemp mtime =>
      (.ok (.temp fs.temps), { fs.set (.temp fs.temps) (some ⟨.empty, mtime⟩) with
        temps := fs.temps + 1 })
  | .write path p mtime => fs.written path p mtime
  | .sync _ => (.ok (), fs)
  | .close _ => (.ok (), fs)
  | .rename src dst => fs.renamed src dst
  | .remove path => fs.removed path

end FS

/-- The answer of a step that fails. -/
def FsOp.refuse : (o : FsOp) → o.Res
  | .stat _ => .error .backend
  | .readFile _ => .error .backend
  | .mkdirAll _ => .error .backend
  | .createTemp _ => .error .backend
  | .write _ _ _ => .error .backend
  | .sync _ => .error .backend
  | .close _ => .error .backend
  | .rename _ _ => .error .backend
  | .remove _ => .error .backend

/-- The disk that the programs run on. -/
def disk : Device fsSig FS := ⟨FS.apply, FsOp.refuse⟩

section Steps

/-- `os.Stat`. -/
def stat (path : Path) : FsProg (Except Err (ℤ × ℕ)) := Prog.perform (S := fsSig) (.stat path)

/-- `os.ReadFile`. -/
def readFile (path : Path) : FsProg (Except Err ByteArray) :=
  Prog.perform (S := fsSig) (.readFile path)

/-- `os.MkdirAll` of the directory that `path` is in. -/
def mkdirAll (path : Path) : FsProg (Except Err Unit) := Prog.perform (S := fsSig) (.mkdirAll path)

/-- `os.CreateTemp`. -/
def createTemp (mtime : ℤ) : FsProg (Except Err Path) := Prog.perform (S := fsSig) (.createTemp mtime)

/-- `File.Write`. -/
def write (path : Path) (p : ByteArray) (mtime : ℤ) : FsProg (Except Err Unit) :=
  Prog.perform (S := fsSig) (.write path p mtime)

/-- `File.Sync`. -/
def sync (path : Path) : FsProg (Except Err Unit) := Prog.perform (S := fsSig) (.sync path)

/-- `File.Close`. -/
def close (path : Path) : FsProg (Except Err Unit) := Prog.perform (S := fsSig) (.close path)

/-- `os.Rename`. -/
def rename (src dst : Path) : FsProg (Except Err Unit) :=
  Prog.perform (S := fsSig) (.rename src dst)

/-- `os.Remove`. -/
def remove (path : Path) : FsProg (Except Err Unit) := Prog.perform (S := fsSig) (.remove path)

end Steps

/-! ## Keys and sidecars -/

/-- A view of a bucket under a key prefix. -/
structure Bucket where
  pref : String := ""
deriving DecidableEq

/-- `filepath.Clean` of a path below the root, with `none` for one that leaves it. -/
def cleanRel : List String → List String → Option (List String)
  | [], stack => some stack.reverse
  | c :: rest, stack =>
      if c = "" ∨ c = "." then cleanRel rest stack
      else if c = ".." then
        match stack with
        | [] => none
        | _ :: stack => cleanRel rest stack
      else cleanRel rest (c :: stack)

/-- `paths`: the data and the metadata file of an object share the components of their path.  A path
that leaves one of the two trees could only come back into that one, so it is refused for the other. -/
def Bucket.paths (b : Bucket) (key : String) : Except Err (List String) :=
  let full := b.pref ++ key
  if full = "" then .error .invalidOption
  else match cleanRel ((full.toList.splitOn '/').map String.ofList) [] with
    | none => .error .invalidOption
    | some [] => .error .invalidOption
    | some rel => .ok rel

/-- `storedAttrs`, the content of a sidecar. -/
structure StoredAttrs where
  version : Version
  headers : Headers
  metadata : UserMetadata
  md5 : ByteArray
  size : ℕ
  createTime : ℤ
deriving DecidableEq

/-- `json.Marshal` and `json.Unmarshal` of sidecars. -/
structure Codec where
  marshal : StoredAttrs → ByteArray
  unmarshal : ByteArray → Option StoredAttrs
  unmarshal_marshal : ∀ stored, unmarshal (marshal stored) = some stored

/-- `mustMarshalAttrs`. -/
def mustMarshalAttrs (json : Codec) (attrs : ObjectAttrs) : ByteArray :=
  json.marshal
    { version := attrs.version, headers := attrs.headers, metadata := attrs.metadata,
      md5 := attrs.md5, size := attrs.size, createTime := attrs.createTime }

/-- `deriveVersion`. -/
def deriveVersion (info : ℤ × ℕ) : Version := toString info.1 ++ "-" ++ toString info.2

/-- What an operation draws from outside: `time.Now()`, the time the filesystem stamps on what it
writes, and `newVersion()`. -/
structure Env where
  now : ℤ
  mtime : ℤ
  version : Version

section Programs

variable (pf : Platform) (json : Codec)

/-! ## Reading -/

/-- The attributes that a data file and the content of its sidecar amount to. -/
def combine (info : ℤ × ℕ) (stored : StoredAttrs) : ObjectAttrs where
  headers := stored.headers
  metadata := stored.metadata
  createTime := stored.createTime
  modTime := info.1
  size := if stored.size > 0 ∨ stored.version ≠ "" then stored.size else info.2
  md5 := stored.md5
  version := stored.version

/-- `readAttributes`. -/
def readAttributes (rel : List String) : FsProg (Except Err ObjectAttrs) := do
  match ← stat (.data rel) with
  | .error e => return .error e
  | .ok info =>
      match ← readFile (.side rel) with
      | .error .notFound =>
          return .ok { modTime := info.1, size := info.2, version := deriveVersion info }
      | .error e => return .error e
      | .ok sidecar =>
          match json.unmarshal sidecar with
          | none => return .error .backend
          | some stored => return .ok (combine info stored)

/-- `statVersion`: the attributes, or `none` for an object that does not exist. -/
def statVersion (rel : List String) : FsProg (Except Err (Option ObjectAttrs)) := do
  match ← readAttributes json rel with
  | .error .notFound => return .ok none
  | .error e => return .error e
  | .ok attrs => return .ok (some attrs)

/-- `ReadAll`, through the section reader that `NewReader` limits to the size. -/
def readAll (rel : List String) : FsProg (Except Err ByteArray) := do
  match ← readAttributes json rel with
  | .error e => return .error e
  | .ok attrs =>
      match ← readFile (.data rel) with
      | .error e => return .error e
      | .ok content => return .ok (content.extract 0 attrs.size)

/-! ## Writing -/

/-- `newTemp`. -/
def newTemp (env : Env) : FsProg (Except Err Path) := do
  match ← mkdirAll (.temp 0) with
  | .error e => return .error e
  | .ok _ => createTemp env.mtime

/-- `writeFileAtomic`. -/
def writeFileAtomic (env : Env) (path : Path) (data : ByteArray) : FsProg (Except Err Unit) := do
  match ← newTemp env with
  | .error e => return .error e
  | .ok tmp =>
      match ← write tmp data env.mtime with
      | .error e =>
          discard (close tmp)
          discard (remove tmp)
          return .error e
      | .ok _ =>
          match ← sync tmp with
          | .error e =>
              discard (close tmp)
              discard (remove tmp)
              return .error e
          | .ok _ =>
              match ← close tmp with
              | .error e =>
                  discard (remove tmp)
                  return .error e
              | .ok _ =>
                  match ← rename tmp path with
                  | .error e =>
                      discard (remove tmp)
                      return .error e
                  | .ok _ => return .ok ()

/-- `commit`. -/
def commit (env : Env) (rel : List String) (data : ByteArray) (attrs : ObjectAttrs) :
    FsProg (Except Err Unit) := do
  match ← mkdirAll (.data rel) with
  | .error e => return .error e
  | .ok _ =>
      match ← mkdirAll (.side rel) with
      | .error e => return .error e
      | .ok _ =>
          match ← writeFileAtomic env (.data rel) data with
          | .error e => return .error e
          | .ok _ => writeFileAtomic env (.side rel) (mustMarshalAttrs json attrs)

/-- The attributes that `Copy` gives the copy. -/
def copyAttrs (env : Env) (attrs : ObjectAttrs) : ObjectAttrs :=
  { attrs with createTime := env.now, modTime := env.now, version := env.version }

/-- `Copy`. -/
def copy (env : Env) (b : Bucket) (ctx before : Option Err) (dstKey srcKey : String) :
    FsProg (Except Err Unit) :=
  match ctx, before, b.paths srcKey, b.paths dstKey with
  | some e, _, _, _ => return .error e
  | none, some e, _, _ => return .error e
  | none, none, .error e, _ => return .error e
  | none, none, .ok _, .error e => return .error e
  | none, none, .ok src, .ok dst => do
      match ← readFile (.data src) with
      | .error e => return .error e
      | .ok data =>
          match ← readAttributes json src with
          | .error e => return .error e
          | .ok srcAttrs => commit json env dst data (copyAttrs env srcAttrs)

/-- `Delete`. -/
def delete (b : Bucket) (ctx : Option Err) (key : String) (pre : List Precondition) :
    FsProg (Except Err Unit) :=
  match ctx, compilePreconditions pre, b.paths key with
  | some e, _, _ => return .error e
  | none, .error e, _ => return .error e
  | none, .ok _, .error e => return .error e
  | none, .ok compiled, .ok rel => do
      match ← statVersion json rel with
      | .error e => return .error e
      | .ok none => return .error .notFound
      | .ok (some current) =>
          if conditionsPass compiled (some current.version) then
            match ← remove (.data rel) with
            | .error e => return .error e
            | .ok _ =>
                discard (remove (.side rel))
                return .ok ()
          else return .error .preconditionFailed

/-- `UpdateMetadata`. -/
def updateMetadata (env : Env) (b : Bucket) (ctx : Option Err) (key : String) (md : UserMetadata) :
    FsProg (Except Err Version) :=
  match ctx, normalizeMetadata pf md, b.paths key with
  | some e, _, _ => return .error e
  | none, .error e, _ => return .error e
  | none, .ok _, .error e => return .error e
  | none, .ok normalized, .ok rel => do
      match ← statVersion json rel with
      | .error e => return .error e
      | .ok none => return .error .notFound
      | .ok (some current) =>
          let attrs := { current with metadata := normalized, version := env.version }
          match ← writeFileAtomic env (.side rel) (mustMarshalAttrs json attrs) with
          | .error e => return .error e
          | .ok _ => return .ok env.version

/-- An open writer: what it has hashed and how many bytes it has written to its temporary file. -/
structure Writer where
  rel : List String
  tmp : ℕ
  opts : WriterOptions
  preconditions : Preconditions
  hashed : ByteArray
  size : ℕ
  closed : Bool := false

/-- The attributes that a writer's `Close` stores. -/
def Writer.attrs (env : Env) (w : Writer) : ObjectAttrs where
  headers := w.opts.headers
  metadata := w.opts.metadata
  createTime := env.now
  modTime := env.now
  size := w.size
  md5 := pf.md5 w.hashed
  version := env.version

/-- The deferred removal of the temporary file, on every way out before the commit. -/
def Writer.abort (w : Writer) (e : Err) : FsProg (Except Err Unit) := do
  discard (remove (.temp w.tmp))
  return .error e

/-- The end of `Close`, when the conditions passed: the data file is renamed into place first (it is the
source of truth for existence), then the sidecar. -/
def Writer.install (env : Env) (w : Writer) : FsProg (Except Err Unit) := do
  match ← mkdirAll (.data w.rel) with
  | .error e => w.abort e
  | .ok _ =>
      match ← mkdirAll (.side w.rel) with
      | .error e => w.abort e
      | .ok _ =>
          match ← rename (.temp w.tmp) (.data w.rel) with
          | .error e => w.abort e
          | .ok _ => writeFileAtomic env (.side w.rel) (mustMarshalAttrs json (w.attrs pf env))

/-- A writer's `Close`. -/
def Writer.close (env : Env) (w : Writer) (ctx : Option Err) : FsProg (Except Err Unit) :=
  if w.closed then return .ok ()
  else match ctx with
    | some e => do
        discard (FileDriver.close (.temp w.tmp))
        w.abort e
    | none =>
        if w.opts.contentMD5.size > 0 ∧ pf.md5 w.hashed ≠ w.opts.contentMD5 then do
          discard (FileDriver.close (.temp w.tmp))
          w.abort .invalidOption
        else do
          match ← sync (.temp w.tmp) with
          | .error e =>
              discard (FileDriver.close (.temp w.tmp))
              w.abort e
          | .ok _ =>
              match ← FileDriver.close (.temp w.tmp) with
              | .error e => w.abort e
              | .ok _ =>
                  match ← statVersion json w.rel with
                  | .error e => w.abort e
                  | .ok current =>
                      if conditionsPass w.preconditions (current.map fun attrs => attrs.version) then
                        w.install pf json env
                      else w.abort .preconditionFailed

/-! ## What is observed of a key -/

/-- Body, size, headers, metadata, MD5 and version of an object. -/
structure Observed where
  body : ByteArray
  size : ℕ
  headers : Headers
  metadata : UserMetadata
  md5 : ByteArray
  version : Version
deriving DecidableEq

/-- What `Attributes` and `ReadAll` answer. -/
def observe (rel : List String) (fs : FS) : Except Err Observed :=
  match ((readAttributes json rel).exec disk fs).1, ((readAll json rel).exec disk fs).1 with
  | .error e, _ => .error e
  | .ok _, .error e => .error e
  | .ok attrs, .ok body =>
      .ok ⟨body, attrs.size, attrs.headers, attrs.metadata, attrs.md5, attrs.version⟩

/-! ## The operations -/

/-- The operations that change an object. -/
inductive Operation where
  | close (w : Writer) (ctx : Option Err)
  | copy (b : Bucket) (ctx before : Option Err) (dstKey srcKey : String)
  | updateMetadata (b : Bucket) (ctx : Option Err) (key : String) (md : UserMetadata)
  | delete (b : Bucket) (ctx : Option Err) (key : String) (pre : List Precondition)

namespace Operation

/-- The path of the object that the operation is about. -/
def rel : Operation → Except Err (List String)
  | .close w _ => .ok w.rel
  | .copy b _ _ dstKey _ => b.paths dstKey
  | .updateMetadata b _ key _ => b.paths key
  | .delete b _ key _ => b.paths key

/-- The program of the operation. -/
def prog (env : Env) : Operation → FsProg (Except Err Unit)
  | .close w ctx => w.close pf json env ctx
  | .copy b ctx before dstKey srcKey => FileDriver.copy json env b ctx before dstKey srcKey
  | .updateMetadata b ctx key md => do
      return (← FileDriver.updateMetadata pf json env b ctx key md).map fun _ => ()
  | .delete b ctx key pre => FileDriver.delete json b ctx key pre

/-- What is observed of the operation's key; a key without a path is refused by every call. -/
def observed (op : Operation) (fs : FS) : Except Err Observed :=
  match op.rel with
  | .error e => .error e
  | .ok rel => observe json rel fs

end Operation

end Programs

end Blobster.FileDriver
