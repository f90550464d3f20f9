import Blobster.Driver.FileCommit
import Blobster.Interleave.Contract

/-!
# Several handles on one directory

`file.New` makes a bucket with a mutex of its own.  Two buckets that were made on one directory, in one
process or in two, share the files and not the mutex, so the look of one `Close` at the committed state
and its renames can fall between the steps of another `Close`.

Here any number of threads write one key through any number of handles, all of them create-only or all
of them against one version.  Every filesystem step is atomic and may fail.

* `Dir` — the files, who holds which handle's mutex, who made which temporary file, and how many writes
  have returned without an error.
* `DirProg`, `Writer.section`, `Writer.closeShared`, `contend` — the program of a write, with its lock.
* `Alone` — a handle enters its commit section only when no handle is inside one.
* **`one_winner`** — then at most one write succeeds; **`two_winners`** — without it two do.
-/

set_option linter.unusedSectionVars false

namespace Blobster.FileDriver

open Interleave Contract

/-! ## The threads -/

/-- What a thread does: a filesystem step, `mu.Lock()`, or `mu.Unlock()` on the way out with the result
of `Close`. -/
inductive DirOp where
  | fs (o : FsOp)
  | lock
  | unlock (result : Except Err Unit)

/-- What a step answers. -/
def DirOp.Res : DirOp → Type
  | .fs o => o.Res
  | .lock => Unit
  | .unlock _ => Unit

/-- One write: what it draws from outside, its options, the chunks of its body, and what `ctx.Err()`
answers in `Close`. -/
structure WriteCall where
  env : Env
  opts : WriterOptions
  chunks : List ByteArray
  ctx : Option Err

/-- The signature of the threads. -/
def dirSig : Sig := ⟨DirOp, DirOp.Res, WriteCall⟩

/-- A program of a thread. -/
abbrev DirProg := Prog dirSig

/-- A program of filesystem steps, run by a thread. -/
def onDisk {α : Type} : FsProg α → DirProg α
  | .ret a => .ret a
  | .call o k => .call (S := dirSig) (.fs o) fun r => onDisk (k r)

lemma onDisk_bind {α β : Type} (f : α → FsProg β) :
    ∀ p : FsProg α, onDisk (p >>= f) = onDisk p >>= fun a => onDisk (f a)
  | .ret _ => rfl
  | .call o k => congrArg (Prog.call (S := dirSig) (.fs o)) (funext fun r => onDisk_bind f (k r))

/-- `mu.Lock()`. -/
def lock : DirProg Unit := Prog.perform (S := dirSig) .lock

/-- The deferred `mu.Unlock()`. -/
def unlock (result : Except Err Unit) : DirProg Unit := Prog.perform (S := dirSig) (.unlock result)

/-- What all the writes are conditional on. -/
inductive Condition where
  | create
  | replace (version : Version) (set : version ≠ "")

/-- The compiled condition. -/
def Condition.preconditions : Condition → Preconditions
  | .create => { ifNotExists := true }
  | .replace version _ => { ifMatch := version }

section Programs

variable (pf : Platform) (json : Codec)

/-- `Write`. -/
def Writer.write (env : Env) (w : Writer) (p : ByteArray) : FsProg (Except Err Writer) := do
  match ← FileDriver.write (.temp w.tmp) p env.mtime with
  | .error e => return .error e
  | .ok _ => return .ok { w with hashed := w.hashed ++ p, size := w.size + p.size }

/-- `CloseWithError`. -/
def Writer.closeWithError (w : Writer) : FsProg Unit := do
  discard (FileDriver.close (.temp w.tmp))
  discard (remove (.temp w.tmp))

/-- The renames of `Close`, with whether the temporary file has become the data file. -/
def Writer.commitFiles (env : Env) (w : Writer) : FsProg (Bool × Except Err Unit) := do
  match ← mkdirAll (.data w.rel) with
  | .error e => return (false, .error e)
  | .ok _ =>
      match ← mkdirAll (.side w.rel) with
      | .error e => return (false, .error e)
      | .ok _ =>
          match ← rename (.temp w.tmp) (.data w.rel) with
          | .error e => return (false, .error e)
          | .ok _ =>
              let r ← writeFileAtomic env (.side w.rel) (mustMarshalAttrs json (w.attrs pf env))
              return (true, r)

/-- The part of `Close` under the mutex. -/
def Writer.section (env : Env) (w : Writer) : FsProg (Bool × Except Err Unit) := do
  match ← statVersion json w.rel with
  | .error e => return (false, .error e)
  | .ok current =>
      if conditionsPass w.preconditions (current.map fun attrs => attrs.version) then
        w.commitFiles pf json env
      else return (false, .error .preconditionFailed)

/-- `Close`, with its lock.  What is deferred runs in the reverse order: the mutex is released before
the temporary file is removed. -/
def Writer.closeShared (env : Env) (w : Writer) (ctx : Option Err) : DirProg Unit :=
  match ctx with
  | some _ => onDisk w.closeWithError
  | none =>
      if w.opts.contentMD5.size > 0 ∧ pf.md5 w.hashed ≠ w.opts.contentMD5 then
        onDisk w.closeWithError
      else do
        match ← onDisk (sync (.temp w.tmp)) with
        | .error _ => onDisk w.closeWithError
        | .ok _ =>
            match ← onDisk (FileDriver.close (.temp w.tmp)) with
            | .error _ => onDisk (discard (remove (.temp w.tmp)))
            | .ok _ => do
                lock
                let out ← onDisk (w.section pf json env)
                unlock out.2
                if out.1 then return ()
                else onDisk (discard (remove (.temp w.tmp)))

/-- The `Write` calls of a write, and its `Close`; one that fails is given up. -/
def contendFrom (call : WriteCall) : List ByteArray → Writer → DirProg Unit
  | [], w => w.closeShared pf json call.env call.ctx
  | p :: chunks, w => do
      match ← onDisk (w.write call.env p) with
      | .error _ => onDisk w.closeWithError
      | .ok w => contendFrom call chunks w

/-- A write: `NewWriter`, any number of `Write` calls, `Close`. -/
def contend (rel : List String) (cond : Condition) (call : WriteCall) : DirProg Unit := do
  match ← onDisk (newTemp call.env) with
  | .ok (.temp n) =>
      contendFrom pf json call call.chunks
        { rel := rel, tmp := n, opts := call.opts, preconditions := cond.preconditions,
          hashed := .empty, size := 0 }
  | _ => return ()

end Programs

/-! ## The directory -/

variable {ι H : Type}

/-- The directory and its handles. -/
structure Dir (ι H : Type) where
  fs : FS
  held : H → Option ι := fun _ => none
  owner : ℕ → Option ι := fun _ => none
  wins : ℕ := 0

/-- The two files of an object. -/
abbrev Files := Option File × Option File

/-- The files of the key. -/
def Dir.files (w : Dir ι H) (rel : List String) : Files := (w.fs.file (.data rel), w.fs.file (.side rel))

/-- The temporary files, by who made them, after a step of `t`. -/
def Dir.claims (w : Dir ι H) (t : ι) : FsOp → ℕ → Option ι
  | .createTemp _ => Function.update w.owner w.fs.temps (some t)
  | _ => w.owner

/-- The directory after a filesystem step of `t` that takes effect. -/
def Dir.after (w : Dir ι H) (t : ι) (o : FsOp) : Dir ι H :=
  { w with fs := (w.fs.apply o).2, owner := w.claims t o }

/-- A step of the thread `t`; a filesystem step with the choice `true` fails. -/
def Dir.exec [DecidableEq H] (handle : ι → H) (t : ι) :
    (o : DirOp) → Bool → Dir ι H → Option (o.Res × Dir ι H)
  | .fs o, true, w => some (o.refuse, w)
  | .fs o, false, w => some ((w.fs.apply o).1, w.after t o)
  | .lock, _, w =>
      match w.held (handle t) with
      | some _ => none
      | none => some ((), { w with held := Function.update w.held (handle t) (some t) })
  | .unlock result, _, w =>
      some ((), { w with
        held := Function.update w.held (handle t) none
        wins := match result with
          | .ok _ => w.wins + 1
          | .error _ => w.wins })

/-- The token that a write draws is not the version that it replaces. -/
def Condition.Fresh : Condition → Version → Prop
  | .create, _ => True
  | .replace version _, drawn => drawn ≠ version

instance (cond : Condition) (drawn : Version) : Decidable (cond.Fresh drawn) := by
  cases cond <;> unfold Condition.Fresh <;> infer_instance

/-- Any number of threads, each with a handle, that write the key `rel` under the condition `cond`. -/
structure Contest (ι H : Type) where
  handle : ι → H
  pf : Platform
  json : Codec
  rel : List String
  cond : Condition

namespace Contest

variable [DecidableEq ι] [DecidableEq H] (s : Contest ι H)

/-- The machine of a contest. -/
def machine : Machine dirSig (Dir ι H) ι where
  Choice := Bool
  Env := Empty
  exec := Dir.exec s.handle
  start _ call w :=
    if s.cond.Fresh call.env.version then some (contend s.pf s.json s.rel s.cond call, w) else none
  env e _ := nomatch e

/-- A view of the run. -/
abbrev DView (ι H : Type) := View dirSig (Dir ι H) ι

/-- A step that takes a mutex. -/
def locks : Event dirSig ι → Bool
  | .call _ o _ => match (o : DirOp) with
    | .lock => true
    | _ => false
  | _ => false

/-- A handle enters its commit section only when no handle is inside one. -/
def Alone (v : DView ι H) (e : Event dirSig ι) : Prop := locks e = true → ∀ h, v.world.held h = none

/-! ## What the threads promise -/

/-- What a write that has succeeded leaves: files that refuse every other one. -/
def Taken (files : Files) : Prop :=
  match s.cond with
  | .create => files.1 ≠ none
  | .replace version _ => ∃ f g stored, files = (some f, some g) ∧
      s.json.unmarshal g.content = some stored ∧ stored.version ≠ version

/-- At most one thread is inside its commit section, and at most one write has succeeded. -/
structure Inv (w : Dir ι H) : Prop where
  holder : ∀ h u, w.held h = some u → s.handle u = h
  exclusive : ∀ h h' u u', w.held h = some u → w.held h' = some u' → h = h'
  owned : ∀ n u, w.owner n = some u → n < w.fs.temps
  taken : 0 < w.wins → s.Taken (w.files s.rel)
  wins_le : w.wins ≤ 1

/-- A thread changes the files of the key, and the number of successes, only inside its commit section;
it leaves the temporary files and the mutexes of the others alone. -/
structure Guar (t : ι) (w w' : Dir ι H) : Prop where
  files : w.held (s.handle t) ≠ some t → w'.files s.rel = w.files s.rel ∧ w'.wins = w.wins
  temps : ∀ n u, w.owner n = some u → u ≠ t → w'.fs.file (.temp n) = w.fs.file (.temp n)
  owner : ∀ n u, w.owner n = some u → w'.owner n = some u
  held : ∀ h u, u ≠ t → (w'.held h = some u ↔ w.held h = some u)

/-- The contract of the contest. -/
def contract : Contract s.machine where
  adm := Alone
  inv v := s.Inv v.world
  guar t v v' := s.Guar t v.world v'.world
  idle t v := v.world.held (s.handle t) ≠ some t

/-- A step of `t` on its own temporary files. -/
structure Keeps (t : ι) (w w' : Dir ι H) : Prop where
  held : w'.held = w.held
  files : w'.files s.rel = w.files s.rel
  wins : w'.wins = w.wins
  temps : ∀ n u, w.owner n = some u → u ≠ t → w'.fs.file (.temp n) = w.fs.file (.temp n)
  owner : ∀ n u, w.owner n = some u → w'.owner n = some u
  owned : ∀ n u, w'.owner n = some u → n < w'.fs.temps

variable {s} {t : ι} {w w' : Dir ι H}

lemma Keeps.guar (h : s.Keeps t w w') : s.Guar t w w' :=
  ⟨fun _ => ⟨h.files, h.wins⟩, h.temps, h.owner, fun _ _ _ => by rw [h.held]⟩

lemma Keeps.inv (h : s.Keeps t w w') (hi : s.Inv w) : s.Inv w' where
  holder := by
    rw [h.held]
    exact hi.holder
  exclusive := by
    rw [h.held]
    exact hi.exclusive
  owned := h.owned
  taken := by
    rw [h.wins, h.files]
    exact hi.taken
  wins_le := h.wins ▸ hi.wins_le

/-- A thread with the temporary file `n` inside its commit section, where the key has these files and
there have been this many successes. -/
structure Inside (s : Contest ι H) (t : ι) (n : ℕ) (files : Files) (wins : ℕ) (w : Dir ι H) :
    Prop where
  held : w.held (s.handle t) = some t
  owner : w.owner n = some t
  files : w.files s.rel = files
  wins : w.wins = wins

/-- A property of the world that neither the others nor a thread's own temporary files affect. -/
structure Lasting (s : Contest ι H) (t : ι) (P : Dir ι H → Prop) : Prop where
  interf : ∀ {v v' : DView ι H}, s.contract.Interf t v v' → P v.world → P v'.world
  keeps : ∀ {w w' : Dir ι H}, s.Keeps t w w' → P w → P w'

lemma interf_guar {v v' : DView ι H} (h : s.contract.Interf t v v') :
    s.Inv v.world ∧ ∃ u, u ≠ t ∧ s.Guar u v.world v'.world := by
  obtain ⟨hi, -, ⟨e, -⟩ | ⟨u, hu, -, hg⟩⟩ := h
  · exact nomatch e
  · exact ⟨hi, u, hu, hg⟩

lemma lasting_outside : Lasting s t fun w => w.held (s.handle t) ≠ some t where
  interf h hw := by
    obtain ⟨-, u, hu, hg⟩ := interf_guar h
    exact fun hh => hw ((hg.held _ _ hu.symm).mp hh)
  keeps h hw := by rwa [h.held]

lemma lasting_inside (n : ℕ) (files : Files) (wins : ℕ) :
    Lasting s t (s.Inside t n files wins) where
  interf h hw := by
    obtain ⟨hi, u, hu, hg⟩ := interf_guar h
    -- Nobody else is inside: there is one section at a time.
    have hout : ∀ w : Dir ι H, w.held (s.handle t) = some t → s.Inv w →
        w.held (s.handle u) ≠ some u := by
      intro w ht hi hu'
      rw [hi.exclusive _ _ _ _ hu' ht, ht] at hu'
      exact hu (Option.some.inj hu').symm
    obtain ⟨hfiles, hwins⟩ := hg.files (hout _ hw.held hi)
    exact ⟨(hg.held _ _ hu.symm).mpr hw.held, hg.owner _ _ hw.owner, hfiles.trans hw.files,
      hwins.trans hw.wins⟩
  keeps h hw := ⟨h.held ▸ hw.held, h.owner _ _ hw.owner, h.files.trans hw.files,
    h.wins.trans hw.wins⟩

lemma lasting_owned (n : ℕ) : Lasting s t fun w => w.owner n = some t where
  interf h hw := by
    obtain ⟨-, u, -, hg⟩ := interf_guar h
    exact hg.owner _ _ hw
  keeps h hw := h.owner _ _ hw

lemma Lasting.and {P P' : Dir ι H → Prop} (h : Lasting s t P) (h' : Lasting s t P') :
    Lasting s t fun w => P w ∧ P' w :=
  ⟨fun hs hw => ⟨h.interf hs hw.1, h'.interf hs hw.2⟩,
    fun hk hw => ⟨h.keeps hk hw.1, h'.keeps hk hw.2⟩⟩

/-! ## One step of a thread -/

section Rules

variable {α : Type} {Q : α → DView ι H → Prop} {v : DView ι H} {P : Dir ι H → Prop}

/-- A filesystem step takes effect or fails. -/
lemma safe_fs {o : FsOp} {k : o.Res → DirProg α}
    (hP : ∀ {v v' : DView ι H}, s.contract.Interf t v v' → P v.world → P v'.world) (h : P v.world)
    (hok : ∀ w, s.Inv w → P w → s.Guar t w (w.after t o) ∧ s.Inv (w.after t o) ∧
      ∀ v', v'.world = w.after t o → s.contract.Safe t Q (k (w.fs.apply o).1) v')
    (herr : ∀ v', s.Inv v'.world → P v'.world → s.contract.Safe t Q (k o.refuse) v') :
    s.contract.Safe t Q (Prog.call (S := dirSig) (.fs o) k) v := by
  intro v₁ hr hi ch r w₁ he _
  have hP₁ : P v₁.world := hr.stable (P := fun v => P v.world) hP h
  cases ch with
  | true =>
      obtain ⟨rfl, rfl⟩ := Prod.mk.inj (Option.some.inj he)
      have hi : s.Inv v₁.world := hi
      exact ⟨⟨fun _ => ⟨rfl, rfl⟩, fun _ _ _ _ => rfl, fun _ _ h => h, fun _ _ _ => Iff.rfl⟩, hi,
        herr _ hi hP₁⟩
  | false =>
      obtain ⟨rfl, rfl⟩ := Prod.mk.inj (Option.some.inj he)
      obtain ⟨hg, hi', hk⟩ := hok _ hi hP₁
      exact ⟨hg, hi', hk _ rfl⟩

/-- A step that changes no file. -/
lemma safe_look {o : FsOp} {k : o.Res → DirProg α}
    (hP : ∀ {v v' : DView ι H}, s.contract.Interf t v v' → P v.world → P v'.world) (h : P v.world)
    (hlook : ∀ w : Dir ι H, w.after t o = w)
    (hk : ∀ r v', s.Inv v'.world → P v'.world →
      (r = (v'.world.fs.apply o).1 ∨ r = o.refuse) → s.contract.Safe t Q (k r) v') :
    s.contract.Safe t Q (Prog.call (S := dirSig) (.fs o) k) v := by
  refine safe_fs hP h (fun w hi hw => ?_) fun v' hi hw => hk _ v' hi hw (.inr rfl)
  rw [hlook w]
  refine ⟨⟨fun _ => ⟨rfl, rfl⟩, fun _ _ _ _ => rfl, fun _ _ h => h, fun _ _ _ => Iff.rfl⟩, hi, ?_⟩
  rintro v' rfl
  exact hk _ v' hi hw (.inl rfl)

/-- A step on the thread's own temporary files. -/
lemma safe_private {o : FsOp} {k : o.Res → DirProg α} (hP : Lasting s t P) (h : P v.world)
    (hkeeps : ∀ w, s.Inv w → P w → s.Keeps t w (w.after t o))
    (hk : ∀ r v', s.Inv v'.world → P v'.world → s.contract.Safe t Q (k r) v') :
    s.contract.Safe t Q (Prog.call (S := dirSig) (.fs o) k) v := by
  refine safe_fs hP.interf h (fun w hi hw => ?_) fun v' hi hw => hk _ v' hi hw
  have hkw := hkeeps w hi hw
  refine ⟨hkw.guar, hkw.inv hi, ?_⟩
  rintro v' hv'
  exact hk _ v' (hv' ▸ hkw.inv hi) (hv' ▸ hP.keeps hkw hw)

end Rules

/-- A step that changes one temporary file of the thread. -/
lemma keeps_temp {n : ℕ} {fs' : FS} (hi : s.Inv w) (hn : w.owner n = some t)
    (hfile : ∀ path, path ≠ .temp n → fs'.file path = w.fs.file path)
    (htemps : fs'.temps = w.fs.temps) : s.Keeps t w { w with fs := fs' } where
  held := rfl
  files := Prod.ext (hfile _ (by simp)) (hfile _ (by simp))
  wins := rfl
  temps m u hm hu := hfile _ fun heq => hu (by
    obtain rfl : m = n := by simpa using heq
    exact Option.some.inj (hm.symm.trans hn))
  owner _ _ h := h
  owned m u hm := htemps ▸ hi.owned m u hm

lemma keeps_write {n : ℕ} (hi : s.Inv w) (hn : w.owner n = some t) (p : ByteArray) (mtime : ℤ) :
    s.Keeps t w (w.after t (.write (.temp n) p mtime)) := by
  refine keeps_temp hi hn (fun path hpath => ?_) ?_ <;>
    simp only [FS.apply, FS.written] <;> split
  · rfl
  · exact FS.set_ne _ hpath _
  · rfl
  · rfl

lemma keeps_remove {n : ℕ} (hi : s.Inv w) (hn : w.owner n = some t) :
    s.Keeps t w (w.after t (.remove (.temp n))) := by
  refine keeps_temp hi hn (fun path hpath => ?_) ?_ <;>
    simp only [FS.apply, FS.removed] <;> split
  · rfl
  · exact FS.set_ne _ hpath _
  · rfl
  · rfl

lemma createTemp_file (t : ι) (mtime : ℤ) (path : Path) (h : path ≠ .temp w.fs.temps) :
    (w.after t (.createTemp mtime)).fs.file path = w.fs.file path :=
  FS.set_ne w.fs h _

lemma keeps_createTemp (hi : s.Inv w) (mtime : ℤ) : s.Keeps t w (w.after t (.createTemp mtime)) where
  held := rfl
  files := Prod.ext (createTemp_file t mtime (.data s.rel) (by simp))
    (createTemp_file t mtime (.side s.rel) (by simp))
  wins := rfl
  temps m u hm _ := createTemp_file t mtime _ (by
    have := hi.owned m u hm
    simp only [ne_eq, Path.temp.injEq]
    omega)
  owner m u hm := by
    have := hi.owned m u hm
    exact (Function.update_of_ne (by omega) _ _).trans hm
  owned m u hm := by
    by_cases h : m = w.fs.temps
    · exact h ▸ Nat.lt_succ_self _
    · have : w.owner m = some u := (Function.update_of_ne h _ _).symm.trans hm
      exact Nat.lt_succ_of_lt (hi.owned m u this)

/-- A temporary file of the thread and its content. -/
def Wrote (t : ι) (n : ℕ) (content : ByteArray) (w : Dir ι H) : Prop :=
  w.owner n = some t ∧ ∃ mtime, w.fs.file (.temp n) = some ⟨content, mtime⟩

lemma Wrote.interf {n : ℕ} {content : ByteArray} {v v' : DView ι H} (h : s.contract.Interf t v v')
    (hw : Wrote t n content v.world) : Wrote t n content v'.world := by
  obtain ⟨-, u, hu, hg⟩ := interf_guar h
  obtain ⟨hown, mtime, hfile⟩ := hw
  exact ⟨hg.owner _ _ hown, mtime, (hg.temps _ _ hown hu.symm).trans hfile⟩

/-- A thread inside its section that has written a temporary file. -/
structure Writing (s : Contest ι H) (t : ι) (n : ℕ) (files : Files) (m : ℕ) (content : ByteArray)
    (w : Dir ι H) : Prop extends s.Inside t n files 0 w where
  wrote : Wrote t m content w

lemma Writing.interf {n m : ℕ} {files : Files} {content : ByteArray} {v v' : DView ι H}
    (h : s.contract.Interf t v v') (hw : s.Writing t n files m content v.world) :
    s.Writing t n files m content v'.world :=
  ⟨(lasting_inside n files 0).interf h hw.toInside, hw.wrote.interf h⟩

/-- A rename onto a file of the key, inside the section and before any success. -/
lemma rename_inside {files : Files} {n m : ℕ} (dst : Path) (hi : s.Inv w)
    (hw : s.Inside t n files 0 w) (hm : w.owner m = some t) (hdst : ∀ k, dst ≠ .temp k) :
    s.Guar t w (w.after t (.rename (.temp m) dst)) ∧ s.Inv (w.after t (.rename (.temp m) dst)) := by
  have hfile : ∀ k, k ≠ m →
      (w.after t (.rename (.temp m) dst)).fs.file (.temp k) = w.fs.file (.temp k) := by
    intro k hk
    simp only [Dir.after, FS.apply, FS.renamed]
    split
    · rfl
    · exact (FS.set_ne _ (hdst k).symm _).trans (FS.set_ne _ (by simpa using hk) _)
  have htemps : (w.after t (.rename (.temp m) dst)).fs.temps = w.fs.temps := by
    simp only [Dir.after, FS.apply, FS.renamed]
    split <;> rfl
  refine ⟨⟨fun h => absurd hw.held h, fun k u hk hu => hfile k ?_, fun _ _ h => h,
    fun _ _ _ => Iff.rfl⟩, ⟨hi.holder, hi.exclusive, fun k u hk => ?_, fun h => ?_, hi.wins_le⟩⟩
  · rintro rfl
    exact hu (Option.some.inj (hk.symm.trans hm))
  · rw [htemps]
    exact hi.owned k u hk
  · have : 0 < w.wins := h
    rw [hw.wins] at this
    omega

/-! ## The commit section -/

section Section

variable {v : DView ι H} {files : Files}

/-- What `statVersion` answers if no step fails. -/
def statFiles (json : Codec) (files : Files) : Except Err (Option ObjectAttrs) :=
  match files.1 with
  | none => .ok none
  | some f =>
      let info := (f.modTime, f.content.size)
      match files.2 with
      | none => .ok (some { modTime := info.1, size := info.2, version := deriveVersion info })
      | some g =>
          match json.unmarshal g.content with
          | none => .error .backend
          | some stored => .ok (some (combine info stored))

/-- The look at the committed state: two steps, between which nobody else changes it. -/
lemma safe_statVersion {n wins : ℕ} (h : s.Inside t n files wins v.world) :
    s.contract.Safe t (fun r v' => s.Inside t n files wins v'.world ∧
        (r = statFiles s.json files ∨ ∃ e, r = .error e))
      (onDisk (statVersion s.json s.rel)) v := by
  have hlast := lasting_inside (s := s) (t := t) n files wins
  have hret : ∀ (r : Except Err (Option ObjectAttrs)) (v' : DView ι H),
      s.Inside t n files wins v'.world → (r = statFiles s.json files ∨ ∃ e, r = .error e) →
      s.contract.Safe t (fun r v' => s.Inside t n files wins v'.world ∧
        (r = statFiles s.json files ∨ ∃ e, r = .error e)) (.ret r) v' := fun r v' h' hr v'' hrely _ =>
    ⟨hrely.stable (P := fun v => s.Inside t n files wins v.world) hlast.interf h', hr⟩
  refine safe_look (o := .stat (.data s.rel)) hlast.interf h (fun _ => rfl) fun r v₁ hi₁ h₁ hr => ?_
  have hdata : v₁.world.fs.file (.data s.rel) = files.1 := congrArg Prod.fst h₁.files
  rcases hr with rfl | rfl
  · simp only [FS.apply, hdata]
    cases hf : files.1 with
    | none => exact hret _ _ h₁ (.inl (by simp [statFiles, hf]))
    | some f =>
        refine safe_look (o := .readFile (.side s.rel)) hlast.interf h₁ (fun _ => rfl)
          fun r v₂ hi₂ h₂ hr => ?_
        have hside : v₂.world.fs.file (.side s.rel) = files.2 := congrArg Prod.snd h₂.files
        rcases hr with rfl | rfl
        · simp only [FS.apply, hside]
          cases hg : files.2 with
          | none => exact hret _ _ h₂ (.inl (by simp [statFiles, hf, hg]))
          | some g =>
              simp only [Prog.bind]
              cases hj : s.json.unmarshal g.content with
              | none => exact hret _ _ h₂ (.inr ⟨.backend, rfl⟩)
              | some stored => exact hret _ _ h₂ (.inl (by simp [statFiles, hf, hg, hj]))
        · exact hret _ _ h₂ (.inr ⟨.backend, rfl⟩)
  · exact hret _ _ h₁ (.inr ⟨.backend, rfl⟩)

/-- A check that passes shows that no write has succeeded. -/
lemma not_taken_of_passes {current : Option ObjectAttrs}
    (hstat : .ok current = statFiles s.json files)
    (hpass : conditionsPass s.cond.preconditions (current.map fun attrs => attrs.version) = true) :
    ¬ s.Taken files := by
  unfold Taken
  cases hcond : s.cond with
  | create =>
      have hnone : current = none := by simpa [hcond, Condition.preconditions] using hpass
      subst hnone
      intro hf
      obtain ⟨f, hf⟩ := Option.ne_none_iff_exists'.mp hf
      simp only [statFiles, hf] at hstat
      split at hstat
      · cases hstat
      · split at hstat <;> cases hstat
  | replace version hv =>
      rintro ⟨f, g, stored, rfl, hj, hne⟩
      simp only [statFiles, hj, Except.ok.injEq] at hstat
      subst hstat
      rw [hcond, Condition.preconditions, conditionsPass_ifMatch hv] at hpass
      exact hne (by simpa [combine] using hpass)

/-- What the section leaves, by its result: after a success, the files that it has installed. -/
structure Left (s : Contest ι H) (t : ι) (n : ℕ) (env : Env) (writer : Writer)
    (r : Except Err Unit) (w : Dir ι H) : Prop where
  held : w.held (s.handle t) = some t
  owner : w.owner n = some t
  installed : r = .ok () → w.wins = 0 ∧ ∃ f g, w.files s.rel = (some f, some g) ∧
    g.content = mustMarshalAttrs s.json (writer.attrs s.pf env)

variable {n wins : ℕ} {env : Env} {writer : Writer}

lemma Inside.left {r : Except Err Unit} (h : s.Inside t n files wins v.world)
    (hr : r = .ok () → wins = 0 ∧ ∃ f g, files = (some f, some g) ∧
      g.content = mustMarshalAttrs s.json (writer.attrs s.pf env)) {v' : DView ι H}
    (hrely : s.contract.Rely t v v') : s.Left t n env writer r v'.world :=
  have h' := hrely.stable (P := fun v => s.Inside t n files wins v.world)
    (lasting_inside n files wins).interf h
  ⟨h'.held, h'.owner, fun hok => ⟨h'.wins.trans (hr hok).1, h'.files ▸ (hr hok).2⟩⟩

lemma Left.rely {r : Except Err Unit} (h : s.Left t n env writer r v.world) {v' : DView ι H}
    (hrely : s.contract.Rely t v v') : s.Left t n env writer r v'.world :=
  have hin : s.Inside t n (v.world.files s.rel) v.world.wins v.world := ⟨h.held, h.owner, rfl, rfl⟩
  hin.left h.installed hrely

/-- A success is one for good. -/
lemma Left.taken {w : Dir ι H} {r : Except Err Unit} (h : s.Left t n env writer r w)
    (hfresh : s.cond.Fresh env.version) (hr : r = .ok ()) : s.Taken (w.files s.rel) := by
  obtain ⟨-, f, g, hfiles, hcontent⟩ := h.installed hr
  unfold Taken
  cases hcond : s.cond with
  | create =>
      rw [hfiles]
      exact Option.some_ne_none f
  | replace version hv =>
      refine ⟨f, g, _, hfiles, (congrArg _ hcontent).trans (s.json.unmarshal_marshal _), ?_⟩
      rw [hcond] at hfresh
      exact hfresh

lemma Inside.left_error (h : s.Inside t n files wins v.world) (e : Err) {v' : DView ι H}
    (hrely : s.contract.Rely t v v') : s.Left t n env writer (.error e) v'.world :=
  h.left (r := .error e) (fun hok => nomatch hok) hrely

lemma Inside.safe_error (h : s.Inside t n files wins v.world) (e : Err) :
    s.contract.Safe t (fun r v' => s.Left t n env writer r v'.world) (.ret (.error e)) v :=
  fun _ hrely _ => h.left_error e hrely

/-- `writeFileAtomic` gives up: its temporary file is removed. -/
lemma Inside.left_removed {m : ℕ} (h : s.Inside t n files wins v.world)
    (hm : v.world.owner m = some t) (e : Err) :
    s.contract.Safe t (fun r v' => s.Left t n env writer r v'.world)
      (Prog.call (S := dirSig) (.fs (.remove (.temp m))) fun _ => .ret (.error e)) v :=
  safe_private (P := fun w => s.Inside t n files wins w ∧ w.owner m = some t)
    ((lasting_inside n files wins).and (lasting_owned m)) ⟨h, hm⟩
    (fun _ hi hw => keeps_remove hi hw.2) fun _ _ _ hw => hw.1.safe_error e

/-- The sidecar is written beside a data file. -/
lemma safe_writeSide {f : File} {side : Option File} (h : s.Inside t n (some f, side) 0 v.world) :
    s.contract.Safe t (fun r v' => s.Left t n env writer r v'.world)
      (onDisk (writeFileAtomic env (.side s.rel) (mustMarshalAttrs s.json (writer.attrs s.pf env)))) v := by
  have hlast := lasting_inside (s := s) (t := t) n (some f, side) 0
  refine safe_look (o := .mkdirAll (.temp 0)) hlast.interf h (fun _ => rfl)
    fun r v₁ hi₁ h₁ hr => ?_
  rcases hr with rfl | rfl
  swap
  · exact h₁.safe_error _
  refine safe_fs (o := .createTemp env.mtime) hlast.interf h₁ (fun w₂ hi₂ h₂ => ?_)
    fun v₂ _ h₂ => h₂.safe_error _
  have hkeeps := keeps_createTemp (t := t) hi₂ env.mtime
  refine ⟨hkeeps.guar, hkeeps.inv hi₂, fun v₂ hv₂ => ?_⟩
  have hmade : s.Writing t n (some f, side) w₂.fs.temps .empty v₂.world := by
    rw [hv₂]
    exact ⟨hlast.keeps hkeeps h₂, Function.update_self _ _ _, env.mtime, FS.set_self _ _ _⟩
  have hans : (w₂.fs.apply (.createTemp env.mtime)).1 = .ok (.temp w₂.fs.temps) := rfl
  rw [hans]
  generalize w₂.fs.temps = m at hmade ⊢
  generalize hdata : mustMarshalAttrs s.json (writer.attrs s.pf env) = data
  refine safe_fs (o := .write (.temp m) data env.mtime) Writing.interf hmade (fun w₃ hi₃ h₃ => ?_)
    fun v₃ _ h₃ => ?_
  swap
  · exact safe_look (o := .close (.temp m)) Writing.interf h₃ (fun _ => rfl)
      fun _ v₄ _ h₄ _ => h₄.left_removed h₄.wrote.1 _
  have hkeeps := keeps_write hi₃ h₃.wrote.1 data env.mtime
  refine ⟨hkeeps.guar, hkeeps.inv hi₃, fun v₃ hv₃ => ?_⟩
  obtain ⟨hown, mtime, hfile⟩ := h₃.wrote
  have hwritten : w₃.fs.apply (.write (.temp m) data env.mtime) =
      (.ok (), w₃.fs.set (.temp m) (some ⟨.empty ++ data, env.mtime⟩)) := by
    simp only [FS.apply, FS.written, hfile]
    rfl
  have h₃' : s.Writing t n (some f, side) m data v₃.world := by
    refine hv₃ ▸ ⟨hlast.keeps hkeeps h₃.toInside, hown, env.mtime, ?_⟩
    simp only [Dir.after, hwritten]
    rw [FS.set_self, ByteArray.empty_append]
  simp only [hwritten]
  refine safe_look (o := .sync (.temp m)) Writing.interf h₃' (fun _ => rfl) fun r v₄ _ h₄ hr => ?_
  rcases hr with rfl | rfl
  swap
  · exact safe_look (o := .close (.temp m)) Writing.interf h₄ (fun _ => rfl)
      fun _ v₅ _ h₅ _ => h₅.left_removed h₅.wrote.1 _
  refine safe_look (o := .close (.temp m)) Writing.interf h₄ (fun _ => rfl) fun r v₅ _ h₅ hr => ?_
  rcases hr with rfl | rfl
  swap
  · exact h₅.left_removed h₅.wrote.1 _
  refine safe_fs (o := .rename (.temp m) (.side s.rel)) Writing.interf h₅ (fun w₆ hi₆ h₆ => ?_)
    fun v₆ _ h₆ => h₆.left_removed h₆.wrote.1 _
  obtain ⟨hguar, hinv⟩ := rename_inside (.side s.rel) hi₆ h₆.toInside h₆.wrote.1 (by simp)
  refine ⟨hguar, hinv, fun v₆ hv₆ => ?_⟩
  obtain ⟨hown₆, mtime₆, hfile₆⟩ := h₆.wrote
  have hrenamed : w₆.fs.apply (.rename (.temp m) (.side s.rel)) =
      (.ok (), (w₆.fs.set (.temp m) none).set (.side s.rel) (some ⟨data, mtime₆⟩)) := by
    simp only [FS.apply, FS.renamed, hfile₆]
    rfl
  have hin : s.Inside t n (some f, some ⟨data, mtime₆⟩) 0 v₆.world := by
    refine hv₆ ▸ ⟨h₆.held, h₆.owner, ?_, h₆.wins⟩
    have hf : w₆.fs.file (.data s.rel) = some f := congrArg Prod.fst h₆.files
    simp only [Dir.files, Dir.after, hrenamed, FS.set_self]
    rw [FS.set_ne _ (by simp), FS.set_ne _ (by simp), hf]
  simp only [hrenamed]
  exact fun _ hrely _ => hin.left (fun _ => ⟨rfl, f, _, rfl, hdata.symm⟩) hrely

/-- The renames of `Close`, when the check has passed. -/
lemma safe_install (hrel : writer.rel = s.rel) (h : s.Inside t writer.tmp files 0 v.world) :
    s.contract.Safe t (fun out v' => s.Left t writer.tmp env writer out.2 v'.world)
      (onDisk (writer.commitFiles s.pf s.json env)) v := by
  have hlast := lasting_inside (s := s) (t := t) writer.tmp files 0
  refine safe_look (o := .mkdirAll (.data writer.rel)) hlast.interf h (fun _ => rfl)
    fun r v₁ _ h₁ hr => ?_
  rcases hr with rfl | rfl
  swap
  · exact fun _ hrely _ => h₁.left_error _ hrely
  refine safe_look (o := .mkdirAll (.side writer.rel)) hlast.interf h₁ (fun _ => rfl)
    fun r v₂ _ h₂ hr => ?_
  rcases hr with rfl | rfl
  swap
  · exact fun _ hrely _ => h₂.left_error _ hrely
  refine safe_fs (o := .rename (.temp writer.tmp) (.data writer.rel)) hlast.interf h₂
    (fun w₃ hi₃ h₃ => ?_) fun v₃ _ h₃ => fun _ hrely _ => h₃.left_error _ hrely
  obtain ⟨hguar, hinv⟩ := rename_inside (.data writer.rel) hi₃ h₃ h₃.owner (by simp)
  refine ⟨hguar, hinv, fun v₃ hv₃ => ?_⟩
  cases hfile : w₃.fs.file (.temp writer.tmp) with
  | none =>
      have hmissing : w₃.fs.apply (.rename (.temp writer.tmp) (.data writer.rel)) =
          (.error .notFound, w₃.fs) := by
        simp only [FS.apply, FS.renamed, hfile]
        rfl
      have hin : s.Inside t writer.tmp files 0 v₃.world := by
        refine hv₃ ▸ ⟨h₃.held, h₃.owner, ?_, h₃.wins⟩
        simp only [Dir.after, hmissing]
        exact h₃.files
      simp only [hmissing]
      exact fun _ hrely _ => hin.left_error _ hrely
  | some f =>
      have hrenamed : w₃.fs.apply (.rename (.temp writer.tmp) (.data writer.rel)) =
          (.ok (), (w₃.fs.set (.temp writer.tmp) none).set (.data writer.rel) (some f)) := by
        simp only [FS.apply, FS.renamed, hfile]
        rfl
      have hin : s.Inside t writer.tmp (some f, files.2) 0 v₃.world := by
        refine hv₃ ▸ ⟨h₃.held, h₃.owner, ?_, h₃.wins⟩
        have hside : w₃.fs.file (.side s.rel) = files.2 := congrArg Prod.snd h₃.files
        simp only [Dir.files, Dir.after, hrenamed, hrel, FS.set_self]
        rw [FS.set_ne _ (by simp), FS.set_ne _ (by simp), hside]
      simp only [hrenamed]
      change s.contract.Safe t _ (onDisk (writeFileAtomic env (.side writer.rel)
        (mustMarshalAttrs s.json (writer.attrs s.pf env)) >>= fun r => .ret (true, r))) v₃
      rw [onDisk_bind, hrel]
      have hi₃' : s.Inv v₃.world := hv₃ ▸ hinv
      exact Safe.bind hi₃' (safe_writeSide hin) fun r v₄ _ h₄ v₅ hrely _ => h₄.rely hrely

/-- The part of `Close` under the mutex. -/
lemma safe_section (hrel : writer.rel = s.rel) (hpre : writer.preconditions = s.cond.preconditions)
    (h : s.Inside t writer.tmp files wins v.world) (hi : s.Inv v.world) :
    s.contract.Safe t (fun out v' => s.Left t writer.tmp env writer out.2 v'.world)
      (onDisk (writer.section s.pf s.json env)) v := by
  rw [Writer.section, hrel, onDisk_bind]
  refine Safe.bind hi (safe_statVersion h) ?_
  rintro (e | current) v₁ hi₁ ⟨h₁, hr⟩
  · exact fun _ hrely _ => h₁.left_error _ hrely
  · rcases hr with hstat | ⟨e, he⟩
    swap
    · cases he
    dsimp only
    split
    · rename_i hpass
      rw [hpre] at hpass
      have hzero : wins = 0 := by
        have htaken : 0 < v₁.world.wins → s.Taken (v₁.world.files s.rel) := Inv.taken hi₁
        rw [h₁.wins, h₁.files] at htaken
        by_contra hne
        exact not_taken_of_passes hstat hpass (htaken (by omega))
      subst hzero
      exact safe_install hrel h₁
    · exact fun _ hrely _ => h₁.left_error _ hrely

end Section

/-! ## The program of a write -/

section Programs

variable {v : DView ι H} {writer : Writer} {call : WriteCall}

/-- A thread outside its section, with its temporary file. -/
structure Outside (s : Contest ι H) (t : ι) (n : ℕ) (w : Dir ι H) : Prop where
  out : w.held (s.handle t) ≠ some t
  owner : w.owner n = some t

lemma lasting_out_of (n : ℕ) : Lasting s t (s.Outside t n) where
  interf h hw := ⟨lasting_outside.interf h hw.out, (lasting_owned n).interf h hw.owner⟩
  keeps h hw := ⟨lasting_outside.keeps h hw.out, (lasting_owned n).keeps h hw.owner⟩

lemma Outside.safe_ret {n : ℕ} (h : s.Outside t n v.world) :
    s.contract.Safe t (fun _ => s.contract.idle t) (.ret ()) v := by
  intro v' hrely _
  change v'.world.held (s.handle t) ≠ some t
  exact hrely.stable (P := fun v => v.world.held (s.handle t) ≠ some t) lasting_outside.interf h.out

lemma Outside.safe_remove {n : ℕ} (h : s.Outside t n v.world) :
    s.contract.Safe t (fun _ => s.contract.idle t) (onDisk (discard (remove (.temp n)))) v :=
  safe_private (o := .remove (.temp n)) (lasting_out_of n) h (fun _ hi hw => keeps_remove hi hw.owner)
    fun _ _ _ h' => h'.safe_ret

lemma Outside.safe_closeWithError (h : s.Outside t writer.tmp v.world) :
    s.contract.Safe t (fun _ => s.contract.idle t) (onDisk writer.closeWithError) v :=
  safe_look (o := .close (.temp writer.tmp)) (lasting_out_of writer.tmp).interf h (fun _ => rfl)
    fun _ _ _ h' _ => h'.safe_remove

/-- The mutex is taken when no other handle is inside its section. -/
lemma safe_lock {α : Type} {Q : α → DView ι H → Prop} {n : ℕ} {k : Unit → DirProg α}
    (h : s.Outside t n v.world)
    (hk : ∀ v', s.Inv v'.world → (∃ files wins, s.Inside t n files wins v'.world) →
      s.contract.Safe t Q (k ()) v') : s.contract.Safe t Q (lock >>= k) v := by
  intro v₁ hr hi ch r w₁ he ha
  have hi : s.Inv v₁.world := hi
  have h₁ := hr.stable (P := fun v => s.Outside t n v.world) (lasting_out_of n).interf h
  have hfree : ∀ h, v₁.world.held h = none := ha rfl
  have he : Dir.exec s.handle t .lock ch v₁.world = some (r, w₁) := he
  simp only [Dir.exec, hfree] at he
  obtain ⟨-, rfl⟩ := Prod.mk.inj (Option.some.inj he)
  -- The only mutex that is held now is this one.
  have honly : ∀ h u, Function.update v₁.world.held (s.handle t) (some t) h = some u →
      h = s.handle t ∧ u = t := by
    intro h u hu
    by_cases hh : h = s.handle t
    · subst hh
      rw [Function.update_self] at hu
      exact ⟨rfl, (Option.some.inj hu).symm⟩
    · rw [Function.update_of_ne hh, hfree] at hu
      cases hu
  have hinv : s.Inv { v₁.world with held := Function.update v₁.world.held (s.handle t) (some t) } := by
    refine ⟨fun h u hu => ?_, fun h h' u u' hu hu' => ?_, hi.owned, hi.taken, hi.wins_le⟩
    · obtain ⟨rfl, rfl⟩ := honly _ _ hu
      rfl
    · exact (honly _ _ hu).1.trans (honly _ _ hu').1.symm
  refine ⟨⟨fun _ => ⟨rfl, rfl⟩, fun _ _ _ _ => rfl, fun _ _ h => h, fun h u hu => ?_⟩, hinv,
    hk _ hinv ⟨_, _, Function.update_self _ _ _, h₁.owner, rfl, rfl⟩⟩
  rw [hfree h]
  exact ⟨fun h' => absurd (honly _ _ h').2 hu, fun h' => nomatch h'⟩

/-- The mutex is released, with the result of `Close`. -/
lemma safe_unlock {α : Type} {Q : α → DView ι H → Prop} {n : ℕ} {env : Env} {r : Except Err Unit}
    {k : Unit → DirProg α} (hfresh : s.cond.Fresh env.version)
    (h : s.Left t n env writer r v.world)
    (hk : ∀ v', s.Inv v'.world → s.Outside t n v'.world → s.contract.Safe t Q (k ()) v') :
    s.contract.Safe t Q (unlock r >>= k) v := by
  intro v₁ hr hi ch _ w₁ he _
  have hi : s.Inv v₁.world := hi
  have h₁ := h.rely hr
  obtain ⟨-, hw₁⟩ := Prod.mk.inj (Option.some.inj he)
  have hheld : ∀ h u, w₁.held h = some u ↔ v₁.world.held h = some u ∧ h ≠ s.handle t := by
    intro h u
    rw [← hw₁]
    by_cases hh : h = s.handle t
    · subst hh
      simp
    · simp [hh]
  have hguar : s.Guar t v₁.world w₁ := by
    refine ⟨fun hne => absurd h₁.held hne, fun _ _ _ _ => by rw [← hw₁],
      fun _ _ h => by rwa [← hw₁], fun h u hu => ?_⟩
    refine (hheld h u).trans ⟨fun hh => hh.1, fun hh => ⟨hh, ?_⟩⟩
    rintro rfl
    exact hu (Option.some.inj (hh.symm.trans h₁.held))
  have hinv : s.Inv w₁ := by
    refine ⟨fun h u hh => hi.holder h u ((hheld h u).mp hh).1, fun h h' u u' hh hh' =>
      hi.exclusive h h' u u' ((hheld h u).mp hh).1 ((hheld h' u').mp hh').1, ?_, ?_, ?_⟩ <;>
      rw [← hw₁]
    · exact hi.owned
    · cases r with
      | ok _ => exact fun _ => h₁.taken hfresh rfl
      | error e => exact hi.taken
    · cases r with
      | ok _ =>
          have hzero := (h₁.installed rfl).1
          change v₁.world.wins + 1 ≤ 1
          omega
      | error e => exact hi.wins_le
  exact ⟨hguar, hinv, hk _ hinv ⟨fun hh => ((hheld _ _).mp hh).2 rfl, hguar.owner _ _ h₁.owner⟩⟩

/-- `Close`. -/
lemma safe_closeShared (hrel : writer.rel = s.rel)
    (hpre : writer.preconditions = s.cond.preconditions) (hfresh : s.cond.Fresh call.env.version)
    (h : s.Outside t writer.tmp v.world) :
    s.contract.Safe t (fun _ => s.contract.idle t)
      (writer.closeShared s.pf s.json call.env call.ctx) v := by
  have hlast := lasting_out_of (s := s) (t := t) writer.tmp
  unfold Writer.closeShared
  split
  · exact h.safe_closeWithError
  split
  · exact h.safe_closeWithError
  refine safe_look (o := .sync (.temp writer.tmp)) hlast.interf h (fun _ => rfl)
    fun r v₁ _ h₁ hr => ?_
  rcases hr with rfl | rfl
  swap
  · exact h₁.safe_closeWithError
  refine safe_look (o := .close (.temp writer.tmp)) hlast.interf h₁ (fun _ => rfl)
    fun r v₂ _ h₂ hr => ?_
  rcases hr with rfl | rfl
  swap
  · exact h₂.safe_remove
  refine safe_lock h₂ fun v₃ hi₃ ⟨files, wins, h₃⟩ => ?_
  refine Safe.bind hi₃ (safe_section hrel hpre h₃ hi₃) fun out v₄ _ h₄ => ?_
  refine safe_unlock hfresh h₄ fun v₅ _ h₅ => ?_
  split
  · exact h₅.safe_ret
  · exact h₅.safe_remove

/-- The chunks, and `Close`. -/
lemma safe_contendFrom (hfresh : s.cond.Fresh call.env.version) :
    ∀ (chunks : List ByteArray) {writer : Writer} {v : DView ι H}, writer.rel = s.rel →
      writer.preconditions = s.cond.preconditions → s.Outside t writer.tmp v.world →
      s.contract.Safe t (fun _ => s.contract.idle t) (contendFrom s.pf s.json call chunks writer) v
  | [], _, _, hrel, hpre, h => safe_closeShared hrel hpre hfresh h
  | p :: chunks, writer, v, hrel, hpre, h => by
      refine safe_private (o := .write (.temp writer.tmp) p call.env.mtime) (lasting_out_of writer.tmp)
        h (fun _ hi hw => keeps_write hi hw.owner _ _) fun r v₁ _ h₁ => ?_
      cases r with
      | error e => exact h₁.safe_closeWithError
      | ok _ => exact safe_contendFrom hfresh chunks hrel hpre h₁

/-- A write. -/
lemma safe_contend (hfresh : s.cond.Fresh call.env.version)
    (h : v.world.held (s.handle t) ≠ some t) :
    s.contract.Safe t (fun _ => s.contract.idle t) (contend s.pf s.json s.rel s.cond call) v := by
  have hlast := lasting_outside (s := s) (t := t)
  have hend : ∀ v' : DView ι H, v'.world.held (s.handle t) ≠ some t →
      s.contract.Safe t (fun _ => s.contract.idle t) (.ret ()) v' := fun v' h' v'' hrely _ =>
    hrely.stable (P := s.contract.idle t) hlast.interf h'
  refine safe_look (o := .mkdirAll (.temp 0)) (P := fun w => w.held (s.handle t) ≠ some t)
    hlast.interf h (fun _ => rfl) fun r v₁ _ h₁ hr => ?_
  rcases hr with rfl | rfl
  swap
  · exact hend _ h₁
  refine safe_fs (o := .createTemp call.env.mtime) (P := fun w => w.held (s.handle t) ≠ some t)
    hlast.interf h₁ (fun w₂ hi₂ h₂ => ?_) fun v₂ _ h₂ => hend _ h₂
  have hkeeps := keeps_createTemp (t := t) hi₂ call.env.mtime
  refine ⟨hkeeps.guar, hkeeps.inv hi₂, fun v₂ hv₂ => ?_⟩
  have hout : s.Outside t w₂.fs.temps v₂.world := by
    rw [hv₂]
    exact ⟨hlast.keeps hkeeps h₂, Function.update_self _ _ _⟩
  exact safe_contendFrom hfresh call.chunks rfl rfl hout

end Programs

/-! ## One winner -/

/-- The contract's obligations, from any files on the disk. -/
lemma contract_sound (s : Contest ι H) (fs₀ : FS) : s.contract.Sound { fs := fs₀ } where
  init := by
    refine ⟨⟨fun h u hu => ?_, fun h h' u u' hu => ?_, fun n u hu => ?_, fun h => ?_, ?_⟩,
      fun t ht => ?_⟩
    · cases hu
    · cases hu
    · cases hu
    · exact absurd h (Nat.lt_irrefl 0)
    · exact Nat.zero_le 1
    · cases ht
  env _ _ _ h := by
    obtain ⟨e, -⟩ := h
    exact nomatch e
  stable t v v' h hidle := lasting_outside.interf h hidle
  start t call v p w hi hidle _ hstart := by
    have hstart : (if s.cond.Fresh call.env.version then
        some (contend s.pf s.json s.rel s.cond call, v.world) else none) = some (p, w) := hstart
    split at hstart
    · rename_i hfresh
      obtain ⟨rfl, rfl⟩ := Prod.mk.inj (Option.some.inj hstart)
      exact ⟨⟨fun _ => ⟨rfl, rfl⟩, fun _ _ _ _ => rfl, fun _ _ h => h, fun _ _ _ => Iff.rfl⟩, hi,
        safe_contend hfresh hidle⟩
    · cases hstart

/-- **At most one write succeeds, if the handles take turns.**  In every run in which a handle enters its
commit section only when no handle on the directory is inside one, whatever the files are at first and
whichever steps fail, at most one of the writes returns without an error. -/
theorem one_winner (s : Contest ι H) (fs₀ : FS) {c : Config dirSig (Dir ι H) ι}
    (hc : Reach s.machine Alone { fs := fs₀ } c) : c.view.world.wins ≤ 1 := by
  have hinv : s.Inv c.view.world := ((s.contract_sound fs₀).reach hc).1
  exact hinv.wins_le

/-- Two threads, each with a bucket of its own on the directory, create one key. -/
def twoHandles : Contest Bool Bool where
  handle := id
  pf := ⟨id, fun _ => "", id⟩
  json := .unary
  rel := ["k"]
  cond := .create

/-- An empty body, under the given token. -/
def emptyWrite (version : Version) : WriteCall := ⟨⟨0, 0, version⟩, {}, [], none⟩

/-- A thread takes its next steps. -/
def steps (t : Bool) (n : ℕ) : List (Action twoHandles.machine) := List.replicate n (.call t false)

/-- Both threads are started. -/
def starts : List (Action twoHandles.machine) :=
  [.start false (emptyWrite "v1"), .start true (emptyWrite "v2")]

/-- `Alone`, as a test. -/
def aloneTest (v : DView Bool Bool) (e : Event dirSig Bool) : Bool :=
  !locks e || ((v.world.held false).isNone && (v.world.held true).isNone)

lemma alone_of_test (v : DView Bool Bool) (e : Event dirSig Bool) (h : aloneTest v e = true) :
    Alone v e := by
  intro hl b
  simp only [aloneTest, hl, Bool.not_true, Bool.false_or, Bool.and_eq_true,
    Option.isNone_iff_eq_none] at h
  cases b
  · exact h.1
  · exact h.2

/-- The second thread enters after the first has left; it sees the data file and cannot read the
sidecar. -/
theorem one_winner_in_turn :
    ∃ c, Reach twoHandles.machine Alone { fs := {} } c ∧ c.view.world.wins = 1 ∧
      c.view.world.wins ≤ 1 := by
  have hrun : (twoHandles.machine.run (Config.init dirSig Bool { fs := {} })
      (starts ++ steps false 16 ++ steps true 6 ++ [.call true true] ++ steps true 2)).any
      (fun c => admitsAll aloneTest c.view.hist && c.view.world.wins == 1) = true := by
    decide +kernel
  obtain ⟨c, hc, hwins⟩ := reach_of_run_adm alone_of_test hrun
  exact ⟨c, hc, by simpa using hwins, one_winner twoHandles {} hc⟩

/-- **Two handles on one directory create one key twice**: each looks before the other has renamed its
data file, and both calls return without an error. -/
theorem two_winners :
    ∃ c, Reach twoHandles.machine anyStep { fs := {} } c ∧ c.view.world.wins = 2 := by
  have hrun : (twoHandles.machine.run (Config.init dirSig Bool { fs := {} })
      (starts ++ steps false 6 ++ steps true 6 ++ steps false 10 ++ steps true 10)).any
      (fun c => c.view.world.wins == 2) = true := by
    decide +kernel
  obtain ⟨c, hc, hwins⟩ := reach_of_run_any hrun
  exact ⟨c, hc, by simpa using hwins⟩

end Contest

end Blobster.FileDriver
