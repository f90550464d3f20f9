import Mathlib
import Blobster.Driver.File

/-!
# Commits of the file driver

An object is two files, and an operation that writes both renames one after the other.  A run that
ends between the two renames leaves the new bytes under the old sidecar: the old size, headers,
digest and version token.

* `FS.tree` — the committed files; temporary files are not observed.
* `view` — what the two files of an object amount to.
* `Operation.pending` — the data file that an operation is about to put in place, once it has passed
  its checks; `Unseen` — the new data file cannot be told from the old one through the old sidecar.
* **`all_or_nothing_iff`** — an operation is all-or-nothing, whichever of its steps fails and wherever
  the process stops, if and only if the data file it puts in place is unseen.  `UpdateMetadata` and
  `Delete` put none in place, so they always are (`updateMetadata_all_or_nothing`,
  `delete_all_or_nothing`).
-/

namespace Blobster.FileDriver

open Interleave Function

/-! ## The committed files -/

/-- The committed files. -/
def FS.tree (fs : FS) : Path → Option File
  | .temp _ => none
  | path => fs.file path

namespace FS

variable (fs : FS)

@[simp] lemma tree_data (rel : List String) : fs.tree (.data rel) = fs.file (.data rel) := rfl

@[simp] lemma tree_side (rel : List String) : fs.tree (.side rel) = fs.file (.side rel) := rfl

@[simp] lemma tree_set_temp (n : ℕ) (f : Option File) : (fs.set (.temp n) f).tree = fs.tree := by
  funext path
  cases path <;> simp [tree, set]

lemma tree_set {path : Path} (hpath : ∀ n, path ≠ .temp n) (f : Option File) :
    (fs.set path f).tree = update fs.tree path f := by
  funext path'
  by_cases h : path' = path
  · subst h
    cases path' with
    | temp n => exact absurd rfl (hpath n)
    | data rel => simp
    | side rel => simp
  · rw [update_of_ne h]
    cases path' <;> simp [tree, set, h]

@[simp] lemma tree_temps (n : ℕ) : ({ fs with temps := n } : FS).tree = fs.tree := by
  funext path
  cases path <;> rfl

end FS

/-! ## The steps -/

section Steps

variable {C : FS → Prop} {fs : FS} {path : Path}

lemma robust_stat {Q : Except Err (ℤ × ℕ) → FS → Prop} :
    Robust disk C Q (stat path) fs ↔ C fs ∧ Q (.error .backend) fs ∧
      Q (match fs.file path with
        | none => .error .notFound
        | some f => .ok (f.modTime, f.content.size)) fs :=
  robust_perform (D := disk) (o := FsOp.stat path)

lemma robust_readFile {Q : Except Err ByteArray → FS → Prop} :
    Robust disk C Q (readFile path) fs ↔ C fs ∧ Q (.error .backend) fs ∧
      Q (match fs.file path with
        | none => .error .notFound
        | some f => .ok f.content) fs :=
  robust_perform (D := disk) (o := FsOp.readFile path)

section Plain

variable {Q : Except Err Unit → FS → Prop}

lemma robust_mkdirAll {path : Path} :
    Robust disk C Q (mkdirAll path) fs ↔ C fs ∧ Q (.error .backend) fs ∧ Q (.ok ()) fs :=
  robust_perform (D := disk) (o := FsOp.mkdirAll path)

lemma robust_sync :
    Robust disk C Q (sync path) fs ↔ C fs ∧ Q (.error .backend) fs ∧ Q (.ok ()) fs :=
  robust_perform (D := disk) (o := FsOp.sync path)

lemma robust_close :
    Robust disk C Q (close path) fs ↔ C fs ∧ Q (.error .backend) fs ∧ Q (.ok ()) fs :=
  robust_perform (D := disk) (o := FsOp.close path)

lemma robust_rename {src dst : Path} :
    Robust disk C Q (rename src dst) fs ↔ C fs ∧ Q (.error .backend) fs ∧
      match fs.file src with
      | none => Q (.error .notFound) fs
      | some f => Q (.ok ()) ((fs.set src none).set dst (some f)) := by
  refine (robust_perform (D := disk) (o := FsOp.rename src dst)).trans ?_
  refine and_congr_right fun _ => and_congr_right fun _ => ?_
  show Q (fs.renamed src dst).1 (fs.renamed src dst).2 ↔ _
  unfold FS.renamed
  cases fs.file src <;> rfl

lemma robust_remove :
    Robust disk C Q (remove path) fs ↔ C fs ∧ Q (.error .backend) fs ∧
      match fs.file path with
      | none => Q (.error .notFound) fs
      | some _ => Q (.ok ()) (fs.set path none) := by
  refine (robust_perform (D := disk) (o := FsOp.remove path)).trans ?_
  refine and_congr_right fun _ => and_congr_right fun _ => ?_
  show Q (fs.removed path).1 (fs.removed path).2 ↔ _
  unfold FS.removed
  cases fs.file path <;> rfl

lemma robust_write {p : ByteArray} {mtime : ℤ} :
    Robust disk C Q (write path p mtime) fs ↔ C fs ∧ Q (.error .backend) fs ∧
      match fs.file path with
      | none => Q (.error .notFound) fs
      | some f => Q (.ok ()) (fs.set path (some ⟨f.content ++ p, mtime⟩)) := by
  refine (robust_perform (D := disk) (o := FsOp.write path p mtime)).trans ?_
  refine and_congr_right fun _ => and_congr_right fun _ => ?_
  show Q (fs.written path p mtime).1 (fs.written path p mtime).2 ↔ _
  unfold FS.written
  cases fs.file path <;> rfl

end Plain

lemma robust_createTemp {mtime : ℤ} {Q : Except Err Path → FS → Prop} :
    Robust disk C Q (createTemp mtime) fs ↔ C fs ∧ Q (.error .backend) fs ∧
      Q (.ok (.temp fs.temps))
        { fs.set (.temp fs.temps) (some ⟨.empty, mtime⟩) with temps := fs.temps + 1 } :=
  robust_perform (D := disk) (o := FsOp.createTemp mtime)

end Steps

section Exec

variable (fs : FS) (path : Path)

@[simp] lemma exec_stat : (stat path).exec disk fs =
    (match fs.file path with
      | none => .error .notFound
      | some f => .ok (f.modTime, f.content.size), fs) := rfl

@[simp] lemma exec_readFile : (readFile path).exec disk fs =
    (match fs.file path with
      | none => .error .notFound
      | some f => .ok f.content, fs) := rfl

@[simp] lemma exec_mkdirAll (path : Path) : (mkdirAll path).exec disk fs = (.ok (), fs) := rfl

@[simp] lemma exec_createTemp (mtime : ℤ) : (createTemp mtime).exec disk fs =
    (.ok (.temp fs.temps), { fs.set (.temp fs.temps) (some ⟨.empty, mtime⟩) with
      temps := fs.temps + 1 }) := rfl

@[simp] lemma exec_write (p : ByteArray) (mtime : ℤ) :
    (write path p mtime).exec disk fs = fs.written path p mtime := rfl

@[simp] lemma exec_sync : (sync path).exec disk fs = (.ok (), fs) := rfl

@[simp] lemma exec_close : (close path).exec disk fs = (.ok (), fs) := rfl

@[simp] lemma exec_rename (dst : Path) : (rename path dst).exec disk fs = fs.renamed path dst := rfl

@[simp] lemma exec_remove : (remove path).exec disk fs = fs.removed path := rfl

end Exec

/-! ## Cleaning up, and the atomic write of one file -/

section Atomic

variable {T : Path → Option File} {fs : FS} {Q : Except Err Unit → FS → Prop}

/-- Removing a temporary file is not observed, whether it succeeds or not. -/
lemma robust_remove_temp {n : ℕ} (h : fs.tree = T) (hQ : ∀ r fs', fs'.tree = T → Q r fs') :
    Robust disk (fun fs' => fs'.tree = T) Q (remove (.temp n)) fs := by
  rw [robust_remove]
  refine ⟨h, hQ _ _ h, ?_⟩
  split
  · exact hQ _ _ h
  · exact hQ _ _ (by rw [FS.tree_set_temp, h])

/-- The ways out of `writeFileAtomic` on an error. -/
lemma robust_discard_remove {n : ℕ} {e : Err} (h : fs.tree = T)
    (hQ : ∀ fs', fs'.tree = T → Q (.error e) fs') :
    Robust disk (fun fs' => fs'.tree = T) Q (do discard (remove (.temp n)); return .error e) fs := by
  simp only [Prog.discard_eq, robust_bind, Prog.pure_eq, robust_ret]
  exact robust_remove_temp h fun _ fs' h' => hQ fs' h'

lemma robust_discard_close {n : ℕ} {p : FsProg (Except Err Unit)} (h : fs.tree = T)
    (hp : Robust disk (fun fs' => fs'.tree = T) Q p fs) :
    Robust disk (fun fs' => fs'.tree = T) Q (do discard (close (.temp n)); p) fs := by
  simp only [Prog.discard_eq, robust_bind, robust_ret, robust_close]
  exact ⟨h, hp, hp⟩

/-- **A file is written atomically**: until the rename nothing is observed, and after it nothing can
fail. -/
theorem robust_writeFileAtomic (env : Env) {path : Path} (data : ByteArray)
    (hpath : ∀ n, path ≠ .temp n) (h : fs.tree = T) :
    Robust disk (fun fs' => fs'.tree = T)
      (fun r fs' => match r with
        | .error _ => fs'.tree = T
        | .ok _ => fs'.tree = update T path (some ⟨data, env.mtime⟩))
      (writeFileAtomic env path data) fs := by
  unfold writeFileAtomic newTemp
  rw [robust_bind, robust_bind, robust_mkdirAll]
  refine ⟨h, robust_ret.mpr (robust_ret.mpr h), robust_createTemp.mpr ⟨h, robust_ret.mpr h, ?_⟩⟩
  set fs₁ : FS := { fs.set (.temp fs.temps) (some ⟨.empty, env.mtime⟩) with temps := fs.temps + 1 }
    with hfs₁
  have h₁ : fs₁.tree = T := by rw [hfs₁, FS.tree_temps, FS.tree_set_temp, h]
  have hfile : fs₁.file (.temp fs.temps) = some ⟨.empty, env.mtime⟩ := by simp [hfs₁, FS.set]
  rw [robust_bind, robust_write, hfile]
  refine ⟨h₁, robust_discard_close h₁ (robust_discard_remove h₁ fun _ => id), ?_⟩
  set fs₂ : FS := fs₁.set (.temp fs.temps) (some ⟨.empty ++ data, env.mtime⟩) with hfs₂
  have h₂ : fs₂.tree = T := by rw [hfs₂, FS.tree_set_temp, h₁]
  dsimp only
  rw [robust_bind, robust_sync]
  refine ⟨h₂, robust_discard_close h₂ (robust_discard_remove h₂ fun _ => id), ?_⟩
  dsimp only
  rw [robust_bind, robust_close]
  refine ⟨h₂, robust_discard_remove h₂ fun _ => id, ?_⟩
  dsimp only
  rw [robust_bind, robust_rename, FS.set_self]
  refine ⟨h₂, robust_discard_remove h₂ fun _ => id, robust_ret.mpr ?_⟩
  dsimp only
  rw [FS.tree_set _ hpath, FS.tree_set_temp, FS.tree_set_temp, h₁, ByteArray.empty_append]

/-- The atomic write succeeds when nothing goes wrong. -/
lemma exec_writeFileAtomic (fs : FS) (env : Env) {path : Path} (data : ByteArray)
    (hpath : ∀ n, path ≠ .temp n) :
    ((writeFileAtomic env path data).exec disk fs).1 = .ok () ∧
      ((writeFileAtomic env path data).exec disk fs).2.tree =
        update fs.tree path (some ⟨data, env.mtime⟩) := by
  have hok : ((writeFileAtomic env path data).exec disk fs).1 = .ok () := by
    simp [writeFileAtomic, newTemp, FS.written, FS.renamed, FS.set]
  have htree := (robust_writeFileAtomic env data hpath (rfl : fs.tree = _)).exec
  rw [hok] at htree
  exact ⟨hok, htree⟩

/-- The atomic write can fail before it has done anything. -/
lemma writeFileAtomic_refused {C : FS → Prop} {env : Env} {path : Path} {data : ByteArray}
    (h : Robust disk C Q (writeFileAtomic env path data) fs) : Q (.error .backend) fs := by
  unfold writeFileAtomic newTemp at h
  simp only [robust_bind, robust_mkdirAll, Prog.pure_eq, robust_ret] at h
  exact h.2.1

end Atomic

/-! ## Reading -/

section Reading

variable {json : Codec} {rel : List String} {fs : FS}

/-- Reading changes nothing, and a read that a failing step disturbs is an error of the backend. -/
lemma robust_readAttributes (json : Codec) (rel : List String) (fs : FS) :
    Robust disk (fun fs' => fs' = fs)
      (fun r fs' => fs' = fs ∧
        (r = .error .backend ∨ r = ((readAttributes json rel).exec disk fs).1))
      (readAttributes json rel) fs := by
  unfold readAttributes
  rw [robust_bind, robust_stat, Prog.exec_bind, exec_stat]
  refine ⟨rfl, robust_ret.mpr ⟨rfl, Or.inl rfl⟩, ?_⟩
  cases fs.file (.data rel) with
  | none => exact robust_ret.mpr ⟨rfl, Or.inr rfl⟩
  | some f =>
      dsimp only
      rw [robust_bind, robust_readFile, Prog.exec_bind, exec_readFile]
      refine ⟨rfl, robust_ret.mpr ⟨rfl, Or.inl rfl⟩, ?_⟩
      cases fs.file (.side rel) with
      | none => exact robust_ret.mpr ⟨rfl, Or.inr rfl⟩
      | some side =>
          dsimp only
          cases json.unmarshal side.content with
          | none => exact robust_ret.mpr ⟨rfl, Or.inr rfl⟩
          | some stored => exact robust_ret.mpr ⟨rfl, Or.inr rfl⟩

lemma exec_readAttributes_snd : ((readAttributes json rel).exec disk fs).2 = fs :=
  (robust_readAttributes json rel fs).exec.1

lemma robust_statVersion (json : Codec) (rel : List String) (fs : FS) :
    Robust disk (fun fs' => fs' = fs)
      (fun r fs' => fs' = fs ∧
        (r = .error .backend ∨ r = ((statVersion json rel).exec disk fs).1))
      (statVersion json rel) fs := by
  unfold statVersion
  refine (robust_readAttributes json _ fs).bind ?_
  rintro r fs' ⟨rfl, rfl | rfl⟩
  · exact robust_ret.mpr ⟨rfl, Or.inl rfl⟩
  · rw [Prog.exec_bind]
    cases ((readAttributes json rel).exec disk fs').1 with
    | ok attrs => exact robust_ret.mpr ⟨rfl, Or.inr rfl⟩
    | error e => cases e <;> exact robust_ret.mpr ⟨rfl, Or.inr rfl⟩

lemma exec_statVersion_snd : ((statVersion json rel).exec disk fs).2 = fs :=
  (robust_statVersion json rel fs).exec.1

/-- What an object's data file and sidecar amount to. -/
def view (json : Codec) (data side : Option File) : Except Err Observed :=
  match data, side with
  | none, _ => .error .notFound
  | some f, none =>
      .ok ⟨f.content, f.content.size, {}, [], .empty, deriveVersion (f.modTime, f.content.size)⟩
  | some f, some s =>
      match json.unmarshal s.content with
      | none => .error .backend
      | some stored =>
          let size := (combine (f.modTime, f.content.size) stored).size
          .ok ⟨f.content.extract 0 size, size, stored.headers, stored.metadata, stored.md5,
            stored.version⟩

/-- What is observed of a key depends on its two files. -/
lemma observe_eq_view :
    observe json rel fs = view json (fs.file (.data rel)) (fs.file (.side rel)) := by
  cases hdata : fs.file (.data rel) with
  | none => simp [observe, readAttributes, view, hdata]
  | some f =>
      cases hside : fs.file (.side rel) with
      | none => simp [observe, readAll, readAttributes, view, hdata, hside]
      | some side =>
          cases hjson : json.unmarshal side.content with
          | none => simp [observe, readAttributes, view, hdata, hside, hjson]
          | some stored =>
              simp [observe, readAll, readAttributes, view, hdata, hside, hjson, combine]

end Reading

/-! ## Torn commits -/

/-- Reading the new data file through the sidecar that is there gives what the old one gave. -/
def Unseen (json : Codec) (data side : Option File) (f : File) : Prop :=
  ∃ old, data = some old ∧
    match side with
    | none => f.content = old.content ∧ f.modTime = old.modTime
    | some s =>
        match json.unmarshal s.content with
        | none => True
        | some stored =>
            if stored.size > 0 ∨ stored.version ≠ "" then
              f.content.extract 0 stored.size = old.content.extract 0 stored.size
            else f.content = old.content

lemma deriveVersion_inj {t t' : ℤ} {n : ℕ} : deriveVersion (t, n) = deriveVersion (t', n) ↔ t = t' := by
  refine ⟨fun h => Int.repr_injective ?_, fun h => by rw [h]⟩
  exact (String.append_left_inj _).mp ((String.append_left_inj _).mp h)

/-- A new data file under the old sidecar is observed as the old object exactly if it is unseen. -/
lemma view_eq_iff_unseen {json : Codec} {data side : Option File} {f : File} :
    view json (some f) side = view json data side ↔ Unseen json data side f := by
  cases data with
  | none =>
      refine iff_of_false ?_ (by rintro ⟨old, hold, -⟩; cases hold)
      cases side with
      | none => exact nofun
      | some s =>
          cases hjson : json.unmarshal s.content <;> simp [view, hjson]
  | some old =>
      simp only [Unseen, Option.some.injEq, exists_eq_left']
      cases side with
      | none =>
          simp only [view, Except.ok.injEq, Observed.mk.injEq, true_and]
          constructor
          · rintro ⟨hc, -, hv⟩
            rw [hc] at hv
            exact ⟨hc, deriveVersion_inj.mp hv⟩
          · rintro ⟨hc, ht⟩
            rw [hc, ht]
            exact ⟨rfl, rfl, rfl⟩
      | some s =>
          cases hjson : json.unmarshal s.content with
          | none => simp [view, hjson]
          | some stored =>
              by_cases hsize : stored.size > 0 ∨ stored.version ≠ ""
              · simp [view, hjson, combine, if_pos hsize]
              · simp only [view, hjson, combine, if_neg hsize, ByteArray.extract_zero_size,
                  Except.ok.injEq, Observed.mk.injEq, and_true]
                exact ⟨fun h => h.1, fun h => ⟨h, by rw [h]⟩⟩

section Operations

variable (pf : Platform) (json : Codec) (env : Env)

/-- The data file that the operation is about to rename into place, once its checks are passed. -/
def Operation.pending (fs : FS) : Operation → Option File
  | .close w ctx =>
      if w.closed = true ∨ ctx ≠ none ∨
          (w.opts.contentMD5.size > 0 ∧ pf.md5 w.hashed ≠ w.opts.contentMD5) then none
      else match ((statVersion json w.rel).exec disk fs).1 with
        | .error _ => none
        | .ok current =>
            if conditionsPass w.preconditions (current.map fun attrs => attrs.version) then
              fs.file (.temp w.tmp)
            else none
  | .copy b ctx before dstKey srcKey =>
      match ctx, before, b.paths srcKey, b.paths dstKey with
      | none, none, .ok src, .ok _ =>
          match fs.file (.data src), ((readAttributes json src).exec disk fs).1 with
          | some f, .ok _ => some ⟨f.content, env.mtime⟩
          | _, _ => none
      | _, _, _, _ => none
  | .updateMetadata .. => none
  | .delete .. => none

/-- The run of the operation with the given fates is all-or-nothing: what is observed of the key
afterwards is what was observed before or what the undisturbed operation leaves; and what was
observed before, if the operation returned an error. -/
def Operation.AllOrNothing (op : Operation) (fs : FS) (fates : List Fate) : Prop :=
  let before := op.observed json fs
  let after := op.observed json ((op.prog pf json env).exec disk fs).2
  match (op.prog pf json env).attempt disk fs fates with
  | (some (.ok _), fs') => op.observed json fs' = after
  | (some (.error _), fs') => op.observed json fs' = before
  | (none, fs') => op.observed json fs' = before ∨ op.observed json fs' = after

variable {pf json env} {fs : FS}

/-- All-or-nothing, whatever happens, is a property of all runs. -/
lemma allOrNothing_iff_robust {op : Operation} :
    (∀ fates, op.AllOrNothing pf json env fs fates) ↔
      Robust disk
        (fun fs' => op.observed json fs' = op.observed json fs ∨
          op.observed json fs' = op.observed json ((op.prog pf json env).exec disk fs).2)
        (fun r fs' => match r with
          | .error _ => op.observed json fs' = op.observed json fs
          | .ok _ =>
              op.observed json fs' = op.observed json ((op.prog pf json env).exec disk fs).2)
        (op.prog pf json env) fs := by
  refine forall_congr' fun fates => ?_
  unfold Operation.AllOrNothing
  rcases (op.prog pf json env).attempt disk fs fates with ⟨_ | _ | _, fs'⟩ <;> rfl

/-- What is observed of the key depends on the committed files. -/
lemma observed_congr {op : Operation} {fs fs' : FS} (h : fs'.tree = fs.tree) :
    op.observed json fs' = op.observed json fs := by
  unfold Operation.observed
  cases op.rel with
  | error e => rfl
  | ok rel =>
      dsimp only
      rw [observe_eq_view, observe_eq_view]
      simp only [← FS.tree_data, ← FS.tree_side, h]

/-- The committed files after the data file was renamed into place. -/
def dataRenamed (fs : FS) (rel : List String) (f : File) : Path → Option File :=
  update fs.tree (.data rel) (some f)

lemma observed_torn {op : Operation} {rel : List String} (hrel : op.rel = .ok rel) {f : File}
    {fs' : FS} (h : fs'.tree = dataRenamed fs rel f) :
    op.observed json fs' = op.observed json fs ↔
      Unseen json (fs.file (.data rel)) (fs.file (.side rel)) f := by
  unfold Operation.observed
  rw [hrel]
  dsimp only
  rw [observe_eq_view, observe_eq_view, ← view_eq_iff_unseen]
  have hdata : fs'.file (.data rel) = some f := by
    rw [← FS.tree_data, h, dataRenamed, update_self]
  have hside : fs'.file (.side rel) = fs.file (.side rel) := by
    rw [← FS.tree_side, h, dataRenamed, update_of_ne (by simp), FS.tree_side]
  rw [hdata, hside]

/-- The pending data file is in place, and nothing else has changed. -/
def Torn (pf : Platform) (json : Codec) (env : Env) (op : Operation) (fs fs' : FS) : Prop :=
  ∃ rel f, op.rel = .ok rel ∧ op.pending pf json env fs = some f ∧ fs'.tree = dataRenamed fs rel f

/-- How an operation can leave the files when the process stops. -/
def Stopped (pf : Platform) (json : Codec) (env : Env) (op : Operation) (fs fs' : FS) : Prop :=
  op.observed json fs' = op.observed json fs ∨
    op.observed json fs' = op.observed json ((op.prog pf json env).exec disk fs).2 ∨
    Torn pf json env op fs fs'

/-- How an operation can leave the files when it returns. -/
def Returned (pf : Platform) (json : Codec) (env : Env) (op : Operation) (fs : FS)
    (r : Except Err Unit) (fs' : FS) : Prop :=
  match r with
  | .error _ => op.observed json fs' = op.observed json fs ∨ Torn pf json env op fs fs'
  | .ok _ => op.observed json fs' = op.observed json ((op.prog pf json env).exec disk fs).2

/-- What an operation can do: nothing, all that it does undisturbed, or a torn commit of the pending
file; and the torn commit of a pending file is one of its runs. -/
structure Commits (pf : Platform) (json : Codec) (env : Env) (op : Operation) (fs : FS) : Prop where
  robust : Robust disk (Stopped pf json env op fs) (Returned pf json env op fs)
    (op.prog pf json env) fs
  reached : ∀ {C : FS → Prop} {Q : Except Err Unit → FS → Prop} {f : File},
    op.pending pf json env fs = some f → Robust disk C Q (op.prog pf json env) fs →
      ∃ rel e fs', op.rel = .ok rel ∧ fs'.tree = dataRenamed fs rel f ∧ Q (.error e) fs'

section Untouched

variable {op : Operation} {fs' : FS}

lemma Stopped.of_tree (h : fs'.tree = fs.tree) : Stopped pf json env op fs fs' :=
  Or.inl (observed_congr h)

lemma Returned.of_tree {e : Err} (h : fs'.tree = fs.tree) :
    Returned pf json env op fs (.error e) fs' :=
  Or.inl (observed_congr h)

/-- A program that gives up without touching a committed file. -/
lemma robust_gives_up {p : FsProg (Except Err Unit)} {e : Err}
    (h : Robust disk (fun fs' => fs'.tree = fs.tree)
      (fun r fs' => r = .error e ∧ fs'.tree = fs.tree) p fs') :
    Robust disk (Stopped pf json env op fs) (Returned pf json env op fs) p fs' := by
  refine h.mono (fun _ => Stopped.of_tree) ?_
  rintro r fs'' ⟨rfl, h⟩
  exact Returned.of_tree h

lemma robust_abort {w : Writer} {e : Err} {T : Path → Option File} {fs : FS} (h : fs.tree = T) :
    Robust disk (fun fs' => fs'.tree = T) (fun r fs' => r = .error e ∧ fs'.tree = T)
      (w.abort e) fs :=
  robust_discard_remove h fun _ h' => ⟨rfl, h'⟩

end Untouched

/-! ## `Close` -/

section Close

variable {w : Writer} {C : FS → Prop} {Q : Except Err Unit → FS → Prop}

/-- The data file of a writer is renamed into place. -/
lemma tree_install {f : File} :
    ((fs.set (.temp w.tmp) none).set (.data w.rel) (some f)).tree = dataRenamed fs w.rel f := by
  rw [FS.tree_set _ (by simp), FS.tree_set_temp, dataRenamed]

lemma exec_install {f : File} (hfile : fs.file (.temp w.tmp) = some f) :
    ((w.install pf json env).exec disk fs).2.tree =
      update (dataRenamed fs w.rel f) (.side w.rel)
        (some ⟨mustMarshalAttrs json (w.attrs pf env), env.mtime⟩) := by
  simp only [Writer.install, Prog.exec_bind, exec_mkdirAll, exec_rename, FS.renamed, hfile]
  rw [(exec_writeFileAtomic _ _ _ (by simp)).2, tree_install]

/-- The data file of a writer is in place, the sidecar is not. -/
def Writer.Torn (w : Writer) (fs fs' : FS) : Prop :=
  ∃ f, fs.file (.temp w.tmp) = some f ∧ fs'.tree = dataRenamed fs w.rel f

/-- From the rename of the data file to that of the sidecar the commit is torn. -/
lemma robust_install :
    Robust disk (fun fs' => fs'.tree = fs.tree ∨ w.Torn fs fs')
      (fun r fs' => match r with
        | .error _ => fs'.tree = fs.tree ∨ w.Torn fs fs'
        | .ok _ => fs'.tree = ((w.install pf json env).exec disk fs).2.tree)
      (w.install pf json env) fs := by
  generalize hafter : ((w.install pf json env).exec disk fs).2.tree = after
  have habort : ∀ e, Robust disk (fun fs' => fs'.tree = fs.tree ∨ w.Torn fs fs')
      (fun r fs' => match r with
        | .error _ => fs'.tree = fs.tree ∨ w.Torn fs fs'
        | .ok _ => fs'.tree = after)
      (w.abort e) fs := by
    intro e
    refine (robust_abort (e := e) (rfl : fs.tree = _)).mono (fun _ => Or.inl) ?_
    rintro r fs' ⟨rfl, h⟩
    exact Or.inl h
  unfold Writer.install
  rw [robust_bind, robust_mkdirAll]
  refine ⟨Or.inl rfl, habort _, ?_⟩
  dsimp only
  rw [robust_bind, robust_mkdirAll]
  refine ⟨Or.inl rfl, habort _, ?_⟩
  dsimp only
  rw [robust_bind, robust_rename]
  refine ⟨Or.inl rfl, habort _, ?_⟩
  cases hfile : fs.file (.temp w.tmp) with
  | none => exact habort _
  | some f =>
      refine (robust_writeFileAtomic _ _ (by simp) tree_install).mono
        (fun fs' h => Or.inr ⟨f, hfile, h⟩) ?_
      rintro (e | u) fs' h
      · exact Or.inr ⟨f, hfile, h⟩
      · exact h.trans ((exec_install hfile).symm.trans hafter)

/-- The rename of the sidecar can fail. -/
lemma install_refused {f : File} (hfile : fs.file (.temp w.tmp) = some f)
    (h : Robust disk C Q (w.install pf json env) fs) :
    ∃ e fs', fs'.tree = dataRenamed fs w.rel f ∧ Q (.error e) fs' := by
  unfold Writer.install at h
  rw [robust_bind, robust_mkdirAll] at h
  have h := h.2.2
  dsimp only at h
  rw [robust_bind, robust_mkdirAll] at h
  have h := h.2.2
  dsimp only at h
  rw [robust_bind, robust_rename, hfile] at h
  exact ⟨_, _, tree_install, writeFileAtomic_refused h.2.2⟩

/-- The pending file of a writer, and the checks it has passed. -/
lemma pending_close_eq_some {ctx : Option Err} {f : File}
    (h : (Operation.close w ctx).pending pf json env fs = some f) :
    w.closed = false ∧ ctx = none ∧
      ¬ (w.opts.contentMD5.size > 0 ∧ pf.md5 w.hashed ≠ w.opts.contentMD5) ∧
      fs.file (.temp w.tmp) = some f ∧
      ∃ current, ((statVersion json w.rel).exec disk fs).1 = .ok current ∧
        conditionsPass w.preconditions (current.map fun attrs => attrs.version) = true := by
  unfold Operation.pending at h
  dsimp only at h
  split at h
  · cases h
  · rename_i hchecks
    push Not at hchecks
    obtain ⟨hclosed, hctx, hmd5⟩ := hchecks
    split at h
    · cases h
    · rename_i current hstat
      split at h
      · rename_i hpass
        refine ⟨by simpa using hclosed, hctx, ?_, h, current, hstat, hpass⟩
        rintro ⟨hsize, hne⟩
        exact hne (hmd5 hsize)
      · cases h

lemma commits_close (ctx : Option Err) : Commits pf json env (.close w ctx) fs := by
  have hprog : (Operation.close w ctx).prog pf json env = w.close pf json env ctx := rfl
  constructor
  · rw [hprog]
    by_cases hclosed : w.closed = true
    · have hret : w.close pf json env ctx = Prog.ret (.ok ()) := by
        simp [Writer.close, hclosed]
      rw [hret, robust_ret]
      simp [Returned, hprog, hret]
    cases ctx with
    | some e =>
        simp only [Writer.close, if_neg hclosed]
        exact robust_gives_up (robust_discard_close rfl (robust_abort rfl))
    | none =>
        by_cases hmd5 : w.opts.contentMD5.size > 0 ∧ pf.md5 w.hashed ≠ w.opts.contentMD5
        · simp only [Writer.close, if_neg hclosed, if_pos hmd5]
          exact robust_gives_up (robust_discard_close rfl (robust_abort rfl))
        simp only [Writer.close, if_neg hclosed, if_neg hmd5]
        rw [robust_bind, robust_sync]
        refine ⟨.of_tree rfl, robust_gives_up (robust_discard_close rfl (robust_abort rfl)), ?_⟩
        dsimp only
        rw [robust_bind, robust_close]
        refine ⟨.of_tree rfl, robust_gives_up (robust_abort rfl), ?_⟩
        refine ((robust_statVersion json _ fs).mono (fun fs' h => .of_tree (by rw [h]))
          fun _ _ => id).bind ?_
        rintro (e | current) fs' ⟨rfl, hstat⟩
        · exact robust_gives_up (robust_abort rfl)
        · replace hstat := hstat.resolve_left (by simp)
          dsimp only
          by_cases hpass : conditionsPass w.preconditions (current.map fun attrs => attrs.version)
          · rw [if_pos hpass]
            have hexec : ((Operation.close w none).prog pf json env).exec disk fs' =
                (w.install pf json env).exec disk fs' := by
              simp [hprog, Writer.close, hclosed, hmd5, ← hstat, hpass, exec_statVersion_snd]
            have htorn : ∀ fs'', w.Torn fs' fs'' → Torn pf json env (.close w none) fs' fs'' := by
              rintro fs'' ⟨f, hfile, htree⟩
              refine ⟨w.rel, f, rfl, ?_, htree⟩
              simp [Operation.pending, hclosed, hmd5, ← hstat, hpass, hfile]
            refine robust_install.mono ?_ ?_
            · rintro fs'' (h | h)
              · exact .of_tree h
              · exact Or.inr (Or.inr (htorn fs'' h))
            · rintro (e | u) fs'' h
              · exact h.elim .of_tree fun h => Or.inr (htorn fs'' h)
              · exact observed_congr (by rw [hexec]; exact h)
          · rw [if_neg hpass]
            exact robust_gives_up (robust_abort rfl)
  · intro C Q f hpending h
    obtain ⟨hclosed, rfl, hmd5, hfile, current, hstat, hpass⟩ := pending_close_eq_some hpending
    rw [hprog] at h
    simp only [Writer.close, hclosed, Bool.false_eq_true, if_false, if_neg hmd5] at h
    rw [robust_bind, robust_sync] at h
    have h := h.2.2
    dsimp only at h
    rw [robust_bind, robust_close] at h
    have h := h.2.2
    dsimp only at h
    have h := (robust_bind.mp h).exec
    rw [exec_statVersion_snd, hstat] at h
    dsimp only at h
    rw [if_pos hpass] at h
    obtain ⟨e, fs', htree, hQ⟩ := install_refused hfile h
    exact ⟨w.rel, e, fs', rfl, htree, hQ⟩

end Close

/-! ## `Copy` -/

section Copy

variable {rel : List String} {data : ByteArray} {attrs : ObjectAttrs}

lemma exec_commit :
    ((commit json env rel data attrs).exec disk fs).2.tree =
      update (dataRenamed fs rel ⟨data, env.mtime⟩) (.side rel)
        (some ⟨mustMarshalAttrs json attrs, env.mtime⟩) := by
  obtain ⟨hok, htree⟩ := exec_writeFileAtomic fs env data
    (by simp : ∀ n, Path.data rel ≠ .temp n)
  simp only [commit, Prog.exec_bind, exec_mkdirAll, hok]
  rw [(exec_writeFileAtomic _ _ _ (by simp)).2, htree, dataRenamed]

lemma robust_commit :
    Robust disk (fun fs' => fs'.tree = fs.tree ∨ fs'.tree = dataRenamed fs rel ⟨data, env.mtime⟩)
      (fun r fs' => match r with
        | .error _ => fs'.tree = fs.tree ∨ fs'.tree = dataRenamed fs rel ⟨data, env.mtime⟩
        | .ok _ => fs'.tree = ((commit json env rel data attrs).exec disk fs).2.tree)
      (commit json env rel data attrs) fs := by
  rw [exec_commit]
  unfold commit
  rw [robust_bind, robust_mkdirAll]
  refine ⟨Or.inl rfl, robust_ret.mpr (Or.inl rfl), ?_⟩
  dsimp only
  rw [robust_bind, robust_mkdirAll]
  refine ⟨Or.inl rfl, robust_ret.mpr (Or.inl rfl), ?_⟩
  refine ((robust_writeFileAtomic _ _ (by simp) (rfl : fs.tree = _)).mono (fun _ => Or.inl)
    fun _ _ => id).bind ?_
  rintro (e | u) fs' h
  · exact robust_ret.mpr (Or.inl h)
  · refine (robust_writeFileAtomic _ _ (by simp) h).mono (fun _ => Or.inr) ?_
    rintro (e | u) fs'' h'
    · exact Or.inr h'
    · exact h'

lemma commit_refused {C : FS → Prop} {Q : Except Err Unit → FS → Prop}
    (h : Robust disk C Q (commit json env rel data attrs) fs) :
    ∃ e fs', fs'.tree = dataRenamed fs rel ⟨data, env.mtime⟩ ∧ Q (.error e) fs' := by
  obtain ⟨hok, htree⟩ := exec_writeFileAtomic fs env data
    (by simp : ∀ n, Path.data rel ≠ .temp n)
  unfold commit at h
  rw [robust_bind, robust_mkdirAll] at h
  have h := h.2.2
  dsimp only at h
  rw [robust_bind, robust_mkdirAll] at h
  have h := (robust_bind.mp h.2.2).exec
  rw [hok] at h
  exact ⟨_, _, htree, writeFileAtomic_refused h⟩

/-- The pending file of a copy, and the checks it has passed. -/
lemma pending_copy_eq_some {b : Bucket} {ctx before : Option Err} {dstKey srcKey : String} {f : File}
    (h : (Operation.copy b ctx before dstKey srcKey).pending pf json env fs = some f) :
    ctx = none ∧ before = none ∧ ∃ src dst g attrs, b.paths srcKey = .ok src ∧
      b.paths dstKey = .ok dst ∧ fs.file (.data src) = some g ∧
      ((readAttributes json src).exec disk fs).1 = .ok attrs ∧ f = ⟨g.content, env.mtime⟩ := by
  unfold Operation.pending at h
  dsimp only at h
  split at h
  · rename_i src dst hsrc hdst
    split at h
    · rename_i g attrs hg hattrs
      exact ⟨rfl, rfl, src, dst, g, attrs, hsrc, hdst, hg, hattrs, (Option.some.inj h).symm⟩
    · cases h
  · cases h

lemma commits_copy (b : Bucket) (ctx before : Option Err) (dstKey srcKey : String) :
    Commits pf json env (.copy b ctx before dstKey srcKey) fs := by
  have hprog : (Operation.copy b ctx before dstKey srcKey).prog pf json env =
      copy json env b ctx before dstKey srcKey := rfl
  constructor
  · rw [hprog]
    unfold copy
    split
    · exact robust_ret.mpr (.of_tree rfl)
    · exact robust_ret.mpr (.of_tree rfl)
    · exact robust_ret.mpr (.of_tree rfl)
    · exact robust_ret.mpr (.of_tree rfl)
    · rename_i src dst hsrc hdst
      rw [robust_bind, robust_readFile]
      refine ⟨.of_tree rfl, robust_ret.mpr (.of_tree rfl), ?_⟩
      cases hfile : fs.file (.data src) with
      | none => exact robust_ret.mpr (.of_tree rfl)
      | some g =>
          refine ((robust_readAttributes json _ fs).mono (fun fs' h => .of_tree (by rw [h]))
            fun _ _ => id).bind ?_
          rintro (e | attrs) fs' ⟨rfl, hattrs⟩
          · exact robust_ret.mpr (.of_tree rfl)
          · replace hattrs := hattrs.resolve_left nofun
            have hexec : ((Operation.copy b none none dstKey srcKey).prog pf json env).exec disk fs' =
                (commit json env dst g.content (copyAttrs env attrs)).exec disk fs' := by
              simp [hprog, copy, hsrc, hdst, hfile, ← hattrs, exec_readAttributes_snd]
            have htorn : ∀ fs'', fs''.tree = dataRenamed fs' dst ⟨g.content, env.mtime⟩ →
                Torn pf json env (.copy b none none dstKey srcKey) fs' fs'' := by
              intro fs'' htree
              refine ⟨dst, _, hdst, ?_, htree⟩
              simp [Operation.pending, hsrc, hdst, hfile, ← hattrs]
            refine robust_commit.mono ?_ ?_
            · rintro fs'' (h | h)
              · exact .of_tree h
              · exact Or.inr (Or.inr (htorn fs'' h))
            · rintro (e | u) fs'' h
              · exact h.elim .of_tree fun h => Or.inr (htorn fs'' h)
              · exact observed_congr (by rw [hexec]; exact h)
  · intro C Q f hpending h
    obtain ⟨rfl, rfl, src, dst, g, attrs, hsrc, hdst, hg, hattrs, rfl⟩ :=
      pending_copy_eq_some hpending
    rw [hprog] at h
    simp only [copy, hsrc, hdst] at h
    rw [robust_bind, robust_readFile, hg] at h
    have h := (robust_bind.mp h.2.2).exec
    rw [exec_readAttributes_snd, hattrs] at h
    obtain ⟨e, fs', htree, hQ⟩ := commit_refused h
    exact ⟨dst, e, fs', hdst, htree, hQ⟩

end Copy

/-! ## `UpdateMetadata` and `Delete` -/

lemma commits_updateMetadata (b : Bucket) (ctx : Option Err) (key : String) (md : UserMetadata) :
    Commits pf json env (.updateMetadata b ctx key md) fs := by
  have hprog : (Operation.updateMetadata b ctx key md).prog pf json env = (do
      return (← updateMetadata pf json env b ctx key md).map fun _ => ()) := rfl
  refine ⟨?_, nofun⟩
  rw [hprog, robust_bind]
  unfold updateMetadata
  split
  · exact robust_ret.mpr (robust_ret.mpr (.of_tree rfl))
  · exact robust_ret.mpr (robust_ret.mpr (.of_tree rfl))
  · exact robust_ret.mpr (robust_ret.mpr (.of_tree rfl))
  · rename_i normalized rel hmd hrel
    refine ((robust_statVersion json _ fs).mono (fun fs' h => .of_tree (by rw [h]))
      fun _ _ => id).bind ?_
    rintro (e | _ | current) fs' ⟨rfl, hstat⟩
    · exact robust_ret.mpr (robust_ret.mpr (.of_tree rfl))
    · exact robust_ret.mpr (robust_ret.mpr (.of_tree rfl))
    · replace hstat := hstat.resolve_left nofun
      refine ((robust_writeFileAtomic _ _ (by simp) (rfl : fs'.tree = _)).mono (fun _ => .of_tree)
        fun _ _ => id).bind ?_
      rintro (e | u) fs'' h
      · exact robust_ret.mpr (robust_ret.mpr (.of_tree h))
      · refine robust_ret.mpr (robust_ret.mpr (observed_congr ?_))
        obtain ⟨hok, htree⟩ := exec_writeFileAtomic fs' env
          (mustMarshalAttrs json { current with metadata := normalized, version := env.version })
          (by simp : ∀ n, Path.side rel ≠ .temp n)
        simp only [hprog, updateMetadata, hmd, hrel, Prog.exec_bind, ← hstat, exec_statVersion_snd,
          hok, Prog.pure_eq, Prog.exec_ret, htree]
        exact h

/-- Without a data file there is no object, whatever the sidecar says. -/
lemma observed_absent {op : Operation} {rel : List String} (hrel : op.rel = .ok rel)
    (h : fs.file (.data rel) = none) : op.observed json fs = .error .notFound := by
  simp only [Operation.observed, hrel, observe_eq_view, h, view]

lemma removed_side_data {rel : List String} (h : fs.file (.data rel) = none) :
    (fs.removed (.side rel)).2.file (.data rel) = none := by
  unfold FS.removed
  split
  · exact h
  · rw [FS.set_ne _ (by simp), h]

lemma commits_delete (b : Bucket) (ctx : Option Err) (key : String) (pre : List Precondition) :
    Commits pf json env (.delete b ctx key pre) fs := by
  have hprog : (Operation.delete b ctx key pre).prog pf json env = delete json b ctx key pre := rfl
  refine ⟨?_, nofun⟩
  rw [hprog]
  unfold delete
  split
  · exact robust_ret.mpr (.of_tree rfl)
  · exact robust_ret.mpr (.of_tree rfl)
  · exact robust_ret.mpr (.of_tree rfl)
  · rename_i compiled rel hpre hrel
    refine ((robust_statVersion json _ fs).mono (fun fs' h => .of_tree (by rw [h]))
      fun _ _ => id).bind ?_
    rintro (e | _ | current) fs' ⟨rfl, hstat⟩
    · exact robust_ret.mpr (.of_tree rfl)
    · exact robust_ret.mpr (.of_tree rfl)
    · replace hstat := hstat.resolve_left nofun
      dsimp only
      by_cases hpass : conditionsPass compiled (some current.version)
      · rw [if_pos hpass, robust_bind, robust_remove]
        refine ⟨.of_tree rfl, robust_ret.mpr (.of_tree rfl), ?_⟩
        cases hfile : fs'.file (.data rel) with
        | none => exact robust_ret.mpr (.of_tree rfl)
        | some f =>
            -- the object is gone, whether the sidecar follows or not
            have hgone : ∀ fs'' : FS, fs''.file (.data rel) = none →
                (Operation.delete b none key pre).observed json fs'' =
                  (Operation.delete b none key pre).observed json
                    (((Operation.delete b none key pre).prog pf json env).exec disk fs').2 := by
              intro fs'' h
              have hrel' : (Operation.delete b none key pre).rel = .ok rel := hrel
              rw [observed_absent hrel' h, observed_absent hrel']
              simp only [hprog, delete, hpre, hrel, Prog.exec_bind, ← hstat, exec_statVersion_snd,
                if_pos hpass, exec_remove, FS.removed, hfile, Prog.discard_eq, Prog.exec_ret,
                Prog.pure_eq]
              exact removed_side_data (FS.set_self _ _ _)
            have hset : (fs'.set (.data rel) none).file (.data rel) = none := FS.set_self _ _ _
            simp only [Prog.discard_eq, robust_bind, robust_remove, robust_ret, Prog.pure_eq]
            refine ⟨Or.inr (Or.inl (hgone _ hset)), hgone _ hset, ?_⟩
            split
            · exact hgone _ hset
            · exact hgone _ (by rw [FS.set_ne _ (by simp), hset])
      · rw [if_neg hpass]
        exact robust_ret.mpr (.of_tree rfl)

/-! ## All or nothing -/

lemma commits (op : Operation) : Commits pf json env op fs := by
  cases op with
  | close w ctx => exact commits_close ctx
  | copy b ctx before dstKey srcKey => exact commits_copy b ctx before dstKey srcKey
  | updateMetadata b ctx key md => exact commits_updateMetadata b ctx key md
  | delete b ctx key pre => exact commits_delete b ctx key pre

/-- Operations whose pending file, if they have one, is unseen are all-or-nothing. -/
lemma allOrNothing_of_unseen {op : Operation}
    (h : ∀ rel f, op.rel = .ok rel → op.pending pf json env fs = some f →
      Unseen json (fs.file (.data rel)) (fs.file (.side rel)) f) (fates : List Fate) :
    op.AllOrNothing pf json env fs fates := by
  revert fates
  rw [allOrNothing_iff_robust]
  have htorn : ∀ fs', Torn pf json env op fs fs' → op.observed json fs' = op.observed json fs := by
    rintro fs' ⟨rel, f, hrel, hpending, htree⟩
    exact (observed_torn hrel htree).mpr (h rel f hrel hpending)
  refine (commits op).robust.mono ?_ ?_
  · rintro fs' (hold | hnew | ht)
    · exact Or.inl hold
    · exact Or.inr hnew
    · exact Or.inl (htorn fs' ht)
  · rintro (e | u) fs' hret
    · exact hret.elim id (htorn fs')
    · exact hret

/-- **Commits are all-or-nothing exactly when a torn one cannot be seen.**  For every state of the
bucket and every operation: whichever steps fail and wherever the process stops, the key is observed
as it was or as the undisturbed operation leaves it, and as it was if the operation returns an error;
if and only if the data file that the operation puts in place, if it gets so far, reads like the old
one through the old sidecar. -/
theorem all_or_nothing_iff (pf : Platform) (json : Codec) (env : Env) (op : Operation) (fs : FS) :
    (∀ fates, op.AllOrNothing pf json env fs fates) ↔
      ∀ rel f, op.rel = .ok rel → op.pending pf json env fs = some f →
        Unseen json (fs.file (.data rel)) (fs.file (.side rel)) f := by
  refine ⟨fun h rel f hrel hpending => ?_, allOrNothing_of_unseen⟩
  obtain ⟨rel', e, fs', hrel', htree, hold⟩ :=
    (commits op).reached hpending (allOrNothing_iff_robust.mp h)
  obtain rfl := Except.ok.inj (hrel.symm.trans hrel')
  exact (observed_torn hrel htree).mp hold

/-- **`UpdateMetadata` is all-or-nothing**: it replaces the sidecar only. -/
theorem updateMetadata_all_or_nothing (b : Bucket) (ctx : Option Err) (key : String)
    (md : UserMetadata) (fates : List Fate) :
    (Operation.updateMetadata b ctx key md).AllOrNothing pf json env fs fates :=
  allOrNothing_of_unseen (fun _ _ _ h => by cases h) fates

/-- **`Delete` is all-or-nothing**: the object is gone with its data file. -/
theorem delete_all_or_nothing (b : Bucket) (ctx : Option Err) (key : String)
    (pre : List Precondition) (fates : List Fate) :
    (Operation.delete b ctx key pre).AllOrNothing pf json env fs fates :=
  allOrNothing_of_unseen (fun _ _ _ h => by cases h) fates

end Operations

/-! ## A torn overwrite -/

section Encodings

instance encodableChar : Encodable Char :=
  Encodable.ofLeftInjection Char.toNat (fun n => some (Char.ofNat n)) (by simp)

instance encodableString : Encodable String :=
  Encodable.ofLeftInjection String.toList (fun l => some (String.ofList l)) (by simp)

instance encodableByteArray : Encodable ByteArray :=
  Encodable.ofLeftInjection (fun b => b.data.toList.map UInt8.toNat)
    (fun l => some ⟨(l.map UInt8.ofNat).toArray⟩) (by intro b; simp [Function.comp_def])

instance : Encodable Headers :=
  Encodable.ofLeftInjection
    (fun h => (h.cacheControl, h.contentDisposition, h.contentEncoding, h.contentLanguage,
      h.contentType))
    (fun h => some ⟨h.1, h.2.1, h.2.2.1, h.2.2.2.1, h.2.2.2.2⟩) (fun _ => rfl)

instance : Encodable StoredAttrs :=
  Encodable.ofLeftInjection
    (fun s => (s.version, s.headers, s.metadata, s.md5, s.size, s.createTime))
    (fun s => some ⟨s.1, s.2.1, s.2.2.1, s.2.2.2.1, s.2.2.2.2.1, s.2.2.2.2.2⟩) (fun _ => rfl)

/-- A codec: sidecars are numbered and written in unary. -/
def Codec.unary : Codec where
  marshal stored := ⟨Array.replicate (Encodable.encode stored) 0⟩
  unmarshal p := Encodable.decode p.size
  unmarshal_marshal stored := by simp [ByteArray.size]

end Encodings

/-- An object of one byte, and a writer of two others. -/
def overwritten (json : Codec) : FS where
  file := fun path => match path with
    | .data ["k"] => some ⟨⟨#[1]⟩, 0⟩
    | .side ["k"] => some ⟨json.marshal ⟨"v1", {}, [], ⟨#[1]⟩, 1, 0⟩, 0⟩
    | .temp 0 => some ⟨⟨#[2, 3]⟩, 5⟩
    | _ => none
  temps := 1

/-- The writer of the two bytes. -/
def overwriter : Writer where
  rel := ["k"]
  tmp := 0
  opts := {}
  preconditions := { ifMatch := "v1" }
  hashed := ⟨#[2, 3]⟩
  size := 2

/-- What a failed `Close` of the writer can leave, whatever the codec. -/
lemma overwriter_torn (json : Codec) :
    (Operation.close overwriter none).observed json (overwritten json) =
        .ok ⟨⟨#[1]⟩, 1, {}, [], ⟨#[1]⟩, "v1"⟩ ∧
      ∃ fates e fs', ((Operation.close overwriter none).prog ⟨id, fun _ => "", id⟩ json
          ⟨7, 6, "v2"⟩).attempt disk (overwritten json) fates = (some (.error e), fs') ∧
        (Operation.close overwriter none).observed json fs' =
          .ok ⟨⟨#[2]⟩, 1, {}, [], ⟨#[1]⟩, "v1"⟩ := by
  have hjson := json.unmarshal_marshal ⟨"v1", {}, [], ⟨#[1]⟩, 1, 0⟩
  have hpending : (Operation.close overwriter none).pending ⟨id, fun _ => "", id⟩ json ⟨7, 6, "v2"⟩
      (overwritten json) = some ⟨⟨#[2, 3]⟩, 5⟩ := by
    simp [Operation.pending, overwriter, overwritten, statVersion, readAttributes, hjson, combine,
      conditionsPass, ByteArray.size]
  obtain ⟨rel, e, fs', hrel, htree, fates, hrun⟩ := (commits_close none).reached (C := fun _ => True)
    (Q := fun r fs' => ∃ fates, ((Operation.close overwriter none).prog ⟨id, fun _ => "", id⟩ json
      ⟨7, 6, "v2"⟩).attempt disk (overwritten json) fates = (some r, fs')) hpending
    (by
      intro fates
      split
      · rename_i r fs' hrun
        exact ⟨fates, hrun⟩
      · trivial)
  obtain rfl : ["k"] = rel := Except.ok.inj hrel
  have hdata : fs'.file (.data ["k"]) = some ⟨⟨#[2, 3]⟩, 5⟩ := by
    rw [← FS.tree_data, htree, dataRenamed, update_self]
  have hside : fs'.file (.side ["k"]) = (overwritten json).file (.side ["k"]) := by
    rw [← FS.tree_side, htree, dataRenamed, update_of_ne (by simp), FS.tree_side]
  refine ⟨?_, fates, e, fs', hrun, ?_⟩
  · simp only [Operation.observed, Operation.rel, overwriter, observe_eq_view, overwritten, view,
      hjson, combine]
    rfl
  · simp only [Operation.observed, Operation.rel, overwriter, observe_eq_view, hdata, hside,
      overwritten, view, hjson, combine]
    rfl

/-- The sidecar cannot be written after the data file was renamed: `Close` returns an error, and the
object reads as its first new byte under the old size, digest and version. -/
theorem torn_overwrite :
    let json := Codec.unary
    let op := Operation.close overwriter none
    op.observed json (overwritten json) = .ok ⟨⟨#[1]⟩, 1, {}, [], ⟨#[1]⟩, "v1"⟩ ∧
      ∃ fates e fs', (op.prog ⟨id, fun _ => "", id⟩ json ⟨7, 6, "v2"⟩).attempt disk
          (overwritten json) fates = (some (.error e), fs') ∧
        op.observed json fs' = .ok ⟨⟨#[2]⟩, 1, {}, [], ⟨#[1]⟩, "v1"⟩ :=
  overwriter_torn Codec.unary

end Blobster.FileDriver
