import Blobster.Driver.Paths
import Blobster.Driver.Requests

/-!
# The mem driver's objects on the file driver's disk

The mem driver keeps a map, the file driver two files for each object and one for each open writer.
This file says when the two hold the same objects and the same open writers, and that each call of
the one is matched by the call of the other: it returns the same, but for the times and the names of
the versions, and leaves the same objects.  The disk is one without directories on which no step
fails; `Blobster.Driver.Tree` adds the directories.

* `Canonical`, `components` — the keys that are their own path.
* `Renaming` — the versions of the one driver as those of the other: the conditions of a call are
  about the renamed versions (`compilePreconditions_rename`, `conditionsPass_rename`).
* `Mirrored` — what the two files of an object have to hold; `WriterMirrored` — an open writer and its
  temporary file; `FS.KeepsTemps` — which temporary files a call leaves alone.
* **`close_mirrors`**, **`writeAll_mirrors`**, **`copy_mirrors`**, **`updateMetadata_mirrors`**,
  **`delete_mirrors`** and the reads — the calls.
-/

namespace Blobster

open Interleave Function

/-! ## Keys that are paths -/

/-- The components of a key. -/
def components (full : String) : List String := (full.toList.splitOn '/').map String.ofList

/-- The key is its own path: no component is empty, a dot or a double dot. -/
def Canonical (full : String) : Prop := ∀ c ∈ components full, c ≠ "" ∧ c ≠ "." ∧ c ≠ ".."

instance (full : String) : Decidable (Canonical full) :=
  inferInstanceAs (Decidable (∀ c ∈ components full, c ≠ "" ∧ c ≠ "." ∧ c ≠ ".."))

lemma components_inj {x y : String} : components x = components y ↔ x = y := by
  refine ⟨fun h => ?_, fun h => h ▸ rfl⟩
  have hinj : Injective (String.ofList) := fun a b h => by simpa using congrArg String.toList h
  have hsplit := List.map_injective_iff.mpr hinj h
  have hjoin := congrArg (List.intercalate ['/']) hsplit
  rw [List.intercalate_splitOn, List.intercalate_splitOn] at hjoin
  exact String.toList_inj.mp hjoin

namespace FileDriver

lemma cleanRel_of_names {names stack : List String}
    (h : ∀ c ∈ names, c ≠ "" ∧ c ≠ "." ∧ c ≠ "..") :
    cleanRel names stack = some (stack.reverse ++ names) := by
  induction names generalizing stack with
  | nil => simp [cleanRel]
  | cons c names ih =>
      obtain ⟨⟨h₁, h₂, h₃⟩, hrest⟩ := List.forall_mem_cons.mp h
      rw [cleanRel_name (by simp [h₁, h₂]) h₃, ih hrest]
      simp

/-- **A canonical key has the path that it spells.** -/
lemma paths_of_canonical {b : Bucket} {key : String} (h : Canonical (b.pref ++ key)) :
    b.paths key = .ok (components (b.pref ++ key)) := by
  have hne : b.pref ++ key ≠ "" := by
    intro hempty
    rw [hempty] at h
    exact (h "" (by decide)).1 rfl
  have hcomp : components (b.pref ++ key) ≠ [] := by
    simp [components, List.splitOn_ne_nil]
  have hclean : cleanRel (components (b.pref ++ key)) [] = some (components (b.pref ++ key)) :=
    cleanRel_of_names h
  unfold Bucket.paths
  rw [if_neg hne]
  rw [components] at hclean hcomp ⊢
  rw [hclean]
  cases hc : (((b.pref ++ key).toList.splitOn '/').map String.ofList) with
  | nil => exact absurd hc hcomp
  | cons c cs => rfl

/-- The path of an object of the mem driver, in the bucket with the same prefix. -/
lemma paths_objectKey {b : MemDriver.Bucket} {key : String} (h : Canonical (b.objectKey key)) :
    (⟨b.pref⟩ : Bucket).paths key = .ok (components (b.objectKey key)) :=
  paths_of_canonical h

/-! ## What the programs leave on the disk -/

/-- A file is in place, and a temporary file has come and gone. -/
def FS.stored (fs : FS) (path : Path) (f : File) : FS where
  file := update (update fs.file (.temp fs.temps) none) path (some f)
  temps := fs.temps + 1

lemma exec_writeFileAtomic_eq (fs : FS) (env : Env) {path : Path} (data : ByteArray)
    (hpath : ∀ n, path ≠ .temp n) :
    (writeFileAtomic env path data).exec disk fs = (.ok (), fs.stored path ⟨data, env.mtime⟩) := by
  have hne : path ≠ .temp fs.temps := hpath _
  simp only [writeFileAtomic, newTemp, Prog.exec_bind, exec_mkdirAll, exec_createTemp, exec_write,
    FS.written, FS.set, update_self, exec_sync, exec_close, exec_rename, FS.renamed, Prog.pure_eq,
    Prog.exec_ret, update_idem, ByteArray.empty_append]
  rfl

lemma exec_commit_eq (json : Codec) (fs : FS) (env : Env) (rel : List String) (data : ByteArray)
    (attrs : ObjectAttrs) : (commit json env rel data attrs).exec disk fs =
      (.ok (), (fs.stored (.data rel) ⟨data, env.mtime⟩).stored (.side rel)
        ⟨mustMarshalAttrs json attrs, env.mtime⟩) := by
  simp only [commit, Prog.exec_bind, exec_mkdirAll]
  rw [exec_writeFileAtomic_eq _ _ _ (by simp)]
  dsimp only
  rw [exec_writeFileAtomic_eq _ _ _ (by simp)]

/-- Closing and removing a temporary file. -/
lemma exec_abort (fs : FS) (w : Writer) (e : Err) :
    (w.abort e).exec disk fs = (.error e, (fs.removed (.temp w.tmp)).2) := by
  simp [Writer.abort, Prog.discard_eq]

lemma exec_install_eq (pf : Platform) (json : Codec) (fs : FS) (env : Env) (w : Writer) {f : File}
    (hfile : fs.file (.temp w.tmp) = some f) : (w.install pf json env).exec disk fs =
      (.ok (), ((fs.set (.temp w.tmp) none).set (.data w.rel) (some f)).stored (.side w.rel)
        ⟨mustMarshalAttrs json (w.attrs pf env), env.mtime⟩) := by
  simp only [Writer.install, Prog.exec_bind, exec_mkdirAll, exec_rename, FS.renamed, hfile]
  rw [exec_writeFileAtomic_eq _ _ _ (by simp)]

lemma stored_ne (fs : FS) {path path' : Path} (f : File) (h : path' ≠ path)
    (htemp : path' ≠ .temp fs.temps) : (fs.stored path f).file path' = fs.file path' := by
  simp [FS.stored, h, htemp]

end FileDriver

/-! ## Renamed versions -/

/-- The versions of the one driver as those of the other. -/
structure Renaming (φ : Version → Version) : Prop where
  inj : Injective φ
  empty : φ "" = ""

/-- Compiled conditions on the renamed versions. -/
def Preconditions.rename (φ : Version → Version) (p : Preconditions) : Preconditions :=
  { p with ifMatch := φ p.ifMatch, ifNotMatch := φ p.ifNotMatch }

section Rename

variable {φ : Version → Version} (hφ : Renaming φ)
include hφ

lemma Renaming.eq_empty {v : Version} : φ v = "" ↔ v = "" :=
  ⟨fun h => hφ.inj (h.trans hφ.empty.symm), fun h => h ▸ hφ.empty⟩

/-- Renaming commutes with compiling. -/
lemma compilePreconditions_rename (pre : List Precondition) :
    compilePreconditions (pre.map (Precondition.rename φ)) =
      (compilePreconditions pre).map (Preconditions.rename φ) := by
  have hfold : ∀ p : Preconditions, (pre.map (Precondition.rename φ)).foldl Precondition.apply
      (p.rename φ) = (pre.foldl Precondition.apply p).rename φ := by
    induction pre with
    | nil => exact fun p => rfl
    | cons c pre ih =>
        intro p
        rw [List.map_cons, List.foldl_cons, List.foldl_cons, ← ih]
        cases c <;> rfl
  have hzero : (({} : Preconditions).rename φ) = {} := by simp [Preconditions.rename, hφ.empty]
  have hout := hfold {}
  rw [hzero] at hout
  simp only [compilePreconditions, hout]
  generalize pre.foldl Precondition.apply {} = out
  rw [apply_ite (Except.map (Preconditions.rename φ))]
  simp only [Preconditions.rename, ne_eq, hφ.eq_empty]
  rfl

/-- The conditions pass on the renamed version if they pass on the version. -/
lemma conditionsPass_rename (p : Preconditions) (current : Option Version) :
    conditionsPass (p.rename φ) (current.map φ) = conditionsPass p current := by
  have hsome : ∀ v, (current.map φ == some (φ v)) = (current == some v) := by
    intro v
    cases current <;> simp [hφ.inj.eq_iff]
  have hnone : (current.map φ).isNone = current.isNone := by cases current <;> rfl
  simp only [conditionsPass, Preconditions.rename, ne_eq, hφ.eq_empty, hsome, bne, hnone]

end Rename

/-! ## Corresponding states -/

namespace FileDriver

variable (φ : Version → Version) (json : Codec)

/-- What the two files of an object hold. -/
inductive Mirrored : Option MemDriver.Object → Option File → Option File → Prop
  | absent : Mirrored none none none
  | present {o : MemDriver.Object} {data side : File} {createTime : ℤ}
      (body : data.content = o.data) (size : o.attrs.size = o.data.size)
      (version : o.attrs.version ≠ "")
      (sidecar : json.unmarshal side.content = some
        { version := φ o.attrs.version, headers := o.attrs.headers, metadata := o.attrs.metadata,
          md5 := o.attrs.md5, size := o.attrs.size, createTime := createTime }) :
      Mirrored (some o) (some data) (some side)

/-- The objects of the two drivers correspond. -/
structure ObjectsMirrored (st : MemDriver.State) (fs : FS) : Prop where
  objects : ∀ key, Canonical key → Mirrored φ json (st.get key)
    (fs.file (.data (components key))) (fs.file (.side (components key)))
  known : ∀ key, st.get key ≠ none → Canonical key
  strays : ∀ rel, fs.file (.data rel) ≠ none → ∃ key, Canonical key ∧ components key = rel

/-- An open writer and its temporary file. -/
structure WriterMirrored (fs : FS) (w : MemDriver.Writer) (fw : Writer) : Prop where
  canonical : Canonical (w.bucket.objectKey w.key)
  rel : fw.rel = components (w.bucket.objectKey w.key)
  opts : fw.opts = w.opts
  preconditions : fw.preconditions = w.preconditions.rename φ
  closed : fw.closed = w.closed
  hashed : fw.hashed = w.buf
  size : fw.size = w.buf.size
  temp : w.closed = false → fw.tmp < fs.temps ∧ ∃ mtime, fs.file (.temp fw.tmp) = some ⟨w.buf, mtime⟩

/-- The temporary files are still there, but for the one that the call works on. -/
structure FS.KeepsTemps (fs fs' : FS) (own : Option ℕ) : Prop where
  temps : fs.temps ≤ fs'.temps
  temp : ∀ n < fs.temps, some n ≠ own → fs'.file (.temp n) = fs.file (.temp n)

variable {φ json} {st st' : MemDriver.State} {fs fs' : FS} {rel : List String}
  {mo : Option MemDriver.Object}

lemma Mirrored.of_none {data side : Option File} (h : Mirrored φ json none data side) :
    data = none := by
  cases h
  rfl

lemma Mirrored.of_some {o : MemDriver.Object} {data side : Option File}
    (h : Mirrored φ json (some o) data side) :
    ∃ f sf, data = some f ∧ side = some sf ∧ o.attrs.size = o.data.size := by
  cases h with
  | present body size version sidecar => exact ⟨_, _, rfl, rfl, size⟩

/-! ### Reading -/

/-- The attributes of an object that is there. -/
lemma exec_readAttributes_present (hφ : Renaming φ) {o : MemDriver.Object}
    (h : Mirrored φ json (some o) (fs.file (.data rel)) (fs.file (.side rel))) :
    ∃ a, (readAttributes json rel).exec disk fs = (.ok a, fs) ∧ a.shown id = o.attrs.shown φ ∧
      ∃ f, fs.file (.data rel) = some f ∧ f.content = o.data ∧ a.size = f.content.size := by
  generalize hd : fs.file (.data rel) = d at h
  generalize hs : fs.file (.side rel) = sd at h
  cases h with
  | present body size version sidecar =>
      rename_i data side createTime
      have hne : φ o.attrs.version ≠ "" := fun h => version (hφ.eq_empty.mp h)
      refine ⟨combine (data.modTime, data.content.size) ⟨φ o.attrs.version, o.attrs.headers,
        o.attrs.metadata, o.attrs.md5, o.attrs.size, createTime⟩, ?_, ?_, data, rfl, body, ?_⟩
      · simp only [readAttributes, Prog.exec_bind, exec_stat, hd, exec_readFile, hs, sidecar]
        rfl
      · simp [combine, ObjectAttrs.shown, hne]
      · simp [combine, hne, size, body]

lemma exec_readAttributes_absent (h : fs.file (.data rel) = none) :
    (readAttributes json rel).exec disk fs = (.error .notFound, fs) := by
  simp [readAttributes, h]

lemma ObjectsMirrored.absent (h : ObjectsMirrored φ json st fs) {key : String}
    (hkey : Canonical key) (hget : st.get key = none) : fs.file (.data (components key)) = none := by
  have hm := h.objects key hkey
  rw [hget] at hm
  exact hm.of_none

lemma ObjectsMirrored.size (h : ObjectsMirrored φ json st fs) {key : String} {o : MemDriver.Object}
    (hget : st.get key = some o) : o.attrs.size = o.data.size := by
  have hm := h.objects key (h.known key (by simp [hget]))
  rw [hget] at hm
  obtain ⟨-, -, -, -, hsize⟩ := hm.of_some
  exact hsize

/-- What `statVersion` answers. -/
lemma exec_statVersion (hφ : Renaming φ)
    (h : Mirrored φ json mo (fs.file (.data rel)) (fs.file (.side rel))) :
    ∃ cur, (statVersion json rel).exec disk fs = (.ok cur, fs) ∧
      cur.map (ObjectAttrs.shown id) = mo.map fun o => o.attrs.shown φ := by
  cases mo with
  | none =>
      refine ⟨none, ?_, rfl⟩
      simp [statVersion, exec_readAttributes_absent h.of_none]
  | some o =>
      obtain ⟨a, hexec, hshown, -⟩ := exec_readAttributes_present hφ h
      refine ⟨some a, ?_, ?_⟩
      · simp [statVersion, hexec]
      · simp [hshown]

lemma version_of_shown {cur : Option ObjectAttrs}
    (h : cur.map (ObjectAttrs.shown id) = mo.map fun o => o.attrs.shown φ) :
    cur.map (fun a => a.version) = (mo.map fun o => o.attrs.version).map φ := by
  have hver := congrArg (Option.map ObjectAttrs.version) h
  simpa [Option.map_map, Function.comp_def, ObjectAttrs.shown] using hver

/-! ### What a call changes -/

lemma tree_stored {path : Path} (hpath : ∀ n, path ≠ .temp n) (f : File) :
    (fs.stored path f).tree = update fs.tree path (some f) := by
  have htemp := fs.tree_set_temp fs.temps none
  have hset := (fs.set (.temp fs.temps) none).tree_set hpath (some f)
  rw [htemp] at hset
  rw [← hset]
  exact FS.tree_temps ((fs.set (.temp fs.temps) none).set path (some f)) (fs.temps + 1)

lemma tree_removed_temp (n : ℕ) : (fs.removed (.temp n)).2.tree = fs.tree := by
  unfold FS.removed
  split
  · rfl
  · exact fs.tree_set_temp n none

/-- Where the committed files stay, the objects stay. -/
lemma ObjectsMirrored.same (h : ObjectsMirrored φ json st fs) (htree : fs'.tree = fs.tree) :
    ObjectsMirrored φ json st fs' where
  objects key hkey := by
    rw [← FS.tree_data, ← FS.tree_side, htree]
    exact h.objects key hkey
  known := h.known
  strays rel hrel := by
    rw [← FS.tree_data, htree] at hrel
    exact h.strays rel hrel

/-- One object changes, and with it its two files. -/
lemma ObjectsMirrored.change (h : ObjectsMirrored φ json st fs) {key : String}
    (hkey : Canonical key) (data side : Option File)
    (htree : fs'.tree = update (update fs.tree (.data (components key)) data)
      (.side (components key)) side)
    (hget : ∀ key', key' ≠ key → st'.get key' = st.get key')
    (hm : Mirrored φ json (st'.get key) data side) : ObjectsMirrored φ json st' fs' where
  objects key' hkey' := by
    rw [← FS.tree_data, ← FS.tree_side, htree]
    by_cases heq : key' = key
    · subst heq
      simpa using hm
    · have hne : components key' ≠ components key := fun h => heq (components_inj.mp h)
      rw [hget key' heq]
      simpa [hne] using h.objects key' hkey'
  known key' hget' := by
    by_cases heq : key' = key
    · exact heq ▸ hkey
    · rw [hget key' heq] at hget'
      exact h.known key' hget'
  strays rel hrel := by
    rw [← FS.tree_data, htree] at hrel
    by_cases heq : rel = components key
    · exact ⟨key, hkey, heq.symm⟩
    · refine h.strays rel ?_
      simpa [heq] using hrel

namespace FS.KeepsTemps

variable {fs'' : FS} {own : Option ℕ} {path : Path}

lemma refl (fs : FS) (own : Option ℕ) : fs.KeepsTemps fs own := ⟨le_rfl, fun _ _ _ => rfl⟩

lemma trans (h : fs.KeepsTemps fs' own) (h' : fs'.KeepsTemps fs'' own) : fs.KeepsTemps fs'' own :=
  ⟨h.temps.trans h'.temps, fun n hn hne =>
    (h'.temp n (hn.trans_le h.temps) hne).trans (h.temp n hn hne)⟩

lemma stored (hpath : ∀ n, path ≠ .temp n) (f : File) : fs.KeepsTemps (fs.stored path f) own :=
  ⟨Nat.le_succ _, fun n hn _ => stored_ne fs f (hpath n).symm (by simp; omega)⟩

lemma set (hpath : ∀ n, path ≠ .temp n) (f : Option File) : fs.KeepsTemps (fs.set path f) own :=
  ⟨le_rfl, fun n _ _ => fs.set_ne (hpath n).symm f⟩

lemma set_temp (n : ℕ) (f : Option File) : fs.KeepsTemps (fs.set (.temp n) f) (some n) :=
  ⟨le_rfl, fun m _ hne => fs.set_ne (by simpa using hne) f⟩

lemma removed_temp (n : ℕ) : fs.KeepsTemps (fs.removed (.temp n)).2 (some n) := by
  unfold FS.removed
  split
  · exact refl _ _
  · exact set_temp n none

end FS.KeepsTemps

lemma WriterMirrored.keeps {w : MemDriver.Writer} {fw : Writer} {own : Option ℕ}
    (h : WriterMirrored φ fs w fw) (hk : fs.KeepsTemps fs' own)
    (hne : w.closed = false → some fw.tmp ≠ own) : WriterMirrored φ fs' w fw := by
  refine { h with temp := fun hopen => ?_ }
  obtain ⟨hlt, mtime, hfile⟩ := h.temp hopen
  exact ⟨hlt.trans_le hk.temps, mtime, (hk.temp _ hlt (hne hopen)).trans hfile⟩

/-- A writer that is no longer open has no temporary file. -/
lemma WriterMirrored.shut {w : MemDriver.Writer} {fw : Writer} (h : WriterMirrored φ fs w fw) :
    WriterMirrored φ fs' { w with closed := true } { fw with closed := true } :=
  { h with closed := rfl, temp := by simp }

/-- The temporary file of an open writer. -/
def Writer.own (fw : Writer) : Option ℕ := if fw.closed then none else some fw.tmp

lemma own_of_open {fw : Writer} (h : fw.closed = false) : fw.own = some fw.tmp := by
  simp [Writer.own, h]

/-! ## The calls -/

section Calls

variable (pf : Platform) {b : MemDriver.Bucket} {key : String} {env : Env} {ctx : Option Err}
  {w : MemDriver.Writer} {fw : Writer}

/-- The sidecar that a commit writes. -/
lemma mirrored_of_attrs {o : MemDriver.Object} {attrs : ObjectAttrs} {data : File} {mtime : ℤ}
    (body : data.content = o.data) (size : o.attrs.size = o.data.size)
    (version : o.attrs.version ≠ "") (hshown : attrs.shown id = o.attrs.shown φ) :
    Mirrored φ json (some o) (some data) (some ⟨mustMarshalAttrs json attrs, mtime⟩) := by
  simp only [ObjectAttrs.shown, ObjectAttrs.mk.injEq, id] at hshown
  obtain ⟨hh, hm, -, -, hsz, hmd5, hv⟩ := hshown
  have hside : json.unmarshal (mustMarshalAttrs json attrs) = some
      { version := φ o.attrs.version, headers := o.attrs.headers, metadata := o.attrs.metadata,
        md5 := o.attrs.md5, size := o.attrs.size, createTime := attrs.createTime } := by
    rw [mustMarshalAttrs, json.unmarshal_marshal, hh, hm, hsz, hmd5, hv]
  exact .present body size version hside

lemma formatUint_ne_empty (n : UInt64) : MemDriver.formatUint n ≠ "" := Nat.repr_ne_empty

/-- A writer is opened. -/
lemma newWriter_mirrors (hφ : Renaming φ) (hkey : Canonical (b.objectKey key))
    (opts : WriterOptions) (pre : List Precondition) (fs : FS) (env : Env) :
    (∃ e, b.newWriter pf key opts pre = .error e ∧ (Bucket.newWriter pf env ⟨b.pref⟩ key opts
      (pre.map (Precondition.rename φ))).exec disk fs = (.error e, fs)) ∨
    ∃ w fw fs', b.newWriter pf key opts pre = .ok w ∧ (Bucket.newWriter pf env ⟨b.pref⟩ key opts
        (pre.map (Precondition.rename φ))).exec disk fs = (.ok fw, fs') ∧
      fs'.tree = fs.tree ∧ fs.KeepsTemps fs' none ∧ fw.tmp = fs.temps ∧ w.closed = false ∧
      WriterMirrored φ fs' w fw := by
  unfold MemDriver.Bucket.newWriter Bucket.newWriter
  rw [compilePreconditions_rename hφ]
  split
  · rename_i e hc
    exact .inl ⟨e, rfl, by rw [hc]; rfl⟩
  · rename_i compiled hc
    simp only [hc, Except.map, paths_objectKey hkey]
    cases hclone : opts.clone pf with
    | error e => exact .inl ⟨e, rfl, rfl⟩
    | ok cloned =>
        dsimp only
        cases hbefore : cloned.beforeWrite with
        | some e => exact .inl ⟨e, rfl, rfl⟩
        | none =>
            let fs' : FS :=
              { fs.set (.temp fs.temps) (some ⟨.empty, env.mtime⟩) with temps := fs.temps + 1 }
            refine .inr ⟨_, _, fs', rfl, rfl, ?_, ⟨Nat.le_succ _, fun n hn _ => ?_⟩, rfl, rfl, ?_⟩
            · exact (FS.tree_temps (fs.set _ _) _).trans (fs.tree_set_temp fs.temps _)
            · exact fs.set_ne (by simp; omega) _
            · exact ⟨hkey, rfl, rfl, rfl, rfl, rfl, rfl,
                fun _ => ⟨Nat.lt_succ_self _, env.mtime, fs.set_self _ _⟩⟩

/-- A writer takes bytes. -/
lemma tryWrite_mirrors (h : WriterMirrored φ fs w fw) (env : Env) (ctx : Option Err)
    (p : ByteArray) : ∃ fw' fs',
      (fw.tryWrite env ctx p).exec disk fs = (((w.write ctx p).1, fw'), fs') ∧
      fs'.tree = fs.tree ∧ fs.KeepsTemps fs' fw.own ∧ fw'.tmp = fw.tmp ∧ fw'.closed = fw.closed ∧
      WriterMirrored φ fs' (w.write ctx p).2 fw' := by
  unfold Writer.tryWrite MemDriver.Writer.write
  rw [h.closed]
  split_ifs with hclosed
  · exact ⟨fw, fs, rfl, rfl, .refl _ _, rfl, h.closed, h⟩
  · cases ctx with
    | some e => exact ⟨fw, fs, rfl, rfl, .refl _ _, rfl, h.closed, h⟩
    | none =>
        obtain ⟨hlt, mtime, hfile⟩ := h.temp (by simpa using hclosed)
        have hexec : (fw.write env p).exec disk fs =
            (.ok { fw with hashed := fw.hashed ++ p, size := fw.size + p.size },
              fs.set (.temp fw.tmp) (some ⟨w.buf ++ p, env.mtime⟩)) := by
          simp [Writer.write, FS.written, hfile]
        refine ⟨{ fw with hashed := fw.hashed ++ p, size := fw.size + p.size }, _,
          by rw [Prog.exec_bind, hexec]; rfl, fs.tree_set_temp _ _, ?_, rfl, h.closed, ?_⟩
        · rw [own_of_open (h.closed.trans (by simpa using hclosed))]
          exact .set_temp _ _
        · exact ⟨h.canonical, h.rel, h.opts, h.preconditions, h.closed, by simp [h.hashed],
            by simp [h.size], fun _ => ⟨hlt, env.mtime, fs.set_self _ _⟩⟩

/-- A temporary file is given up. -/
lemma removed_mirrors (ho : ObjectsMirrored φ json st fs) (hopen : fw.closed = false) :
    ObjectsMirrored φ json st (fs.removed (.temp fw.tmp)).2 ∧
      fs.KeepsTemps (fs.removed (.temp fw.tmp)).2 fw.own :=
  ⟨ho.same (tree_removed_temp _), own_of_open hopen ▸ .removed_temp _⟩

/-- A writer is closed: the answers agree, and what is committed. -/
lemma close_mirrors (hφ : Renaming φ) (ho : ObjectsMirrored φ json st fs)
    (hw : WriterMirrored φ fs w fw) (env : Env) (ctx : Option Err) (now : ℤ)
    (hdraw : (w.close pf ctx now st).2.2 ≠ st →
      env.version = φ (MemDriver.formatUint (st.nextVersion + 1))) :
    ∃ fs', (fw.close pf json env ctx).exec disk fs = ((w.close pf ctx now st).1, fs') ∧
      ObjectsMirrored φ json (w.close pf ctx now st).2.2 fs' ∧ fs.KeepsTemps fs' fw.own := by
  unfold Writer.close MemDriver.Writer.close at *
  simp only [hw.closed, hw.opts, hw.hashed, hw.preconditions]
  by_cases hclosed : w.closed = true
  · simp only [if_pos hclosed]
    exact ⟨fs, rfl, ho, .refl _ _⟩
  have hopen : fw.closed = false := by simpa [hw.closed] using hclosed
  have hgive : ∀ e, ∃ fs', (do discard (FileDriver.close (.temp fw.tmp)); fw.abort e : FsProg _).exec
      disk fs = (.error e, fs') ∧ ObjectsMirrored φ json st fs' ∧ fs.KeepsTemps fs' fw.own := by
    intro e
    refine ⟨(fs.removed (.temp fw.tmp)).2, ?_, removed_mirrors ho hopen⟩
    rw [Prog.exec_bind, exec_abort]
    simp [Prog.discard_eq]
  simp only [if_neg hclosed] at hdraw ⊢
  cases ctx with
  | some e => exact hgive e
  | none =>
      dsimp only at hdraw ⊢
      by_cases hmd5 : w.opts.contentMD5.size > 0 ∧ pf.md5 w.buf ≠ w.opts.contentMD5
      · simp only [if_pos hmd5]
        exact hgive .invalidOption
      simp only [if_neg hmd5] at hdraw ⊢
      have hm := ho.objects _ hw.canonical
      rw [← hw.rel] at hm
      obtain ⟨cur, hstat, hcur⟩ := exec_statVersion hφ hm
      have hpass := conditionsPass_rename hφ w.preconditions
        (st.version (w.bucket.objectKey w.key))
      rw [MemDriver.State.version, ← version_of_shown hcur] at hpass
      simp only [Prog.exec_bind, exec_sync, exec_close, hstat, hpass]
      by_cases hok : conditionsPass w.preconditions (st.version (w.bucket.objectKey w.key)) = true
      · have hok' : conditionsPass w.preconditions ((st.get (w.bucket.objectKey w.key)).map
          fun o => o.attrs.version) = true := hok
        simp only [if_pos hok, if_pos hok'] at hdraw ⊢
        obtain ⟨-, mtime, hfile⟩ := hw.temp (by simpa using hclosed)
        rw [exec_install_eq pf json fs env fw hfile]
        refine ⟨_, rfl, ho.change hw.canonical (some ⟨w.buf, mtime⟩)
          (some ⟨mustMarshalAttrs json (fw.attrs pf env), env.mtime⟩) ?_
          (fun key' h => st.get_commit_ne _ _ h) ?_, ?_⟩
        · rw [tree_stored (by simp), FS.tree_set _ (by simp), FS.tree_set_temp, hw.rel]
        · rw [st.get_commit_self]
          refine mirrored_of_attrs rfl rfl (formatUint_ne_empty _) ?_
          simp [Writer.attrs, MemDriver.Writer.attrs, ObjectAttrs.shown, hw.opts, hw.size, hw.hashed,
            hdraw (st.commit_ne _ _)]
        · rw [own_of_open hopen]
          exact ((FS.KeepsTemps.set_temp _ _).trans (.set (by simp) _)).trans (.stored (by simp) _)
      · have hok' : ¬ conditionsPass w.preconditions ((st.get (w.bucket.objectKey w.key)).map
          fun o => o.attrs.version) = true := hok
        simp only [if_neg hok, if_neg hok']
        exact ⟨_, exec_abort fs fw _, removed_mirrors ho hopen⟩

/-- What `Close` leaves of a writer. -/
lemma close_shut (w : MemDriver.Writer) (ctx : Option Err) (now : ℤ) (st : MemDriver.State) :
    (w.close pf ctx now st).2.1 = { w with closed := true } := by
  unfold MemDriver.Writer.close
  by_cases hclosed : w.closed = true
  · rw [if_pos hclosed]
    cases w
    cases hclosed
    rfl
  · rw [if_neg hclosed]
    cases ctx with
    | some e => rfl
    | none =>
        dsimp only
        split_ifs <;> rfl

/-- A writer is given up. -/
lemma giveUp_mirrors (ho : ObjectsMirrored φ json st fs) (fw : Writer) :
    ObjectsMirrored φ json st (fw.giveUp.exec disk fs).2 ∧
      fs.KeepsTemps (fw.giveUp.exec disk fs).2 fw.own := by
  unfold Writer.giveUp
  split_ifs with hclosed
  · exact ⟨ho, .refl _ _⟩
  · have hexec : (fw.closeWithError.exec disk fs).2 = (fs.removed (.temp fw.tmp)).2 := by
      simp [Writer.closeWithError, Prog.discard_eq]
    rw [hexec]
    exact removed_mirrors ho (by simpa using hclosed)

/-- `WriteAll`. -/
lemma writeAll_mirrors (hφ : Renaming φ) (ho : ObjectsMirrored φ json st fs)
    (hkey : Canonical (b.objectKey key)) (env : Env) (ctx : Option Err) (p : ByteArray)
    (opts : WriterOptions) (pre : List Precondition) (now : ℤ)
    (hdraw : (b.writeAll pf ctx key p opts pre now st).2 ≠ st →
      env.version = φ (MemDriver.formatUint (st.nextVersion + 1))) :
    ∃ fs', (Bucket.writeAll pf json env ⟨b.pref⟩ ctx key p opts
        (pre.map (Precondition.rename φ))).exec disk fs =
          ((b.writeAll pf ctx key p opts pre now st).1, fs') ∧
      ObjectsMirrored φ json (b.writeAll pf ctx key p opts pre now st).2 fs' ∧
      fs.KeepsTemps fs' none := by
  unfold MemDriver.Bucket.writeAll Bucket.writeAll at *
  cases hprep : prepareWriteAllOptions pf opts p with
  | error e => exact ⟨fs, rfl, ho, .refl _ _⟩
  | ok cloned =>
      rw [hprep] at hdraw
      dsimp only at hdraw ⊢
      rcases newWriter_mirrors pf hφ hkey cloned pre fs env with
        ⟨e, hmem, hfile⟩ | ⟨w, fw, fs₁, hmem, hfile, htree₁, hkeep₁, htmp, hopen, hw⟩
      · simp only [hmem, Prog.exec_bind, hfile]
        exact ⟨fs, rfl, ho, .refl _ _⟩
      · rw [hmem] at hdraw
        simp only [hmem, Prog.exec_bind, hfile] at hdraw ⊢
        -- the temporary file is newer than those that are to be kept
        have hown : ∀ {fs' : FS}, fs₁.KeepsTemps fs' fw.own → fs.KeepsTemps fs' none := by
          intro fs' hk
          refine ⟨hkeep₁.temps.trans hk.temps, fun n hn _ => ?_⟩
          rw [hk.temp n (hn.trans_le hkeep₁.temps) ?_, hkeep₁.temp n hn (by simp)]
          simp only [Writer.own, hw.closed, hopen, htmp]
          simpa using hn.ne
        obtain ⟨fw', fs₂, hwrite, htree₂, hkeep₂, htmp', hclosed', hw'⟩ :=
          tryWrite_mirrors hw env ctx p
        have hown' : fw'.own = fw.own := by simp [Writer.own, htmp', hclosed']
        have ho₂ : ObjectsMirrored φ json st fs₂ := ho.same (htree₂.trans htree₁)
        rw [hwrite]
        rcases hres : w.write ctx p with ⟨_ | _, w'⟩
        · obtain ⟨ho₃, hkeep₃⟩ := giveUp_mirrors ho₂ fw'
          simp only [Prog.exec_bind]
          exact ⟨_, rfl, ho₃, hown (hkeep₂.trans (hown' ▸ hkeep₃))⟩
        · rw [hres] at hdraw hw'
          dsimp only at hdraw hw' ⊢
          obtain ⟨fs₃, hclose, ho₃, hkeep₃⟩ := close_mirrors pf hφ ho₂ hw' env ctx now hdraw
          exact ⟨fs₃, hclose, ho₃, hown (hkeep₂.trans (hown' ▸ hkeep₃))⟩

/-- `Attributes`. -/
lemma attributes_mirrors (hφ : Renaming φ) (ho : ObjectsMirrored φ json st fs)
    (hkey : Canonical (b.objectKey key)) (ctx : Option Err) :
    ∃ r, (Bucket.attributes json ⟨b.pref⟩ ctx key).exec disk fs = (r, fs) ∧
      r.map (ObjectAttrs.shown id) = (b.attributes ctx key st).map (ObjectAttrs.shown φ) := by
  unfold Bucket.attributes MemDriver.Bucket.attributes
  rw [paths_objectKey hkey]
  cases ctx with
  | some e => exact ⟨.error e, rfl, rfl⟩
  | none =>
      have hm := ho.objects _ hkey
      cases hget : st.get (b.objectKey key) with
      | none =>
          exact ⟨.error .notFound, exec_readAttributes_absent (ho.absent hkey hget), rfl⟩
      | some o =>
          rw [hget] at hm
          obtain ⟨a, hexec, hshown, -⟩ := exec_readAttributes_present hφ hm
          exact ⟨.ok a, hexec, congrArg Except.ok hshown⟩

/-- `NewRangeReader`, where the mem driver's sum is a machine integer. -/
lemma newRangeReader_mirrors (hφ : Renaming φ) (ho : ObjectsMirrored φ json st fs)
    (hkey : Canonical (b.objectKey key)) (ctx beforeRead : Option Err) (offset length : Int64)
    (hfits : ∀ obj, st.get (b.objectKey key) = some obj → obj.data.size < 2 ^ 63 ∧
      (length.toInt < 0 ∨ min offset.toInt obj.data.size + length.toInt < 2 ^ 63)) :
    ∃ r, (newRangeReader json ⟨b.pref⟩ ctx beforeRead key offset length).exec disk fs = (r, fs) ∧
      (Outcome.ofExcept r).map (fun x => (x.1, x.2.shown id)) =
        (b.newRangeReader ctx beforeRead key offset length st).map fun x => (x.1, x.2.shown φ) := by
  cases ctx with
  | some e => exact ⟨.error e, rfl, rfl⟩
  | none =>
      cases beforeRead with
      | some e => exact ⟨.error e, rfl, rfl⟩
      | none =>
          by_cases hneg : offset < 0
          · refine ⟨.error .invalidOption, ?_, ?_⟩
            · simp [newRangeReader, hneg]
            · simp [MemDriver.Bucket.newRangeReader, hneg, Outcome.ofExcept, Outcome.map]
          have hoff : 0 ≤ offset.toInt := by
            rw [Int64.lt_iff_toInt_lt] at hneg
            exact not_lt.mp hneg
          cases hget : st.get (b.objectKey key) with
          | none =>
              refine ⟨.error .notFound, ?_, ?_⟩
              · simp [newRangeReader, hneg, paths_objectKey hkey,
                  exec_readAttributes_absent (ho.absent hkey hget)]
              · simp [MemDriver.Bucket.newRangeReader, hneg, hget, Outcome.ofExcept, Outcome.map]
          | some obj =>
              have hm := ho.objects _ hkey
              rw [hget] at hm
              obtain ⟨a, hexec, hshown, f, hfile, hbody, hsize⟩ := exec_readAttributes_present hφ hm
              obtain ⟨hlt, hsum⟩ := hfits obj hget
              refine ⟨_, newRangeReader_file (paths_objectKey hkey) hexec hfile hsize
                (hbody ▸ hlt) hoff, ?_⟩
              rw [(newRangeReader_mem_iff hget hlt hoff length).mpr hsum]
              simp [Outcome.ofExcept, Outcome.map, hbody, hshown]

/-- `Copy`. -/
lemma copy_mirrors (hφ : Renaming φ) (ho : ObjectsMirrored φ json st fs) {dstKey srcKey : String}
    (hdst : Canonical (b.objectKey dstKey)) (hsrc : Canonical (b.objectKey srcKey)) (env : Env)
    (ctx before : Option Err) (now : ℤ)
    (hdraw : (b.copy ctx before dstKey srcKey now st).2 ≠ st →
      env.version = φ (MemDriver.formatUint (st.nextVersion + 1))) :
    ∃ fs', (FileDriver.copy json env ⟨b.pref⟩ ctx before dstKey srcKey).exec disk fs =
        ((b.copy ctx before dstKey srcKey now st).1, fs') ∧
      ObjectsMirrored φ json (b.copy ctx before dstKey srcKey now st).2 fs' ∧
      fs.KeepsTemps fs' none := by
  unfold FileDriver.copy MemDriver.Bucket.copy at *
  rw [paths_objectKey hdst, paths_objectKey hsrc]
  cases ctx with
  | some e => exact ⟨fs, rfl, ho, .refl _ _⟩
  | none =>
      cases before with
      | some e => exact ⟨fs, rfl, ho, .refl _ _⟩
      | none =>
          cases hget : st.get (b.objectKey srcKey) with
          | none =>
              have hnone := ho.absent hsrc hget
              exact ⟨fs, by simp [hnone], ho, .refl _ _⟩
          | some src =>
              rw [hget] at hdraw
              have hm := ho.objects _ hsrc
              rw [hget] at hm
              obtain ⟨a, hexec, hshown, f, hfile, hbody, -⟩ := exec_readAttributes_present hφ hm
              have hsize := ho.size hget
              dsimp only at hdraw ⊢
              simp only [Prog.exec_bind, exec_readFile, hfile, hexec, exec_commit_eq]
              refine ⟨_, rfl, ho.change hdst (some ⟨f.content, env.mtime⟩)
                (some ⟨mustMarshalAttrs json (copyAttrs env a), env.mtime⟩) ?_
                (fun key' h => st.get_commit_ne _ _ h) ?_, ?_⟩
              · rw [tree_stored (by simp), tree_stored (by simp)]
              · rw [st.get_commit_self]
                refine mirrored_of_attrs hbody hsize (formatUint_ne_empty _) ?_
                have hv := hdraw (st.commit_ne _ _)
                simp only [ObjectAttrs.shown, ObjectAttrs.mk.injEq, id, copyAttrs] at hshown ⊢
                simp [hshown, hv]
              · exact (FS.KeepsTemps.stored (by simp) _).trans (.stored (by simp) _)

/-- `UpdateMetadata`. -/
lemma updateMetadata_mirrors (hφ : Renaming φ) (ho : ObjectsMirrored φ json st fs)
    (hkey : Canonical (b.objectKey key)) (env : Env) (ctx : Option Err) (md : UserMetadata) (now : ℤ)
    (hdraw : (b.updateMetadata pf ctx key md now st).2 ≠ st →
      env.version = φ (MemDriver.formatUint (st.nextVersion + 1))) :
    ∃ r fs', (FileDriver.updateMetadata pf json env ⟨b.pref⟩ ctx key md).exec disk fs = (r, fs') ∧
      r = (b.updateMetadata pf ctx key md now st).1.map φ ∧
      ObjectsMirrored φ json (b.updateMetadata pf ctx key md now st).2 fs' ∧
      fs.KeepsTemps fs' none := by
  unfold FileDriver.updateMetadata MemDriver.Bucket.updateMetadata at *
  rw [paths_objectKey hkey]
  cases ctx with
  | some e => exact ⟨_, fs, rfl, rfl, ho, .refl _ _⟩
  | none =>
      cases hnorm : normalizeMetadata pf md with
      | error e => exact ⟨_, fs, rfl, rfl, ho, .refl _ _⟩
      | ok normalized =>
          rw [hnorm] at hdraw
          have hm := ho.objects _ hkey
          obtain ⟨cur, hstat, hcur⟩ := exec_statVersion hφ hm
          dsimp only at hdraw ⊢
          rw [Prog.exec_bind, hstat]
          cases hget : st.get (b.objectKey key) with
          | none =>
              obtain rfl : cur = none := by simpa [hget] using hcur
              exact ⟨_, fs, rfl, rfl, ho, .refl _ _⟩
          | some o =>
              rw [hget] at hdraw hcur hm
              obtain ⟨current, rfl, hshown⟩ := Option.map_eq_some_iff.mp hcur
              obtain ⟨-, -, -, f, hfile, hbody, -⟩ := exec_readAttributes_present hφ hm
              dsimp only at hdraw ⊢
              have hv := hdraw (st.commit_ne _ _)
              have hsize := ho.size hget
              rw [Prog.exec_bind, exec_writeFileAtomic_eq _ _ _ (by simp)]
              refine ⟨_, _, rfl, congrArg Except.ok hv, ho.change hkey (some f)
                (some ⟨mustMarshalAttrs json
                  { current with metadata := normalized, version := env.version }, env.mtime⟩) ?_
                (fun key' h => st.get_commit_ne _ _ h) ?_, ?_⟩
              · have hdata : update fs.tree (.data (components (b.objectKey key))) (some f) = fs.tree :=
                  update_eq_self_iff.mpr hfile.symm
                rw [tree_stored (by simp), hdata]
              · rw [st.get_commit_self]
                refine mirrored_of_attrs hbody hsize (formatUint_ne_empty _) ?_
                simp only [ObjectAttrs.shown, ObjectAttrs.mk.injEq, id] at hshown ⊢
                simp [hshown, hv]
              · exact .stored (by simp) _

/-- `Delete`. -/
lemma delete_mirrors (hφ : Renaming φ) (ho : ObjectsMirrored φ json st fs)
    (hkey : Canonical (b.objectKey key)) (ctx : Option Err) (pre : List Precondition) :
    ∃ fs', (FileDriver.delete json ⟨b.pref⟩ ctx key (pre.map (Precondition.rename φ))).exec disk fs =
        ((b.delete ctx key pre st).1, fs') ∧
      ObjectsMirrored φ json (b.delete ctx key pre st).2 fs' ∧ fs.KeepsTemps fs' none := by
  unfold FileDriver.delete MemDriver.Bucket.delete
  rw [paths_objectKey hkey, compilePreconditions_rename hφ]
  cases ctx with
  | some e => exact ⟨fs, rfl, ho, .refl _ _⟩
  | none =>
      cases hcomp : compilePreconditions pre with
      | error e => exact ⟨fs, rfl, ho, .refl _ _⟩
      | ok compiled =>
          have hm := ho.objects _ hkey
          obtain ⟨cur, hstat, hcur⟩ := exec_statVersion hφ hm
          have hpass := conditionsPass_rename hφ compiled
            ((st.get (b.objectKey key)).map fun o => o.attrs.version)
          rw [← version_of_shown hcur] at hpass
          simp only [Except.map]
          rw [Prog.exec_bind, hstat]
          cases hget : st.get (b.objectKey key) with
          | none =>
              obtain rfl : cur = none := by simpa [hget] using hcur
              exact ⟨fs, rfl, ho, .refl _ _⟩
          | some o =>
              rw [hget] at hcur hm hpass
              obtain ⟨current, rfl, hshown⟩ := Option.map_eq_some_iff.mp hcur
              simp only [Option.map_some] at hpass
              dsimp only
              rw [hpass]
              by_cases hok : conditionsPass compiled (some o.attrs.version) = true
              · rw [if_pos hok, if_pos hok]
                obtain ⟨d, sd, hd, hs, -⟩ := hm.of_some
                have hs' := (fs.set_ne (by simp : Path.side (components (b.objectKey key)) ≠
                  .data (components (b.objectKey key))) none).trans hs
                refine ⟨(fs.set (.data (components (b.objectKey key))) none).set
                  (.side (components (b.objectKey key))) none, ?_, ho.change hkey none none ?_
                  (fun key' h => st.get_erase_ne _ h) ?_, ?_⟩
                · simp [FS.removed, hd, hs', Prog.discard_eq]
                · rw [FS.tree_set _ (by simp), FS.tree_set _ (by simp)]
                · rw [st.get_erase_self]
                  exact .absent
                · exact (FS.KeepsTemps.set (by simp) _).trans (.set (by simp) _)
              · rw [if_neg hok, if_neg hok]
                exact ⟨fs, rfl, ho, .refl _ _⟩

end Calls

end FileDriver

end Blobster
