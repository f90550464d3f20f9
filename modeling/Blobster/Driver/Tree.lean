import Blobster.Driver.Mirror

/-!
# Directories

Keys with slashes in them are paths, and a path needs directories.  `os.MkdirAll` makes them before a
commit and nothing ever removes them.  A step on a path that leads through a file fails, and so does
one that takes a directory for a file; `os.Remove` takes an empty directory away.

This file puts the directories into the disk and shows that the programs of the file driver take no
notice of them, as long as no key is a directory of another.

* `Path.above`, `Tree`, `treeDisk` — the directories that a path leads through, and the disk with them.
* `Tree.Tidy` — what holds of a disk on which only keys apart from each other were ever written: its
  directories are above these keys, and the directories of an object are there.
* `Allowed`, `Follows.step` — the steps that do the same on both disks.
* **`Agrees`** — a program runs on the disk with directories as on the one without; one lemma for each
  program.
-/

namespace Blobster

open Interleave Function

/-! ## The disk with directories -/

namespace FileDriver

/-- The directories that a path leads through, with the root of its tree. -/
def Path.above : Path → List Path
  | .data rel => (rel.inits.filter (· ≠ rel)).map .data
  | .side rel => (rel.inits.filter (· ≠ rel)).map .side
  | .temp _ => []

/-- The files, the directories, and all paths that a file was ever renamed to. -/
structure Tree where
  fs : FS := {}
  dirs : List Path := []
  named : List Path := []

namespace Tree

/-- The path leads through a file. -/
def blocked (t : Tree) (path : Path) : Bool := path.above.any fun p => (t.fs.file p).isSome

/-- Nothing is in the directory. -/
def vacant (t : Tree) (path : Path) : Bool :=
  t.dirs.all (fun p => path ∉ p.above) && t.named.all fun p =>
    path ∉ p.above || (t.fs.file p).isNone

/-- What a step does.  `info` is what `os.Stat` says of a directory. -/
def apply (info : Path → ℤ × ℕ) (t : Tree) : (o : FsOp) → o.Res × Tree
  | .stat path =>
      (if t.blocked path then .error .backend
        else if path ∈ t.dirs then .ok (info path)
        else (t.fs.apply (.stat path)).1, t)
  | .readFile path =>
      (if t.blocked path ∨ path ∈ t.dirs then .error .backend
        else (t.fs.apply (.readFile path)).1, t)
  | .mkdirAll path =>
      if t.blocked path then (.error .backend, t)
      else (.ok (), { t with dirs := path.above ++ t.dirs })
  | .rename src dst =>
      if t.blocked dst ∨ dst ∈ t.dirs then (.error .backend, t)
      else if dst.above.all (· ∈ t.dirs) then
        ((t.fs.renamed src dst).1, { t with fs := (t.fs.renamed src dst).2, named := dst :: t.named })
      else (.error .notFound, t)
  | .remove path =>
      if t.blocked path then (.error .backend, t)
      else if path ∈ t.dirs then
        if t.vacant path then (.ok (), { t with dirs := t.dirs.filter (· ≠ path) })
        else (.error .backend, t)
      else ((t.fs.removed path).1, { t with fs := (t.fs.removed path).2 })
  | .createTemp mtime =>
      ((t.fs.apply (.createTemp mtime)).1, { t with fs := (t.fs.apply (.createTemp mtime)).2 })
  | .write path p mtime =>
      ((t.fs.written path p mtime).1, { t with fs := (t.fs.written path p mtime).2 })
  | .sync _ => (.ok (), t)
  | .close _ => (.ok (), t)

end Tree

/-- The disk with directories. -/
def treeDisk (info : Path → ℤ × ℕ) : Device fsSig Tree := ⟨Tree.apply info, FsOp.refuse⟩

/-- A directory that a path leads through. -/
inductive Path.Above : Path → Path → Prop
  | data {r rel : List String} (hpre : r <+: rel) (hne : r ≠ rel) : Above (.data r) (.data rel)
  | side {r rel : List String} (hpre : r <+: rel) (hne : r ≠ rel) : Above (.side r) (.side rel)

lemma Path.above_of_mem {p path : Path} (h : p ∈ path.above) : p.Above path := by
  have hinits : ∀ {r rel : List String}, r ∈ rel.inits.filter (· ≠ rel) → r <+: rel ∧ r ≠ rel := by
    intro r rel hr
    simpa using hr
  cases path with
  | data rel =>
      obtain ⟨r, hr, rfl⟩ := List.mem_map.mp h
      exact .data (hinits hr).1 (hinits hr).2
  | side rel =>
      obtain ⟨r, hr, rfl⟩ := List.mem_map.mp h
      exact .side (hinits hr).1 (hinits hr).2
  | temp n => cases h

/-! ## Keys apart from each other -/

/-- No key is a directory of another. -/
def Apart (K : List String → Prop) : Prop := ∀ r r', K r → K r' → r <+: r' → r = r'

/-- The directories of an object are there. -/
def Tree.Ready (t : Tree) (rel : List String) : Prop :=
  ∀ p, p ∈ (Path.data rel).above ∨ p ∈ (Path.side rel).above → p ∈ t.dirs

/-- Only the given keys were ever written. -/
structure Tree.Tidy (K : List String → Prop) (t : Tree) : Prop where
  data : ∀ rel, t.fs.file (.data rel) ≠ none → K rel
  side : ∀ rel, t.fs.file (.side rel) ≠ none → K rel
  dirs : ∀ p ∈ t.dirs, ∃ rel, K rel ∧ (p ∈ (Path.data rel).above ∨ p ∈ (Path.side rel).above)
  rooted : ∀ rel, t.fs.file (.data rel) ≠ none → t.Ready rel

/-- The path of a key, or of a temporary file. -/
def OnKey (K : List String → Prop) : Path → Prop
  | .data rel => K rel
  | .side rel => K rel
  | .temp _ => True

section Tidy

variable {K : List String → Prop} {t : Tree} {path : Path} {rel : List String}

lemma onKey_data (h : K rel) : OnKey K (.data rel) := h

lemma onKey_side (h : K rel) : OnKey K (.side rel) := h

lemma onKey_temp (n : ℕ) : OnKey K (.temp n) := trivial

/-- The way to a key is free. -/
lemma Tree.Tidy.free (h : t.Tidy K) (hK : Apart K) (hpath : OnKey K path) :
    t.blocked path = false ∧ path ∉ t.dirs := by
  constructor
  · rw [Tree.blocked, List.any_eq_false]
    intro p hp hsome
    have hfile := Option.isSome_iff_ne_none.mp hsome
    cases Path.above_of_mem hp with
    | data hpre hne => exact hne (hK _ _ (h.data _ hfile) hpath hpre)
    | side hpre hne => exact hne (hK _ _ (h.side _ hfile) hpath hpre)
  · intro hin
    obtain ⟨rel, hrel, hp | hp⟩ := h.dirs _ hin
    · cases Path.above_of_mem hp with
      | data hpre hne => exact hne (hK _ _ hpath hrel hpre)
    · cases Path.above_of_mem hp with
      | side hpre hne => exact hne (hK _ _ hpath hrel hpre)

/-- Files may go. -/
lemma Tree.Tidy.fewer (h : t.Tidy K) {fs : FS}
    (hdata : ∀ rel, fs.file (.data rel) ≠ none → t.fs.file (.data rel) ≠ none)
    (hside : ∀ rel, fs.file (.side rel) ≠ none → t.fs.file (.side rel) ≠ none) :
    ({ t with fs := fs } : Tree).Tidy K where
  data rel hrel := h.data rel (hdata rel hrel)
  side rel hrel := h.side rel (hside rel hrel)
  dirs := h.dirs
  rooted rel hrel := h.rooted rel (hdata rel hrel)

lemma Tree.Tidy.same (h : t.Tidy K) {fs : FS} (htree : fs.tree = t.fs.tree) :
    ({ t with fs := fs } : Tree).Tidy K := by
  refine h.fewer (fun rel hrel => ?_) fun rel hrel => ?_
  · rwa [← FS.tree_data, htree] at hrel
  · rwa [← FS.tree_side, htree] at hrel

end Tidy

/-! ## Programs that run alike -/

/-- The steps that take no notice of the directories, once those of the `ready` keys are made. -/
def Allowed (K ready : List String → Prop) : FsOp → Prop
  | .stat path => OnKey K path
  | .readFile path => OnKey K path
  | .mkdirAll path => OnKey K path
  | .remove path => OnKey K path
  | .rename src dst => ∃ n rel, src = .temp n ∧ K rel ∧ ready rel ∧ (dst = .data rel ∨ dst = .side rel)
  | .write path _ _ => ∃ n, path = .temp n
  | .createTemp _ => True
  | .sync _ => True
  | .close _ => True

/-- The disk with directories holds the same files. -/
structure Follows (K ready : List String → Prop) (fs : FS) (t : Tree) : Prop where
  same : t.fs = fs
  tidy : t.Tidy K
  ready : ∀ rel, ready rel → t.Ready rel

section Steps

variable {K ready : List String → Prop} {info : Path → ℤ × ℕ} {t : Tree} {rel : List String}

/-- More directories, all of them above keys. -/
lemma Tree.Tidy.mkdirAll (h : t.Tidy K) {path : Path} (hpath : OnKey K path) :
    ({ t with dirs := path.above ++ t.dirs } : Tree).Tidy K where
  data := h.data
  side := h.side
  dirs p hp := by
    rcases List.mem_append.mp hp with hp | hp
    · cases path with
      | data rel => exact ⟨rel, hpath, .inl hp⟩
      | side rel => exact ⟨rel, hpath, .inr hp⟩
      | temp n => cases hp
    · exact h.dirs p hp
  rooted rel hrel p hp := List.mem_append_right _ (h.rooted rel hrel p hp)

/-- A file is put at a key whose directories are made. -/
lemma Tree.Tidy.renamed (h : t.Tidy K) (hrel : K rel) (hready : t.Ready rel) {n : ℕ} {dst : Path}
    (hdst : dst = .data rel ∨ dst = .side rel) (named : List Path) :
    ({ t with fs := (t.fs.renamed (.temp n) dst).2, named := named } : Tree).Tidy K := by
  have hfile : ∀ path, (∀ m, path ≠ .temp m) → (t.fs.renamed (.temp n) dst).2.file path ≠ none →
      path = dst ∨ t.fs.file path ≠ none := by
    intro path hpath hne
    by_cases heq : path = dst
    · exact .inl heq
    · refine .inr ?_
      unfold FS.renamed at hne
      split at hne
      · exact hne
      · rwa [FS.set_ne _ heq, FS.set_ne _ (hpath n)] at hne
  have hdata : ∀ r, (t.fs.renamed (.temp n) dst).2.file (.data r) ≠ none →
      rel = r ∨ t.fs.file (.data r) ≠ none := by
    refine fun r hr => (hfile (.data r) (by simp) hr).imp_left fun heq => ?_
    rcases hdst with rfl | rfl <;> cases heq
    rfl
  refine ⟨fun r hr => ?_, fun r hr => ?_, h.dirs, fun r hr => ?_⟩
  · exact (hdata r hr).elim (fun heq => heq ▸ hrel) (h.data r)
  · rcases hfile (.side r) (by simp) hr with heq | hold
    · rcases hdst with rfl | rfl
      · cases heq
      · exact Path.side.inj heq ▸ hrel
    · exact h.side r hold
  · exact (hdata r hr).elim (fun heq => heq ▸ hready) (h.rooted r)

lemma Tree.Tidy.removed (h : t.Tidy K) (path : Path) :
    ({ t with fs := (t.fs.removed path).2 } : Tree).Tidy K := by
  have hfile : ∀ path', (t.fs.removed path).2.file path' ≠ none → t.fs.file path' ≠ none := by
    intro path' hne
    unfold FS.removed at hne
    split at hne
    · exact hne
    · by_cases heq : path' = path
      · simp [heq] at hne
      · rwa [FS.set_ne _ heq] at hne
  exact h.fewer (fun rel => hfile _) fun rel => hfile _

/-- **An allowed step does the same on both disks.** -/
lemma Follows.step (hK : Apart K) {fs : FS} {o : FsOp} (h : Follows K ready fs t)
    (ho : Allowed K ready o) : (t.apply info o).1 = (fs.apply o).1 ∧
      Follows K ready (fs.apply o).2 (t.apply info o).2 := by
  obtain ⟨rfl, htidy, hready⟩ := h
  cases o with
  | stat path =>
      obtain ⟨hfree, hdir⟩ := htidy.free hK ho
      refine ⟨?_, rfl, htidy, hready⟩
      simp [Tree.apply, hfree, hdir]
  | readFile path =>
      obtain ⟨hfree, hdir⟩ := htidy.free hK ho
      refine ⟨?_, rfl, htidy, hready⟩
      simp [Tree.apply, hfree, hdir]
  | mkdirAll path =>
      obtain ⟨hfree, -⟩ := htidy.free hK ho
      simp only [Tree.apply, hfree, Bool.false_eq_true, if_false]
      exact ⟨rfl, rfl, htidy.mkdirAll ho, fun rel hrel p hp =>
        List.mem_append_right _ (hready rel hrel p hp)⟩
  | createTemp mtime =>
      refine ⟨rfl, rfl, htidy.same ?_, hready⟩
      exact (FS.tree_temps (t.fs.set _ _) _).trans (t.fs.tree_set_temp _ _)
  | write path p mtime =>
      obtain ⟨n, rfl⟩ := ho
      refine ⟨rfl, rfl, htidy.same ?_, hready⟩
      unfold FS.written
      split
      · rfl
      · exact t.fs.tree_set_temp _ _
  | sync path => exact ⟨rfl, rfl, htidy, hready⟩
  | close path => exact ⟨rfl, rfl, htidy, hready⟩
  | rename src dst =>
      obtain ⟨n, rel, rfl, hrel, hr, hdst⟩ := ho
      have hon : OnKey K dst := by rcases hdst with rfl | rfl <;> exact hrel
      obtain ⟨hfree, hdir⟩ := htidy.free hK hon
      have habove : dst.above.all (· ∈ t.dirs) = true := by
        simp only [List.all_eq_true, decide_eq_true_eq]
        intro p hp
        refine hready rel hr p ?_
        rcases hdst with rfl | rfl
        · exact .inl hp
        · exact .inr hp
      simp only [Tree.apply, hfree, hdir, Bool.false_eq_true, or_self, if_false, habove, if_true]
      exact ⟨rfl, rfl, htidy.renamed hrel (hready rel hr) hdst _, hready⟩
  | remove path =>
      obtain ⟨hfree, hdir⟩ := htidy.free hK ho
      simp only [Tree.apply, hfree, hdir, Bool.false_eq_true, if_false]
      exact ⟨rfl, rfl, htidy.removed path, hready⟩

end Steps

/-- The program runs on the disk with directories as on the one without. -/
structure Agrees {α : Type} (K : List String → Prop) (info : Path → ℤ × ℕ) (p : FsProg α) (t : Tree) :
    Prop where
  result : (p.exec (treeDisk info) t).1 = (p.exec disk t.fs).1
  files : (p.exec (treeDisk info) t).2.fs = (p.exec disk t.fs).2
  tidy : (p.exec (treeDisk info) t).2.Tidy K
  ready : ∀ rel, t.Ready rel → (p.exec (treeDisk info) t).2.Ready rel

section Programs

variable {α β : Type} {K : List String → Prop} {info : Path → ℤ × ℕ} {t : Tree} {rel : List String}
  {p : FsProg α} {pf : Platform} {json : Codec} {env : Env}

lemma Agrees.of_within (hK : Apart K) (h : t.Tidy K) (hp : p.Within (Allowed K t.Ready)) :
    Agrees K info p t := by
  have hstart : Follows K t.Ready t.fs t := ⟨rfl, h, fun _ => id⟩
  have hstep : ∀ (fs : FS) (t' : Tree) (o : FsOp), Follows K t.Ready fs t' → Allowed K t.Ready o →
      ((treeDisk info).apply t' o).1 = (disk.apply fs o).1 ∧
        Follows K t.Ready (disk.apply fs o).2 ((treeDisk info).apply t' o).2 :=
    fun _ _ _ hR ho => hR.step hK ho
  obtain ⟨hres, hend⟩ := hp.exec_simulates disk hstep hstart
  exact ⟨hres, hend.same, hend.tidy, hend.ready⟩

/-- What a program is known to do without directories, it does with them. -/
lemma Agrees.exec (hp : Agrees K info p t) {a : α} {fs : FS} (hexec : p.exec disk t.fs = (a, fs)) :
    ∃ t', p.exec (treeDisk info) t = (a, t') ∧ t'.fs = fs ∧ t'.Tidy K := by
  refine ⟨_, Prod.ext ?_ rfl, ?_, hp.tidy⟩
  · rw [hp.result, hexec]
  · rw [hp.files, hexec]

lemma Agrees.andThen {f : α → FsProg β} (hp : Agrees K info p t)
    (hf : Agrees K info (f (p.exec disk t.fs).1) (p.exec (treeDisk info) t).2) :
    Agrees K info (p >>= f) t := by
  obtain ⟨hres, hfiles, htidy, hready⟩ := hf
  rw [hp.files] at hres hfiles
  refine ⟨?_, ?_, ?_, fun rel hrel => ?_⟩
  all_goals rw [Prog.exec_bind, hp.result]
  · rw [Prog.exec_bind, hres]
  · rw [Prog.exec_bind, hfiles]
  · exact htidy
  · exact hready rel (hp.ready rel hrel)

lemma Agrees.bind {f : α → FsProg β} (hp : Agrees K info p t)
    (hf : ∀ a t', p.exec disk t.fs = (a, t'.fs) → t'.Tidy K → (∀ rel, t.Ready rel → t'.Ready rel) →
      Agrees K info (f a) t') : Agrees K info (p >>= f) t :=
  hp.andThen (hf _ _ (Prod.ext rfl hp.files.symm) hp.tidy hp.ready)

/-! ### The steps and the calls -/

section Within

variable {ready : List String → Prop} {path : Path} {w : Writer}

lemma within_stat (h : OnKey K path) : (stat path).Within (Allowed K ready) :=
  Prog.within_perform.mpr h

lemma within_readFile (h : OnKey K path) : (readFile path).Within (Allowed K ready) :=
  Prog.within_perform.mpr h

lemma within_mkdirAll (h : OnKey K path) : (mkdirAll path).Within (Allowed K ready) :=
  Prog.within_perform.mpr h

lemma within_remove (h : OnKey K path) : (remove path).Within (Allowed K ready) :=
  Prog.within_perform.mpr h

lemma within_write (n : ℕ) (p : ByteArray) (mtime : ℤ) :
    (write (.temp n) p mtime).Within (Allowed K ready) :=
  Prog.within_perform.mpr ⟨n, rfl⟩

lemma within_sync (path : Path) : (sync path).Within (Allowed K ready) :=
  Prog.within_perform.mpr trivial

lemma within_close (path : Path) : (close path).Within (Allowed K ready) :=
  Prog.within_perform.mpr trivial

lemma within_rename (hrel : K rel) (hready : ready rel) (hpath : path = .data rel ∨ path = .side rel)
    (n : ℕ) : (rename (.temp n) path).Within (Allowed K ready) :=
  Prog.within_perform.mpr ⟨n, rel, rfl, hrel, hready, hpath⟩

lemma within_readAttributes (hrel : K rel) :
    (readAttributes json rel).Within (Allowed K ready) := by
  refine (within_stat (onKey_data hrel)).bind fun r => ?_
  rcases r with e | info
  · trivial
  · refine (within_readFile (onKey_side hrel)).bind fun r => ?_
    rcases r with e | sidecar
    · cases e <;> trivial
    · dsimp only
      split <;> trivial

lemma within_statVersion (hrel : K rel) : (statVersion json rel).Within (Allowed K ready) := by
  refine (within_readAttributes hrel).bind fun r => ?_
  rcases r with e | attrs
  · cases e <;> trivial
  · trivial

lemma within_newTemp : (newTemp env).Within (Allowed K ready) := by
  refine (within_mkdirAll (onKey_temp 0)).bind fun r => ?_
  rcases r with e | _
  · trivial
  · exact Prog.within_perform.mpr trivial

lemma within_abort (e : Err) : (w.abort e).Within (Allowed K ready) :=
  (within_remove (onKey_temp _)).discard.bind fun _ => trivial

lemma within_closeWithError : w.closeWithError.Within (Allowed K ready) :=
  (within_close _).discard.bind fun _ => (within_remove (onKey_temp _)).discard

lemma within_giveUp : w.giveUp.Within (Allowed K ready) := by
  unfold Writer.giveUp
  split
  · trivial
  · exact within_closeWithError

lemma within_tryWrite (ctx : Option Err) (p : ByteArray) :
    (w.tryWrite env ctx p).Within (Allowed K ready) := by
  unfold Writer.tryWrite
  split
  · trivial
  · cases ctx with
    | some e => trivial
    | none =>
        refine Prog.Within.bind ((within_write _ _ _).bind fun r => ?_) fun r => ?_
        all_goals rcases r with e | _ <;> trivial

lemma within_newWriter {b : Bucket} {key : String} (opts : WriterOptions) (pre : List Precondition) :
    (b.newWriter pf env key opts pre).Within (Allowed K ready) := by
  unfold Bucket.newWriter
  cases compilePreconditions pre with
  | error e => trivial
  | ok compiled =>
      cases opts.clone pf with
      | error e => trivial
      | ok cloned =>
          dsimp only
          cases cloned.beforeWrite with
          | some e => trivial
          | none =>
              cases b.paths key with
              | error e => trivial
              | ok rel =>
                  refine within_newTemp.bind fun r => ?_
                  rcases r with e | path
                  · trivial
                  · cases path <;> trivial

lemma within_attributes {b : Bucket} {key : String} (ctx : Option Err)
    (hkey : ∀ rel, b.paths key = .ok rel → K rel) :
    (b.attributes json ctx key).Within (Allowed K ready) := by
  unfold Bucket.attributes
  cases ctx with
  | some e => trivial
  | none =>
      cases hpaths : b.paths key with
      | error e => trivial
      | ok rel => exact within_readAttributes (hkey rel hpaths)

lemma within_newRangeReader {b : Bucket} {key : String} (ctx beforeRead : Option Err)
    (offset length : Int64) (hkey : ∀ rel, b.paths key = .ok rel → K rel) :
    (newRangeReader json b ctx beforeRead key offset length).Within (Allowed K ready) := by
  unfold newRangeReader
  cases ctx with
  | some e => trivial
  | none =>
      cases beforeRead with
      | some e => trivial
      | none =>
          dsimp only
          split
          · trivial
          · cases hpaths : b.paths key with
            | error e => trivial
            | ok rel =>
                refine (within_readAttributes (hkey rel hpaths)).bind fun r => ?_
                rcases r with e | attrs
                · trivial
                · refine (within_readFile (onKey_data (hkey rel hpaths))).bind fun r => ?_
                  rcases r with e | content <;> trivial

lemma within_delete {b : Bucket} {key : String} (ctx : Option Err) (pre : List Precondition)
    (hkey : ∀ rel, b.paths key = .ok rel → K rel) :
    (delete json b ctx key pre).Within (Allowed K ready) := by
  unfold delete
  cases ctx with
  | some e => trivial
  | none =>
      cases compilePreconditions pre with
      | error e => trivial
      | ok compiled =>
          cases hpaths : b.paths key with
          | error e => trivial
          | ok rel =>
              have hrel := hkey rel hpaths
              refine (within_statVersion hrel).bind fun r => ?_
              rcases r with e | _ | current
              · trivial
              · trivial
              · dsimp only
                split
                · refine (within_remove (onKey_data hrel)).bind fun r => ?_
                  rcases r with e | _
                  · trivial
                  · exact (within_remove (onKey_side hrel)).discard.bind fun _ => trivial
                · trivial

end Within

/-! ### The calls that make directories -/

/-- A file is put at a key whose directories are there. -/
lemma agrees_writeFileAtomic (hK : Apart K) (h : t.Tidy K) (hrel : K rel) (hready : t.Ready rel)
    {path : Path} (hpath : path = .data rel ∨ path = .side rel) (env : Env) (data : ByteArray) :
    Agrees K info (writeFileAtomic env path data) t := by
  refine (Agrees.of_within hK h within_newTemp).bind fun r t₁ hexec h₁ hmore => ?_
  obtain ⟨rfl, -⟩ := Prod.mk.inj hexec
  refine Agrees.of_within hK h₁ ?_
  have hready₁ := hmore rel hready
  have hgive : ∀ n (e : Err), (do discard (remove (.temp n)); return .error e :
      FsProg (Except Err Unit)).Within (Allowed K t₁.Ready) := fun n e =>
    (within_remove (onKey_temp _)).discard.bind fun _ => trivial
  refine (within_write _ _ _).bind fun r => ?_
  rcases r with e | _
  · exact (within_close _).discard.bind fun _ => hgive _ e
  refine (within_sync _).bind fun r => ?_
  rcases r with e | _
  · exact (within_close _).discard.bind fun _ => hgive _ e
  refine (within_close _).bind fun r => ?_
  rcases r with e | _
  · exact hgive _ e
  refine (within_rename hrel hready₁ hpath _).bind fun r => ?_
  rcases r with e | _
  · exact hgive _ e
  · trivial

/-- The directories of a path are made. -/
lemma agrees_mkdirAll (hK : Apart K) (h : t.Tidy K) {path : Path} (hpath : OnKey K path)
    {f : Except Err Unit → FsProg β}
    (hf : Agrees K info (f (.ok ())) { t with dirs := path.above ++ t.dirs }) :
    Agrees K info (mkdirAll path >>= f) t := by
  refine (Agrees.of_within hK h (within_mkdirAll hpath)).andThen ?_
  have hexec : ((mkdirAll path).exec (treeDisk info) t).2 = { t with dirs := path.above ++ t.dirs } := by
    change (t.apply info (.mkdirAll path)).2 = _
    simp only [Tree.apply, (h.free hK hpath).1, Bool.false_eq_true, if_false]
  rw [hexec]
  exact hf

/-- Both trees have the directories of a key. -/
lemma Tree.ready_of_made (t : Tree) (rel : List String) :
    ({ t with dirs := (Path.side rel).above ++ ((Path.data rel).above ++ t.dirs) } : Tree).Ready
      rel := by
  intro p hp
  rcases hp with hp | hp
  · exact List.mem_append_right _ (List.mem_append_left _ hp)
  · exact List.mem_append_left _ hp

lemma agrees_commit (hK : Apart K) (h : t.Tidy K) (hrel : K rel) (env : Env) (data : ByteArray)
    (attrs : ObjectAttrs) : Agrees K info (commit json env rel data attrs) t := by
  refine agrees_mkdirAll hK h (onKey_data hrel) ?_
  have h₁ := h.mkdirAll (onKey_data hrel)
  refine agrees_mkdirAll hK h₁ (onKey_side hrel) ?_
  have h₂ := h₁.mkdirAll (onKey_side hrel)
  refine (agrees_writeFileAtomic hK h₂ hrel (t.ready_of_made rel) (.inl rfl) env data).bind
    fun r t₃ _ h₃ hmore => ?_
  rcases r with e | _
  · exact .of_within hK h₃ trivial
  · exact agrees_writeFileAtomic hK h₃ hrel (hmore rel (t.ready_of_made rel)) (.inr rfl) env _

lemma agrees_install (hK : Apart K) (h : t.Tidy K) {w : Writer} (hrel : K w.rel) (env : Env) :
    Agrees K info (w.install pf json env) t := by
  refine agrees_mkdirAll hK h (onKey_data hrel) ?_
  have h₁ := h.mkdirAll (onKey_data hrel)
  refine agrees_mkdirAll hK h₁ (onKey_side hrel) ?_
  have h₂ := h₁.mkdirAll (onKey_side hrel)
  have hready := t.ready_of_made w.rel
  refine (Agrees.of_within hK h₂ (within_rename hrel hready (.inl rfl) w.tmp)).bind
    fun r t₃ _ h₃ hmore => ?_
  rcases r with e | _
  · exact .of_within hK h₃ (within_abort e)
  · exact agrees_writeFileAtomic hK h₃ hrel (hmore w.rel hready) (.inr rfl) env _

lemma agrees_close (hK : Apart K) (h : t.Tidy K) {w : Writer} (hrel : K w.rel) (env : Env)
    (ctx : Option Err) : Agrees K info (w.close pf json env ctx) t := by
  have hgive : ∀ {t : Tree} (e : Err), t.Tidy K → Agrees K info (do
      discard (FileDriver.close (.temp w.tmp))
      w.abort e) t := fun e h =>
    .of_within hK h ((within_close _).discard.bind fun _ => within_abort e)
  unfold Writer.close
  split
  · exact .of_within hK h trivial
  cases ctx with
  | some e => exact hgive e h
  | none =>
      dsimp only
      split
      · exact hgive _ h
      refine (Agrees.of_within hK h (within_sync _)).bind fun r t₁ _ h₁ _ => ?_
      rcases r with e | _
      · exact hgive e h₁
      refine (Agrees.of_within hK h₁ (within_close _)).bind fun r t₂ _ h₂ _ => ?_
      rcases r with e | _
      · exact .of_within hK h₂ (within_abort e)
      refine (Agrees.of_within hK h₂ (within_statVersion hrel)).bind fun r t₃ _ h₃ _ => ?_
      rcases r with e | current
      · exact .of_within hK h₃ (within_abort e)
      dsimp only
      split
      · exact agrees_install hK h₃ hrel env
      · exact .of_within hK h₃ (within_abort _)

lemma agrees_copy (hK : Apart K) (h : t.Tidy K) {b : Bucket} {dstKey srcKey : String}
    (hdst : ∀ rel, b.paths dstKey = .ok rel → K rel)
    (hsrc : ∀ rel, b.paths srcKey = .ok rel → K rel) (env : Env) (ctx before : Option Err) :
    Agrees K info (copy json env b ctx before dstKey srcKey) t := by
  unfold copy
  cases ctx with
  | some e => exact .of_within hK h trivial
  | none =>
  cases before with
  | some e => exact .of_within hK h trivial
  | none =>
  cases hps : b.paths srcKey with
  | error e => exact .of_within hK h trivial
  | ok src =>
  cases hpd : b.paths dstKey with
  | error e => exact .of_within hK h trivial
  | ok dst =>
  refine (Agrees.of_within hK h (within_readFile (onKey_data (hsrc src hps)))).bind
    fun r t₁ _ h₁ _ => ?_
  rcases r with e | data
  · exact .of_within hK h₁ trivial
  refine (Agrees.of_within hK h₁ (within_readAttributes (hsrc src hps))).bind fun r t₂ _ h₂ _ => ?_
  rcases r with e | attrs
  · exact .of_within hK h₂ trivial
  · exact agrees_commit hK h₂ (hdst dst hpd) env data _

/-- An object that `statVersion` finds has a data file. -/
lemma file_of_statVersion {fs fs' : FS} {attrs : ObjectAttrs}
    (h : (statVersion json rel).exec disk fs = (.ok (some attrs), fs')) :
    fs.file (.data rel) ≠ none := by
  intro hnone
  simp [statVersion, exec_readAttributes_absent hnone] at h

lemma agrees_updateMetadata (hK : Apart K) (h : t.Tidy K) {b : Bucket} {key : String}
    (hkey : ∀ rel, b.paths key = .ok rel → K rel) (env : Env) (ctx : Option Err) (md : UserMetadata) :
    Agrees K info (updateMetadata pf json env b ctx key md) t := by
  unfold updateMetadata
  cases ctx with
  | some e => exact .of_within hK h trivial
  | none =>
  cases normalizeMetadata pf md with
  | error e => exact .of_within hK h trivial
  | ok normalized =>
  cases hpaths : b.paths key with
  | error e => exact .of_within hK h trivial
  | ok rel =>
  have hrel := hkey rel hpaths
  refine (Agrees.of_within hK h (within_statVersion hrel)).bind fun r t₁ hexec h₁ hmore => ?_
  rcases r with e | _ | current
  · exact .of_within hK h₁ trivial
  · exact .of_within hK h₁ trivial
  -- the object is there, and with it the directories of its sidecar
  have hready := hmore rel (h.rooted rel (file_of_statVersion hexec))
  refine (agrees_writeFileAtomic hK h₁ hrel hready (.inr rfl) env _).bind fun r t₂ _ h₂ _ => ?_
  rcases r with e | _ <;> exact .of_within hK h₂ trivial

/-- A writer is opened on the path of its key. -/
lemma rel_of_newWriter {b : Bucket} {key : String} {opts : WriterOptions} {pre : List Precondition}
    {fs fs' : FS} {w : Writer}
    (h : (b.newWriter pf env key opts pre).exec disk fs = (.ok w, fs')) : b.paths key = .ok w.rel := by
  unfold Bucket.newWriter at h
  cases hc : compilePreconditions pre with
  | error e => simp [hc] at h
  | ok compiled =>
  cases hclone : opts.clone pf with
  | error e => simp [hc, hclone] at h
  | ok cloned =>
  cases hbefore : cloned.beforeWrite with
  | some e => simp [hc, hclone, hbefore] at h
  | none =>
  cases hpaths : b.paths key with
  | error e => simp [hc, hclone, hbefore, hpaths] at h
  | ok rel =>
  simp only [hc, hclone, hbefore, hpaths] at h
  cases h
  rfl

lemma rel_of_tryWrite {w w' : Writer} {ctx : Option Err} {p : ByteArray} {fs fs' : FS}
    {r : Except Err Unit} (h : (w.tryWrite env ctx p).exec disk fs = ((r, w'), fs')) :
    w'.rel = w.rel := by
  unfold Writer.tryWrite at h
  split at h
  · cases h
    rfl
  cases ctx with
  | some e =>
      cases h
      rfl
  | none =>
      simp only [Writer.write, Prog.exec_bind, exec_write] at h
      generalize (fs.written (.temp w.tmp) p env.mtime).1 = written at h
      cases written <;> cases h <;> rfl

lemma agrees_writeAll (hK : Apart K) (h : t.Tidy K) {b : Bucket} {key : String}
    (hkey : ∀ rel, b.paths key = .ok rel → K rel) (env : Env) (ctx : Option Err) (p : ByteArray)
    (opts : WriterOptions) (pre : List Precondition) :
    Agrees K info (b.writeAll pf json env ctx key p opts pre) t := by
  unfold Bucket.writeAll
  cases prepareWriteAllOptions pf opts p with
  | error e => exact .of_within hK h trivial
  | ok cloned =>
  refine (Agrees.of_within hK h (within_newWriter cloned pre)).bind fun r t₁ hexec h₁ _ => ?_
  rcases r with e | w
  · exact .of_within hK h₁ trivial
  have hrel : K w.rel := hkey _ (rel_of_newWriter hexec)
  refine (Agrees.of_within hK h₁ (within_tryWrite ctx p)).bind fun r t₂ hexec₂ h₂ _ => ?_
  rcases r with ⟨e | _, w'⟩
  · exact .of_within hK h₂ (within_giveUp.bind fun _ => trivial)
  · exact agrees_close hK h₂ ((rel_of_tryWrite hexec₂).symm ▸ hrel) env ctx

end Programs

end FileDriver

end Blobster
