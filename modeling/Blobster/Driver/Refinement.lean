import Blobster.Driver.Tree

/-!
# The file driver refines the mem driver

A client that uses keys the file driver has a path for, none of them a directory of another, cannot
tell the two local drivers apart, but for the times and for the names of the versions.  What it does
with a version, to hand it back as a condition, works with the names of either.

* `IsWalk` — what the file driver's walk of its directory finds; `listPage_mirrors` — the pages of the
  two drivers look alike.
* `Mirrors` — the systems correspond; `Mirrors.run`, `Mirrors.of_writer`, `Mirrors.of_opened` — what a
  call has to show.
* `Request.fullKeys` — the keys that a request names; `Request.Fits` — a range read does not exceed the
  machine integers, where the mem driver panics and the file driver does not.
* **`respond_mirrors`** — a request is answered alike and leaves corresponding systems;
  **`file_refines_mem`** — so is every run of requests, from empty buckets on.
* `nested_keys` — a run with a key that is a directory of another, on which the two differ.
-/

namespace Blobster

open Interleave Function

/-! ## Listings -/

namespace FileDriver

/-- What `filepath.Walk` finds below `data`: every file once, under the key that its path spells. -/
structure IsWalk (fs : FS) (entries : List WalkEntry) : Prop where
  nodup : (entries.map WalkEntry.key).Nodup
  mem : ∀ e, e ∈ entries ↔ Canonical e.key ∧ ∃ f, fs.file (.data (components e.key)) = some f ∧
    e.modTime = f.modTime ∧ e.size = f.content.size

end FileDriver

section Listings

variable {bucketPrefix : String} {opts : ListOptions} {object object' : String → String → ListObject}

/-- Loops over the same keys list entries that look alike, if the objects do. -/
lemma collect_shown (seenDirs : List String) {keys : List String}
    (h : ∀ key ∈ keys, ∀ rel, (object key rel).shown = (object' key rel).shown) :
    (collect bucketPrefix opts object seenDirs keys).map ListObject.shown =
      (collect bucketPrefix opts object' seenDirs keys).map ListObject.shown := by
  induction keys generalizing seenDirs with
  | nil => rfl
  | cons key keys ih =>
      obtain ⟨hkey, hkeys⟩ := List.forall_mem_cons.mp h
      rw [collect, collect]
      cases hdir : dirKey opts (trimPrefix key bucketPrefix) with
      | none => simp only [List.map_cons, hkey, ih _ hkeys]
      | some dir =>
          dsimp only
          split_ifs with hseen
          · exact ih _ hkeys
          · simp only [List.map_cons, ih _ hkeys]

lemma slice_map {α β : Type} (f : α → β) (l : List α) (lo hi : Int64) :
    slice (l.map f) lo hi = (slice l lo hi).map (List.map f) := by
  unfold slice
  rw [List.length_map]
  split_ifs <;> simp [List.map_drop, List.map_take]

/-- A page of the entries, each changed, is the page with each entry changed. -/
lemma pageOfListing_map (f : ListObject → ListObject) (ctx : Option Err) (pageToken : String)
    (pageSize : Int64) (beforeList : Option Err) (l : List ListObject) :
    pageOfListing ctx pageToken pageSize beforeList (.ok (l.map f)) =
      (pageOfListing ctx pageToken pageSize beforeList (.ok l)).map fun x => (x.1.map f, x.2) := by
  unfold pageOfListing
  cases ctx with
  | some e => rfl
  | none =>
      by_cases htoken : pageToken = ""
      · simp only [if_pos htoken]
        rfl
      simp only [if_neg htoken]
      cases decodePosition pageToken with
      | error e => rfl
      | ok start =>
          cases beforeList with
          | some e => rfl
          | none =>
              dsimp only
              rw [List.length_map, slice_map]
              split_ifs with hend
              · rfl
              all_goals
                cases slice l start _ <;> rfl

end Listings

namespace FileDriver

variable {φ : Version → Version} {json : Codec} {st : MemDriver.State} {fs : FS}
  {entries : List WalkEntry} {K : List String → Prop} {info : Path → ℤ × ℕ} {t : Tree}

lemma mem_objects_keys {key : String} : key ∈ st.objects.keys ↔ st.get key ≠ none := by
  rw [← AList.mem_keys, ← AList.lookup_isSome, Option.isSome_iff_ne_none]
  rfl

/-- The files of the data tree are those of the objects. -/
lemma ObjectsMirrored.file_isSome (h : ObjectsMirrored φ json st fs) {key : String} :
    st.get key ≠ none ↔ Canonical key ∧ fs.file (.data (components key)) ≠ none := by
  constructor
  · intro hget
    obtain ⟨o, ho⟩ := Option.ne_none_iff_exists'.mp hget
    have hkey := h.known key hget
    have hm := h.objects key hkey
    rw [ho] at hm
    obtain ⟨f, -, hf, -⟩ := hm.of_some
    exact ⟨hkey, by simp [hf]⟩
  · rintro ⟨hkey, hfile⟩ hget
    exact hfile (h.absent hkey hget)

/-- There is something for the walk to find. -/
lemma ObjectsMirrored.exists_walk (h : ObjectsMirrored φ json st fs) :
    ∃ entries, IsWalk fs entries := by
  let entry := fun key => (fs.file (.data (components key))).elim (WalkEntry.mk key 0 0) fun f =>
    ⟨key, f.modTime, f.content.size⟩
  have hkey : ∀ key, (entry key).key = key := by
    intro key
    simp only [entry]
    cases fs.file (.data (components key)) <;> rfl
  refine ⟨st.objects.keys.map entry, ?_, fun e => ?_⟩
  · simpa [List.map_map, Function.comp_def, hkey] using st.objects.keys_nodup
  · rw [List.mem_map]
    constructor
    · rintro ⟨key, hin, rfl⟩
      obtain ⟨hcan, hfile⟩ := h.file_isSome.mp (mem_objects_keys.mp hin)
      obtain ⟨f, hf⟩ := Option.ne_none_iff_exists'.mp hfile
      rw [hkey]
      exact ⟨hcan, f, hf, by simp [entry, hf], by simp [entry, hf]⟩
    · rintro ⟨hcan, f, hf, htime, hsize⟩
      refine ⟨e.key, mem_objects_keys.mpr (h.file_isSome.mpr ⟨hcan, by simp [hf]⟩), ?_⟩
      simp [entry, hf, ← htime, ← hsize]

/-- The listings are of the same keys. -/
lemma IsWalk.keys (hwalk : IsWalk fs entries) (h : ObjectsMirrored φ json st fs) (pref : String) :
    ((entries.map WalkEntry.key).filter fun key => pref.toList.isPrefixOf key.toList).insertionSort
      (· ≤ ·) = st.keysUnder pref := by
  have hmem : ∀ key, key ∈ entries.map WalkEntry.key ↔ key ∈ st.objects.keys := by
    intro key
    rw [mem_objects_keys, h.file_isSome, List.mem_map]
    constructor
    · rintro ⟨e, he, rfl⟩
      obtain ⟨hcan, f, hf, -⟩ := (hwalk.mem e).mp he
      exact ⟨hcan, by simp [hf]⟩
    · rintro ⟨hcan, hfile⟩
      obtain ⟨f, hf⟩ := Option.ne_none_iff_exists'.mp hfile
      exact ⟨⟨key, f.modTime, f.content.size⟩, (hwalk.mem _).mpr ⟨hcan, f, hf, rfl, rfl⟩, rfl⟩
  have hperm : (entries.map WalkEntry.key).Perm st.objects.keys :=
    (List.perm_ext_iff_of_nodup hwalk.nodup st.objects.nodupKeys).mpr hmem
  exact (List.perm_insertionSort _ _).trans ((hperm.filter _).trans
    (List.perm_insertionSort _ _).symm) |>.eq_of_pairwise
      (fun _ _ _ _ => le_antisymm) (List.pairwise_insertionSort _ _) (List.pairwise_insertionSort _ _)

/-- What the walk says of a file. -/
lemma IsWalk.getLast? (hwalk : IsWalk fs entries) {key : String} (hkey : Canonical key) {f : File}
    (hf : fs.file (.data (components key)) = some f) :
    (entries.filter fun e => e.key = key).getLast? = some ⟨key, f.modTime, f.content.size⟩ := by
  have hin : (⟨key, f.modTime, f.content.size⟩ : WalkEntry) ∈ entries.filter fun e => e.key = key := by
    refine List.mem_filter.mpr ⟨(hwalk.mem _).mpr ⟨hkey, f, hf, rfl, rfl⟩, by simp⟩
  cases hlast : (entries.filter fun e => e.key = key).getLast? with
  | none =>
      rw [List.getLast?_eq_none_iff.mp hlast] at hin
      cases hin
  | some e =>
      obtain ⟨he, hek⟩ := List.mem_filter.mp (List.mem_of_getLast? hlast)
      obtain ⟨-, f', hf', htime, hsize⟩ := (hwalk.mem e).mp he
      obtain rfl : e.key = key := by simpa using hek
      obtain rfl := Option.some.inj (hf.symm.trans hf')
      rw [← htime, ← hsize]

/-- **The listings look alike.** -/
lemma listObjects_mirrors (hφ : Renaming φ) (hK : Apart K) (ht : t.Tidy K)
    (h : ObjectsMirrored φ json st t.fs) (hwalk : IsWalk t.fs entries) (b : MemDriver.Bucket)
    (opts : ListOptions) :
    ∃ files, (⟨b.pref⟩ : Bucket).listObjects opts (.ok entries) (listedMD5 json (treeDisk info) t) =
        .ok files ∧
      files.map ListObject.shown = (b.listObjectsLocked opts st).map ListObject.shown := by
  refine ⟨_, rfl, ?_⟩
  dsimp only
  rw [hwalk.keys h]
  refine collect_shown _ fun key hkey rel => ?_
  obtain ⟨-, hget⟩ := MemDriver.mem_keysUnder.mp hkey
  obtain ⟨o, ho⟩ := Option.ne_none_iff_exists'.mp hget
  have hcan := h.known key hget
  have hm := h.objects key hcan
  rw [ho] at hm
  obtain ⟨a, hexec, hshown, f, hf, hbody, -⟩ := exec_readAttributes_present hφ hm
  have hrel : K (components key) := ht.data _ (by simp [hf])
  have hagrees : Agrees K info (readAttributes json (components key)) t :=
    .of_within hK ht (within_readAttributes hrel)
  have hmd5 : listedMD5 json (treeDisk info) t key = o.attrs.md5 := by
    have hpaths : (Bucket.mk "").paths key = .ok (components key) := by
      simpa using @paths_of_canonical ⟨""⟩ key (by simpa using hcan)
    have hattr := congrArg ObjectAttrs.md5 hshown
    simp only [ObjectAttrs.shown] at hattr
    simp [listedMD5, hpaths, hagrees.result, hexec, hattr]
  rw [hwalk.getLast? hcan hf]
  simp [ListObject.shown, MemDriver.State.listObject, ho, hmd5, hbody, h.size ho]

/-- `ListPage`. -/
lemma listPage_mirrors (hφ : Renaming φ) (hK : Apart K) (ht : t.Tidy K)
    (h : ObjectsMirrored φ json st t.fs) (hwalk : IsWalk t.fs entries) (b : MemDriver.Bucket)
    (ctx : Option Err) (pageToken : String) (pageSize : Int64) (opts : ListOptions) :
    ((⟨b.pref⟩ : Bucket).listPage ctx pageToken pageSize opts (.ok entries)
        (listedMD5 json (treeDisk info) t)).map (fun x => (x.1.map ListObject.shown, x.2)) =
      (b.listPage ctx pageToken pageSize opts st).map fun x => (x.1.map ListObject.shown, x.2) := by
  obtain ⟨files, hfiles, hshown⟩ := listObjects_mirrors hφ hK ht h hwalk b opts
  unfold Bucket.listPage MemDriver.Bucket.listPage
  rw [hfiles, ← pageOfListing_map, ← pageOfListing_map, hshown]

end FileDriver

namespace FileDriver

/-- The two systems correspond. -/
structure Mirrors (K : List String → Prop) (φ : Version → Version) (json : Codec)
    (ms : MemDriver.System) (s : System Tree) : Prop where
  objects : ObjectsMirrored φ json ms.state s.files.fs
  length : ms.writers.length = s.writers.length
  writers : ∀ (i : ℕ) (w : MemDriver.Writer) (fw : Writer), ms.writers[i]? = some w →
    s.writers[i]? = some fw → WriterMirrored φ s.files.fs w fw ∧ K fw.rel
  apart : ∀ (i j : ℕ) (fw fw' : Writer), s.writers[i]? = some fw → s.writers[j]? = some fw' →
    fw.closed = false → fw'.closed = false → fw.tmp = fw'.tmp → i = j
  tidy : s.files.Tidy K

variable {pf : Platform} {K : List String → Prop} {info : Path → ℤ × ℕ} {φ : Version → Version}
  {json : Codec} {walk : FS → List WalkEntry} {ms : MemDriver.System} {s : System Tree} {env : Env}
  {st : MemDriver.State} {t : Tree}

variable (info) in
/-- A call that works on no writer. -/
lemma Mirrors.run {α : Type} (h : Mirrors K φ json ms s) {p : FsProg α}
    (hp : Agrees K info p s.files) {a : α} {fs : FS} (hexec : p.exec disk s.files.fs = (a, fs))
    (ho : ObjectsMirrored φ json st fs) (hk : s.files.fs.KeepsTemps fs none) (reply : α → Reply) :
    (s.run (treeDisk info) p reply).1 = reply a ∧
      Mirrors K φ json { ms with state := st } (s.run (treeDisk info) p reply).2 := by
  obtain ⟨t, hrun, rfl, ht⟩ := hp.exec hexec
  rw [System.run, hrun]
  refine ⟨rfl, ho, h.length, fun i w fw hw hfw => ?_, h.apart, ht⟩
  obtain ⟨hm, hrel⟩ := h.writers i w fw hw hfw
  exact ⟨hm.keeps hk (by simp), hrel⟩

/-- The writer of a call, in both systems. -/
lemma Mirrors.writer (h : Mirrors K φ json ms s) (i : ℕ) :
    ms.writers[i]? = none ∧ s.writers[i]? = none ∨
      ∃ w fw, ms.writers[i]? = some w ∧ s.writers[i]? = some fw ∧
        WriterMirrored φ s.files.fs w fw ∧ K fw.rel := by
  have hnone : ms.writers[i]? = none ↔ s.writers[i]? = none := by
    rw [List.getElem?_eq_none_iff, List.getElem?_eq_none_iff, h.length]
  cases hw : ms.writers[i]? with
  | none => exact .inl ⟨rfl, hnone.mp hw⟩
  | some w =>
      cases hfw : s.writers[i]? with
      | none => simp [hnone.mpr hfw] at hw
      | some fw => exact .inr ⟨w, fw, rfl, rfl, h.writers i w fw hw hfw⟩

/-- A call that works on one writer. -/
lemma Mirrors.of_writer (h : Mirrors K φ json ms s) {i : ℕ} {w w' : MemDriver.Writer}
    {fw fw' : Writer} (hw : ms.writers[i]? = some w) (hfw : s.writers[i]? = some fw)
    (ho : ObjectsMirrored φ json st t.fs) (ht : t.Tidy K)
    (hk : s.files.fs.KeepsTemps t.fs fw.own) (hm : WriterMirrored φ t.fs w' fw')
    (hrel : K fw'.rel) (hopen : fw'.closed = false → fw.closed = false ∧ fw'.tmp = fw.tmp) :
    Mirrors K φ json { state := st, writers := ms.writers.set i w' }
      { files := t, writers := s.writers.set i fw' } where
  objects := ho
  length := by simp [h.length]
  tidy := ht
  writers j v fv hv hfv := by
    by_cases heq : i = j
    · subst heq
      obtain rfl : w' = v := by simpa [(List.getElem?_eq_some_iff.mp hw).1] using hv
      obtain rfl : fw' = fv := by simpa [(List.getElem?_eq_some_iff.mp hfw).1] using hfv
      exact ⟨hm, hrel⟩
    · rw [List.getElem?_set_ne heq] at hv hfv
      obtain ⟨hold, hrel'⟩ := h.writers j v fv hv hfv
      refine ⟨hold.keeps hk fun hclosed hown => heq ?_, hrel'⟩
      unfold Writer.own at hown
      split_ifs at hown with hshut
      exact (h.apart j i fv fw hfv hfw (hold.closed.trans hclosed) (by simpa using hshut)
        (Option.some.inj hown)).symm
  apart j k fv fv' hj hk hclosed hclosed' htmp := by
    -- an open writer was open before, with the same temporary file
    have hwas : ∀ (j : ℕ) (fv : Writer), (s.writers.set i fw')[j]? = some fv → fv.closed = false →
        ∃ gw, s.writers[j]? = some gw ∧ gw.closed = false ∧ gw.tmp = fv.tmp := by
      intro j fv hj hclosed
      by_cases hij : i = j
      · subst hij
        obtain rfl : fw' = fv := by simpa [(List.getElem?_eq_some_iff.mp hfw).1] using hj
        exact ⟨fw, hfw, (hopen hclosed).1, (hopen hclosed).2.symm⟩
      · rw [List.getElem?_set_ne hij] at hj
        exact ⟨fv, hj, hclosed, rfl⟩
    obtain ⟨gw, hgw, hg, htmp₁⟩ := hwas j fv hj hclosed
    obtain ⟨gw', hgw', hg', htmp₂⟩ := hwas k fv' hk hclosed'
    exact h.apart j k gw gw' hgw hgw' hg hg' (htmp₁.trans (htmp.trans htmp₂.symm))

/-- A call that opens a writer. -/
lemma Mirrors.of_opened (h : Mirrors K φ json ms s) {w : MemDriver.Writer} {fw : Writer}
    (ho : ObjectsMirrored φ json ms.state t.fs) (ht : t.Tidy K)
    (hk : s.files.fs.KeepsTemps t.fs none) (hm : WriterMirrored φ t.fs w fw) (hrel : K fw.rel)
    (htmp : fw.tmp = s.files.fs.temps) :
    Mirrors K φ json { ms with writers := ms.writers ++ [w] }
      { files := t, writers := s.writers ++ [fw] } := by
  have hcases : ∀ (k : ℕ) (gw : Writer), (s.writers ++ [fw])[k]? = some gw →
      s.writers[k]? = some gw ∧ k < s.writers.length ∨ k = s.writers.length ∧ gw = fw := by
    intro k gw hgw
    rcases lt_trichotomy k s.writers.length with hlt | rfl | hgt
    · exact .inl ⟨by rwa [List.getElem?_append_left hlt] at hgw, hlt⟩
    · exact .inr ⟨rfl, by simpa using hgw.symm⟩
    · rw [List.getElem?_eq_none (by simp; omega)] at hgw
      cases hgw
  -- the temporary files of the writers that were open are older
  have hold : ∀ (k : ℕ) (gw : Writer), s.writers[k]? = some gw → gw.closed = false →
      gw.tmp < s.files.fs.temps := by
    intro k gw hgw hopen
    obtain ⟨hnone, hnone'⟩ | ⟨v, gw', -, hgw', hmir, -⟩ := h.writer k
    · cases hnone'.symm.trans hgw
    · obtain rfl := Option.some.inj (hgw'.symm.trans hgw)
      exact (hmir.temp (hmir.closed.symm.trans hopen)).1
  refine ⟨ho, by simp [h.length], fun i v fv hv hfv => ?_, fun i j fv fv' hi hj hc hc' hsame => ?_, ht⟩
  · obtain ⟨hfv', hlt⟩ | ⟨rfl, rfl⟩ := hcases i fv hfv
    · rw [List.getElem?_append_left (h.length ▸ hlt)] at hv
      obtain ⟨hmir, hrel'⟩ := h.writers i v fv hv hfv'
      exact ⟨hmir.keeps hk (by simp), hrel'⟩
    · obtain rfl : w = v := by simpa [← h.length] using hv
      exact ⟨hm, hrel⟩
  · obtain ⟨hi', -⟩ | ⟨rfl, rfl⟩ := hcases i fv hi
    · obtain ⟨hj', -⟩ | ⟨rfl, rfl⟩ := hcases j fv' hj
      · exact h.apart i j fv fv' hi' hj' hc hc' hsame
      · exact absurd (hold i fv hi' hc) (by omega)
    · obtain ⟨hj', -⟩ | ⟨rfl, -⟩ := hcases j fv' hj
      · exact absurd (hold j fv' hj' hc') (by omega)
      · rfl

end FileDriver

/-! ## Requests -/

/-- The full keys that a request names; a writer keeps the key that it was opened for. -/
def Request.fullKeys : Request → List String
  | .call (.newWriter b key _ _) => [b.objectKey key]
  | .call (.writeAll b _ key _ _ _ _) => [b.objectKey key]
  | .call (.copy b _ _ dstKey srcKey _) => [b.objectKey dstKey, b.objectKey srcKey]
  | .call (.updateMetadata b _ key _ _) => [b.objectKey key]
  | .call (.delete b _ key _) => [b.objectKey key]
  | .call _ => []
  | .attributes b _ key => [b.objectKey key]
  | .newRangeReader b _ _ key _ _ => [b.objectKey key]
  | .listPage _ _ _ _ _ => []

/-- No sum of the request exceeds the machine integers. -/
def Request.Fits (st : MemDriver.State) : Request → Prop
  | .newRangeReader b _ _ key offset length =>
      ∀ obj, st.get (b.objectKey key) = some obj → obj.data.size < 2 ^ 63 ∧
        (length.toInt < 0 ∨ min offset.toInt obj.data.size + length.toInt < 2 ^ 63)
  | _ => True

/-- The file driver draws the renamed version when the mem driver issues one. -/
def MemDriver.System.Draws (pf : Platform) (φ : Version → Version) (ms : MemDriver.System)
    (env : FileDriver.Env) (r : Request) : Prop :=
  (ms.after pf r).state ≠ ms.state →
    env.version = φ (MemDriver.formatUint (ms.state.nextVersion + 1))

namespace FileDriver

variable {pf : Platform} {K : List String → Prop} {info : Path → ℤ × ℕ} {φ : Version → Version}
  {json : Codec} {walk : FS → List WalkEntry} {ms : MemDriver.System} {s : System Tree} {env : Env}

variable (info) in
/-- **A request is answered alike.** -/
theorem respond_mirrors (hφ : Renaming φ) (hK : Apart K)
    (hwalk : ∀ fs, (∃ l, IsWalk fs l) → IsWalk fs (walk fs)) (h : Mirrors K φ json ms s) (r : Request)
    (hkeys : ∀ key ∈ r.fullKeys, Canonical key ∧ K (components key)) (hfits : r.Fits ms.state)
    (hdraw : ms.Draws pf φ env r) :
    (s.respond pf json (treeDisk info) (fun t => walk t.fs) env (r.rename φ)).1.shown id =
        (ms.answer pf r).shown φ ∧
      Mirrors K φ json (ms.after pf r)
        (s.respond pf json (treeDisk info) (fun t => walk t.fs) env (r.rename φ)).2 := by
  have ho := h.objects
  have ht := h.tidy
  have hquiet : s.files.fs.KeepsTemps s.files.fs none := .refl _ _
  -- the path of a key that the request names
  have hpath : ∀ {b : MemDriver.Bucket} {key : String}, b.objectKey key ∈ r.fullKeys →
      ∀ rel, (⟨b.pref⟩ : Bucket).paths key = .ok rel → K rel := by
    intro b key hin rel hrel
    exact Except.ok.inj ((paths_objectKey (hkeys _ hin).1).symm.trans hrel) ▸ (hkeys _ hin).2
  cases r with
  | attributes b ctx key =>
      have hin : b.objectKey key ∈ [b.objectKey key] := List.mem_cons_self
      obtain ⟨r, hexec, hr⟩ := attributes_mirrors hφ ho (hkeys _ hin).1 ctx
      obtain ⟨hreply, hnext⟩ := h.run info
        (.of_within hK ht (within_attributes ctx (hpath hin))) hexec ho hquiet .attributes
      exact ⟨(congrArg (Reply.shown id) hreply).trans (congrArg Reply.attributes hr), hnext⟩
  | newRangeReader b ctx beforeRead key offset length =>
      have hin : b.objectKey key ∈ [b.objectKey key] := List.mem_cons_self
      obtain ⟨r, hexec, hr⟩ := newRangeReader_mirrors hφ ho (hkeys _ hin).1 ctx beforeRead offset
        length hfits
      obtain ⟨hreply, hnext⟩ := h.run info (.of_within hK ht (within_newRangeReader ctx beforeRead
        offset length (hpath hin))) hexec ho hquiet fun r => .bytes (.ofExcept r)
      exact ⟨(congrArg (Reply.shown id) hreply).trans (congrArg Reply.bytes hr), hnext⟩
  | listPage b ctx pageToken pageSize opts =>
      exact ⟨congrArg Reply.page (listPage_mirrors hφ hK ht ho (hwalk _ ho.exists_walk) b ctx pageToken
        pageSize opts), h⟩
  | call c =>
      cases c with
      | newWriter b key opts pre =>
          have hin : b.objectKey key ∈ [b.objectKey key] := List.mem_cons_self
          have hagrees : Agrees K info (Bucket.newWriter pf env ⟨b.pref⟩ key opts
              (pre.map (Precondition.rename φ))) s.files := .of_within hK ht (within_newWriter opts _)
          rcases newWriter_mirrors pf hφ (hkeys _ hin).1 opts pre s.files.fs env with
            ⟨e, hmem, hfile⟩ | ⟨w, fw, fs', hmem, hfile, htree, hk, htmp, -, hw⟩
          · obtain ⟨-, hnext⟩ := h.run info hagrees hfile ho hquiet fun _ => .result (.error e)
            obtain ⟨t, hrun, -⟩ := hagrees.exec hfile
            rw [System.run, hrun] at hnext
            simp only [Request.rename, MemDriver.Call.rename, System.respond, hrun,
              MemDriver.System.answer, MemDriver.System.after, MemDriver.System.step, hmem]
            exact ⟨rfl, hnext⟩
          · have hrel := hpath hin _ (rel_of_newWriter hfile)
            obtain ⟨t, hrun, rfl, ht'⟩ := hagrees.exec hfile
            simp only [Request.rename, MemDriver.Call.rename, System.respond, hrun,
              MemDriver.System.answer, MemDriver.System.after, MemDriver.System.step, hmem]
            exact ⟨rfl, h.of_opened (ho.same htree) ht' hk hw hrel htmp⟩
      | write i ctx p =>
          simp only [Request.rename, MemDriver.Call.rename, System.respond, System.onWriter,
            MemDriver.System.answer, MemDriver.System.after, MemDriver.System.step]
          rcases h.writer i with ⟨hw, hfw⟩ | ⟨w, fw, hw, hfw, hm, hrel⟩
          · rw [hw, hfw]
            exact ⟨rfl, h⟩
          · obtain ⟨fw', fs', hexec, htree, hk, htmp, hclosed, hm'⟩ := tryWrite_mirrors hm env ctx p
            have hagrees : Agrees K info (fw.tryWrite env ctx p) s.files :=
              .of_within hK ht (within_tryWrite ctx p)
            have hrel' : K fw'.rel := rel_of_tryWrite hexec ▸ hrel
            obtain ⟨t, hrun, rfl, ht'⟩ := hagrees.exec hexec
            rw [hw, hfw]
            simp only [hrun]
            exact ⟨rfl, h.of_writer hw hfw (ho.same htree) ht' hk hm' hrel' fun hopen =>
              ⟨hclosed.symm.trans hopen, htmp⟩⟩
      | close i ctx now =>
          simp only [Request.rename, MemDriver.Call.rename, System.respond, System.onWriter,
            MemDriver.System.answer, MemDriver.System.after, MemDriver.System.step]
          rcases h.writer i with ⟨hw, hfw⟩ | ⟨w, fw, hw, hfw, hm, hrel⟩
          · rw [hw, hfw]
            exact ⟨rfl, h⟩
          · simp only [MemDriver.System.Draws, MemDriver.System.after, MemDriver.System.step, hw]
              at hdraw
            obtain ⟨fs', hexec, ho', hk⟩ := close_mirrors pf hφ ho hm env ctx now hdraw
            have hagrees : Agrees K info (fw.close pf json env ctx) s.files :=
              agrees_close hK ht hrel env ctx
            obtain ⟨t, hrun, rfl, ht'⟩ := hagrees.exec hexec
            rw [hw, hfw]
            simp only [Prog.exec_bind, hrun, close_shut]
            exact ⟨rfl, h.of_writer hw hfw ho' ht' hk hm.shut hrel (by simp)⟩
      | closeWithError i =>
          simp only [Request.rename, MemDriver.Call.rename, System.respond, System.onWriter,
            MemDriver.System.answer, MemDriver.System.after, MemDriver.System.step]
          rcases h.writer i with ⟨hw, hfw⟩ | ⟨w, fw, hw, hfw, hm, hrel⟩
          · rw [hw, hfw]
            exact ⟨rfl, h⟩
          · obtain ⟨ho', hk⟩ := giveUp_mirrors ho fw
            have hagrees : Agrees K info fw.giveUp s.files := .of_within hK ht within_giveUp
            obtain ⟨t, hrun, hfs, ht'⟩ := hagrees.exec (Prod.ext rfl rfl)
            rw [← hfs] at ho' hk
            rw [hw, hfw]
            simp only [Prog.exec_bind, hrun]
            exact ⟨rfl, h.of_writer hw hfw ho' ht' hk hm.shut hrel (by simp)⟩
      | writeAll b ctx key p opts pre now =>
          have hin : b.objectKey key ∈ [b.objectKey key] := List.mem_cons_self
          obtain ⟨fs', hexec, ho', hk⟩ := writeAll_mirrors pf hφ ho (hkeys _ hin).1 env ctx p opts pre
            now (fun hne => hdraw fun heq => hne heq)
          obtain ⟨hreply, hnext⟩ := h.run info
            (agrees_writeAll hK ht (hpath hin) env ctx p opts _) hexec ho' hk .result
          exact ⟨congrArg (Reply.shown id) hreply, hnext⟩
      | copy b ctx before dstKey srcKey now =>
          have hin : b.objectKey dstKey ∈ [b.objectKey dstKey, b.objectKey srcKey] :=
            List.mem_cons_self
          have hin' : b.objectKey srcKey ∈ [b.objectKey dstKey, b.objectKey srcKey] :=
            List.mem_cons_of_mem _ List.mem_cons_self
          obtain ⟨fs', hexec, ho', hk⟩ := copy_mirrors hφ ho (hkeys _ hin).1 (hkeys _ hin').1 env ctx
            before now (fun hne => hdraw fun heq => hne heq)
          obtain ⟨hreply, hnext⟩ := h.run info
            (agrees_copy hK ht (hpath hin) (hpath hin') env ctx before) hexec ho' hk .result
          exact ⟨congrArg (Reply.shown id) hreply, hnext⟩
      | updateMetadata b ctx key md now =>
          have hin : b.objectKey key ∈ [b.objectKey key] := List.mem_cons_self
          obtain ⟨r, fs', hexec, hr, ho', hk⟩ := updateMetadata_mirrors pf hφ ho (hkeys _ hin).1 env
            ctx md now (fun hne => hdraw fun heq => hne heq)
          obtain ⟨hreply, hnext⟩ := h.run info
            (agrees_updateMetadata hK ht (hpath hin) env ctx md) hexec ho' hk .version
          refine ⟨(congrArg (Reply.shown id) hreply).trans ?_, hnext⟩
          rw [hr]
          simp only [MemDriver.System.answer, Reply.shown]
          cases (b.updateMetadata pf ctx key md now ms.state).1 <;> rfl
      | delete b ctx key pre =>
          have hin : b.objectKey key ∈ [b.objectKey key] := List.mem_cons_self
          obtain ⟨fs', hexec, ho', hk⟩ := delete_mirrors hφ ho (hkeys _ hin).1 ctx pre
          obtain ⟨hreply, hnext⟩ := h.run info
            (.of_within hK ht (within_delete ctx _ (hpath hin))) hexec ho' hk .result
          exact ⟨congrArg (Reply.shown id) hreply, hnext⟩

end FileDriver

/-! ## Runs -/

/-- No sum of the run exceeds the machine integers, and the file driver draws the renamed versions. -/
def MemDriver.System.Serves (pf : Platform) (φ : Version → Version) (ms : MemDriver.System) :
    List (Request × FileDriver.Env) → Prop
  | [] => True
  | (r, env) :: run => r.Fits ms.state ∧ ms.Draws pf φ env r ∧ (ms.after pf r).Serves pf φ run

namespace FileDriver

variable {pf : Platform} {K : List String → Prop} {info : Path → ℤ × ℕ} {φ : Version → Version}
  {json : Codec} {walk : FS → List WalkEntry}

/-- Corresponding systems answer a run alike. -/
lemma Mirrors.answers (hφ : Renaming φ) (hK : Apart K)
    (hwalk : ∀ fs, (∃ l, IsWalk fs l) → IsWalk fs (walk fs)) {run : List (Request × Env)}
    (hkeys : ∀ x ∈ run, ∀ key ∈ x.1.fullKeys, Canonical key ∧ K (components key))
    {ms : MemDriver.System} {s : System Tree} (h : Mirrors K φ json ms s)
    (hrun : ms.Serves pf φ run) :
    (s.answers pf json (treeDisk info) (fun t => walk t.fs)
        (run.map fun x => (x.1.rename φ, x.2))).map (Reply.shown id) =
      (ms.answers pf (run.map Prod.fst)).map (Reply.shown φ) := by
  induction run generalizing ms s with
  | nil => rfl
  | cons x run ih =>
      obtain ⟨r, env⟩ := x
      obtain ⟨hfits, hdraw, hrest⟩ := hrun
      obtain ⟨hhere, hlater⟩ := List.forall_mem_cons.mp hkeys
      obtain ⟨hanswer, hmirrors⟩ := respond_mirrors info hφ hK hwalk h r hhere hfits hdraw
      simp only [List.map_cons, System.answers, MemDriver.System.answers, hanswer,
        ih hlater hmirrors hrest]

lemma mirrors_empty : Mirrors K φ json {} ⟨{}, []⟩ where
  objects :=
    { objects := fun key _ => by
        rw [MemDriver.State.get_empty]
        exact .absent
      known := fun key h => absurd (MemDriver.State.get_empty key) h
      strays := fun rel h => absurd rfl h }
  length := rfl
  writers i w fw hw := by simp at hw
  apart i j fw fw' hfw := by simp at hfw
  tidy := ⟨fun _ h => absurd rfl h, fun _ h => absurd rfl h, fun _ h => (List.not_mem_nil h).elim,
    fun _ h => absurd rfl h⟩

/-- A key that is on the way to another. -/
lemma eq_or_above_of_components {key key' : String} (h : components key <+: components key') :
    key = key' ∨ ∃ x, key' = key ++ "/" ++ x := by
  obtain ⟨rest, hrest⟩ := h
  have hjoin : ∀ k : String, ['/'].intercalate ((components k).map String.toList) = k.toList := by
    intro k
    simp [components, List.map_map, Function.comp_def, List.intercalate_splitOn]
  cases rest with
  | nil =>
      rw [List.append_nil] at hrest
      exact .inl (components_inj.mp hrest)
  | cons c rest =>
      refine .inr ⟨String.ofList (['/'].intercalate ((c :: rest).map String.toList)), ?_⟩
      have hne : (components key).map String.toList ≠ [] := by
        simp [components, List.splitOn_ne_nil]
      have hlist := hjoin key'
      rw [← hrest, List.map_append, Lexical.Path.intercalate_append hne (by simp), hjoin] at hlist
      refine String.toList_inj.mp ?_
      rw [← hlist]
      simp

/-- The full keys that a run names. -/
def namedKeys (run : List (Request × Env)) : List String := run.flatMap fun x => x.1.fullKeys

/-- **The file driver refines the mem driver.**  Both start empty and are given the same requests, the
file driver with the versions of the conditions renamed.  If every key that is named is its own path
and none is a directory of another, no range read exceeds the machine integers, and the versions that
the file driver draws are the renamed ones of the mem driver, then all the answers are the same, but
for their times and up to the renaming: the results and errors of all calls, the attributes, the
bytes, the pages of the listings and their tokens. -/
theorem file_refines_mem (hφ : Renaming φ) (pf : Platform) (json : Codec)
    (info : Path → ℤ × ℕ) (hwalk : ∀ fs, (∃ l, IsWalk fs l) → IsWalk fs (walk fs))
    {run : List (Request × Env)}
    (hcanonical : ∀ key ∈ namedKeys run, Canonical key)
    (hapart : ∀ key ∈ namedKeys run, ∀ key' ∈ namedKeys run, ∀ x, key' ≠ key ++ "/" ++ x)
    (hrun : ({} : MemDriver.System).Serves pf φ run) :
    ((⟨{}, []⟩ : System Tree).answers pf json (treeDisk info) (fun t => walk t.fs)
        (run.map fun x => (x.1.rename φ, x.2))).map (Reply.shown id) =
      (({} : MemDriver.System).answers pf (run.map Prod.fst)).map (Reply.shown φ) := by
  let K : List String → Prop := fun rel => ∃ key ∈ namedKeys run, components key = rel
  have hK : Apart K := by
    rintro r r' ⟨key, hkey, rfl⟩ ⟨key', hkey', rfl⟩ hpre
    rcases eq_or_above_of_components hpre with rfl | ⟨x, hx⟩
    · rfl
    · exact absurd hx (hapart key hkey key' hkey' x)
  refine (mirrors_empty (K := K)).answers hφ hK hwalk (fun x hx key hkey => ?_) hrun
  have hin : key ∈ namedKeys run := List.mem_flatMap.mpr ⟨x, hx, hkey⟩
  exact ⟨hcanonical key hin, key, hin, rfl⟩

/-! ### A run -/

/-- The versions of the file driver, in the run below. -/
def marked (v : Version) : Version := if v = "" then "" else "v" ++ v

lemma renaming_marked : Renaming marked where
  empty := rfl
  inj v v' h := by
    unfold marked at h
    split_ifs at h with h₁ h₂ h₂
    · rw [h₁, h₂]
    · simpa using congrArg String.toList h
    · simpa using congrArg String.toList h
    · exact String.toList_inj.mp (by simpa using congrArg String.toList h)

/-- An object is created and gets metadata while a conditional overwrite of it is under way; a range
of it is read and the bucket is listed. -/
def overtaken : List (Request × Env) :=
  [(.call (.writeAll ⟨""⟩ none "a/k" ⟨#[1, 2]⟩ {} [.ifNotExists] 0), ⟨7, 7, "v1"⟩),
    (.call (.newWriter ⟨"a/"⟩ "k" {} [.ifMatch "1"]), ⟨8, 8, "v2"⟩),
    (.call (.write 0 none ⟨#[3]⟩), ⟨9, 9, "v2"⟩),
    (.call (.updateMetadata ⟨"a/"⟩ none "k" [("x", "y")] 1), ⟨9, 9, "v2"⟩),
    (.call (.close 0 none 2), ⟨9, 9, "v3"⟩),
    (.newRangeReader ⟨""⟩ none none "a/k" 1 (-1), ⟨9, 9, "v3"⟩),
    (.listPage ⟨""⟩ none firstPageToken 10 ⟨"", "/", none⟩, ⟨9, 9, "v3"⟩)]

lemma serves_overtaken : ({} : MemDriver.System).Serves MemDriver.plain marked overtaken := by
  refine ⟨trivial, fun _ => by decide +kernel, trivial, fun _ => by decide +kernel, trivial,
    fun _ => by decide +kernel, trivial, fun _ => by decide +kernel, trivial,
    fun _ => by decide +kernel, fun obj hobj => ?_, fun _ => by decide +kernel, trivial,
    fun _ => by decide +kernel, trivial⟩
  have hsize : some 2 = some obj.data.size :=
    Eq.trans (by decide +kernel) (congrArg (Option.map fun o : MemDriver.Object => o.data.size) hobj)
  refine ⟨?_, .inl (by decide)⟩
  rw [← Option.some.inj hsize]
  decide

/-- The file driver, which has drawn the versions `v1` and `v2`, answers to it as the mem driver. -/
theorem file_refines_mem_overtaken : ∃ walk : FS → List WalkEntry,
    (∀ fs, (∃ l, IsWalk fs l) → IsWalk fs (walk fs)) ∧
    ((⟨{}, []⟩ : System Tree).answers MemDriver.plain Codec.unary (treeDisk fun _ => (0, 0))
        (fun t => walk t.fs) (overtaken.map fun x => (x.1.rename marked, x.2))).map (Reply.shown id) =
      [.result (.ok ()), .result (.ok ()), .result (.ok ()), .version (.ok "v2"),
        .result (.error .preconditionFailed),
        .bytes (.ok (⟨#[2]⟩, { metadata := [("x", "y")], size := 2, md5 := ⟨#[1, 2]⟩,
                                version := "v2" })),
        .page (.ok ([{ key := "a/", isDir := true }], ""))] := by
  classical
  let walk : FS → List WalkEntry := fun fs => if h : ∃ l, IsWalk fs l then h.choose else []
  have hwalk : ∀ fs, (∃ l, IsWalk fs l) → IsWalk fs (walk fs) := by
    intro fs h
    simp only [walk, dif_pos h]
    exact h.choose_spec
  refine ⟨walk, hwalk, ?_⟩
  rw [file_refines_mem renaming_marked MemDriver.plain Codec.unary _ hwalk (by decide +kernel) ?_
    serves_overtaken]
  · decide +kernel
  · have hone : ∀ key ∈ namedKeys overtaken, key = "a/k" := by decide +kernel
    intro key hkey key' hkey' x h
    rw [hone key hkey, hone key' hkey'] at h
    have hlen := congrArg String.length h
    rw [String.length_append, String.length_append, Nat.add_assoc, left_eq_add] at hlen
    exact absurd (Nat.add_eq_zero_iff.mp hlen).1 (by decide)

/-- Two keys, one of them a directory of the other. -/
def nested : List (Request × Env) :=
  [(.call (.writeAll ⟨""⟩ none "a/b" ⟨#[1]⟩ {} [] 0), ⟨0, 0, "1"⟩),
    (.attributes ⟨""⟩ none "a", ⟨0, 0, "2"⟩),
    (.call (.writeAll ⟨""⟩ none "a" ⟨#[1]⟩ {} [] 0), ⟨0, 0, "2"⟩)]

/-- **Directories show.**  While there is an object `a/b`, the file driver answers a request for `a`
with an error that is not `ErrNotFound`, and does not store it. -/
theorem nested_keys :
    (⟨{}, []⟩ : System Tree).answers MemDriver.plain Codec.unary (treeDisk fun _ => (0, 0))
        (fun _ => []) nested =
        [.result (.ok ()), .attributes (.error .backend), .result (.error .backend)] ∧
      ({} : MemDriver.System).answers MemDriver.plain (nested.map Prod.fst) =
        [.result (.ok ()), .attributes (.error .notFound), .result (.ok ())] := by
  constructor <;> decide +kernel

end FileDriver

end Blobster
