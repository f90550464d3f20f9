import Mathlib.Data.List.Sort
import Blobster.Driver.Paging
import Blobster.Driver.Tokens
import Blobster.Lexical.Delimiter

/-!
# Listings with a delimiter

`listObjectsLocked` of the mem driver and `listObjects` of the file driver: the keys under a prefix in
order, those with the delimiter in them collapsed to one directory entry each.  The two loops differ
only in where an object's size, time and checksum come from.

* `dirKey`, `collect` — the directory entry of a key, and the loop over the sorted keys.
* **`mem_collect`**, **`collect_sorted`** — what the loop lists, and that it lists it in order: the
  keys that collapse to one entry are neighbours, so that the entry stands where the first of them
  stood.
* **`MemDriver.listing_complete`** — the listing of the mem driver, its pages of any sizes and
  its iterator.
* **`MemDriver.listPage_simulates`** — without a delimiter, its pages are those of `memListPage`, on
  which the queue is built.
-/

namespace Blobster

/-! ## The loop over the keys -/

/-- The directory entry that a key is collapsed to. -/
def dirKey (opts : ListOptions) (relativeKey : String) : Option String :=
  if opts.delimiter = "" then none
  else
    let rest := trimPrefix relativeKey opts.pref
    (Lexical.index opts.delimiter.toList rest.toList).map fun idx =>
      opts.pref ++ String.ofList (rest.toList.take (idx + opts.delimiter.toList.length))

/-- The loop over the sorted keys, with the directory entries `seenDirs` listed before. -/
def collect (bucketPrefix : String) (opts : ListOptions) (object : String → String → ListObject) :
    List String → List String → List ListObject
  | _, [] => []
  | seenDirs, fullKey :: keys =>
      let relativeKey := trimPrefix fullKey bucketPrefix
      match dirKey opts relativeKey with
      | some dir =>
          if dir ∈ seenDirs then collect bucketPrefix opts object seenDirs keys
          else { key := dir, isDir := true } ::
            collect bucketPrefix opts object (dir :: seenDirs) keys
      | none => object fullKey relativeKey :: collect bucketPrefix opts object seenDirs keys

section Loop

variable {bucketPrefix : String} {opts : ListOptions} {object : String → String → ListObject}
  {seenDirs keys : List String} {rest rest' : String} {o : ListObject}

lemma dirKey_append (opts : ListOptions) (rest : String) :
    dirKey opts (opts.pref ++ rest) =
      if opts.delimiter = "" then none
      else (Lexical.upTo opts.delimiter.toList rest.toList).map fun p =>
        opts.pref ++ String.ofList p := by
  simp only [dirKey, trimPrefix_append, Lexical.upTo, Option.map_map]
  rfl

/-- **What the loop lists**: the keys that are not collapsed, and every directory entry that was not
seen before. -/
theorem mem_collect : o ∈ collect bucketPrefix opts object seenDirs keys ↔
    (∃ key ∈ keys, dirKey opts (trimPrefix key bucketPrefix) = none ∧
      o = object key (trimPrefix key bucketPrefix)) ∨
    ∃ dir, dir ∉ seenDirs ∧ (∃ key ∈ keys, dirKey opts (trimPrefix key bucketPrefix) = some dir) ∧
      o = { key := dir, isDir := true } := by
  induction keys generalizing seenDirs with
  | nil => simp [collect]
  | cons key keys ih =>
      rw [collect]
      cases hdir : dirKey opts (trimPrefix key bucketPrefix) with
      | none => simp only [List.mem_cons, ih, exists_eq_or_imp, hdir, true_and, reduceCtorEq,
          false_or, or_assoc]
      | some dir =>
          simp only [List.mem_cons, exists_eq_or_imp, hdir, reduceCtorEq, false_and, false_or,
            Option.some.injEq]
          by_cases hseen : dir ∈ seenDirs
          · rw [if_pos hseen, ih]
            refine or_congr Iff.rfl (exists_congr fun dir' => and_congr_right fun hnot => ?_)
            have hne : dir ≠ dir' := fun h => hnot (h ▸ hseen)
            simp only [hne, false_or]
          · rw [if_neg hseen, List.mem_cons, ih]
            constructor
            · rintro (rfl | h | ⟨dir', hnot, hex, rfl⟩)
              · exact .inr ⟨dir, hseen, .inl rfl, rfl⟩
              · exact .inl h
              · exact .inr ⟨dir', fun h => hnot (List.mem_cons_of_mem _ h), .inr hex, rfl⟩
            · rintro (h | ⟨dir', hnot, hex, rfl⟩)
              · exact .inr (.inl h)
              · by_cases heq : dir' = dir
                · exact .inl (by rw [heq])
                · refine .inr (.inr ⟨dir', fun h => ?_, hex.resolve_left (Ne.symm heq), rfl⟩)
                  exact (List.mem_cons.mp h).elim heq hnot

/-- The key under which a stored key is listed. -/
def listedKey (opts : ListOptions) (relativeKey : String) : String :=
  (dirKey opts relativeKey).getD relativeKey

lemma ofList_lt {l l' : List Char} : String.ofList l < String.ofList l' ↔ l < l' := by
  rw [String.lt_iff_toList_lt, String.toList_ofList, String.toList_ofList]

variable (opts) in
/-- Two keys are listed in their order, unless they are collapsed to one entry. -/
lemma listedKey_lt (h : rest < rest') :
    listedKey opts (opts.pref ++ rest) < listedKey opts (opts.pref ++ rest') ∨
      ∃ dir, dirKey opts (opts.pref ++ rest) = some dir ∧
        dirKey opts (opts.pref ++ rest') = some dir := by
  have hlt := String.lt_iff_toList_lt.mp h
  unfold listedKey
  rw [dirKey_append, dirKey_append]
  by_cases hd : opts.delimiter = ""
  · simp only [if_pos hd]
    exact .inl ((append_lt_append_left _).mpr h)
  simp only [if_neg hd]
  cases hcut : Lexical.upTo opts.delimiter.toList rest.toList with
  | none =>
      cases hcut' : Lexical.upTo opts.delimiter.toList rest'.toList with
      | none => exact .inl ((append_lt_append_left _).mpr h)
      | some p =>
          have hp := Lexical.lt_upTo hlt hcut hcut'
          rw [Option.map_none, Option.getD_none, Option.map_some, Option.getD_some,
            append_lt_append_left, String.lt_iff_toList_lt, String.toList_ofList]
          exact .inl hp
  | some p =>
      cases hcut' : Lexical.upTo opts.delimiter.toList rest'.toList with
      | none =>
          have hp := Lexical.upTo_lt hlt hcut
          rw [Option.map_none, Option.getD_none, Option.map_some, Option.getD_some,
            append_lt_append_left, String.lt_iff_toList_lt, String.toList_ofList]
          exact .inl hp
      | some p' =>
          rw [Option.map_some, Option.getD_some, Option.map_some, Option.getD_some,
            append_lt_append_left, ofList_lt]
          rcases (Lexical.upTo_le hlt hcut hcut').lt_or_eq with hp | rfl
          · exact .inl hp
          · exact .inr ⟨_, rfl, rfl⟩

/-- **The loop lists in order.** -/
theorem collect_sorted (hkey : ∀ key rel, (object key rel).key = rel)
    (hpre : ∀ key ∈ keys, ∃ rest, key = bucketPrefix ++ (opts.pref ++ rest))
    (hs : keys.Pairwise (· < ·)) :
    (collect bucketPrefix opts object seenDirs keys).Pairwise (·.key < ·.key) := by
  induction keys generalizing seenDirs with
  | nil => exact .nil
  | cons key keys ih =>
      obtain ⟨rest, rfl⟩ := hpre _ List.mem_cons_self
      have hpre' : ∀ key ∈ keys, ∃ rest, key = bucketPrefix ++ (opts.pref ++ rest) := fun key hk =>
        hpre key (List.mem_cons_of_mem _ hk)
      obtain ⟨hhead, htail⟩ := List.pairwise_cons.mp hs
      -- what is listed later comes from a later key, collapsed or not
      have hlater : ∀ seenDirs, ∀ o ∈ collect bucketPrefix opts object seenDirs keys,
          ∃ rest', rest < rest' ∧ o.key = listedKey opts (opts.pref ++ rest') ∧
            ∀ dir, dirKey opts (opts.pref ++ rest') = some dir → dir ∉ seenDirs := by
        intro seenDirs o ho
        rcases mem_collect.mp ho with ⟨key, hk, hnone, rfl⟩ | ⟨dir, hnot, ⟨key, hk, hdir⟩, rfl⟩
        all_goals
          obtain ⟨rest', rfl⟩ := hpre' key hk
          have hlt : rest < rest' := (append_lt_append_left _).mp ((append_lt_append_left _).mp (hhead _ hk))
          rw [trimPrefix_append] at *
        · refine ⟨rest', hlt, ?_, fun dir hdir => by rw [hnone] at hdir; cases hdir⟩
          rw [hkey, listedKey, hnone]
          rfl
        · refine ⟨rest', hlt, by rw [listedKey, hdir]; rfl, fun dir' hdir' => ?_⟩
          rw [hdir] at hdir'
          exact Option.some.inj hdir' ▸ hnot
      rw [collect, trimPrefix_append]
      cases hdir : dirKey opts (opts.pref ++ rest) with
      | none =>
          refine List.pairwise_cons.mpr ⟨fun o ho => ?_, ih hpre' htail⟩
          obtain ⟨rest', hlt, ho, -⟩ := hlater _ o ho
          rw [ho, hkey]
          rcases listedKey_lt opts hlt with h | ⟨dir, h, -⟩
          · rwa [listedKey, hdir] at h
          · rw [hdir] at h
            cases h
      | some dir =>
          dsimp only
          split_ifs with hseen
          · exact ih hpre' htail
          · refine List.pairwise_cons.mpr ⟨fun o ho => ?_, ih hpre' htail⟩
            obtain ⟨rest', hlt, ho, hnew⟩ := hlater _ o ho
            rw [ho]
            rcases listedKey_lt opts hlt with h | ⟨dir', h, h'⟩
            · rwa [listedKey, hdir] at h
            · rw [hdir] at h
              obtain rfl := Option.some.inj h
              exact absurd List.mem_cons_self (hnew _ h')

end Loop

/-! ## The first occurrence -/

/-- The text has the delimiter in it. -/
def Occurs (delimiter rest : String) : Prop := ∃ before after, rest = before ++ delimiter ++ after

/-- The text up to and including the first occurrence of the delimiter. -/
def CutAt (delimiter rest p : String) : Prop :=
  (∃ before after, rest = before ++ delimiter ++ after ∧ p = before ++ delimiter) ∧
    ∀ before after, rest = before ++ delimiter ++ after → p.length ≤ (before ++ delimiter).length

section Cut

variable {d rest p : String}

lemma occurs_iff : Occurs d rest ↔ d.toList <:+: rest.toList := by
  constructor
  · rintro ⟨before, after, rfl⟩
    exact ⟨before.toList, after.toList, by simp⟩
  · rintro ⟨before, after, h⟩
    exact ⟨String.ofList before, String.ofList after, String.toList_inj.mp (by simp [← h])⟩

lemma upTo_eq_none_iff : Lexical.upTo d.toList rest.toList = none ↔ ¬ Occurs d rest := by
  rw [Lexical.upTo_eq_none, occurs_iff]

lemma upTo_eq_some_iff {l : List Char} :
    Lexical.upTo d.toList rest.toList = some l ↔ CutAt d rest (String.ofList l) := by
  have hcut : ∀ {l : List Char}, Lexical.upTo d.toList rest.toList = some l →
      CutAt d rest (String.ofList l) := by
    intro l hup
    obtain ⟨⟨after, hpre⟩, ⟨before, rfl⟩, hmin⟩ := Lexical.upTo_spec hup
    refine ⟨⟨String.ofList before, String.ofList after, String.toList_inj.mp (by simp [← hpre]),
      String.toList_inj.mp (by simp)⟩, fun before' after' hrest => ?_⟩
    have hle := (hmin (before' ++ d).toList ⟨after'.toList, by rw [hrest]; simp⟩
      ⟨before'.toList, by simp⟩).length_le
    simpa [← String.length_toList] using hle
  refine ⟨hcut, fun h => ?_⟩
  cases hup : Lexical.upTo d.toList rest.toList with
  | none =>
      obtain ⟨before, after, hrest, -⟩ := h.1
      exact absurd ⟨before, after, hrest⟩ (upTo_eq_none_iff.mp hup)
  | some l' =>
      -- both are initial parts of the text, and neither is longer than the other
      have hcut' := hcut hup
      obtain ⟨⟨before, after, hrest, hl⟩, hmin⟩ := h
      obtain ⟨⟨before', after', hrest', hl'⟩, hmin'⟩ := hcut'
      have hlen := le_antisymm (hl ▸ hmin' before after hrest) (hl' ▸ hmin before' after' hrest')
      have hpre : l <+: rest.toList :=
        ⟨after.toList, by rw [hrest, ← hl, String.toList_append, String.toList_ofList]⟩
      have hpre' : l' <+: rest.toList :=
        ⟨after'.toList, by rw [hrest', ← hl', String.toList_append, String.toList_ofList]⟩
      rw [← String.length_toList, ← String.length_toList, String.toList_ofList,
        String.toList_ofList] at hlen
      rw [(List.prefix_of_prefix_length_le hpre' hpre hlen.le).eq_of_length hlen]

lemma dirKey_eq_none {opts : ListOptions} : dirKey opts (opts.pref ++ rest) = none ↔
    opts.delimiter = "" ∨ ¬ Occurs opts.delimiter rest := by
  rw [dirKey_append]
  split_ifs with hd
  · simp [hd]
  · rw [Option.map_eq_none_iff, upTo_eq_none_iff]
    simp [hd]

lemma dirKey_eq_some {opts : ListOptions} {dir : String} :
    dirKey opts (opts.pref ++ rest) = some dir ↔
      opts.delimiter ≠ "" ∧ ∃ p, CutAt opts.delimiter rest p ∧ dir = opts.pref ++ p := by
  rw [dirKey_append]
  split_ifs with hd
  · simp [hd]
  · simp only [Option.map_eq_some_iff, upTo_eq_some_iff, ne_eq, hd, not_false_eq_true, true_and]
    constructor
    · rintro ⟨l, hcut, rfl⟩
      exact ⟨_, hcut, rfl⟩
    · rintro ⟨p, hcut, rfl⟩
      exact ⟨p.toList, by rwa [String.ofList_toList], by rw [String.ofList_toList]⟩

end Cut

/-! ## The mem driver -/

namespace MemDriver

/-- An object's entry. -/
def State.listObject (st : State) (fullKey relativeKey : String) : ListObject :=
  let attrs := ((st.get fullKey).map fun o => o.attrs).getD {}
  { key := relativeKey, modTime := attrs.modTime, size := attrs.size, md5 := attrs.md5 }

/-- The stored keys with the given beginning, in order. -/
def State.keysUnder (st : State) (fullPrefix : String) : List String :=
  (st.objects.keys.filter fun key => fullPrefix.toList.isPrefixOf key.toList).insertionSort (· ≤ ·)

namespace Bucket

variable (b : Bucket)

/-- `listObjectsLocked`. -/
def listObjectsLocked (opts : ListOptions) (st : State) : List ListObject :=
  collect b.pref opts st.listObject [] (st.keysUnder (b.objectKey opts.pref))

/-- `ListPage`. -/
def listPage (ctx : Option Err) (pageToken : String) (pageSize : Int64) (opts : ListOptions)
    (st : State) : Outcome ListErr (List ListObject × String) :=
  pageOfListing ctx pageToken pageSize opts.beforeList (.ok (b.listObjectsLocked opts st))

end Bucket

lemma mem_keysUnder {st : State} {pref key : String} :
    key ∈ st.keysUnder pref ↔ (∃ rest, key = pref ++ rest) ∧ st.get key ≠ none :=
  mem_keysWith

lemma keysUnder_sorted (st : State) (pref : String) : (st.keysUnder pref).Pairwise (· < ·) :=
  keysWith_sorted _ _

section Complete

variable {b : Bucket} {st : State} {opts : ListOptions} {o : ListObject}

lemma mem_listObjectsLocked : o ∈ b.listObjectsLocked opts st ↔
    (∃ rest, st.get (b.pref ++ opts.pref ++ rest) ≠ none ∧ dirKey opts (opts.pref ++ rest) = none ∧
      o = st.listObject (b.pref ++ opts.pref ++ rest) (opts.pref ++ rest)) ∨
    ∃ rest dir, st.get (b.pref ++ opts.pref ++ rest) ≠ none ∧
      dirKey opts (opts.pref ++ rest) = some dir ∧ o = { key := dir, isDir := true } := by
  rw [Bucket.listObjectsLocked, mem_collect]
  simp only [mem_keysUnder, Bucket.objectKey, List.not_mem_nil, not_false_eq_true, true_and]
  constructor
  · rintro (⟨key, ⟨⟨rest, rfl⟩, hget⟩, hdir, rfl⟩ | ⟨dir, ⟨key, ⟨⟨rest, rfl⟩, hget⟩, hdir⟩, rfl⟩)
    · rw [String.append_assoc, trimPrefix_append] at hdir ⊢
      exact .inl ⟨rest, by rwa [String.append_assoc] at hget ⊢, hdir, by rw [String.append_assoc]⟩
    · rw [String.append_assoc, trimPrefix_append] at hdir
      exact .inr ⟨rest, dir, hget, hdir, rfl⟩
  · rintro (⟨rest, hget, hdir, rfl⟩ | ⟨rest, dir, hget, hdir, rfl⟩)
    · refine .inl ⟨_, ⟨⟨rest, rfl⟩, hget⟩, ?_, ?_⟩ <;> rw [String.append_assoc, trimPrefix_append]
      exact hdir
    · refine .inr ⟨dir, ⟨_, ⟨⟨rest, rfl⟩, hget⟩, ?_⟩, rfl⟩
      rwa [String.append_assoc, trimPrefix_append]

lemma listObjectsLocked_sorted (b : Bucket) (opts : ListOptions) (st : State) :
    (b.listObjectsLocked opts st).Pairwise (·.key < ·.key) := by
  refine collect_sorted (fun _ _ => rfl) (fun key hkey => ?_) (keysUnder_sorted st _)
  obtain ⟨⟨rest, rfl⟩, -⟩ := mem_keysUnder.mp hkey
  exact ⟨rest, String.append_assoc⟩

/-- **The listing of the mem driver.**  The entries are in strictly increasing order of their keys:
the keys under the prefix that do not have the delimiter behind it, and once each the parts up to the
first delimiter of those that do.  Pages of any positive sizes add up to this listing, as long as no
page ends beyond the machine integers, and the iterator yields it and then `io.EOF` forever. -/
theorem listing_complete (b : Bucket) (st : State) (pref delimiter : String)
    (hlen : (b.listObjectsLocked { pref, delimiter } st).length + 1000 < 2 ^ 63) :
    let listing := b.listObjectsLocked { pref, delimiter } st
    let call := fun token size => b.listPage none token size { pref, delimiter } st
    listing.Pairwise (·.key < ·.key) ∧
    (∀ o, o ∈ listing ∧ o.isDir = false ↔
      ∃ rest obj, st.get (b.pref ++ pref ++ rest) = some obj ∧
        (delimiter = "" ∨ ¬ Occurs delimiter rest) ∧
        o = { key := pref ++ rest, modTime := obj.attrs.modTime, size := obj.attrs.size,
              md5 := obj.attrs.md5 }) ∧
    (∀ o, o ∈ listing ∧ o.isDir = true ↔
      ∃ rest p, st.get (b.pref ++ pref ++ rest) ≠ none ∧ delimiter ≠ "" ∧ CutAt delimiter rest p ∧
        o = { key := pref ++ p, isDir := true }) ∧
    (∀ sizes, sizes ≠ [] → Fits listing.length 0 sizes → listing.length ≤ sizeSum sizes →
      pageThrough call sizes firstPageToken = .ok (listing, "")) ∧
    ∀ fuel n, 2 ≤ fuel → newListIterator.answers call fuel n =
      some ((listing.take n).map .ok ++ List.replicate (n - listing.length) (.error .eof)) := by
  intro listing call
  have hobject : ∀ key rel obj, st.get key = some obj → st.listObject key rel =
      { key := rel, modTime := obj.attrs.modTime, size := obj.attrs.size, md5 := obj.attrs.md5 } := by
    intro key rel obj hget
    simp [State.listObject, hget]
  refine ⟨listObjectsLocked_sorted b _ st, fun o => ?_, fun o => ?_, ?_, ?_⟩
  · rw [mem_listObjectsLocked]
    constructor
    · rintro ⟨⟨rest, hget, hdir, rfl⟩ | ⟨_, _, _, _, rfl⟩, hflat⟩
      · obtain ⟨obj, hobj⟩ := Option.ne_none_iff_exists'.mp hget
        exact ⟨rest, obj, hobj, dirKey_eq_none.mp hdir, hobject _ _ obj hobj⟩
      · cases hflat
    · rintro ⟨rest, obj, hobj, hfree, rfl⟩
      exact ⟨.inl ⟨rest, by rw [hobj]; exact Option.some_ne_none _, dirKey_eq_none.mpr hfree,
        (hobject _ _ obj hobj).symm⟩, rfl⟩
  · rw [mem_listObjectsLocked]
    constructor
    · rintro ⟨⟨_, _, _, rfl⟩ | ⟨rest, dir, hget, hdir, rfl⟩, hisDir⟩
      · cases hisDir
      · obtain ⟨hd, p, hcut, rfl⟩ := dirKey_eq_some.mp hdir
        exact ⟨rest, p, hget, hd, hcut, rfl⟩
    · rintro ⟨rest, p, hget, hd, hcut, rfl⟩
      exact ⟨.inr ⟨rest, pref ++ p, hget, dirKey_eq_some.mpr ⟨hd, p, hcut, rfl⟩, rfl⟩, rfl⟩
  · intro sizes hne hfits hsum
    exact pageThrough_eq (fun _ _ => rfl) (by omega) hne hfits hsum
  · intro fuel n hfuel
    exact answers_eq (fun _ _ => rfl) hlen hfuel (holds_new _) n

/-- Three objects, two of them below `a/`. -/
def nested : State :=
  ((({} : State).commit "a-" fun _ => ⟨.empty, {}⟩).commit "a/y" fun _ => ⟨.empty, {}⟩).commit "a/x"
    fun _ => ⟨.empty, {}⟩

/-- The two objects are one entry, behind the third, and the pages of one entry each give both. -/
theorem listing_complete_nested :
    let call := fun token size => (Bucket.mk "").listPage none token size ⟨"a", "/", none⟩ nested
    pageThrough call [1, 1] firstPageToken =
        .ok ([{ key := "a-" }, { key := "a/", isDir := true }], "") ∧
      newListIterator.answers call 2 3 =
        some [.ok { key := "a-" }, .ok { key := "a/", isDir := true }, .error .eof] := by
  have hlisting : (Bucket.mk "").listObjectsLocked ⟨"a", "/", none⟩ nested =
      [{ key := "a-" }, { key := "a/", isDir := true }] := by decide +kernel
  obtain ⟨-, -, -, hpages, hnext⟩ := listing_complete ⟨""⟩ nested "a" "/" (by rw [hlisting]; decide)
  rw [hlisting] at hpages hnext
  refine ⟨hpages [1, 1] (by simp) ?_ (by decide), hnext 2 3 le_rfl⟩
  exact ⟨by decide, fun _ => by decide, by decide, fun _ => by decide, trivial⟩

end Complete

/-! ## What the queue knows of it -/

section Simulation

variable {st : State} {s : Store}

lemma Simulates.keysUnder (h : Simulates st s) (pref : String) :
    st.keysUnder pref = s.keysUnder pref := by
  refine (keysUnder_sorted st pref).eq_of_mem_iff (s.keysUnder_sorted pref) fun key => ?_
  rw [mem_keysUnder, Store.mem_keysUnder]
  have hget : st.get key = none ↔ s.get key = none := by
    rw [← Option.map_eq_none_iff, h.get key, Option.map_eq_none_iff]
  rw [ne_eq, hget]

/-- Without a delimiter every key is listed. -/
lemma collect_plain {bucketPrefix : String} {opts : ListOptions} (hd : opts.delimiter = "")
    {object : String → String → ListObject} (hkey : ∀ key rel, (object key rel).key = rel)
    (seenDirs keys : List String) :
    (collect bucketPrefix opts object seenDirs keys).map ListObject.key =
      keys.map (trimPrefix · bucketPrefix) := by
  have hnone : ∀ key, dirKey opts key = none := fun key => if_pos hd
  induction keys generalizing seenDirs with
  | nil => rfl
  | cons key keys ih => simp [collect, hnone, ih, hkey]

/-- A token that the abstract one stands for. -/
def StandsFor : PageToken → String → Prop
  | .first, token => token = firstPageToken
  | .at n, token => Marks token n
  | .after _, _ => False
  | .done, token => token = ""

lemma StandsFor.marks {ptoken : PageToken} {token : String} {start : ℕ}
    (h : StandsFor ptoken token) (hd : decodePageToken ptoken = some start) : Marks token start := by
  cases ptoken with
  | first =>
      obtain rfl := Option.some.inj hd
      rw [StandsFor] at h
      exact h ▸ marks_first
  | «at» n =>
      obtain rfl := Option.some.inj hd
      exact h
  | after key => exact absurd h id
  | done => cases hd

/-- **`ListPage` is the store's listing**, at positions and with page sizes that machine integers
hold. -/
theorem listPage_simulates (h : Simulates st s) {pref : String} {ptoken next : PageToken}
    {token : String} {n : ℕ} {keys : List String} (hn : 0 < n)
    (hlen : (s.keysUnder pref).length + n < 2 ^ 63) (htoken : StandsFor ptoken token)
    (hstart : ∀ start, decodePageToken ptoken = some start → start < 2 ^ 63)
    (hlist : memListPage s ptoken n pref = some (keys, next)) :
    ∃ objs next', (Bucket.mk "").listPage none token (.ofNat n) { pref } st = .ok (objs, next') ∧
      objs.map ListObject.key = keys ∧ StandsFor next next' := by
  obtain ⟨start, hd, heq⟩ := Option.map_eq_some_iff.mp hlist
  set listing := (Bucket.mk "").listObjectsLocked { pref } st with hlisting
  have hkeys : listing.map ListObject.key = s.keysUnder pref := by
    rw [hlisting, Bucket.listObjectsLocked, collect_plain rfl fun _ _ => rfl, h.keysUnder]
    have htrim : ∀ key, trimPrefix key "" = key := fun key => by
      simpa using trimPrefix_append "" key
    simp [Bucket.objectKey, htrim]
  have htotal : listing.length = (s.keysUnder pref).length := by rw [← hkeys, List.length_map]
  have hsize : (Int64.ofNat n).toInt = n := toInt_ofNat (by omega)
  have hpage := pageOfListing_eq (htoken.marks hd) (hstart start hd)
    (by omega : listing.length < 2 ^ 63) (by rw [hsize]; omega) (by rw [hsize]; omega)
  refine ⟨_, _, hpage, ?_, ?_⟩
  all_goals rw [hsize, Int.toNat_natCast]
  all_goals simp only [if_neg hn.ne', ← htotal] at heq
  · rw [List.map_take, List.map_drop, hkeys]
    split_ifs at heq with hend hmore
    all_goals obtain ⟨rfl, rfl⟩ := Prod.mk.inj heq
    · rw [List.drop_eq_nil_of_le (by omega), List.take_nil]
    all_goals rw [List.take_eq_take_iff, List.length_drop]
    all_goals omega
  · split_ifs at heq with hend hmore
    all_goals obtain ⟨rfl, rfl⟩ := Prod.mk.inj heq
    · exact if_neg (by omega)
    · have hlt : start + n < listing.length := by omega
      rw [min_eq_left hlt.le]
      exact marks_tokenAt hlt (by omega)
    · exact if_neg (by omega)

end Simulation

end MemDriver

end Blobster
