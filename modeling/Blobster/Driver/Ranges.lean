import Blobster.Driver.FileCommit
import Blobster.Driver.Listing

/-!
# Windows of bytes and of listings

Four places of the drivers compute the end of a window from a start and a length that the caller
chooses: `NewRangeReader` of the mem and file drivers, the range header of the s3 driver, and
`ListPage` of the mem and file drivers.  The file driver compares the length with what is left of the
object; the others add first, in machine integers.

* `MemDriver.Bucket.newRangeReader`, `FileDriver.newRangeReader`, `S3.rangeHeader` — the range reads.
* `FileDriver.Bucket.listPage` — `ListPage` of the file driver, over what its walk of the tree finds.
* `window`, `S3.Denotes` — the bytes that a range read is meant to yield, and those that a header asks
  for.
* **`windows_exact_iff`** — all of them are exact if and only if no sum exceeds the machine integers.
-/

namespace Blobster

open Interleave

/-! ## The mem driver -/

/-- `data[lo:hi]`; out of bounds it panics. -/
def sliceBytes (data : ByteArray) (lo hi : Int64) : Option ByteArray :=
  if 0 ≤ lo ∧ lo ≤ hi ∧ hi.toInt ≤ data.size then
    some (data.extract lo.toInt.toNat hi.toInt.toNat)
  else none

/-- `NewRangeReader` of the mem driver: the bytes that the reader reads, and its attributes. -/
def MemDriver.Bucket.newRangeReader (b : MemDriver.Bucket) (ctx beforeRead : Option Err)
    (key : String) (offset length : Int64) (st : MemDriver.State) :
    Outcome Err (ByteArray × ObjectAttrs) :=
  match ctx, beforeRead with
  | some e, _ => .error e
  | none, some e => .error e
  | none, none =>
      if offset < 0 then .error .invalidOption
      else match st.get (b.objectKey key) with
        | none => .error .notFound
        | some obj =>
            let size := Int64.ofNat obj.data.size
            let offset := if offset > size then size else offset
            let stop := if length ≥ 0 ∧ offset + length < size then offset + length else size
            match sliceBytes obj.data offset stop with
            | none => .panicked
            | some data => .ok (data, obj.attrs)

/-! ## The file driver -/

namespace FileDriver

/-- `NewRangeReader` of the file driver.  The section reader that it returns reads the open file. -/
def newRangeReader (json : Codec) (b : Bucket) (ctx beforeRead : Option Err) (key : String)
    (offset length : Int64) : FsProg (Except Err (ByteArray × ObjectAttrs)) :=
  match ctx, beforeRead with
  | some e, _ => return .error e
  | none, some e => return .error e
  | none, none =>
      if offset < 0 then return .error .invalidOption
      else match b.paths key with
        | .error e => return .error e
        | .ok rel => do
            match ← readAttributes json rel with
            | .error e => return .error e
            | .ok attrs =>
                match ← readFile (.data rel) with
                | .error e => return .error e
                | .ok content =>
                    let size := Int64.ofNat attrs.size
                    let offset := if offset > size then size else offset
                    let readLen := if length ≥ 0 ∧ length < size - offset then length
                      else size - offset
                    return .ok (content.extract offset.toInt.toNat (offset.toInt + readLen.toInt).toNat,
                      attrs)

/-- A file that the walk of the data tree finds, under the key that its path spells. -/
structure WalkEntry where
  key : String
  modTime : ℤ
  size : ℕ

/-- `listObjects`: what the walk finds, and the checksums in the sidecars (empty where a sidecar cannot
be read). -/
def Bucket.listObjects (b : Bucket) (opts : ListOptions) (walk : Except Err (List WalkEntry))
    (md5 : String → ByteArray) : Except Err (List ListObject) :=
  walk.map fun entries =>
    let fullPrefix := b.pref ++ opts.pref
    let keys := ((entries.map WalkEntry.key).filter fun key =>
      fullPrefix.toList.isPrefixOf key.toList).insertionSort (· ≤ ·)
    collect b.pref opts (fun fullKey relativeKey =>
      match (entries.filter fun e => e.key = fullKey).getLast? with
      | none => { key := relativeKey, md5 := md5 fullKey }
      | some e => { key := relativeKey, modTime := e.modTime, size := e.size, md5 := md5 fullKey })
      [] keys

/-- `ListPage` of the file driver. -/
def Bucket.listPage (b : Bucket) (ctx : Option Err) (pageToken : String) (pageSize : Int64)
    (opts : ListOptions) (walk : Except Err (List WalkEntry)) (md5 : String → ByteArray) :
    Outcome ListErr (List ListObject × String) :=
  pageOfListing ctx pageToken pageSize opts.beforeList (b.listObjects opts walk md5)

end FileDriver

/-! ## The s3 driver -/

namespace S3

/-- `rangeHeader`. -/
def rangeHeader (offset length : Int64) : String :=
  if offset ≤ 0 ∧ length < 0 then ""
  else if length < 0 then "bytes=" ++ itoa offset ++ "-"
  else if length = 0 then "bytes=" ++ itoa offset ++ "-" ++ itoa offset
  else "bytes=" ++ itoa offset ++ "-" ++ itoa (offset + length - 1)

/-- The bytes that a range header asks for of an object with `n` bytes: those from `lo` up to `hi`. -/
inductive Denotes (n : ℕ) : String → ℕ → ℕ → Prop where
  | whole : Denotes n "" 0 n
  | tail {first : ℕ} (h : first < n) : Denotes n ("bytes=" ++ first.repr ++ "-") first n
  | span {first last : ℕ} (h : first < n) (hle : first ≤ last) :
      Denotes n ("bytes=" ++ first.repr ++ "-" ++ last.repr) first (min (last + 1) n)

/-- A header whose last byte is beyond the machine integers is none. -/
example : rangeHeader 2 Int64.maxValue = "bytes=2--9223372036854775808" := by decide +kernel

end S3

/-! ## Exactness -/

/-- The bytes that a range read is meant to yield. -/
def window (data : ByteArray) (offset length : ℤ) : ByteArray :=
  data.extract (min offset data.size).toNat
    (if length < 0 then (data.size : ℤ) else min (offset + length) data.size).toNat

section Exact

variable {offset length : Int64}

/-- The offset that the drivers work with. -/
lemma toInt_clamp {n : ℕ} (hn : n < 2 ^ 63) (offset : Int64) :
    (if offset > Int64.ofNat n then Int64.ofNat n else offset).toInt = min offset.toInt n := by
  have hsize := toInt_ofNat hn
  simp only [gt_iff_lt, Int64.lt_iff_toInt_lt, hsize]
  split_ifs <;> omega

lemma sliceBytes_eq {data : ByteArray} {lo hi : Int64} (hlo : 0 ≤ lo.toInt)
    (hle : lo.toInt ≤ hi.toInt) (hhi : hi.toInt ≤ data.size) :
    sliceBytes data lo hi = some (data.extract lo.toInt.toNat hi.toInt.toNat) :=
  if_pos ⟨Int64.le_iff_toInt_le.mpr hlo, Int64.le_iff_toInt_le.mpr hle, hhi⟩

/-- **The mem driver's reader is exact if and only if the sum is a machine integer.** -/
theorem newRangeReader_mem_iff {b : MemDriver.Bucket} {key : String} {st : MemDriver.State}
    {obj : MemDriver.Object} (hobj : st.get (b.objectKey key) = some obj)
    (hn : obj.data.size < 2 ^ 63) (hoff : 0 ≤ offset.toInt) (length : Int64) :
    b.newRangeReader none none key offset length st =
        .ok (window obj.data offset.toInt length.toInt, obj.attrs) ↔
      length.toInt < 0 ∨ min offset.toInt obj.data.size + length.toInt < 2 ^ 63 := by
  have hneg : ¬ offset < 0 := by
    rw [Int64.lt_iff_toInt_lt]
    exact not_lt.mpr hoff
  have hclamp := toInt_clamp hn offset
  have hsize := toInt_ofNat hn
  simp only [MemDriver.Bucket.newRangeReader, if_neg hneg, hobj]
  generalize (if offset > Int64.ofNat obj.data.size then Int64.ofNat obj.data.size
    else offset) = off at hclamp ⊢
  have hzero : (0 : Int64).toInt = 0 := rfl
  simp only [ge_iff_le, Int64.le_iff_toInt_le, Int64.lt_iff_toInt_lt, hsize, ← hclamp, hzero]
  by_cases hover : 0 ≤ length.toInt ∧ 2 ^ 63 ≤ off.toInt + length.toInt
  · -- the sum is negative, hence below the size, and the slice ends before it begins
    have hsum := toInt_add_of_ge hover.2
    have hnone : sliceBytes obj.data off (off + length) = none :=
      if_neg fun h => absurd (Int64.le_iff_toInt_le.mp h.2.1) (by omega)
    rw [if_pos ⟨hover.1, by omega⟩, hnone]
    refine iff_of_false (fun h => nomatch h) ?_
    omega
  · refine iff_of_true ?_ (by omega)
    by_cases hcut : 0 ≤ length.toInt ∧ off.toInt + length.toInt < obj.data.size
    · have hsum : (off + length).toInt = off.toInt + length.toInt :=
        toInt_add_of_lt (by omega) hcut.1 (by omega)
      rw [hsum, if_pos hcut, sliceBytes_eq (by omega) (by omega) (by omega), hsum, window,
        if_neg (by omega), hclamp]
      have hoff : min offset.toInt obj.data.size + length.toInt =
          min (offset.toInt + length.toInt) obj.data.size := by omega
      rw [hoff]
    · have hwhole : ¬ (0 ≤ length.toInt ∧ (off + length).toInt < obj.data.size) := by
        rintro ⟨hlen, hlt⟩
        rw [toInt_add_of_lt (by omega) hlen (by omega)] at hlt
        exact hcut ⟨hlen, hlt⟩
      rw [if_neg hwhole, sliceBytes_eq (by omega) (by omega) (by omega), hsize, window, hclamp]
      have hstop : (if length.toInt < 0 then (obj.data.size : ℤ)
          else min (offset.toInt + length.toInt) obj.data.size) = obj.data.size := by
        split_ifs <;> omega
      rw [hstop]

/-- **The file driver's reader is exact.** -/
theorem newRangeReader_file {json : FileDriver.Codec} {b : FileDriver.Bucket} {key : String}
    {rel : List String} {fs : FileDriver.FS} {f : FileDriver.File} {attrs : ObjectAttrs}
    (hrel : b.paths key = .ok rel)
    (hattrs : (FileDriver.readAttributes json rel).exec FileDriver.disk fs = (.ok attrs, fs))
    (hfile : fs.file (.data rel) = some f) (hfs : attrs.size = f.content.size)
    (hn : f.content.size < 2 ^ 63) (hoff : 0 ≤ offset.toInt) :
    (FileDriver.newRangeReader json b none none key offset length).exec FileDriver.disk fs =
      (.ok (window f.content offset.toInt length.toInt, attrs), fs) := by
  have hneg : ¬ offset < 0 := by
    rw [Int64.lt_iff_toInt_lt]
    exact not_lt.mpr hoff
  have hread : (FileDriver.readFile (.data rel)).exec FileDriver.disk fs = (.ok f.content, fs) := by
    rw [FileDriver.exec_readFile, hfile]
  have hclamp := toInt_clamp hn offset
  have hsize := toInt_ofNat hn
  simp only [FileDriver.newRangeReader, if_neg hneg, hrel, Prog.exec_bind, hattrs, hread, hfs]
  generalize (if offset > Int64.ofNat f.content.size then Int64.ofNat f.content.size
    else offset) = off at hclamp ⊢
  have hleft : (Int64.ofNat f.content.size - off).toInt = f.content.size - off.toInt := by
    rw [Int64.toInt_sub, hsize]
    exact Int.bmod_eq_of_le_mul_two (by omega) (by omega)
  have hzero : (0 : Int64).toInt = 0 := rfl
  have hstop : (off.toInt + (if length ≥ 0 ∧ length < Int64.ofNat f.content.size - off then length
      else Int64.ofNat f.content.size - off).toInt) =
      if length.toInt < 0 then (f.content.size : ℤ)
        else min (offset.toInt + length.toInt) f.content.size := by
    simp only [ge_iff_le, Int64.le_iff_toInt_le, Int64.lt_iff_toInt_lt, hleft, hzero]
    split_ifs <;> omega
  rw [hstop, hclamp]
  rfl

/-- **A header is exact if the sum is a machine integer.** -/
theorem denotes_rangeHeader {n : ℕ} (hoff : 0 ≤ offset.toInt) (hin : offset.toInt < n)
    (hlen : 0 < length.toInt) (hsum : offset.toInt + length.toInt < 2 ^ 63) :
    S3.Denotes n (S3.rangeHeader offset length) offset.toInt.toNat
      (min (offset.toInt + length.toInt) n).toNat := by
  have hadd := toInt_add_of_lt hoff hlen.le hsum
  have hone : (1 : Int64).toInt = 1 := rfl
  have hlast : (offset + length - 1).toInt = offset.toInt + length.toInt - 1 := by
    rw [Int64.toInt_sub, hadd, hone]
    exact Int.bmod_eq_of_le_mul_two (by omega) (by omega)
  have hpos : ¬ length < 0 := by
    rw [Int64.lt_iff_toInt_lt]
    exact not_lt.mpr hlen.le
  have hne : length ≠ 0 := by
    rintro rfl
    exact absurd hlen (by decide)
  have hheader : S3.rangeHeader offset length = "bytes=" ++ offset.toInt.toNat.repr ++ "-" ++
      (offset.toInt + length.toInt - 1).toNat.repr := by
    rw [S3.rangeHeader, if_neg fun h => hpos h.2, if_neg hpos, if_neg hne, itoa_of_nonneg hoff,
      itoa_of_nonneg (by omega), hlast]
  have hend : (min (offset.toInt + length.toInt) n).toNat =
      min ((offset.toInt + length.toInt - 1).toNat + 1) n := by omega
  rw [hheader, hend]
  exact .span (by omega) (by omega)

/-- **A page is exact if and only if its end is a machine integer**, or it begins behind the
listing. -/
theorem pageOfListing_exact_iff {token : String} {start pageSize : Int64} {l : List ListObject}
    (htoken : decodePosition token = .ok start) (hl : l.length < 2 ^ 63)
    (hsize : 0 < pageSize.toInt) :
    (∃ next, pageOfListing none token pageSize none (.ok l) =
      .ok ((l.take (min (start.toInt + pageSize.toInt) l.length).toNat).drop start.toInt.toNat,
        next)) ↔
      (start.toInt < l.length → start.toInt + pageSize.toInt < 2 ^ 63) := by
  obtain ⟨hne, hstart⟩ := decodePosition_ok htoken
  have hmark : Marks token start.toInt.toNat := by
    refine ⟨hne, htoken.trans (congrArg _ (Int64.toInt_inj.mp ?_))⟩
    rw [toInt_ofNat (by have := start.toInt_lt; omega), Int.toNat_of_nonneg hstart]
  have hlt := start.toInt_lt
  constructor
  · rintro ⟨next, hpage⟩ hin
    by_contra hover
    have hsum := toInt_add_of_ge (not_lt.mp hover)
    have htotal := toInt_ofNat hl
    have hpos : ¬ pageSize ≤ 0 := by
      rw [Int64.le_iff_toInt_le]
      exact not_le.mpr hsize
    have hbehind : ¬ start ≥ Int64.ofNat l.length := by
      rw [ge_iff_le, Int64.le_iff_toInt_le, htotal]
      exact not_le.mpr hin
    have hnone : slice l start (min (start + pageSize) (Int64.ofNat l.length)) = none := by
      refine if_neg fun h => absurd (Int64.le_iff_toInt_le.mp h.2.1) ?_
      rw [toInt_min, htotal]
      omega
    simp only [pageOfListing, hne, if_false, htoken, hpos, hbehind, hnone] at hpage
    cases hpage
  · intro hfits
    refine ⟨tokenAt l.length (start.toInt.toNat + pageSize.toInt.toNat),
      (pageOfListing_eq hmark (by omega) hl hsize (by omega)).trans ?_⟩
    refine congrArg Outcome.ok (Prod.ext ?_ rfl)
    rw [List.drop_take, List.take_eq_take_iff, List.length_drop]
    omega

/-- **When the windows are exact.**  For an object with the bytes of `obj` in both drivers, every
offset and length, every page token and page size: all four computations of a window give what the
mathematical sums give if and only if the length is negative or added to the offset, clamped to the
object, a machine integer, and the page begins behind both listings or ends at a machine integer. -/
theorem windows_exact_iff {b : MemDriver.Bucket} {key : String} {st : MemDriver.State}
    {obj : MemDriver.Object} (hobj : st.get (b.objectKey key) = some obj)
    {json : FileDriver.Codec} {fb : FileDriver.Bucket} {rel : List String} {fs : FileDriver.FS}
    {f : FileDriver.File} {attrs : ObjectAttrs} (hrel : fb.paths key = .ok rel)
    (hattrs : (FileDriver.readAttributes json rel).exec FileDriver.disk fs = (.ok attrs, fs))
    (hfile : fs.file (.data rel) = some f) (hfs : attrs.size = f.content.size)
    (hsame : f.content = obj.data) (hn : obj.data.size < 2 ^ 63) (hoff : 0 ≤ offset.toInt)
    {pref delimiter : String} {walk : List FileDriver.WalkEntry} {md5 : String → ByteArray}
    {files : List ListObject} (hfiles : fb.listObjects { pref, delimiter } (.ok walk) md5 = .ok files)
    (hmem : (b.listObjectsLocked { pref, delimiter } st).length < 2 ^ 63)
    (hlen : files.length < 2 ^ 63) {token : String} {start pageSize : Int64}
    (htoken : decodePosition token = .ok start) (hsize : 0 < pageSize.toInt) (length : Int64) :
    let slice := fun l : List ListObject =>
      (l.take (min (start.toInt + pageSize.toInt) l.length).toNat).drop start.toInt.toNat
    (b.newRangeReader none none key offset length st =
        .ok (window obj.data offset.toInt length.toInt, obj.attrs) ∧
      (FileDriver.newRangeReader json fb none none key offset length).exec FileDriver.disk fs =
        (.ok (window obj.data offset.toInt length.toInt, attrs), fs) ∧
      (offset.toInt < obj.data.size → 0 < length.toInt →
        S3.Denotes obj.data.size (S3.rangeHeader offset length) offset.toInt.toNat
          (min (offset.toInt + length.toInt) obj.data.size).toNat) ∧
      (∃ next, b.listPage none token pageSize { pref, delimiter } st =
        .ok (slice (b.listObjectsLocked { pref, delimiter } st), next)) ∧
      ∃ next, fb.listPage none token pageSize { pref, delimiter } (.ok walk) md5 =
        .ok (slice files, next)) ↔
      (length.toInt < 0 ∨ min offset.toInt obj.data.size + length.toInt < 2 ^ 63) ∧
        (start.toInt < (b.listObjectsLocked { pref, delimiter } st).length ∨
          start.toInt < files.length → start.toInt + pageSize.toInt < 2 ^ 63) := by
  intro slice
  have hread := newRangeReader_mem_iff hobj hn hoff length
  have hpage := pageOfListing_exact_iff htoken hmem hsize
  have hpage' := pageOfListing_exact_iff htoken hlen hsize
  have hfpage : fb.listPage none token pageSize { pref, delimiter } (.ok walk) md5 =
      pageOfListing none token pageSize none (.ok files) := by
    rw [FileDriver.Bucket.listPage, hfiles]
  rw [hfpage]
  constructor
  · rintro ⟨h1, -, -, h4, h5⟩
    refine ⟨hread.mp h1, fun hin => ?_⟩
    rcases hin with hin | hin
    · exact hpage.mp h4 hin
    · exact hpage'.mp h5 hin
  · rintro ⟨hsum, hfit⟩
    refine ⟨hread.mpr hsum, ?_, fun hin hpos => ?_, hpage.mpr fun hin => hfit (.inl hin),
      hpage'.mpr fun hin => hfit (.inr hin)⟩
    · rw [← hsame]
      exact newRangeReader_file hrel hattrs hfile hfs (hsame ▸ hn) hoff
    · exact denotes_rangeHeader hoff hin hpos (by omega)

/-- An object of two bytes, in both drivers. -/
def twoBytes : MemDriver.State :=
  ({} : MemDriver.State).commit "k" fun _ => ⟨⟨#[7, 8]⟩, { size := 2 }⟩

def twoBytesFile : FileDriver.FS :=
  ({} : FileDriver.FS).set (.data ["k"]) (some ⟨⟨#[7, 8]⟩, 0⟩)

/-- The greatest length, as a way to say "the rest", makes the mem driver panic behind the first
byte. -/
theorem newRangeReader_panics :
    (MemDriver.Bucket.mk "").newRangeReader none none "k" 1 Int64.maxValue twoBytes = .panicked := by
  decide +kernel

/-- A read of the second byte, and the first page of the listing. -/
theorem windows_exact_second_byte :
    (MemDriver.Bucket.mk "").newRangeReader none none "k" 1 1 twoBytes =
        .ok (⟨#[8]⟩, { size := 2 }) ∧
      ((FileDriver.newRangeReader FileDriver.Codec.unary ⟨""⟩ none none "k" 1 1).exec
        FileDriver.disk twoBytesFile).1 = .ok (⟨#[8]⟩, { size := 2, version := "0-2" }) ∧
      S3.Denotes 2 (S3.rangeHeader 1 1) 1 2 := by
  have hobj : twoBytes.get ((MemDriver.Bucket.mk "").objectKey "k") =
      some ⟨⟨#[7, 8]⟩, { size := 2 }⟩ := by decide +kernel
  have hrel : (FileDriver.Bucket.mk "").paths "k" = .ok ["k"] := by decide +kernel
  have hattrs : (FileDriver.readAttributes FileDriver.Codec.unary ["k"]).exec FileDriver.disk
      twoBytesFile = (.ok { size := 2, version := "0-2" }, twoBytesFile) := rfl
  have hfile : twoBytesFile.file (.data ["k"]) = some ⟨⟨#[7, 8]⟩, 0⟩ := rfl
  have hfiles : ((FileDriver.Bucket.mk "").listObjects ⟨"", "", none⟩ (.ok [⟨"k", 0, 2⟩])
      fun _ => .empty) = .ok [{ key := "k", size := 2 }] := by decide +kernel
  have hlist : (MemDriver.Bucket.mk "").listObjectsLocked ⟨"", "", none⟩ twoBytes =
      [{ key := "k", size := 2 }] := by decide +kernel
  have htoken : decodePosition firstPageToken = .ok 0 := rfl
  have hone : (1 : Int64).toInt = 1 := rfl
  have hoff : 0 ≤ (1 : Int64).toInt := by decide
  have hsize : 0 < (1 : Int64).toInt := by decide
  have hexact := (windows_exact_iff hobj hrel hattrs hfile rfl rfl (by decide) hoff hfiles
    (by rw [hlist]; decide) (by decide) htoken hsize 1).mpr ⟨.inr (by decide), fun _ => by decide⟩
  have hwindow : window ⟨#[7, 8]⟩ 1 1 = ⟨#[8]⟩ := by decide +kernel
  rw [hone, hwindow] at hexact
  exact ⟨hexact.1, congrArg Prod.fst hexact.2.1, hexact.2.2.1 (by decide) (by decide)⟩

end Exact

end Blobster
