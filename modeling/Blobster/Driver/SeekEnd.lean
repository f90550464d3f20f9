import Blobster.Driver.Ranges
import Blobster.Driver.SeekReader

/-!
# Seeking within a range on s3 and azureblob

The readers of `Blobster.Driver.SeekReader` against a service that rejects a ranged request exactly when
its first byte is at or past the end of the object.  A `Seek` is such a request, unless the range is
bounded and nothing is left of it: then the reader has the empty body at hand.

An unbounded range has the same end as the object, but the reader does not look for that case: a `Seek`
to it asks for the bytes from the end on, and the request is rejected, **`seek_end_rejected`**.
**`seek_in_range_iff`** says that this is the only position in a range that cannot be reached.

* `ByteRange`, `byteRange` — the range of a request; `rangeHeader_eq`, `azureRange_eq` — it is what both
  drivers ask for.
* `Honours` — what is assumed of the service; `rangedGet` is one.
* `Handled` — the readers that a caller can have; `Sized` — what they all know.
* `drain` — reading to the end.
* `SeeksTo` — what a `Seek` is meant to do; `SliceReader` — the readers of the mem and file drivers, which
  do it everywhere.
-/

namespace Blobster

/-! ## Ranged requests -/

/-- The range of a request: none, or the first byte and the last one if there is one. -/
abbrev ByteRange := Option (Int64 × Option Int64)

/-- The range that the drivers ask for. -/
def byteRange (offset length : Int64) : ByteRange :=
  if offset ≤ 0 ∧ length < 0 then none
  else if length < 0 then some (offset, none)
  else if length = 0 then some (offset, some offset)
  else some (offset, some (offset + length - 1))

/-- The header of a range. -/
def headerOf : ByteRange → String
  | none => ""
  | some (first, none) => "bytes=" ++ itoa first ++ "-"
  | some (first, some last) => "bytes=" ++ itoa first ++ "-" ++ itoa last

lemma rangeHeader_eq (offset length : Int64) :
    S3.rangeHeader offset length = headerOf (byteRange offset length) := by
  unfold S3.rangeHeader byteRange
  split_ifs <;> rfl

namespace Azure

/-- `blob.HTTPRange`. -/
structure HTTPRange where
  offset : Int64 := 0
  count : Int64 := 0

/-- `azureRange`. -/
def azureRange (offset length : Int64) : HTTPRange :=
  if offset ≤ 0 ∧ length < 0 then {}
  else if length < 0 then { offset := offset }
  else if length = 0 then { offset := offset, count := 1 }
  else { offset := offset, count := length }

/-- The range that the SDK makes of it: none for the zero value, and no last byte for a zero count. -/
def HTTPRange.range (r : HTTPRange) : ByteRange :=
  if r.offset = 0 ∧ r.count = 0 then none
  else if r.count > 0 then some (r.offset, some (r.offset + r.count - 1))
  else some (r.offset, none)

lemma azureRange_eq (offset length : Int64) :
    (azureRange offset length).range = byteRange offset length := by
  have hzero : (0 : Int64).toInt = 0 := rfl
  unfold azureRange byteRange
  split_ifs with hwhole hneg hnone
  · rfl
  · have hoff : offset ≠ 0 := fun h => hwhole ⟨h ▸ Int64.le_refl _, hneg⟩
    simp [HTTPRange.range, hoff]
  · have hone : (1 : Int64) ≠ 0 ∧ (1 : Int64) > 0 := by decide
    simp [HTTPRange.range, hone]
  · have hlength : length > 0 := by
      rw [gt_iff_lt, Int64.lt_iff_toInt_lt]
      rw [Int64.lt_iff_toInt_lt] at hneg
      rw [← Int64.toInt_inj] at hnone
      omega
    simp [HTTPRange.range, hnone, hlength]

end Azure

/-- The opener of a driver over a service. -/
def openRange (get : ByteRange → Except Err (List UInt8 × ObjectAttrs)) : OpenFunc :=
  fun offset length => get (byteRange offset length)

/-- What is assumed of the service: it rejects a ranged request exactly when the first byte is at or past
the end of the object; otherwise it reports the size, and streams the bytes asked for if the range is
one. -/
structure Honours (B : List UInt8) (get : ByteRange → Except Err (List UInt8 × ObjectAttrs)) :
    Prop where
  rejects : ∀ first last, (∃ e, get (some (first, last)) = .error e) ↔ (B.length : ℤ) ≤ first.toInt
  whole : ∃ attrs, get none = .ok (B, attrs)
  size : ∀ rng body attrs, get rng = .ok (body, attrs) → attrs.size = B.length
  tail : ∀ first body attrs, 0 ≤ first.toInt → get (some (first, none)) = .ok (body, attrs) →
    body = B.drop first.toInt.toNat
  span : ∀ first last body attrs, 0 ≤ first.toInt → first ≤ last →
    get (some (first, some last)) = .ok (body, attrs) →
      body = (B.drop first.toInt.toNat).take (last.toInt + 1 - first.toInt).toNat

/-- A service that answers a range that is none with the whole object. -/
def rangedGet (B : List UInt8) (rng : ByteRange) : Except Err (List UInt8 × ObjectAttrs) :=
  match rng with
  | none => .ok (B, { size := B.length })
  | some (first, last) =>
      if (B.length : ℤ) ≤ first.toInt then .error .backend
      else .ok (match last with
        | none => B.drop first.toInt.toNat
        | some last =>
            if first ≤ last then
              (B.drop first.toInt.toNat).take (last.toInt + 1 - first.toInt).toNat
            else B, { size := B.length })

lemma honours_rangedGet (B : List UInt8) : Honours B (rangedGet B) := by
  refine ⟨fun first last => ?_, ⟨_, rfl⟩, fun rng body attrs h => ?_, fun first body attrs _ h => ?_,
    fun first last body attrs _ hle h => ?_⟩
  · simp only [rangedGet]
    split_ifs with hbeyond <;> simp [hbeyond]
  · rcases rng with - | ⟨first, last⟩
    · cases h
      rfl
    · simp only [rangedGet] at h
      split_ifs at h with hbeyond
      obtain ⟨-, rfl⟩ := Prod.mk.inj (Except.ok.inj h)
      rfl
  · simp only [rangedGet] at h
    split_ifs at h with hbeyond
    exact (Prod.mk.inj (Except.ok.inj h)).1.symm
  · simp only [rangedGet, hle, if_true] at h
    split_ifs at h with hbeyond
    exact (Prod.mk.inj (Except.ok.inj h)).1.symm

/-! ## Readers and their use -/

/-- What a reader knows once it was opened, whatever became of its body. -/
structure Sized (B : List UInt8) (start length : Int64) (r : RangeReader) : Prop where
  sameStart : r.start = start
  sameLength : r.length = length
  size : ∃ attrs, r.attrs = some attrs ∧ attrs.size = B.length

/-- The readers that a caller can have: opened, and then read, closed, or sought with or without success.
A `Seek` that fails leaves the reader with a closed body, which is replaced by the next one. -/
inductive Handled (service : CloudService) (openAt : OpenFunc) (start length : Int64) :
    RangeReader → Prop where
  | opened {r : RangeReader} (h : newRangeReader openAt start length = .ok r) :
      Handled service openAt start length r
  | read {r : RangeReader} (h : Handled service openAt start length r) (len chunk : ℕ)
      (early : Bool) : Handled service openAt start length (r.read service len chunk early).2
  | close {r : RangeReader} (h : Handled service openAt start length r) :
      Handled service openAt start length { r with closed := true }
  | sought {r r' : RangeReader} {closeErr : Option Err} {offset whence target : Int64}
      (h : Handled service openAt start length r)
      (hs : r.seek openAt closeErr offset whence = .ok (target, r')) :
      Handled service openAt start length r'
  | failed {r : RangeReader} (h : Handled service openAt start length r) (body : List UInt8) :
      Handled service openAt start length { r with reader := body }

section Use

variable {B : List UInt8} {get : ByteRange → Except Err (List UInt8 × ObjectAttrs)}
  {service : CloudService} {start length : Int64} {r : RangeReader}

/-- A reader that `reopen` returns knows the size. -/
lemma sized_of_reopen {closeErr : Option Err} {pos : Int64} {r' : RangeReader}
    (hget : Honours B get)
    (hattrs : r.attrs = none ∨ ∃ attrs, r.attrs = some attrs ∧ attrs.size = B.length)
    (h : r.reopen (openRange get) closeErr pos = .ok r') : Sized B r.start r.length r' := by
  cases closeErr with
  | some e => cases h
  | none =>
      dsimp only [RangeReader.reopen] at h
      split at h
      · rename_i hempty
        obtain rfl := Except.ok.inj h
        exact ⟨rfl, rfl, hattrs.resolve_left fun hnone => by simp [hnone] at hempty⟩
      · split at h
        · cases h
        · rename_i body attrs hopen
          obtain rfl := Except.ok.inj h
          exact ⟨rfl, rfl, attrs, rfl, hget.size _ _ _ hopen⟩

lemma Handled.sized (hget : Honours B get)
    (h : Handled service (openRange get) start length r) : Sized B start length r := by
  induction h with
  | opened h => exact sized_of_reopen hget (.inl rfl) h
  | read h len chunk early ih =>
      simp only [RangeReader.read]
      split_ifs
      · exact ih
      · exact ih
      all_goals exact ⟨ih.sameStart, ih.sameLength, ih.size⟩
  | close h ih => exact ⟨ih.sameStart, ih.sameLength, ih.size⟩
  | failed h body ih => exact ⟨ih.sameStart, ih.sameLength, ih.size⟩
  | sought h hs ih =>
      rw [RangeReader.seek] at hs
      split at hs
      · cases hs
      · split_ifs at hs
        split at hs
        · cases hs
        · rename_i hreopen
          obtain ⟨-, rfl⟩ := Prod.mk.inj (Except.ok.inj hs)
          have hsized := sized_of_reopen hget (.inr ih.size) hreopen
          rwa [ih.sameStart, ih.sameLength] at hsized

end Use

/-! ## Reading to the end -/

/-- Reads until one reports an error: how long each buffer is, how much the body gives, and whether it
reports its end with the last bytes. -/
def drain (service : CloudService) :
    List (ℕ × ℕ × Bool) → RangeReader → List UInt8 × Option ReadErr
  | [], _ => ([], none)
  | (len, chunk, early) :: reads, r =>
      match r.read service len chunk early with
      | ((bytes, some err), _) => (bytes, some err)
      | ((bytes, none), r') =>
          let (rest, err) := drain service reads r'
          (bytes ++ rest, err)

/-- The bytes of the range from a position on. -/
def restOfRange (B : List UInt8) (start length : Int64) (p : ℕ) : List UInt8 :=
  (B.drop (start.toInt.toNat + p)).take (rangeLength B start length - p)

/-- At the end of the range there is nothing but the end. -/
lemma Reading.read_at_end {B : List UInt8} {start length : Int64} {p : ℕ} {r : RangeReader}
    (hB : B.length < 2 ^ 63) (hstart : 0 ≤ start.toInt) (h : Reading B start length p r)
    (hend : rangeLength B start length ≤ p) (service : CloudService) (len chunk : ℕ)
    (early : Bool) : r.read service len chunk early = (([], some .eof), r) := by
  have hleft := h.toInt_remaining hB hstart
  have hp := h.pos
  have hnonneg := h.nonneg
  have hzero : (0 : Int64).toInt = 0 := rfl
  have hnone : (rangeLength B start length : ℤ) - r.pos.toInt ≤ 0 := by omega
  simp only [RangeReader.read, h.opened, Bool.false_eq_true, if_false, Int64.le_iff_toInt_le, hleft,
    hzero, hnone, if_true]

/-- **A reader at a position gives the rest of the range**, in however many reads. -/
lemma Reading.drain {B : List UInt8} {start length : Int64} {p : ℕ} {r : RangeReader}
    (hB : B.length < 2 ^ 63) (hstart : 0 ≤ start.toInt) (h : Reading B start length p r)
    (service : CloudService) {reads : List (ℕ × ℕ × Bool)}
    (hpos : ∀ read ∈ reads, 0 < read.1 ∧ 0 < read.2.1)
    (hmany : rangeLength B start length - p < reads.length) :
    Blobster.drain service reads r = (restOfRange B start length p, some .eof) := by
  induction reads generalizing p r with
  | nil => exact absurd hmany (Nat.not_lt_zero _)
  | cons read reads ih =>
      obtain ⟨len, chunk, early⟩ := read
      obtain ⟨hlen, hchunk⟩ := hpos _ List.mem_cons_self
      by_cases hend : rangeLength B start length ≤ p
      · rw [Blobster.drain, h.read_at_end hB hstart hend, restOfRange, Nat.sub_eq_zero_of_le hend,
          List.take_zero]
      · obtain ⟨hbytes, hcount, heof, herr, hnext⟩ := h.read hB hstart service len chunk early
        rw [Blobster.drain]
        revert hbytes hcount heof herr hnext
        rcases r.read service len chunk early with ⟨⟨bytes, err⟩, r'⟩
        intro hbytes hcount heof herr hnext
        dsimp only at hbytes hcount heof herr hnext ⊢ hlen hchunk
        rcases herr with rfl | rfl
        · -- The read gave at least one byte, so fewer are left than reads.
          rw [List.length_cons] at hmany
          have hrest := ih hnext (fun read hread => hpos read (List.mem_cons_of_mem _ hread))
            (by omega)
          simp only [hrest, restOfRange, Prod.mk.injEq, and_true]
          have hsplit : rangeLength B start length - p =
              bytes.length + (rangeLength B start length - (p + bytes.length)) := by omega
          rw [hsplit, List.take_add, List.drop_drop, ← Nat.add_assoc, ← hbytes]
        · have hall := heof rfl
          have hlast : rangeLength B start length - p = bytes.length := by omega
          rw [restOfRange, hlast, ← hbytes]

/-! ## What a `Seek` is meant to do -/

/-- The position that a `Seek` is for. -/
def RangeReader.target (r : RangeReader) (offset whence : Int64) : Option Int64 :=
  if whence = 0 then some offset
  else if whence = 1 then some (r.pos + offset)
  else if whence = 2 then some (r.rangeSize + offset)
  else none

/-- A `Seek` reaches the position `p`: it returns `p`, a `Seek` to where the reader then is returns `p`
again, and behind either of the two the reader gives the rest of the range. -/
def SeeksTo (B : List UInt8) (service : CloudService) (openAt : OpenFunc) (r : RangeReader)
    (offset whence p : Int64) : Prop :=
  ∃ r₁ r₂, r.seek openAt none offset whence = .ok (p, r₁) ∧ r₁.seek openAt none 0 1 = .ok (p, r₂) ∧
    ∀ r', r' = r₁ ∨ r' = r₂ → ∀ reads : List (ℕ × ℕ × Bool),
      (∀ read ∈ reads, 0 < read.1 ∧ 0 < read.2.1) →
      rangeLength B r.start r.length - p.toInt.toNat < reads.length →
      drain service reads r' = (restOfRange B r.start r.length p.toInt.toNat, some .eof)

section Seek

variable {B : List UInt8} {get : ByteRange → Except Err (List UInt8 × ObjectAttrs)}
  {start length p : Int64} {r : RangeReader}

/-- `Seek` to a position that is not negative is `reopen`. -/
lemma seek_eq {openAt : OpenFunc} {offset whence : Int64} (ht : r.target offset whence = some p)
    (hp : 0 ≤ p.toInt) :
    r.seek openAt none offset whence = (r.reopen openAt none p).map fun r' => (p, r') := by
  have hneg : ¬ p < 0 := by
    rw [Int64.lt_iff_toInt_lt]
    exact not_lt.mpr hp
  rw [RangeReader.target] at ht
  simp only [RangeReader.seek, ht, hneg, if_false]
  cases r.reopen openAt none p <;> rfl

/-- A request within the object succeeds, and streams what is asked for. -/
lemma openRange_ok (hget : Honours B get) (offset len : Int64) (hB : B.length < 2 ^ 63)
    (hoff : 0 ≤ offset.toInt) (hin : offset.toInt < B.length)
    (hlen : len.toInt < 0 ∨ 0 < len.toInt ∧ offset.toInt + len.toInt ≤ B.length) :
    ∃ body attrs, openRange get offset len = .ok (body, attrs) ∧ attrs.size = B.length ∧
      body <+: B.drop offset.toInt.toNat ∧ (len.toInt < 0 → body = B.drop offset.toInt.toNat) ∧
      min len.toInt (B.length - offset.toInt) ≤ body.length := by
  have hzero : (0 : Int64).toInt = 0 := rfl
  have hserved : ∀ last, ∃ body attrs, get (some (offset, last)) = .ok (body, attrs) := by
    intro last
    cases hans : get (some (offset, last)) with
    | error e =>
        have := (hget.rejects offset last).mp ⟨e, hans⟩
        omega
    | ok answer => exact ⟨answer.1, answer.2, rfl⟩
  rcases hlen with hneg | ⟨hpos, hfits⟩
  · have hlen : len < 0 := Int64.lt_iff_toInt_lt.mpr hneg
    by_cases hfirst : offset ≤ 0
    · -- From the first byte on there is no range in the request.
      obtain ⟨attrs, hwhole⟩ := hget.whole
      have hfrom : offset.toInt = 0 := by
        rw [Int64.le_iff_toInt_le] at hfirst
        omega
      refine ⟨B, attrs, ?_, hget.size _ _ _ hwhole, ?_, fun _ => ?_, by omega⟩
      · rw [openRange, byteRange, if_pos ⟨hfirst, hlen⟩, hwhole]
      all_goals simp [hfrom]
    · obtain ⟨body, attrs, hans⟩ := hserved none
      have hbody := hget.tail _ _ _ hoff hans
      refine ⟨body, attrs, ?_, hget.size _ _ _ hans, hbody ▸ List.prefix_rfl, fun _ => hbody, ?_⟩
      · rw [openRange, byteRange, if_neg fun h => hfirst h.1, if_pos hlen, hans]
      · rw [hbody, List.length_drop]
        omega
  · have hlen : ¬ len < 0 := by
      rw [Int64.lt_iff_toInt_lt]
      omega
    have hne : len ≠ 0 := by
      rintro rfl
      omega
    have hlast : (offset + len - 1).toInt = offset.toInt + len.toInt - 1 := by
      have hone : (1 : Int64).toInt = 1 := rfl
      rw [Int64.toInt_sub, toInt_add_of_lt hoff hpos.le (by omega), hone]
      exact Int.bmod_eq_of_le_mul_two (by omega) (by omega)
    obtain ⟨body, attrs, hans⟩ := hserved (some (offset + len - 1))
    have hbody := hget.span _ _ _ _ hoff (Int64.le_iff_toInt_le.mpr (by omega)) hans
    refine ⟨body, attrs, ?_, hget.size _ _ _ hans, ?_, fun h => by omega, ?_⟩
    · rw [openRange, byteRange, if_neg fun h => hlen h.2, if_neg hlen, if_neg hne, hans]
    · exact hbody ▸ List.take_prefix _ _
    · rw [hbody, List.length_take, List.length_drop, hlast]
      omega

/-- A reader that has opened the object at a position of the range. -/
lemma reopen_of_request {pos len : Int64} (hB : B.length < 2 ^ 63) (hget : Honours B get)
    (hstart : 0 ≤ start.toInt) (hsized : Sized B start length r) (hpos : 0 ≤ pos.toInt)
    (hrequest : r.request pos = (pos, len))
    (hin : pos.toInt < rangeLength B start length)
    (hlen : len.toInt < 0 ∨ len.toInt = rangeLength B start length - pos.toInt) :
    ∃ r', r.reopen (openRange get) none pos = .ok r' ∧ r'.pos = pos ∧
      Reading B start length pos.toInt.toNat r' := by
  obtain rfl := hsized.sameStart
  obtain rfl := hsized.sameLength
  have hle := rangeLength_le B r.start r.length
  have hsum : (r.start + pos).toInt = r.start.toInt + pos.toInt :=
    toInt_add_of_lt hstart hpos (by omega)
  have hnonzero : len ≠ 0 := by
    rintro rfl
    have hzero : (0 : Int64).toInt = 0 := rfl
    omega
  have hrest : len.toInt < 0 ∨
      (rangeLength B r.start r.length : ℤ) - pos.toInt ≤ len.toInt := by omega
  obtain ⟨body, attrs, hopen, hsize, hbody⟩ := openRange_ok hget (r.start + pos) len hB (by omega)
    (by omega) (by omega)
  have hread := reading_of_open hB hstart hpos hsize (fun _ => hbody) hrest
  have hmin : min pos.toInt.toNat (rangeLength B r.start r.length) = pos.toInt.toNat := by omega
  rw [hmin] at hread
  refine ⟨{ r with reader := body, attrs := some attrs, pos := pos, closed := false }, ?_, rfl, hread⟩
  simp only [RangeReader.reopen, hrequest, hnonzero, false_and, if_false, hopen]

/-- **Where `reopen` gets to within a range**, unless it is the end of one without bound. -/
lemma reopen_in_range (hB : B.length < 2 ^ 63) (hget : Honours B get) (hstart : 0 ≤ start.toInt)
    (hsized : Sized B start length r) (hp : 0 ≤ p.toInt)
    (hle : p.toInt ≤ rangeLength B start length)
    (hcond : 0 ≤ length.toInt ∨ p.toInt < rangeLength B start length) :
    ∃ r', r.reopen (openRange get) none p = .ok r' ∧ r'.pos = p ∧
      Reading B start length p.toInt.toNat r' := by
  have hzero : (0 : Int64).toInt = 0 := rfl
  obtain ⟨attrs, hattrs, hsize⟩ := hsized.size
  by_cases hbound : r.length ≥ 0
  · have hrange : r.rangeSize.toInt = rangeLength B start length := by
      rw [toInt_rangeSize hB (by rwa [hsized.sameStart]) hattrs hsize, hsized.sameStart,
        hsized.sameLength]
    have hcut : ¬ p > r.rangeSize := by
      rw [gt_iff_lt, Int64.lt_iff_toInt_lt, hrange]
      exact not_lt.mpr hle
    have hrequest : r.request p = (p, r.rangeSize - p) := by
      simp only [RangeReader.request, hattrs, Option.isSome_some, if_true, if_pos hbound, hcut,
        if_false]
    have hleft : (r.rangeSize - p).toInt = rangeLength B start length - p.toInt := by
      have hlt := r.rangeSize.toInt_lt
      rw [Int64.toInt_sub, hrange]
      exact Int.bmod_eq_of_le_mul_two (by omega) (by omega)
    by_cases hend : p.toInt = rangeLength B start length
    · -- Nothing is left, and the reader has the empty body at hand.
      have hempty : r.rangeSize - p = 0 := by
        rw [← Int64.toInt_inj]
        omega
      refine ⟨{ r with reader := [], pos := p, closed := false }, ?_, rfl, hsized.sameStart,
        hsized.sameLength, rfl, ⟨attrs, hattrs, hsize⟩, hp, ?_, fun hin => ?_⟩
      · simp only [RangeReader.reopen, hrequest, hempty, hattrs, Option.isSome_some, and_self, if_true]
      · dsimp only
        omega
      · dsimp only at hin
        omega
    · exact reopen_of_request hB hget hstart hsized hp hrequest (by omega) (.inr hleft)
  · have hrequest : r.request p = (p, -1) := by
      simp only [RangeReader.request, if_neg hbound]
    have hunbounded : length.toInt < 0 := by
      rw [hsized.sameLength, ge_iff_le, Int64.le_iff_toInt_le] at hbound
      omega
    exact reopen_of_request hB hget hstart hsized hp hrequest (by omega) (.inl (by decide))

/-- **The end of a range without bound is past the end of the object.** -/
lemma reopen_at_end (hB : B.length < 2 ^ 63) (hget : Honours B get)
    (hstart : 0 ≤ start.toInt) (hin : start.toInt < B.length) (hsized : Sized B start length r)
    (hunbounded : length.toInt < 0) (hend : p.toInt = rangeLength B start length) :
    ∃ e, r.reopen (openRange get) none p = .error e := by
  have hzero : (0 : Int64).toInt = 0 := rfl
  have hrange : (rangeLength B start length : ℤ) = B.length - start.toInt := by
    rw [rangeLength, if_pos hunbounded]
    omega
  have hsum : (r.start + p).toInt = B.length := by
    rw [hsized.sameStart, toInt_add_of_lt hstart (by omega) (by omega)]
    omega
  have hbound : ¬ r.length ≥ 0 := by
    rw [hsized.sameLength, ge_iff_le, Int64.le_iff_toInt_le]
    omega
  have hrange : byteRange (r.start + p) (-1) = some (r.start + p, none) := by
    have hfirst : ¬ r.start + p ≤ 0 := by
      rw [Int64.le_iff_toInt_le]
      omega
    rw [byteRange, if_neg fun h => hfirst h.1, if_pos (by decide)]
  obtain ⟨e, he⟩ := (hget.rejects (r.start + p) none).mpr hsum.ge
  refine ⟨e, ?_⟩
  have hminus : ¬ (-1 : Int64) = 0 := by decide
  simp only [RangeReader.reopen, RangeReader.request, if_neg hbound, hminus, false_and, if_false,
    openRange, hrange, he]

/-- **Which positions of a range a `Seek` reaches**: all of them, except the end of a range without
bound.  For every non-empty object, every service that honours ranges, every reader of a range that starts
in the object, however it was used since, and every position of the range by any whence. -/
theorem seek_in_range_iff {service : CloudService} (hB : B.length < 2 ^ 63) (hget : Honours B get)
    (hstart : 0 ≤ start.toInt) (hin : start.toInt < B.length)
    (hr : Handled service (openRange get) start length r) {offset whence : Int64}
    (ht : r.target offset whence = some p) (hp : 0 ≤ p.toInt)
    (hle : p.toInt ≤ rangeLength B start length) :
    SeeksTo B service (openRange get) r offset whence p ↔
      0 ≤ length.toInt ∨ p.toInt < rangeLength B start length := by
  have hsized := hr.sized hget
  constructor
  · rintro ⟨r₁, r₂, hseek, -⟩
    by_contra hcond
    rw [not_or, not_le, not_lt] at hcond
    obtain ⟨e, he⟩ := reopen_at_end hB hget hstart hin hsized hcond.1 (le_antisymm hle hcond.2)
    rw [seek_eq ht hp, he] at hseek
    cases hseek
  · intro hcond
    obtain ⟨r₁, hr₁, hpos₁, hread₁⟩ :=
      reopen_in_range hB hget hstart hsized hp hle hcond
    have hsized₁ : Sized B start length r₁ := ⟨hread₁.sameStart, hread₁.sameLength, hread₁.size⟩
    obtain ⟨r₂, hr₂, -, hread₂⟩ :=
      reopen_in_range hB hget hstart hsized₁ hp hle hcond
    have ht₁ : r₁.target 0 1 = some p := by
      rw [RangeReader.target, if_neg (by decide), if_pos rfl, hpos₁, Int64.add_zero]
    refine ⟨r₁, r₂, ?_, ?_, ?_⟩
    · rw [seek_eq ht hp, hr₁]
      rfl
    · rw [seek_eq ht₁ hp, hr₂]
      rfl
    · rw [hsized.sameStart, hsized.sameLength]
      rintro r' (rfl | rfl) reads hpos hmany
      · exact hread₁.drain hB hstart service hpos hmany
      · exact hread₂.drain hB hstart service hpos hmany

end Seek

/-- A reader of the whole object, just opened. -/
def wholeReader : RangeReader := ⟨0, -1, 0, [1, 2, 3, 4], some { size := 4 }, false⟩

/-- **A reader without bound cannot seek to its end**, from any whence: the request for the bytes from the
end on is rejected. -/
theorem seek_end_rejected :
    newRangeReader (openRange (rangedGet [1, 2, 3, 4])) 0 (-1) = .ok wholeReader ∧
      wholeReader.seek (openRange (rangedGet [1, 2, 3, 4])) none 0 2 = .error .backend ∧
      wholeReader.seek (openRange (rangedGet [1, 2, 3, 4])) none 4 0 = .error .backend ∧
      wholeReader.seek (openRange (rangedGet [1, 2, 3, 4])) none 4 1 = .error .backend :=
  ⟨rfl, rfl, rfl, rfl⟩

/-- A reader of nine bytes from the second one on, of which the object has three. -/
def boundedReader : RangeReader := ⟨1, 9, 0, [2, 3, 4], some { size := 4 }, false⟩

/-- The end of a bounded range, which is cut to the object. -/
theorem seek_in_range_bounded :
    newRangeReader (openRange (rangedGet [1, 2, 3, 4])) 1 9 = .ok boundedReader ∧
      SeeksTo [1, 2, 3, 4] .s3 (openRange (rangedGet [1, 2, 3, 4])) boundedReader 0 2 3 := by
  have hopened : newRangeReader (openRange (rangedGet [1, 2, 3, 4])) 1 9 = .ok boundedReader := rfl
  have hhandled : Handled .s3 (openRange (rangedGet [1, 2, 3, 4])) 1 9 boundedReader :=
    .opened hopened
  exact ⟨hopened, (seek_in_range_iff (by decide) (honours_rangedGet _) (by decide) (by decide)
    hhandled rfl (by decide) (by decide)).mpr (.inl (by decide))⟩

/-! ## The readers of the other drivers -/

/-- `bytes.Reader` of the mem driver and `io.SectionReader` of the file driver: the bytes of the range, and
a position in them. -/
structure SliceReader where
  bytes : List UInt8
  pos : ℕ := 0

namespace SliceReader

variable (r : SliceReader)

/-- `Seek`. -/
def seek (offset whence : ℤ) : Except Err (ℤ × SliceReader) :=
  let target : Option ℤ :=
    if whence = 0 then some offset
    else if whence = 1 then some (r.pos + offset)
    else if whence = 2 then some (r.bytes.length + offset)
    else none
  match target with
  | none => .error .invalidOption
  | some target =>
      if target < 0 then .error .invalidOption
      else .ok (target, { r with pos := target.toNat })

/-- What is left to read. -/
def rest : List UInt8 := r.bytes.drop r.pos

/-- These readers reach every position of their range. -/
theorem seek_in_range (p : ℕ) (offset whence : ℤ)
    (ht : whence = 0 ∧ offset = p ∨ whence = 1 ∧ r.pos + offset = p ∨
      whence = 2 ∧ r.bytes.length + offset = p) :
    ∃ r', r.seek offset whence = .ok ((p : ℤ), r') ∧ r'.seek 0 1 = .ok ((p : ℤ), r') ∧
      r'.rest = r.bytes.drop p := by
  refine ⟨{ r with pos := p }, ?_, ?_, rfl⟩
  · rcases ht with ⟨rfl, rfl⟩ | ⟨rfl, ht⟩ | ⟨rfl, ht⟩
    · simp [seek]
    · simp [seek, ht]
    · simp [seek, ht]
  · simp [seek]

end SliceReader

end Blobster
