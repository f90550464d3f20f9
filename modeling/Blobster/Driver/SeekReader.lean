import Blobster.Driver.Paging

/-!
# The readers of the s3 and azureblob drivers

A reader of a range of an object whose `Seek` closes the body it reads from and opens another one at
the new position.  The two drivers have the same code; only the text of one error differs.

The size of the range is known from the first response on.  A response may be longer than what was
asked for (and is, for an empty range, which no service has), so `Read` clamps to what is left of the
range.

* `RangeReader` with `rangeSize`, `reopen`, `seek`, `read` — the reader; a body is what it has still to
  give.  How much of the body a `Read` gets is up to the service.
* `Serves` — what is assumed of a backend: whenever it opens an object, it streams its bytes from the
  offset on, at least as many as were asked for.
* `Uses` — a sequence of reads and successful seeks; `position` — the position that it leads to.
* `Reading` — the invariant: inside the range, the body goes on where the position is.
* **`read_right_bytes`** — after any such sequence, a `Read` returns the next bytes of the object.
-/

namespace Blobster

/-! ## The reader -/

/-- The driver that a reader belongs to. -/
inductive CloudService where
  | s3 | azureblob
deriving DecidableEq

/-- The errors of `Read`. -/
inductive ReadErr where
  | eof
  | text (s : String)
deriving DecidableEq

/-- The error of a `Read` after `Close`. -/
def CloudService.readAfterClose : CloudService → ReadErr
  | .s3 => .text "blobster s3: read after close"
  | .azureblob => .text "blobster azure: read after close"

/-- How a backend answers `open(offset, length)`: with the bytes that the body will give, and the
attributes of the object. -/
abbrev OpenFunc := Int64 → Int64 → Except Err (List UInt8 × ObjectAttrs)

/-- `s3Reader` and `azureReader`. -/
structure RangeReader where
  start : Int64
  length : Int64
  pos : Int64 := 0
  reader : List UInt8 := []
  attrs : Option ObjectAttrs := none
  closed : Bool := false

namespace RangeReader

variable (r : RangeReader)

/-- `rangeSize`. -/
def rangeSize : Int64 :=
  match r.attrs with
  | none => r.length
  | some attrs =>
      let size := Int64.ofNat attrs.size - r.start
      let size := if size < 0 then 0 else size
      if r.length ≥ 0 ∧ r.length < size then r.length else size

/-- The position and the length that `reopen` asks for: a bounded range is cut to its size, as far as
that is known. -/
def request (pos : Int64) : Int64 × Int64 :=
  let size := if r.attrs.isSome then r.rangeSize else r.length
  if r.length ≥ 0 then
    let pos := if pos > size then size else pos
    (pos, size - pos)
  else (pos, -1)

/-- `reopen`, with the error of closing the body it reads from, if there is one. -/
def reopen (openAt : OpenFunc) (closeErr : Option Err) (pos : Int64) : Except Err RangeReader :=
  match closeErr with
  | some e => .error e
  | none =>
      let (pos, length) := r.request pos
      if length = 0 ∧ r.attrs.isSome then
        .ok { r with reader := [], pos := pos, closed := false }
      else match openAt (r.start + pos) length with
        | .error e => .error e
        | .ok (body, attrs) =>
            .ok { r with reader := body, attrs := some attrs, pos := pos, closed := false }

/-- `Seek`: the position it returns, and the reader then. -/
def seek (openAt : OpenFunc) (closeErr : Option Err) (offset whence : Int64) :
    Except Err (Int64 × RangeReader) :=
  let target : Option Int64 :=
    if whence = 0 then some offset
    else if whence = 1 then some (r.pos + offset)
    else if whence = 2 then some (r.rangeSize + offset)
    else none
  match target with
  | none => .error .invalidOption
  | some target =>
      if target < 0 then .error .invalidOption
      else match r.reopen openAt closeErr target with
        | .error e => .error e
        | .ok r' => .ok (target, r')

/-- `Read` into a buffer of `len` bytes.  The body gives at most `chunk` bytes, and reports its end
with the last of them or behind it. -/
def read (service : CloudService) (len chunk : ℕ) (early : Bool) :
    (List UInt8 × Option ReadErr) × RangeReader :=
  if r.closed then (([], some service.readAfterClose), r)
  else
    let remaining := r.rangeSize - r.pos
    if remaining ≤ 0 then (([], some .eof), r)
    else
      let room := if (len : ℤ) > remaining.toInt then remaining.toInt.toNat else len
      let bytes := r.reader.take (min chunk room)
      let rest := r.reader.drop (min chunk room)
      let err := if rest = [] ∧ (bytes = [] ∨ early) then some .eof else none
      ((bytes, err), { r with pos := r.pos + .ofNat bytes.length, reader := rest })

end RangeReader

/-- `NewRangeReader`, behind the hook. -/
def newRangeReader (openAt : OpenFunc) (offset length : Int64) : Except Err RangeReader :=
  RangeReader.reopen { start := offset, length := length } openAt none 0

/-! ## What a sequence of calls is meant to read -/

/-- Whenever it opens the object, the backend reports its size and streams its bytes from the offset
on, at least as many as were asked for. -/
def Serves (B : List UInt8) (openAt : OpenFunc) : Prop :=
  ∀ offset length body attrs, openAt offset length = .ok (body, attrs) →
    attrs.size = B.length ∧ (0 ≤ offset.toInt →
      body <+: B.drop offset.toInt.toNat ∧
        (length.toInt < 0 → body = B.drop offset.toInt.toNat) ∧
        min length.toInt (B.length - offset.toInt) ≤ body.length)

/-- The number of bytes in the range. -/
def rangeLength (B : List UInt8) (start length : Int64) : ℕ :=
  if length.toInt < 0 then B.length - start.toInt.toNat
  else min length.toInt.toNat (B.length - start.toInt.toNat)

/-- What a caller sees of one call. -/
inductive ReaderEvent where
  | read (bytes : List UInt8)
  | seek (target : Int64)

/-- The position that the calls lead to: the last one that `Seek` returned, capped at the end of the
range, and the bytes read since. -/
def position (size : ℕ) : List ReaderEvent → ℕ
  | [] => 0
  | .read bytes :: es => position size es + bytes.length
  | .seek target :: _ => min target.toInt.toNat size

/-- Reads and successful seeks, the last one first. -/
inductive Uses (B : List UInt8) (service : CloudService) (r₀ : RangeReader) :
    List ReaderEvent → RangeReader → Prop where
  | start : Uses B service r₀ [] r₀
  | read {es : List ReaderEvent} {r : RangeReader} (h : Uses B service r₀ es r) (len chunk : ℕ)
      (early : Bool) :
      Uses B service r₀ (.read (r.read service len chunk early).1.1 :: es)
        (r.read service len chunk early).2
  | seek {es : List ReaderEvent} {r r' : RangeReader} {openAt : OpenFunc} {closeErr : Option Err}
      {offset whence target : Int64} (h : Uses B service r₀ es r) (ho : Serves B openAt)
      (hs : r.seek openAt closeErr offset whence = .ok (target, r')) :
      Uses B service r₀ (.seek target :: es) r'

/-! ## The invariant -/

/-- The reader of a range is at a position: inside the range, its body goes on there, up to the end of
the range at least. -/
structure Reading (B : List UInt8) (start length : Int64) (p : ℕ) (r : RangeReader) : Prop where
  sameStart : r.start = start
  sameLength : r.length = length
  opened : r.closed = false
  size : ∃ attrs, r.attrs = some attrs ∧ attrs.size = B.length
  nonneg : 0 ≤ r.pos.toInt
  pos : p = min r.pos.toInt.toNat (rangeLength B start length)
  body : r.pos.toInt.toNat < rangeLength B start length →
    r.reader <+: B.drop (start.toInt.toNat + r.pos.toInt.toNat) ∧
      rangeLength B start length - r.pos.toInt.toNat ≤ r.reader.length

section Invariant

variable {B : List UInt8} {start length : Int64} {p : ℕ} {r : RangeReader}

/-- The size of the range, computed. -/
lemma toInt_rangeSize (hB : B.length < 2 ^ 63) (hstart : 0 ≤ r.start.toInt) {attrs : ObjectAttrs}
    (ha : r.attrs = some attrs) (hsize : attrs.size = B.length) :
    r.rangeSize.toInt = rangeLength B r.start r.length := by
  have hsub : (Int64.ofNat attrs.size - r.start).toInt = B.length - r.start.toInt := by
    have hlt := r.start.toInt_lt
    rw [Int64.toInt_sub, hsize, toInt_ofNat hB]
    exact Int.bmod_eq_of_le_mul_two (by omega) (by omega)
  have hzero : (0 : Int64).toInt = 0 := rfl
  simp only [RangeReader.rangeSize, ha, rangeLength, ge_iff_le, Int64.le_iff_toInt_le,
    Int64.lt_iff_toInt_lt, hsub, hzero]
  split_ifs <;> omega

lemma rangeLength_le (B : List UInt8) (start length : Int64) :
    rangeLength B start length ≤ B.length - start.toInt.toNat := by
  unfold rangeLength
  split_ifs <;> omega

/-- A reader that was just opened at `pos`, with at least what is left of the range asked for. -/
lemma reading_of_open {pos len : Int64} {body : List UInt8} {attrs : ObjectAttrs}
    (hB : B.length < 2 ^ 63) (hstart : 0 ≤ r.start.toInt) (hpos : 0 ≤ pos.toInt)
    (hsize : attrs.size = B.length) (hbody : 0 ≤ (r.start + pos).toInt →
      body <+: B.drop (r.start + pos).toInt.toNat ∧
        (len.toInt < 0 → body = B.drop (r.start + pos).toInt.toNat) ∧
        min len.toInt (B.length - (r.start + pos).toInt) ≤ body.length)
    (hlen : len.toInt < 0 ∨
      (rangeLength B r.start r.length : ℤ) - pos.toInt ≤ len.toInt) :
    Reading B r.start r.length (min pos.toInt.toNat (rangeLength B r.start r.length))
      { r with reader := body, attrs := some attrs, pos := pos, closed := false } := by
  refine ⟨rfl, rfl, rfl, ⟨attrs, rfl, hsize⟩, hpos, rfl, fun hin => ?_⟩
  -- inside the range the sum is at most the size of the object
  have hle := rangeLength_le B r.start r.length
  dsimp only at hin ⊢
  have hsum : (r.start + pos).toInt = r.start.toInt + pos.toInt :=
    toInt_add_of_lt hstart hpos (by omega)
  rw [hsum] at hbody
  obtain ⟨hpre, hall, hmin⟩ := hbody (by omega)
  rw [Int.toNat_add hstart hpos] at hpre hall
  refine ⟨hpre, ?_⟩
  rcases hlen with hneg | hlen
  · rw [hall hneg, List.length_drop]
    omega
  · omega

/-- The reader knows the size of the object, or was never opened and asks for its start. -/
def Known (B : List UInt8) (r : RangeReader) (pos : Int64) : Prop :=
  (∃ attrs, r.attrs = some attrs ∧ attrs.size = B.length) ∨ r.attrs = none ∧ pos = 0

/-- What `reopen` asks for: the position, cut to the range, and at least what is left of the range. -/
lemma request_spec {pos : Int64} (hB : B.length < 2 ^ 63) (hstart : 0 ≤ r.start.toInt)
    (hpos : 0 ≤ pos.toInt) (hknown : Known B r pos) :
    0 ≤ (r.request pos).1.toInt ∧
      min (r.request pos).1.toInt.toNat (rangeLength B r.start r.length) =
        min pos.toInt.toNat (rangeLength B r.start r.length) ∧
      ((r.request pos).2.toInt < 0 ∨ (rangeLength B r.start r.length : ℤ) -
        (r.request pos).1.toInt ≤ (r.request pos).2.toInt) := by
  have hzero : (0 : Int64).toInt = 0 := rfl
  by_cases hbound : r.length ≥ 0
  · have hlength : 0 ≤ r.length.toInt := Int64.le_iff_toInt_le.mp hbound
    -- the size is that of the range, or what was asked for where nothing is known yet
    obtain ⟨size, hsize, hcut⟩ : ∃ size : Int64,
        (if r.attrs.isSome then r.rangeSize else r.length) = size ∧
          (size.toInt = rangeLength B r.start r.length ∨ pos = 0 ∧ size = r.length) := by
      refine ⟨_, rfl, ?_⟩
      rcases hknown with ⟨attrs, ha, hs⟩ | ⟨hnone, rfl⟩
      · rw [ha, Option.isSome_some, if_pos rfl]
        exact .inl (toInt_rangeSize hB hstart ha hs)
      · rw [hnone]
        exact .inr ⟨rfl, rfl⟩
    have hrange : size.toInt = rangeLength B r.start r.length ∨
        pos.toInt = 0 ∧ (rangeLength B r.start r.length : ℤ) ≤ size.toInt := by
      refine hcut.imp id ?_
      rintro ⟨rfl, rfl⟩
      refine ⟨rfl, ?_⟩
      rw [rangeLength, if_neg (not_lt.mpr hlength)]
      omega
    have hsub : ∀ p : Int64, 0 ≤ p.toInt → p.toInt ≤ size.toInt →
        (size - p).toInt = size.toInt - p.toInt := by
      intro p hp hle
      have hlt := size.toInt_lt
      rw [Int64.toInt_sub]
      exact Int.bmod_eq_of_le_mul_two (by omega) (by omega)
    simp only [RangeReader.request, if_pos hbound, hsize, gt_iff_lt, Int64.lt_iff_toInt_lt]
    split_ifs with hbeyond
    · rw [hsub size (by omega) le_rfl]
      omega
    · rw [hsub pos hpos (not_lt.mp hbeyond)]
      omega
  · rw [RangeReader.request, if_neg hbound]
    have hminus : (-1 : Int64).toInt < 0 := by decide
    exact ⟨hpos, rfl, .inl hminus⟩

/-- **What a successful `reopen` leads to.** -/
lemma reading_of_reopen {openAt : OpenFunc} {closeErr : Option Err} {pos : Int64} {r' : RangeReader}
    (hB : B.length < 2 ^ 63) (hstart : 0 ≤ r.start.toInt) (hpos : 0 ≤ pos.toInt)
    (ho : Serves B openAt) (hknown : Known B r pos) (h : r.reopen openAt closeErr pos = .ok r') :
    Reading B r.start r.length (min pos.toInt.toNat (rangeLength B r.start r.length)) r' := by
  obtain ⟨hreq, hmin, hlen⟩ := request_spec hB hstart hpos hknown
  rw [← hmin]
  cases closeErr with
  | some e => cases h
  | none =>
      dsimp only [RangeReader.reopen] at h
      split at h
      · rename_i hempty
        obtain rfl := Except.ok.inj h
        have hattrs : ∃ attrs, r.attrs = some attrs ∧ attrs.size = B.length :=
          hknown.resolve_right fun hnone => by simp [hnone.1] at hempty
        refine ⟨rfl, rfl, rfl, hattrs, hreq, rfl, fun hin => ?_⟩
        -- nothing is left of the range
        rw [hempty.1] at hlen
        dsimp only at hin
        have hzero : (0 : Int64).toInt = 0 := rfl
        omega
      · split at h
        · cases h
        · rename_i body attrs hopen
          obtain rfl := Except.ok.inj h
          obtain ⟨hsize, hbody⟩ := ho _ _ _ _ hopen
          exact reading_of_open hB hstart hreq hsize hbody hlen

/-- A successful `Seek` leads to the position it returns, capped at the end of the range. -/
lemma Reading.seek {openAt : OpenFunc} {closeErr : Option Err} {offset whence target : Int64}
    {r' : RangeReader} (hB : B.length < 2 ^ 63) (hstart : 0 ≤ start.toInt) (ho : Serves B openAt)
    (h : Reading B start length p r)
    (hs : r.seek openAt closeErr offset whence = .ok (target, r')) :
    Reading B start length (min target.toInt.toNat (rangeLength B start length)) r' := by
  rw [RangeReader.seek] at hs
  split at hs
  · cases hs
  · split_ifs at hs with hneg
    split at hs
    · cases hs
    · rename_i hreopen
      obtain ⟨heq, rfl⟩ := Prod.mk.inj (Except.ok.inj hs)
      rw [heq] at hneg hreopen
      have hpos : 0 ≤ target.toInt := by
        rw [Int64.lt_iff_toInt_lt] at hneg
        exact not_lt.mp hneg
      have hread := reading_of_reopen hB (by rwa [h.sameStart]) hpos ho (.inl h.size) hreopen
      rwa [h.sameStart, h.sameLength] at hread

/-- What `Read` clamps to. -/
lemma Reading.toInt_remaining (hB : B.length < 2 ^ 63) (hstart : 0 ≤ start.toInt)
    (h : Reading B start length p r) :
    (r.rangeSize - r.pos).toInt = rangeLength B start length - r.pos.toInt := by
  obtain ⟨attrs, ha, hsize⟩ := h.size
  have hrange : r.rangeSize.toInt = rangeLength B start length := by
    rw [toInt_rangeSize hB (by rwa [h.sameStart]) ha hsize, h.sameStart, h.sameLength]
  have hle := rangeLength_le B start length
  have hnonneg := h.nonneg
  have hlt := r.pos.toInt_lt
  rw [Int64.toInt_sub, hrange]
  exact Int.bmod_eq_of_le_mul_two (by omega) (by omega)

/-- **What a `Read` returns**: the bytes at the position, as many as the buffer, the chunk and the range
allow; and it reports the end only at the end of the range. -/
lemma Reading.read (hB : B.length < 2 ^ 63) (hstart : 0 ≤ start.toInt)
    (h : Reading B start length p r) (service : CloudService) (len chunk : ℕ) (early : Bool) :
    let answer := (r.read service len chunk early).1
    answer.1 = (B.drop (start.toInt.toNat + p)).take answer.1.length ∧
      answer.1.length = min (min len chunk) (rangeLength B start length - p) ∧
      (answer.2 = some .eof → p + answer.1.length = rangeLength B start length) ∧
      (answer.2 = none ∨ answer.2 = some .eof) ∧
      Reading B start length (p + answer.1.length) (r.read service len chunk early).2 := by
  have hle := rangeLength_le B start length
  have hnonneg := h.nonneg
  have hleft := h.toInt_remaining hB hstart
  have hzero : (0 : Int64).toInt = 0 := rfl
  have hp := h.pos
  simp only [RangeReader.read, h.opened, Bool.false_eq_true, if_false, Int64.le_iff_toInt_le, hleft,
    hzero]
  by_cases hend : (rangeLength B start length : ℤ) - r.pos.toInt ≤ 0
  · rw [if_pos hend]
    have hpend : p = rangeLength B start length := by omega
    exact ⟨rfl, by simp [hpend], fun _ => hpend, .inr rfl, h⟩
  rw [if_neg hend]
  obtain ⟨hpre, hlong⟩ := h.body (by omega)
  obtain rfl : p = r.pos.toInt.toNat := by omega
  -- the body has what is left of the range, so it gives as many bytes as it may
  have hroom : min chunk (if (len : ℤ) > rangeLength B start length - r.pos.toInt then
      (rangeLength B start length - r.pos.toInt).toNat else len) =
      min (min len chunk) (rangeLength B start length - r.pos.toInt.toNat) := by
    split_ifs <;> omega
  rw [hroom]
  obtain ⟨n, hn⟩ : ∃ n, min (min len chunk) (rangeLength B start length - r.pos.toInt.toNat) = n :=
    ⟨_, rfl⟩
  rw [hn]
  have hnrange : r.pos.toInt.toNat + n ≤ rangeLength B start length := by omega
  have htaken : (r.reader.take n).length = n := by
    rw [List.length_take]
    omega
  have hpos : (r.pos + Int64.ofNat n).toInt = r.pos.toInt + n := by
    have hcast := toInt_ofNat (n := n) (by omega)
    rw [toInt_add_of_lt hnonneg (by omega) (by omega), hcast]
  rw [htaken]
  refine ⟨?_, rfl, fun heof => ?_, ?_, ?_⟩
  · conv_lhs => rw [List.prefix_iff_eq_take.mp hpre, List.take_take]
    rw [min_eq_left (by omega)]
  · split_ifs at heof with hrest
    have hall := List.drop_eq_nil_iff.mp hrest.1
    omega
  · split_ifs
    · exact .inr rfl
    · exact .inl rfl
  · refine ⟨h.sameStart, h.sameLength, rfl, h.size, ?_, ?_, ?_⟩
    all_goals dsimp only
    all_goals rw [hpos]
    · omega
    · omega
    · intro hin
      have hadd : (r.pos.toInt + n).toNat = r.pos.toInt.toNat + n := by omega
      rw [hadd, ← Nat.add_assoc, ← List.drop_drop, List.length_drop]
      obtain ⟨rest, hrest⟩ := hpre
      rw [← hrest, List.drop_append_of_le_length (by omega)]
      exact ⟨List.prefix_append _ _, by omega⟩

/-- Every sequence of calls keeps the reader at the position it leads to. -/
lemma Uses.reading {service : CloudService} {r₀ : RangeReader} {es : List ReaderEvent}
    (hB : B.length < 2 ^ 63) (hstart : 0 ≤ start.toInt) (h₀ : Reading B start length 0 r₀)
    (h : Uses B service r₀ es r) :
    Reading B start length (position (rangeLength B start length) es) r := by
  induction h with
  | start => exact h₀
  | read _ len chunk early ih => exact (ih.read hB hstart service len chunk early).2.2.2.2
  | seek _ ho hs ih => exact ih.seek hB hstart ho hs

end Invariant

/-- **The readers return the right bytes under any seek pattern.**  After any sequence of reads and
successful seeks on a reader that was opened on an object `B`, a `Read` returns the bytes of `B` at the
start of the range plus the position, as many as the buffer and the service's chunk allow and the range
has, none of them at or beyond the end of the range; and it reports `io.EOF` only at the end. -/
theorem read_right_bytes {B : List UInt8} (hB : B.length < 2 ^ 63) {start length : Int64}
    (hstart : 0 ≤ start.toInt) {openAt : OpenFunc} (ho : Serves B openAt) {r₀ r : RangeReader}
    (hnew : newRangeReader openAt start length = .ok r₀) {service : CloudService}
    {es : List ReaderEvent} (huses : Uses B service r₀ es r) (len chunk : ℕ) (early : Bool) :
    let p := position (rangeLength B start length) es
    let limit := if length.toInt < 0 then (B.length : ℤ)
      else min (start.toInt + length.toInt) B.length
    let answer := (r.read service len chunk early).1
    answer.1 = (B.drop (start.toInt.toNat + p)).take answer.1.length ∧
      answer.1.length ≤ len ∧
      (answer.1 ≠ [] → start.toInt + p + answer.1.length ≤ limit) ∧
      (start.toInt + p < limit → 0 < len → 0 < chunk → answer.1 ≠ []) ∧
      (answer.2 = some .eof → limit ≤ start.toInt + p + answer.1.length) ∧
      (answer.2 = none ∨ answer.2 = some .eof) := by
  intro p limit answer
  have hknown : Known B { start := start, length := length } 0 := .inr ⟨rfl, rfl⟩
  have h₀ : Reading B start length 0 r₀ := by
    have hopen := reading_of_reopen hB hstart le_rfl ho hknown hnew
    rwa [Int64.toInt_zero, Int.toNat_zero, Nat.zero_min] at hopen
  have hread : Reading B start length p r := huses.reading hB hstart h₀
  obtain ⟨hbytes, hlen, heof, herr, -⟩ := hread.read hB hstart service len chunk early
  have hp : p ≤ rangeLength B start length := hread.pos ▸ min_le_right _ _
  have hlimit : limit - start.toInt = rangeLength B start length ∨
      limit ≤ start.toInt ∧ rangeLength B start length = 0 := by
    simp only [limit, rangeLength]
    split_ifs <;> omega
  have hsome : answer.1 ≠ [] ↔ 0 < answer.1.length := List.length_pos_iff.symm
  change answer.1.length = _ at hlen
  rw [hsome]
  refine ⟨hbytes, by omega, by omega, by omega, fun h => ?_, herr⟩
  have hall : p + answer.1.length = rangeLength B start length := heof h
  omega

/-- A backend that streams the rest of the object, whatever the length. -/
def streamRest (B : List UInt8) : OpenFunc := fun offset _ =>
  .ok (B.drop offset.toInt.toNat, { size := B.length })

lemma serves_streamRest (B : List UInt8) : Serves B (streamRest B) := by
  intro offset length body attrs h
  obtain ⟨rfl, rfl⟩ := Prod.mk.inj (Except.ok.inj h)
  refine ⟨rfl, fun hoff => ⟨List.prefix_rfl, fun _ => rfl, ?_⟩⟩
  rw [List.length_drop]
  omega

/-- A reader of two of four bytes, as it is opened and behind a seek to the second. -/
def twoOfFour : RangeReader := ⟨1, 2, 0, [2, 3, 4], some { size := 4 }, false⟩

def twoOfFourSought : RangeReader := ⟨1, 2, 1, [3, 4], some { size := 4 }, false⟩

/-- The body goes on beyond the range; only the second byte is read. -/
theorem read_right_bytes_clamped :
    newRangeReader (streamRest [1, 2, 3, 4]) 1 2 = .ok twoOfFour ∧
      Uses [1, 2, 3, 4] .s3 twoOfFour [.seek 1] twoOfFourSought ∧
      (twoOfFourSought.read .s3 8 8 false).1.1 =
        ([3, 4] : List UInt8).take (twoOfFourSought.read .s3 8 8 false).1.1.length ∧
      (twoOfFourSought.read .s3 8 8 false).1.1 ≠ [] ∧
      1 + 1 + (twoOfFourSought.read .s3 8 8 false).1.1.length ≤ (3 : ℤ) := by
  have hnew : newRangeReader (streamRest [1, 2, 3, 4]) 1 2 = .ok twoOfFour := rfl
  have hseek : twoOfFour.seek (streamRest [1, 2, 3, 4]) none 1 0 = .ok (1, twoOfFourSought) := rfl
  have huses : Uses [1, 2, 3, 4] .s3 twoOfFour [.seek 1] twoOfFourSought :=
    .seek .start (serves_streamRest _) hseek
  obtain ⟨hbytes, -, hlimit, hsome, -⟩ := read_right_bytes (by decide) (by decide)
    (serves_streamRest [1, 2, 3, 4]) hnew huses 8 8 false
  have hne := hsome (by decide) (by decide) (by decide)
  exact ⟨hnew, huses, hbytes, hne, hlimit hne⟩

end Blobster
