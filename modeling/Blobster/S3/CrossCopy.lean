import Mathlib.Data.List.Nodup
import Mathlib.Data.List.Range
import Mathlib.Tactic.Linarith
import Mathlib.Tactic.Ring

/-!
# Cross-region copy on S3: what the client sends

`s3/crosscopy.go`.  `run` heads the source and copies it with one `CopyObject`, or with a multipart
upload whose parts are copied by an errgroup of goroutines.  This module is the client: its requests
and the answers it can get are actions, so that a run is a list of actions and the goroutines' requests
can finish in any order.  What S3 does with the requests is `Blobster.S3.TornCopy`.

* `int64`, `int32` — the machine integers of the part arithmetic; `scaled`, `partCount`,
  `partRequest` — the plan of a multipart copy.
* `Phase`, `CrossCopy.step`, `CrossCopy.play` — the client; `CrossCopy.Step` lists its transitions.
* `CrossCopy.Planned` — what a plan with at least one part looks like, however the arithmetic got
  there: **`planned_of_one_le`**.
* `Group.Inv` — the errgroup between two steps: what has been answered, what is in flight, and what
  stands in `parts`.
* **`CrossCopy.copies_source`** — the ranges tile the source and the completed list names them in order.
-/

namespace Blobster.S3

/-! ## The plan -/

/-- `int64` arithmetic wraps around. -/
def int64 (x : ℤ) : ℤ := (x + 2 ^ 63) % 2 ^ 64 - 2 ^ 63

/-- The conversion `int32(x)` keeps the low 32 bits. -/
def int32 (x : ℤ) : ℤ := (x + 2 ^ 31) % 2 ^ 32 - 2 ^ 31

lemma int64_of_lt {x : ℤ} (h : -2 ^ 63 ≤ x) (h' : x < 2 ^ 63) : int64 x = x := by
  unfold int64
  omega

/-- The tunables of a `crossCopy`; the buckets and keys it names are those of the run. -/
structure CrossCopy where
  maxSingle : ℤ
  partSize : ℤ
  maxParts : ℤ
  concurrency : ℤ
  maxSingle_nonneg : 0 ≤ maxSingle
  partSize_pos : 0 < partSize
  partSize_lt : partSize < 2 ^ 63
  maxParts_pos : 0 < maxParts
  maxParts_lt : maxParts < 2 ^ 63

/-- The ranged request of one part: `bytes=first-last` under a part number. -/
structure PartRequest where
  number : ℤ
  first : ℤ
  last : ℤ
deriving DecidableEq, Repr

/-- `(a + b - 1) / b`. -/
def ceilDiv (a b : ℤ) : ℤ := (int64 (int64 (a + b) - 1)).tdiv b

namespace CrossCopy

variable (c : CrossCopy) (size : ℤ)

/-- The part size, scaled up when there would be more than `maxParts` parts. -/
def scaled : ℤ := if ceilDiv size c.partSize > c.maxParts then ceilDiv size c.maxParts else c.partSize

/-- `partCount`. -/
def partCount : ℤ := ceilDiv size (c.scaled size)

/-- The request for the part of index `i`. -/
def partRequest (i : ℕ) : PartRequest where
  number := int32 (i + 1)
  first := int64 (i * c.scaled size)
  last :=
    let last := int64 (int64 (int64 (i * c.scaled size) + c.scaled size) - 1)
    if last ≥ size then int64 (size - 1) else last

end CrossCopy

/-- A ceiling division that comes to at least one has not wrapped around. -/
lemma ceilDiv_spec {a b : ℤ} (ha : 0 < a) (ha' : a < 2 ^ 63) (hb : 0 < b) (hb' : b < 2 ^ 63)
    (h : 1 ≤ ceilDiv a b) :
    a + b - 1 < 2 ^ 63 ∧ (ceilDiv a b - 1) * b < a ∧ a ≤ ceilDiv a b * b := by
  have hlt : a + b - 1 < 2 ^ 63 := by
    by_contra hge
    have hneg : int64 (int64 (a + b) - 1) = -(2 ^ 64 - (a + b - 1)) := by unfold int64; omega
    have hnn := Int.tdiv_nonneg (show 0 ≤ 2 ^ 64 - (a + b - 1) by omega) hb.le
    rw [ceilDiv, hneg, Int.neg_tdiv] at h
    omega
  have hsum : int64 (int64 (a + b) - 1) = a + b - 1 := by unfold int64; omega
  have hdiv : ceilDiv a b = (a + b - 1) / b := by
    rw [ceilDiv, hsum, Int.tdiv_eq_ediv_of_nonneg (by omega)]
  have hle := Int.ediv_mul_le (a + b - 1) hb.ne'
  have hgt := Int.lt_ediv_add_one_mul_self (a + b - 1) hb
  rw [← hdiv] at hle hgt
  refine ⟨hlt, ?_, ?_⟩ <;> linarith

/-- One that cannot wrap around comes to at least one. -/
lemma one_le_ceilDiv {a b : ℤ} (ha : 0 < a) (hb : 0 < b) (h : a + b < 2 ^ 63) :
    1 ≤ ceilDiv a b := by
  have hsum : int64 (int64 (a + b) - 1) = a + b - 1 := by unfold int64; omega
  rw [ceilDiv, hsum, Int.tdiv_eq_ediv_of_nonneg (by omega)]
  exact (Int.le_ediv_iff_mul_le hb).mpr (by omega)

/-- By a divisor that is itself the product of a wrap-around it comes to none. -/
lemma ceilDiv_nonpos {a b : ℤ} (ha : 2 ≤ a) (ha' : a < 2 ^ 63) (hb : b ≤ 0) (hb' : -2 ^ 63 ≤ b) :
    ceilDiv a b ≤ 0 := by
  have hsum : int64 (int64 (a + b) - 1) = a + b - 1 := by unfold int64; omega
  rw [ceilDiv, hsum]
  rcases le_or_gt 0 (a + b - 1) with hq | hq
  · exact Int.tdiv_nonpos_of_nonneg_of_nonpos hq hb
  · have hzero := Int.tdiv_eq_zero_of_lt (show 0 ≤ -(a + b - 1) by omega) (show _ < -b by omega)
    rw [Int.neg_tdiv, Int.tdiv_neg, neg_neg] at hzero
    exact hzero.le

lemma neg_le_ceilDiv (a : ℤ) {b : ℤ} (hb : 0 < b) : -2 ^ 63 ≤ ceilDiv a b := by
  have hq : -2 ^ 63 ≤ int64 (int64 (a + b) - 1) := by unfold int64; omega
  rw [ceilDiv]
  generalize int64 (int64 (a + b) - 1) = q at hq
  rcases le_or_gt 0 q with hq' | hq'
  · have := Int.tdiv_nonneg hq' hb.le
    omega
  · obtain ⟨m, rfl⟩ : ∃ m, q = -m := ⟨-q, (neg_neg q).symm⟩
    have hle := Int.ediv_le_self b (show 0 ≤ m by omega)
    rw [Int.neg_tdiv, Int.tdiv_eq_ediv_of_nonneg (by omega)]
    omega

/-- What a plan with at least one part looks like. -/
structure CrossCopy.Planned (c : CrossCopy) (size : ℤ) : Prop where
  scaled_pos : 0 < c.scaled size
  no_wrap : size + c.scaled size - 1 < 2 ^ 63
  short : (c.partCount size - 1) * c.scaled size < size
  enough : size ≤ c.partCount size * c.scaled size
  count_le : c.partCount size ≤ c.maxParts

namespace CrossCopy

variable {c : CrossCopy} {size : ℤ}

/-- The part size of a plan with at least one part, whether scaled or not. -/
lemma scaled_pos_of_one_le (hsize : 0 < size) (hlt : size < 2 ^ 63) (h : 1 ≤ c.partCount size) :
    0 < c.scaled size ∧ c.scaled size < 2 ^ 63 := by
  by_cases hmany : ceilDiv size c.partSize > c.maxParts
  · have hscaled : c.scaled size = ceilDiv size c.maxParts := if_pos hmany
    have hparts := c.maxParts_pos
    obtain ⟨-, hshort, -⟩ := ceilDiv_spec hsize hlt c.partSize_pos c.partSize_lt (by omega)
    have htwo : 2 ≤ size := by nlinarith [c.partSize_pos]
    rcases le_or_gt (c.scaled size) 0 with hneg | hpos
    · have := ceilDiv_nonpos htwo hlt hneg (hscaled ▸ neg_le_ceilDiv size hparts)
      rw [partCount] at h
      omega
    · obtain ⟨-, hshort, -⟩ := ceilDiv_spec hsize hlt hparts c.maxParts_lt (by omega)
      rw [← hscaled] at hshort
      exact ⟨hpos, by nlinarith⟩
  · have hscaled : c.scaled size = c.partSize := if_neg hmany
    exact hscaled ▸ ⟨c.partSize_pos, c.partSize_lt⟩

/-- **A plan with at least one part has not wrapped around.** -/
lemma planned_of_one_le (hsize : 0 < size) (hlt : size < 2 ^ 63) (h : 1 ≤ c.partCount size) :
    c.Planned size := by
  obtain ⟨hpos, hpos'⟩ := scaled_pos_of_one_le hsize hlt h
  obtain ⟨hwrap, hshort, henough⟩ := ceilDiv_spec hsize hlt hpos hpos' h
  refine ⟨hpos, hwrap, hshort, henough, ?_⟩
  by_cases hmany : ceilDiv size c.partSize > c.maxParts
  · have hscaled : c.scaled size = ceilDiv size c.maxParts := if_pos hmany
    obtain ⟨-, -, hcover⟩ := ceilDiv_spec hsize hlt c.maxParts_pos c.maxParts_lt
      (by rw [← hscaled]; omega)
    rw [← hscaled] at hcover
    change (c.partCount size - 1) * c.scaled size < size at hshort
    have : (c.partCount size - 1) * c.scaled size < c.maxParts * c.scaled size := by linarith
    have := lt_of_mul_lt_mul_right this hpos.le
    omega
  · have hscaled : c.scaled size = c.partSize := if_neg hmany
    rw [partCount, hscaled]
    omega

/-- A size that neither the part size in use nor `maxParts` takes past 63 bits has a plan. -/
lemma one_le_partCount (hsize : 0 < size) (hparts : size + c.maxParts < 2 ^ 63)
    (hscaled : size + c.scaled size < 2 ^ 63) : 1 ≤ c.partCount size := by
  refine one_le_ceilDiv hsize ?_ hscaled
  unfold scaled
  split
  · exact one_le_ceilDiv hsize c.maxParts_pos hparts
  · exact c.partSize_pos

namespace Planned

variable (h : c.Planned size) {i j : ℕ}

include h

lemma start_lt (hi : (i : ℤ) < c.partCount size) : i * c.scaled size < size := by
  have : (i : ℤ) * c.scaled size ≤ (c.partCount size - 1) * c.scaled size :=
    mul_le_mul_of_nonneg_right (by omega) h.scaled_pos.le
  linarith [h.short]

lemma first_eq (hi : (i : ℤ) < c.partCount size) :
    (c.partRequest size i).first = i * c.scaled size := by
  have hlt := h.start_lt hi
  have hnn : 0 ≤ (i : ℤ) * c.scaled size := mul_nonneg (by omega) h.scaled_pos.le
  have := h.no_wrap
  have := h.scaled_pos
  exact int64_of_lt (by omega) (by omega)

lemma last_eq (hi : (i : ℤ) < c.partCount size) :
    (c.partRequest size i).last = min ((i + 1) * c.scaled size) size - 1 := by
  have hlt := h.start_lt hi
  have hnn : 0 ≤ (i : ℤ) * c.scaled size := mul_nonneg (by omega) h.scaled_pos.le
  have hwrap := h.no_wrap
  have hpos := h.scaled_pos
  have hmul : ((i : ℤ) + 1) * c.scaled size = i * c.scaled size + c.scaled size := by ring
  simp only [partRequest, hmul]
  generalize (i : ℤ) * c.scaled size = start at *
  have hlast : int64 (int64 (int64 start + c.scaled size) - 1) = start + c.scaled size - 1 := by
    unfold int64
    omega
  rw [hlast, int64_of_lt (x := size - 1) (by omega) (by omega)]
  split <;> omega

/-- Every range is within the object and is not empty. -/
lemma range_ok (hi : (i : ℤ) < c.partCount size) :
    0 ≤ (c.partRequest size i).first ∧
      (c.partRequest size i).first ≤ (c.partRequest size i).last ∧
      (c.partRequest size i).last < size := by
  have hlt := h.start_lt hi
  have hnn : 0 ≤ (i : ℤ) * c.scaled size := mul_nonneg (by omega) h.scaled_pos.le
  have hmul : ((i : ℤ) + 1) * c.scaled size = i * c.scaled size + c.scaled size := by ring
  have hpos := h.scaled_pos
  rw [h.first_eq hi, h.last_eq hi, hmul]
  omega

/-- A range ends before any later one begins. -/
lemma range_before (hij : i < j) (hj : (j : ℤ) < c.partCount size) :
    (c.partRequest size i).last < (c.partRequest size j).first := by
  have hle : ((i : ℤ) + 1) * c.scaled size ≤ j * c.scaled size :=
    mul_le_mul_of_nonneg_right (by omega) h.scaled_pos.le
  rw [h.first_eq hj, h.last_eq (by omega)]
  omega

/-- Every byte is in some range. -/
lemma covers {pos : ℤ} (h0 : 0 ≤ pos) (hpos : pos < size) :
    ∃ i : ℕ, (i : ℤ) < c.partCount size ∧
      (c.partRequest size i).first ≤ pos ∧ pos ≤ (c.partRequest size i).last := by
  have hle := Int.ediv_mul_le pos h.scaled_pos.ne'
  have hgt := Int.lt_ediv_add_one_mul_self pos h.scaled_pos
  obtain ⟨i, hi⟩ := Int.eq_ofNat_of_zero_le (Int.ediv_nonneg h0 h.scaled_pos.le)
  rw [hi] at hle hgt
  have hlt : (i : ℤ) < c.partCount size := by
    refine lt_of_mul_lt_mul_right ?_ h.scaled_pos.le
    linarith [h.enough]
  refine ⟨i, hlt, ?_, ?_⟩
  · rw [h.first_eq hlt]
    exact hle
  · rw [h.last_eq hlt]
    omega

end Planned

lemma partRequest_number (c : CrossCopy) (size : ℤ) {i : ℕ} (hi : (i : ℤ) + 1 < 2 ^ 31) :
    (c.partRequest size i).number = i + 1 := by
  change int32 (i + 1) = i + 1
  unfold int32
  omega

end CrossCopy

/-- The bytes of a range. -/
def slice {β : Type} (src : List β) (r : PartRequest) : List β :=
  (src.drop r.first.toNat).take (r.last + 1 - r.first).toNat

/-- The ranges of a plan, one after the other, are the whole. -/
lemma CrossCopy.Planned.flatten_slices {c : CrossCopy} {size : ℤ} (h : c.Planned size) {β : Type}
    {src : List β} (hsrc : (src.length : ℤ) = size) {n : ℕ} (hn : (n : ℤ) = c.partCount size) :
    ((List.range n).map fun i => slice src (c.partRequest size i)).flatten = src := by
  -- After `k` ranges, the bytes before the end of the last of them.
  have key : ∀ k : ℕ, k ≤ n →
      ((List.range k).map fun i => slice src (c.partRequest size i)).flatten =
        src.take (min (k * c.scaled size) size).toNat := by
    intro k hk
    induction k with
    | zero => simp
    | succ k ih =>
        have hlt : (k : ℤ) < c.partCount size := by omega
        have hstart := h.start_lt hlt
        have hnn : 0 ≤ (k : ℤ) * c.scaled size := mul_nonneg (by omega) h.scaled_pos.le
        have hpos := h.scaled_pos
        have hmul : ((k : ℤ) + 1) * c.scaled size = k * c.scaled size + c.scaled size := by ring
        rw [List.range_succ, List.map_append, List.flatten_append, ih (by omega), List.map_singleton,
          List.flatten_singleton, slice, h.first_eq hlt, h.last_eq hlt, min_eq_left hstart.le,
          ← List.take_add]
        congr 1
        push_cast
        rw [hmul]
        omega
  rw [key n le_rfl, hn, min_eq_right h.enough, ← hsrc, Int.toNat_natCast, List.take_length]

/-! ## The client -/

/-- What `run` reads of a `HeadObjectOutput`. -/
structure HeadObjectOutput where
  contentLength : Option ℤ
  cacheControl : Option String
  contentDisposition : Option String
  contentEncoding : Option String
  contentLanguage : Option String
  contentType : Option String
  metadata : List (String × String)
deriving DecidableEq

/-- What `applyHeadMetadata` sets of a `CreateMultipartUploadInput`. -/
structure CreateMultipartUploadInput where
  cacheControl : Option String := none
  contentDisposition : Option String := none
  contentEncoding : Option String := none
  contentLanguage : Option String := none
  contentType : Option String := none
  metadata : List (String × String) := []
deriving DecidableEq

/-- `if aws.ToString(src) != "" { dst = src }`. -/
def mirrorHeader (dst src : Option String) : Option String :=
  if src.getD "" ≠ "" then src else dst

/-- `applyHeadMetadata`. -/
def applyHeadMetadata (create : CreateMultipartUploadInput) (head : HeadObjectOutput) :
    CreateMultipartUploadInput where
  cacheControl := mirrorHeader create.cacheControl head.cacheControl
  contentDisposition := mirrorHeader create.contentDisposition head.contentDisposition
  contentEncoding := mirrorHeader create.contentEncoding head.contentEncoding
  contentLanguage := mirrorHeader create.contentLanguage head.contentLanguage
  contentType := mirrorHeader create.contentType head.contentType
  metadata := if head.metadata.length > 0 then head.metadata else create.metadata

/-- `types.CompletedPart`. -/
structure CompletedPart where
  eTag : String
  partNumber : ℤ
deriving DecidableEq, Repr

/-- The errgroup of a multipart copy: the loop variable, the indices of the goroutines that run, the
slice `parts` with its zero values, and whether a goroutine has returned an error. -/
structure Group where
  size : ℤ
  next : ℕ
  running : List ℕ
  parts : List (Option CompletedPart)
  failed : Bool
deriving DecidableEq

/-- Where the client is: before the request of that name, in the errgroup, or at its end. -/
inductive Phase where
  | head
  | single
  | create (head : HeadObjectOutput) (size : ℤ)
  | group (g : Group)
  | complete (size : ℤ) (parts : List (Option CompletedPart))
  | abort
  | returned (ok : Bool)
  | panicked
deriving DecidableEq

/-- A step of the client: a request with its answer, the start of a goroutine, or `g.Wait()`
returning. -/
inductive Action where
  | headed (head : HeadObjectOutput)
  | copied
  | created
  | spawn
  | partCopied (i : ℕ) (eTag : String)
  | partFailed (i : ℕ)
  | waited
  | completed
  | aborted
  | failed
deriving DecidableEq

namespace CrossCopy

variable (c : CrossCopy)

/-- Whether `g.Go` can start another goroutine; a negative limit is none. -/
def HasSlot (running : List ℕ) : Prop := c.concurrency < 0 ∨ running.length < c.concurrency

instance (running : List ℕ) : Decidable (c.HasSlot running) :=
  inferInstanceAs (Decidable (_ ∨ _))

/-- The group that `multipart` starts with. -/
def firstGroup (size : ℤ) : Group :=
  ⟨size, 0, [], List.replicate (c.partCount size).toNat none, false⟩

/-- `g.Go` starts the goroutine of the next index. -/
def goNext (g : Group) : Group := { g with next := g.next + 1, running := g.next :: g.running }

/-- The goroutine of index `i` stores its answer and ends. -/
def store (g : Group) (i : ℕ) (eTag : String) : Group :=
  { g with
    running := g.running.erase i
    parts := g.parts.set i (some ⟨eTag, (c.partRequest g.size i).number⟩) }

/-- The goroutine of index `i` returns an error. -/
def giveUp (g : Group) (i : ℕ) : Group := { g with running := g.running.erase i, failed := true }

/-- A step of the errgroup. -/
def stepGroup (g : Group) : Action → Option Phase
  | .spawn =>
      if (g.next : ℤ) < c.partCount g.size ∧ c.HasSlot g.running then some (.group (goNext g))
      else none
  | .partCopied i eTag => if i ∈ g.running then some (.group (c.store g i eTag)) else none
  | .partFailed i => if i ∈ g.running then some (.group (giveUp g i)) else none
  | .waited =>
      if c.partCount g.size ≤ g.next ∧ g.running = [] then
        if g.failed then some .abort else some (.complete g.size g.parts)
      else none
  | _ => none

/-- A step of `run`.  A division by zero and a slice of negative length panic. -/
def step : Phase → Action → Option Phase
  | .head, .headed head =>
      let size := head.contentLength.getD 0
      if size ≤ c.maxSingle then some .single
      else if c.scaled size = 0 then some .panicked
      else some (.create head size)
  | .head, .failed => some (.returned false)
  | .single, .copied => some (.returned true)
  | .single, .failed => some (.returned false)
  | .create _ size, .created =>
      if c.partCount size < 0 then some .panicked else some (.group (c.firstGroup size))
  | .create _ _, .failed => some (.returned false)
  | .group g, a => c.stepGroup g a
  | .complete _ _, .completed => some (.returned true)
  | .complete _ _, .failed => some .abort
  | .abort, .aborted => some (.returned false)
  | _, _ => none

/-- The same, transition by transition. -/
inductive Step : Phase → Action → Phase → Prop where
  | small {head : HeadObjectOutput} : Step .head (.headed head) .single
  | noSize {head : HeadObjectOutput} : Step .head (.headed head) .panicked
  | large {head : HeadObjectOutput} (h : c.maxSingle < head.contentLength.getD 0) :
      Step .head (.headed head) (.create head (head.contentLength.getD 0))
  | copied : Step .single .copied (.returned true)
  | noSlice {head : HeadObjectOutput} {size : ℤ} : Step (.create head size) .created .panicked
  | created {head : HeadObjectOutput} {size : ℤ} (h : 0 ≤ c.partCount size) :
      Step (.create head size) .created (.group (c.firstGroup size))
  | spawn {g : Group} (h : (g.next : ℤ) < c.partCount g.size) :
      Step (.group g) .spawn (.group (goNext g))
  | partCopied {g : Group} {i : ℕ} {eTag : String} (h : i ∈ g.running) :
      Step (.group g) (.partCopied i eTag) (.group (c.store g i eTag))
  | partFailed {g : Group} {i : ℕ} : Step (.group g) (.partFailed i) (.group (giveUp g i))
  | waited {g : Group} (hf : g.failed = false) (hnext : c.partCount g.size ≤ g.next)
      (hrun : g.running = []) : Step (.group g) .waited (.complete g.size g.parts)
  | waitFailed {g : Group} : Step (.group g) .waited .abort
  | completed {size : ℤ} {parts : List (Option CompletedPart)} :
      Step (.complete size parts) .completed (.returned true)
  | notCompleted {size : ℤ} {parts : List (Option CompletedPart)} :
      Step (.complete size parts) .failed .abort
  | aborted : Step .abort .aborted (.returned false)
  | headFailed : Step .head .failed (.returned false)
  | copyFailed : Step .single .failed (.returned false)
  | createFailed {head : HeadObjectOutput} {size : ℤ} :
      Step (.create head size) .failed (.returned false)

/-- A run of the client. -/
def play (p : Phase) (as : List Action) : Option Phase := as.foldlM c.step p

/-- The part requests that were answered, with the ETag of the answer. -/
def answered (as : List Action) : List (ℕ × String) :=
  as.filterMap fun
    | .partCopied i eTag => some (i, eTag)
    | _ => none

/-! ## What a run has sent and collected -/

/-- The errgroup while no goroutine has failed: the goroutines started so far are those answered and
those that run, and the answers stand in `parts` under their own index. -/
structure GroupInv (g : Group) (ans : List (ℕ × String)) : Prop where
  length : (g.parts.length : ℤ) = c.partCount g.size
  next_le : g.next ≤ g.parts.length
  perm : g.failed = false → (ans.map Prod.fst ++ g.running).Perm (List.range g.next)
  own : g.failed = false → ∀ a ∈ ans,
    g.parts[a.1]? = some (some ⟨a.2, (c.partRequest g.size a.1).number⟩)

/-- The list that goes to `CompleteMultipartUpload`: every part answered once, under its own index. -/
structure Collected (size : ℤ) (parts : List (Option CompletedPart)) (ans : List (ℕ × String)) :
    Prop where
  length : (parts.length : ℤ) = c.partCount size
  perm : (ans.map Prod.fst).Perm (List.range parts.length)
  own : ∀ a ∈ ans, parts[a.1]? = some (some ⟨a.2, (c.partRequest size a.1).number⟩)

/-- What the answers so far have to do with where the client is. -/
def Inv (ans : List (ℕ × String)) : Phase → Prop
  | .head => ans = []
  | .create _ size => ans = [] ∧ c.maxSingle < size
  | .group g => c.maxSingle < g.size ∧ c.GroupInv g ans
  | .complete size parts => c.maxSingle < size ∧ c.Collected size parts ans
  | _ => True

variable {c}

lemma stepGroup_step {g : Group} {a : Action} {p : Phase} (h : c.stepGroup g a = some p) :
    c.Step (.group g) a p := by
  cases a with
  | spawn =>
      obtain ⟨hc, rfl⟩ : _ ∧ _ = p := by simpa [stepGroup] using h
      exact .spawn hc.1
  | partCopied i eTag =>
      obtain ⟨hi, rfl⟩ : _ ∧ _ = p := by simpa [stepGroup] using h
      exact .partCopied hi
  | partFailed i =>
      obtain ⟨-, rfl⟩ : _ ∧ _ = p := by simpa [stepGroup] using h
      exact .partFailed
  | waited =>
      obtain ⟨hc, h⟩ : _ ∧ (if g.failed then some Phase.abort else some (.complete g.size g.parts)) =
        some p := by simpa [stepGroup] using h
      by_cases hf : g.failed
      · obtain rfl : Phase.abort = p := by simpa [hf] using h
        exact .waitFailed
      · obtain rfl : Phase.complete g.size g.parts = p := by simpa [hf] using h
        exact .waited (by simpa using hf) hc.1 hc.2
  | _ => simp [stepGroup] at h

/-- What a step can be. -/
lemma step_step {p p' : Phase} {a : Action} (h : c.step p a = some p') : c.Step p a p' := by
  cases p with
  | group g => exact stepGroup_step h
  | head =>
      cases a with
      | headed head =>
          simp only [step] at h
          split at h
          · obtain rfl := Option.some.inj h
            exact .small
          · rename_i hsize
            split at h <;> obtain rfl := Option.some.inj h
            · exact .noSize
            · exact .large (by omega)
      | failed =>
          obtain rfl := Option.some.inj h
          exact .headFailed
      | _ => simp [step] at h
  | create head size =>
      cases a with
      | created =>
          simp only [step] at h
          split at h <;> obtain rfl := Option.some.inj h
          · exact .noSlice
          · exact .created (by omega)
      | failed =>
          obtain rfl := Option.some.inj h
          exact .createFailed
      | _ => simp [step] at h
  | _ =>
      cases a <;> simp only [step, Option.some.injEq, reduceCtorEq] at h <;> subst h <;> constructor

lemma groupInv_first {size : ℤ} (h : 0 ≤ c.partCount size) : c.GroupInv (c.firstGroup size) [] where
  length := by
    simp only [firstGroup, List.length_replicate]
    omega
  next_le := Nat.zero_le _
  perm _ := .refl _
  own _ _ ha := nomatch ha

lemma GroupInv.spawn {g : Group} {ans : List (ℕ × String)} (h : c.GroupInv g ans)
    (hlt : (g.next : ℤ) < c.partCount g.size) :
    c.GroupInv (goNext g) ans where
  length := h.length
  next_le := by
    have := h.length
    change g.next + 1 ≤ g.parts.length
    omega
  perm hf := by
    change (ans.map Prod.fst ++ g.next :: g.running).Perm (List.range (g.next + 1))
    rw [List.range_succ]
    refine List.perm_middle.trans ?_
    exact (List.Perm.cons _ (h.perm hf)).trans (List.perm_append_singleton _ _).symm
  own := h.own

lemma GroupInv.partCopied {g : Group} {ans : List (ℕ × String)} (h : c.GroupInv g ans) {i : ℕ}
    (hi : i ∈ g.running) (eTag : String) : c.GroupInv (c.store g i eTag) (ans ++ [(i, eTag)]) where
  length := by simpa [store] using h.length
  next_le := by simpa [store] using h.next_le
  perm hf := by
    rw [List.map_append, List.append_assoc]
    refine List.Perm.trans ?_ (h.perm hf)
    exact List.Perm.append_left _ (List.perm_cons_erase hi).symm
  own hf := by
    -- No index is answered twice, so the new entry is in the place of no older one.
    have hperm := h.perm hf
    have hlt : i < g.parts.length := by
      have := List.mem_range.mp (hperm.mem_iff.mp (List.mem_append_right _ hi))
      have := h.next_le
      omega
    intro a ha
    rcases List.mem_append.mp ha with hold | hnew
    · have hne : i ≠ a.1 := by
        rintro rfl
        exact List.disjoint_of_nodup_append (hperm.nodup_iff.mpr List.nodup_range)
          (List.mem_map_of_mem hold) hi
      exact (List.getElem?_set_ne hne).trans (h.own hf a hold)
    · rw [List.mem_singleton.mp hnew]
      exact List.getElem?_set_self hlt

lemma GroupInv.partFailed {g : Group} {ans : List (ℕ × String)} (h : c.GroupInv g ans) (i : ℕ) :
    c.GroupInv (giveUp g i) ans where
  length := h.length
  next_le := h.next_le
  perm hf := by simp [giveUp] at hf
  own hf := by simp [giveUp] at hf

lemma GroupInv.waited {g : Group} {ans : List (ℕ × String)} (h : c.GroupInv g ans)
    (hf : g.failed = false) (hnext : c.partCount g.size ≤ g.next) (hrun : g.running = []) :
    c.Collected g.size g.parts ans where
  length := h.length
  perm := by
    have heq : g.next = g.parts.length := by
      have := h.next_le
      have := h.length
      omega
    have hperm := h.perm hf
    rwa [hrun, List.append_nil, heq] at hperm
  own := h.own hf

/-- A step of the client. -/
lemma Step.inv {p p' : Phase} {a : Action} {ans : List (ℕ × String)} (h : c.Step p a p')
    (hp : c.Inv ans p) : c.Inv (ans ++ answered [a]) p' := by
  cases h with
  | large hsize => exact ⟨by rw [show ans = [] from hp]; rfl, hsize⟩
  | created hcount =>
      obtain ⟨rfl, hsize⟩ := hp
      exact ⟨hsize, groupInv_first hcount⟩
  | spawn hlt => exact ⟨hp.1, by simpa [answered] using hp.2.spawn hlt⟩
  | partCopied hi => exact ⟨hp.1, hp.2.partCopied hi _⟩
  | partFailed => exact ⟨hp.1, by simpa [answered] using hp.2.partFailed _⟩
  | waited hf hnext hrun => exact ⟨hp.1, by simpa [answered] using hp.2.waited hf hnext hrun⟩
  | _ => exact trivial

/-- A run of the client. -/
lemma play_inv {as : List Action} {p : Phase} (h : c.play .head as = some p) :
    c.Inv (answered as) p := by
  induction as using List.reverseRecOn generalizing p with
  | nil =>
      obtain rfl := Option.some.inj h
      exact rfl
  | append_singleton as a ih =>
      rw [play, List.foldlM_append, Option.bind_eq_bind, Option.bind_eq_some_iff] at h
      obtain ⟨p₁, h₁, h₂⟩ := h
      have hstep : c.step p₁ a = some p := by simpa using h₂
      have hans : answered (as ++ [a]) = answered as ++ answered [a] := List.filterMap_append
      rw [hans]
      exact (step_step hstep).inv (ih h₁)

/-- The answers, in the order of their index, are the list that was collected. -/
lemma Collected.ordered {size : ℤ} {parts : List (Option CompletedPart)} {ans : List (ℕ × String)}
    (h : c.Collected size parts ans) :
    ∃ eTag : ℕ → String, ans.Perm ((List.range parts.length).map fun i => (i, eTag i)) ∧
      parts = (List.range parts.length).map fun i =>
        some ⟨eTag i, (c.partRequest size i).number⟩ := by
  let eTag : ℕ → String := fun i => ((ans.find? fun a => a.1 = i).map Prod.snd).getD ""
  have hnodup : (ans.map Prod.fst).Nodup := h.perm.nodup_iff.mpr List.nodup_range
  have heTag : ∀ a ∈ ans, eTag a.1 = a.2 := by
    intro a ha
    obtain ⟨b, hb⟩ : ∃ b, ans.find? (fun b => b.1 = a.1) = some b := by
      rw [← Option.isSome_iff_exists, List.find?_isSome]
      exact ⟨a, ha, by simp⟩
    have hba : b = a := List.inj_on_of_nodup_map hnodup (List.mem_of_find?_eq_some hb) ha
      (by simpa using List.find?_some hb)
    simp [eTag, hb, hba]
  refine ⟨eTag, ?_, ?_⟩
  · have hmap : ans = (ans.map Prod.fst).map fun i => (i, eTag i) := by
      rw [List.map_map]
      refine (List.map_id ans).symm.trans (List.map_congr_left fun a ha => ?_)
      exact Prod.ext rfl (heTag a ha).symm
    rw [hmap]
    exact h.perm.map _
  · refine List.ext_getElem? fun i => ?_
    by_cases hi : i < parts.length
    · obtain ⟨a, ha, rfl⟩ := List.mem_map.mp (h.perm.mem_iff.mpr (List.mem_range.mpr hi))
      rw [h.own a ha, List.getElem?_map, List.getElem?_range hi, Option.map_some, heTag a ha]
    · rw [List.getElem?_eq_none (by omega), List.getElem?_eq_none (by simpa using hi)]

/-! ## The copy is the source -/

/-- **Whatever the order in which the parts finish, the ranges that were sent tile the source and the
completed list names them in order.**  The sizes are those at which the part arithmetic stays within 63
bits and the part numbers within 31. -/
theorem copies_source (c : CrossCopy) {size : ℤ} {as : List Action}
    {parts : List (Option CompletedPart)} (hrun : c.play .head as = some (.complete size parts))
    (hparts : size + c.maxParts < 2 ^ 63) (hscaled : size + c.scaled size < 2 ^ 63)
    (hcount : c.partCount size < 2 ^ 31) :
    -- The ranges sent are not empty, disjoint and cover the source.
    (∀ a ∈ answered as, 0 ≤ (c.partRequest size a.1).first ∧
      (c.partRequest size a.1).first ≤ (c.partRequest size a.1).last ∧
      (c.partRequest size a.1).last < size) ∧
    (answered as).Pairwise (fun a b =>
      (c.partRequest size a.1).last < (c.partRequest size b.1).first ∨
        (c.partRequest size b.1).last < (c.partRequest size a.1).first) ∧
    (∀ pos, 0 ≤ pos → pos < size → ∃ a ∈ answered as,
      (c.partRequest size a.1).first ≤ pos ∧ pos ≤ (c.partRequest size a.1).last) ∧
    ((answered as).length : ℤ) ≤ c.maxParts ∧
    -- The list names the answers by part number, and in that order they are the source.
    parts.map (Option.map CompletedPart.partNumber) =
      (List.range (answered as).length).map (fun i : ℕ => some ((i : ℤ) + 1)) ∧
    ∃ ordered : List (ℕ × String), ordered.Perm (answered as) ∧
      parts = ordered.map (fun a => some ⟨a.2, (c.partRequest size a.1).number⟩) ∧
      ∀ {β : Type} (src : List β), (src.length : ℤ) = size →
        (ordered.map fun a => slice src (c.partRequest size a.1)).flatten = src := by
  obtain ⟨hsingle, hcol⟩ := play_inv hrun
  have hpos : 0 < size := by
    have := c.maxSingle_nonneg
    omega
  have hlt : size < 2 ^ 63 := by
    have := c.maxParts_pos
    omega
  have hplan := planned_of_one_le hpos hlt (one_le_partCount hpos hparts hscaled)
  have hlen : (answered as).length = parts.length := by
    simpa using hcol.perm.length_eq
  have hidx : ∀ a ∈ answered as, (a.1 : ℤ) < c.partCount size := by
    intro a ha
    have := List.mem_range.mp (hcol.perm.mem_iff.mp (List.mem_map_of_mem ha))
    have := hcol.length
    omega
  obtain ⟨eTag, hperm, heq⟩ := hcol.ordered
  refine ⟨fun a ha => hplan.range_ok (hidx a ha), ?_, ?_, ?_, ?_, _, hperm.symm, ?_, ?_⟩
  · have hnodup := List.pairwise_map.mp (hcol.perm.nodup_iff.mpr List.nodup_range)
    refine hnodup.imp_of_mem fun {a b} ha hb hne => ?_
    rcases Nat.lt_or_gt_of_ne hne with hab | hba
    · exact .inl (hplan.range_before hab (hidx b hb))
    · exact .inr (hplan.range_before hba (hidx a ha))
  · intro pos h0 h1
    obtain ⟨i, hi, hin⟩ := hplan.covers h0 h1
    have hmem : i ∈ (answered as).map Prod.fst :=
      hcol.perm.mem_iff.mpr (List.mem_range.mpr (by have := hcol.length; omega))
    obtain ⟨a, ha, rfl⟩ := List.mem_map.mp hmem
    exact ⟨a, ha, hin⟩
  · have := hcol.length
    have := hplan.count_le
    omega
  · rw [hlen]
    conv_lhs => rw [heq]
    rw [List.map_map]
    refine List.map_congr_left fun i hi => ?_
    have := List.mem_range.mp hi
    have := hcol.length
    exact congrArg some (partRequest_number c size (by omega))
  · rw [List.map_map]
    exact heq
  · intro β src hsrc
    rw [List.map_map]
    exact hplan.flatten_slices hsrc hcol.length

/-- Parts of two bytes, three at a time. -/
def smallCopy : CrossCopy where
  maxSingle := 0
  partSize := 2
  maxParts := 10
  concurrency := 3
  maxSingle_nonneg := by decide
  partSize_pos := by decide
  partSize_lt := by decide
  maxParts_pos := by decide
  maxParts_lt := by decide

/-- A source of which only the size is known. -/
def sized (size : ℤ) : HeadObjectOutput := ⟨some size, none, none, none, none, none, []⟩

/-- The third part of five bytes is answered first. -/
def outOfOrder : List Action :=
  [.headed (sized 5), .created, .spawn, .spawn, .spawn, .partCopied 2 "c", .partCopied 0 "a",
    .partCopied 1 "b", .waited]

theorem copies_source_out_of_order :
    ∃ ordered : List (ℕ × String), ordered.Perm [(2, "c"), (0, "a"), (1, "b")] ∧
      (ordered.map fun a => slice [10, 11, 12, 13, 14] (smallCopy.partRequest 5 a.1)).flatten =
        [10, 11, 12, 13, 14] := by
  have hrun : smallCopy.play .head outOfOrder =
      some (.complete 5 [some ⟨"a", 1⟩, some ⟨"b", 2⟩, some ⟨"c", 3⟩]) := by decide +kernel
  obtain ⟨-, -, -, -, -, ordered, hperm, -, hbytes⟩ :=
    copies_source smallCopy hrun (by decide +kernel) (by decide +kernel) (by decide +kernel)
  exact ⟨ordered, hperm, hbytes [10, 11, 12, 13, 14] rfl⟩

/-! ## Where the machine integers run out -/

/-- One part at a time, each answered before the next is sent. -/
def inTurn : ℕ → List Action
  | 0 => []
  | n + 1 => inTurn n ++ [.spawn, .partCopied n "etag"]

lemma play_append {p : Phase} (as bs : List Action) :
    c.play p (as ++ bs) = (c.play p as).bind fun p' => c.play p' bs := by
  rw [play, List.foldlM_append]
  rfl

/-- A plan can be played to its end. -/
lemma play_inTurn (hslot : c.HasSlot []) (size : ℤ) :
    ∀ n : ℕ, (n : ℤ) ≤ c.partCount size → ∃ parts,
      c.play (.group (c.firstGroup size)) (inTurn n) = some (.group ⟨size, n, [], parts, false⟩)
  | 0, _ => ⟨_, rfl⟩
  | n + 1, hn => by
      obtain ⟨parts, h⟩ := play_inTurn hslot size n (by omega)
      have hlt : (n : ℤ) < c.partCount size := by omega
      refine ⟨parts.set n (some ⟨"etag", (c.partRequest size n).number⟩), ?_⟩
      rw [inTurn, play_append, h, Option.bind_some]
      simp [play, step, stepGroup, goNext, store, hlt, hslot]

/-- The whole run of a plan. -/
lemma exists_complete (hslot : c.HasSlot []) (size : ℤ) (hsize : c.maxSingle < size)
    (hscaled : c.scaled size ≠ 0) (hcount : 0 ≤ c.partCount size) :
    ∃ as parts, c.play .head as = some (.complete size parts) := by
  obtain ⟨n, hn⟩ := Int.eq_ofNat_of_zero_le hcount
  obtain ⟨parts, h⟩ := play_inTurn hslot size n hn.ge
  refine ⟨[.headed (sized size), .created] ++ (inTurn n ++ [.waited]), parts, ?_⟩
  have hhead : c.step .head (.headed (sized size)) = some (.create (sized size) size) := by
    simp [step, sized, not_le.mpr hsize, hscaled]
  have hcreate : c.step (.create (sized size) size) .created = some (.group (c.firstGroup size)) := by
    simp [step, firstGroup, not_lt.mpr hcount]
  have hfront : c.play .head [.headed (sized size), .created] =
      some (.group (c.firstGroup size)) := by
    simp [play, hhead, hcreate]
  rw [play_append, hfront, Option.bind_some, play_append, h, Option.bind_some]
  simp [play, step, stepGroup, hn]

/-- One part for the whole of an object of seven exabytes: the size and the part size together wrap
around, and no part is left. -/
def hugeCopy : CrossCopy where
  maxSingle := 0
  partSize := 1
  maxParts := 1
  concurrency := 1
  maxSingle_nonneg := by decide
  partSize_pos := by decide
  partSize_lt := by decide
  maxParts_pos := by decide
  maxParts_lt := by decide

/-- A part for every byte. -/
def byteCopy : CrossCopy where
  maxSingle := 0
  partSize := 1
  maxParts := 2 ^ 31
  concurrency := 1
  maxSingle_nonneg := by decide
  partSize_pos := by decide
  partSize_lt := by decide
  maxParts_pos := by decide
  maxParts_lt := by decide

/-- Within the bounds on `size + partSize` and `size + maxParts` alone, a copy can complete with no
part at all, and one can complete with a part number that is negative. -/
theorem copies_source_wraps :
    (7000000000000000000 + hugeCopy.partSize < 2 ^ 63 ∧
      7000000000000000000 + hugeCopy.maxParts < 2 ^ 63 ∧
      hugeCopy.play .head [.headed (sized 7000000000000000000), .created, .waited] =
        some (.complete 7000000000000000000 [])) ∧
    (2 ^ 31 + byteCopy.partSize < 2 ^ 63 ∧ 2 ^ 31 + byteCopy.maxParts < 2 ^ 63 ∧
      ∃ as parts, byteCopy.play .head as = some (.complete (2 ^ 31) parts) ∧
        ∃ eTag, some ⟨eTag, -2 ^ 31⟩ ∈ parts) := by
  refine ⟨by decide +kernel, by decide +kernel, by decide +kernel, ?_⟩
  obtain ⟨as, parts, h⟩ := exists_complete (c := byteCopy) (by decide +kernel) (2 ^ 31)
    (by decide +kernel) (by decide +kernel) (by decide +kernel)
  refine ⟨as, parts, h, ?_⟩
  have hcol := (play_inv h).2
  have hlen : (parts.length : ℤ) = 2 ^ 31 := hcol.length.trans (by decide +kernel)
  obtain ⟨eTag, -, hparts⟩ := hcol.ordered
  refine ⟨eTag (2 ^ 31 - 1), ?_⟩
  rw [hparts]
  refine List.mem_map.mpr ⟨2 ^ 31 - 1, List.mem_range.mpr (by omega), ?_⟩
  exact congrArg (fun n => some (CompletedPart.mk _ n)) (by decide +kernel)

end CrossCopy

/-- Parts of one byte, one at a time, for everything that is not empty. -/
def tinyCopy : CrossCopy where
  maxSingle := 0
  partSize := 1
  maxParts := 10
  concurrency := 1
  maxSingle_nonneg := by decide
  partSize_pos := by decide
  partSize_lt := by decide
  maxParts_pos := by decide
  maxParts_lt := by decide

end Blobster.S3
