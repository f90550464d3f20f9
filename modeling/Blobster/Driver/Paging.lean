import Mathlib.Algebra.BigOperators.Group.List.Basic
import Mathlib.Algebra.GroupWithZero.Nat
import Blobster.Driver.Options
import Blobster.Lexical.Decimal

/-!
# Page tokens and pages

`ListPage` of the mem and file drivers, which differ only in where the listing comes from, and the
`ListIterator` of `blobster.go` on top of it.  A page token is a position in the listing, in decimal.
Positions and page sizes are machine integers.

* `atoi`, `itoa` — `strconv`; **`atoi_itoa`**.
* `slice` — a slice expression, with the panic of one that is out of bounds.
* `pageOfListing` — `ListPage` over a listing; **`pageOfListing_eq`** — the page it returns, as long
  as the end of the page is a machine integer.
* `pageThrough` — calls from the first token on, until the token is empty;
  **`pageThrough_eq`** — they return the listing.
* `ListIterator`, `ListIterator.answers`; **`answers_eq`** — the iterator yields the listing, and
  `io.EOF` from then on.
-/

namespace Blobster

open Lexical

/-- What a call ends in. -/
inductive Outcome (ε α : Type) where
  | ok (a : α)
  | error (e : ε)
  | panicked
deriving DecidableEq

/-- The errors of a listing: `io.EOF` for a listing that has ended, and the others. -/
inductive ListErr where
  | eof
  | err (e : Err)
deriving DecidableEq

/-! ## Machine integers -/

/-- `strconv.Atoi`: digits with an optional sign, in the range of `int`. -/
def atoi (s : String) : Option Int64 :=
  let (negative, digits) := match s.toList with
    | '-' :: digits => (true, digits)
    | '+' :: digits => (false, digits)
    | digits => (false, digits)
  if digits = [] ∨ ¬ digits.all Char.isDigit then none
  else
    let n : ℤ := if negative then -digitsValue 0 digits else digitsValue 0 digits
    if -2 ^ 63 ≤ n ∧ n < 2 ^ 63 then some (.ofInt n) else none

/-- `strconv.Itoa`. -/
def itoa (n : Int64) : String := n.toInt.repr

/-- `l[lo:hi]`; out of bounds it panics. -/
def slice {α : Type} (l : List α) (lo hi : Int64) : Option (List α) :=
  if 0 ≤ lo ∧ lo ≤ hi ∧ hi.toInt ≤ l.length then
    some ((l.take hi.toInt.toNat).drop lo.toInt.toNat)
  else none

/-- The position `n`, for one that is a machine integer. -/
lemma toInt_ofNat {n : ℕ} (h : n < 2 ^ 63) : (Int64.ofNat n).toInt = n :=
  Int64.toInt_ofNat_of_lt h

lemma toInt_add_of_lt {a b : Int64} (ha : 0 ≤ a.toInt) (hb : 0 ≤ b.toInt)
    (h : a.toInt + b.toInt < 2 ^ 63) : (a + b).toInt = a.toInt + b.toInt := by
  rw [Int64.toInt_add]
  exact Int.bmod_eq_of_le_mul_two (by omega) (by omega)

/-- A sum that is no machine integer is negative. -/
lemma toInt_add_of_ge {a b : Int64} (h : 2 ^ 63 ≤ a.toInt + b.toInt) : (a + b).toInt < 0 := by
  have ha := a.toInt_lt
  have hb := b.toInt_lt
  rw [Int64.toInt_add, Int.bmod_def]
  split <;> omega

lemma toInt_min (a b : Int64) : (min a b).toInt = min a.toInt b.toInt := by
  change (if a ≤ b then a else b).toInt = _
  simp only [Int64.le_iff_toInt_le]
  split_ifs <;> omega

lemma repr_ne_nil (n : ℕ) : Nat.toDigits 10 n ≠ [] := fun h => by
  exact Nat.repr_ne_empty (n := n) (by rw [← String.toList_inj, Nat.toList_repr, h]; rfl)

lemma itoa_of_nonneg {a : Int64} (h : 0 ≤ a.toInt) : itoa a = a.toInt.toNat.repr := by
  rw [itoa]
  obtain ⟨n, hn⟩ := Int.eq_ofNat_of_zero_le h
  rw [hn]
  rfl

lemma itoa_ofNat {n : ℕ} (h : n < 2 ^ 63) : itoa (.ofNat n) = n.repr := by
  rw [itoa_of_nonneg (by rw [toInt_ofNat h]; exact Int.natCast_nonneg n), toInt_ofNat h,
    Int.toNat_natCast]

/-- **A printed position is read back.** -/
theorem atoi_itoa {n : ℕ} (h : n < 2 ^ 63) : atoi (itoa (.ofNat n)) = some (.ofNat n) := by
  have hdigit : ∀ c ∈ Nat.toDigits 10 n, c.isDigit = true := fun c hc =>
    Nat.isDigit_of_mem_toDigits (by decide) (by decide) hc
  have hmatch : (match Nat.toDigits 10 n with
      | '-' :: digits => (true, digits)
      | '+' :: digits => (false, digits)
      | digits => (false, digits)) = (false, Nat.toDigits 10 n) := by
    split
    · rename_i heq
      exact absurd (hdigit '-' (by rw [heq]; exact List.mem_cons_self)) (by decide)
    · rename_i heq
      exact absurd (hdigit '+' (by rw [heq]; exact List.mem_cons_self)) (by decide)
    · rfl
  have hrange : -2 ^ 63 ≤ (n : ℤ) ∧ (n : ℤ) < 2 ^ 63 := by omega
  rw [itoa_ofNat h, atoi, Nat.toList_repr, hmatch]
  simp only [repr_ne_nil, List.all_eq_true.mpr hdigit, not_true, or_false, if_false,
    Bool.false_eq_true, digitsValue_toDigits, if_pos hrange]
  refine congrArg some (Int64.toInt_inj.mp ?_)
  rw [Int64.toInt_ofInt_of_le hrange.1 hrange.2, toInt_ofNat h]

/-! ## A page -/

/-- `FirstPageToken`. -/
def firstPageToken : String := "first page"

/-- `decodePageToken`. -/
def decodePosition (token : String) : Except Err Int64 :=
  if token = firstPageToken then .ok 0
  else match atoi token with
    | some offset => if offset < 0 then .error .invalidOption else .ok offset
    | none => .error .invalidOption

/-- `ListOptions`.  `beforeList` is what the hook returns. -/
structure ListOptions where
  pref : String := ""
  delimiter : String := ""
  beforeList : Option Err := none

/-- `ListObject`, without the driver's native value. -/
structure ListObject where
  key : String
  modTime : ℤ := 0
  size : ℕ := 0
  md5 : ByteArray := .empty
  isDir : Bool := false
deriving DecidableEq

/-- `ListPage`, with what the driver lists as `results`. -/
def pageOfListing (ctx : Option Err) (pageToken : String) (pageSize : Int64)
    (beforeList : Option Err) (results : Except Err (List ListObject)) :
    Outcome ListErr (List ListObject × String) :=
  match ctx with
  | some e => .error (.err e)
  | none =>
      if pageToken = "" then .error .eof
      else match decodePosition pageToken, beforeList, results with
        | .error e, _, _ => .error (.err e)
        | .ok _, some e, _ => .error (.err e)
        | .ok _, none, .error e => .error (.err e)
        | .ok start, none, .ok results =>
            let pageSize := if pageSize ≤ 0 then 1000 else pageSize
            let total := Int64.ofNat results.length
            if start ≥ total then .ok ([], "")
            else
              let stop := min (start + pageSize) total
              match slice results start stop with
              | none => .panicked
              | some page => .ok (page, if stop < total then itoa stop else "")

/-- The token of a position: the empty one from the end on. -/
def tokenAt (total n : ℕ) : String := if n < total then (itoa (.ofNat n)) else ""

lemma decodePosition_ok {token : String} {start : Int64} (h : decodePosition token = .ok start) :
    token ≠ "" ∧ 0 ≤ start.toInt := by
  rw [decodePosition] at h
  split_ifs at h with hfirst
  · obtain rfl := Except.ok.inj h
    exact ⟨by rw [hfirst]; decide, le_rfl⟩
  · split at h
    · rename_i offset hatoi
      split_ifs at h with hneg
      obtain rfl := Except.ok.inj h
      refine ⟨?_, not_lt.mp (by rwa [Int64.lt_iff_toInt_lt] at hneg)⟩
      rintro rfl
      have hempty : atoi "" = none := by decide
      rw [hempty] at hatoi
      cases hatoi
    · cases h

/-- A token for a position in a listing. -/
def Marks (token : String) (n : ℕ) : Prop := token ≠ "" ∧ decodePosition token = .ok (.ofNat n)

lemma marks_first : Marks firstPageToken 0 := ⟨by decide, if_pos rfl⟩

lemma marks_tokenAt {total n : ℕ} (hn : n < total) (ht : total < 2 ^ 63) :
    Marks (tokenAt total n) n := by
  have hlt : n < 2 ^ 63 := hn.trans ht
  have hrepr : itoa (.ofNat n) = n.repr := itoa_ofNat hlt
  have hfirst : n.repr ≠ firstPageToken := fun h => by
    have hmem : 'f' ∈ Nat.toDigits 10 n := by rw [← Nat.toList_repr, h]; decide
    exact absurd (Nat.isDigit_of_mem_toDigits (by decide) (by decide) hmem) (by decide)
  have hpos : ¬ Int64.ofNat n < 0 := by
    rw [Int64.lt_iff_toInt_lt, toInt_ofNat hlt]
    exact not_lt.mpr (Int.natCast_nonneg n)
  rw [tokenAt, if_pos hn]
  refine ⟨by rw [hrepr]; exact Nat.repr_ne_empty, ?_⟩
  rw [decodePosition, if_neg (by rwa [hrepr]), atoi_itoa hlt]
  exact if_neg hpos

lemma slice_eq {α : Type} {l : List α} {lo hi : ℕ} (hlo : lo ≤ hi) (hhi : hi ≤ l.length)
    (hl : l.length < 2 ^ 63) :
    slice l (.ofNat lo) (.ofNat hi) = some ((l.take hi).drop lo) := by
  have h1 := toInt_ofNat (n := lo) (by omega)
  have h2 := toInt_ofNat (n := hi) (by omega)
  rw [slice, if_pos, h1, h2]
  · rfl
  · rw [Int64.le_iff_toInt_le, Int64.le_iff_toInt_le, h1, h2]
    exact ⟨Int.natCast_nonneg lo, by omega, by omega⟩

/-- **What `ListPage` returns**, when the page ends at a machine integer: the part of the listing from
the position on, and the position behind it. -/
theorem pageOfListing_eq {token : String} {start : ℕ} {pageSize : Int64} {l : List ListObject}
    (htoken : Marks token start) (hstart : start < 2 ^ 63) (hl : l.length < 2 ^ 63)
    (hsize : 0 < pageSize.toInt) (hfits : start < l.length → start + pageSize.toInt < 2 ^ 63) :
    pageOfListing none token pageSize none (.ok l) =
      .ok ((l.drop start).take pageSize.toInt.toNat,
        tokenAt l.length (start + pageSize.toInt.toNat)) := by
  have htotal := toInt_ofNat hl
  have hs := toInt_ofNat hstart
  have hpage : ¬ pageSize ≤ 0 := by
    rw [Int64.le_iff_toInt_le]
    exact not_le.mpr hsize
  simp only [pageOfListing, htoken.1, if_false, htoken.2, hpage, ge_iff_le,
    Int64.le_iff_toInt_le, hs, htotal, Int.ofNat_le]
  by_cases hend : l.length ≤ start
  · rw [if_pos hend, List.drop_eq_nil_of_le hend, List.take_nil, tokenAt, if_neg (by omega)]
  · have hsum : (Int64.ofNat start + pageSize).toInt = start + pageSize.toInt := by
      rw [toInt_add_of_lt (by omega) (by omega) (by rw [hs]; exact hfits (not_le.mp hend)), hs]
    have hstop : min (Int64.ofNat start + pageSize) (Int64.ofNat l.length) =
        .ofNat (min (start + pageSize.toInt.toNat) l.length) := by
      rw [← Int64.toInt_inj, toInt_min, hsum, htotal, toInt_ofNat (by omega)]
      omega
    rw [if_neg hend, hstop, slice_eq (by omega) (by omega) hl]
    simp only [Int64.lt_iff_toInt_lt, htotal, toInt_ofNat
      (n := min (start + pageSize.toInt.toNat) l.length) (by omega), tokenAt]
    refine congrArg Outcome.ok (Prod.ext ?_ ?_)
    · change (l.take _).drop start = _
      rw [List.drop_take, List.take_eq_take_iff, List.length_drop]
      omega
    · by_cases hmore : start + pageSize.toInt.toNat < l.length
      · rw [if_pos (by omega), if_pos hmore, min_eq_left hmore.le]
      · rw [if_neg (by omega), if_neg hmore]

/-! ## Page after page -/

section Calls

variable (call : String → Int64 → Outcome ListErr (List ListObject × String))

/-- The calls with the given page sizes, each with the token of the last one, until the token is
empty; with everything they return. -/
def pageThrough : List Int64 → String → Outcome ListErr (List ListObject × String)
  | [], token => .ok ([], token)
  | pageSize :: sizes, token =>
      if token = "" then .ok ([], "")
      else match call token pageSize with
        | .ok (page, next) =>
            match pageThrough sizes next with
            | .ok (pages, last) => .ok (page ++ pages, last)
            | .error e => .error e
            | .panicked => .panicked
        | .error e => .error e
        | .panicked => .panicked

/-- `ListIterator`. -/
structure ListIterator where
  pageToken : String
  page : List ListObject
  done : Bool
  pageSize : Int64

/-- `NewListIterator`. -/
def newListIterator : ListIterator := ⟨firstPageToken, [], false, 1000⟩

/-- `Next`. -/
def ListIterator.next : ℕ → ListIterator → Option (Outcome ListErr ListObject × ListIterator)
  | 0, _ => none
  | fuel + 1, i =>
      match i.page with
      | o :: page => some (.ok o, { i with page := page })
      | [] =>
          if i.done then some (.error .eof, i)
          else match call i.pageToken i.pageSize with
            | .ok (page, next) =>
                ListIterator.next fuel
                  { i with pageToken := next, done := i.done || next == "", page := page }
            | .error e => some (.error e, i)
            | .panicked => some (.panicked, i)

/-- What `n` calls of `Next` answer. -/
def ListIterator.answers (fuel : ℕ) : ℕ → ListIterator → Option (List (Outcome ListErr ListObject))
  | 0, _ => some []
  | n + 1, i =>
      (i.next call fuel).bind fun (answer, i) => (i.answers fuel n).map (answer :: ·)

end Calls

section Listing

variable {l : List ListObject} {call : String → Int64 → Outcome ListErr (List ListObject × String)}

/-- The total of the page sizes. -/
def sizeSum (sizes : List Int64) : ℕ := (sizes.map fun n => n.toInt.toNat).sum

/-- Every call asks for something, and no page that begins inside the listing, behind `start`
objects, ends beyond the machine integers. -/
def Fits (total : ℕ) : ℕ → List Int64 → Prop
  | _, [] => True
  | start, pageSize :: sizes =>
      0 < pageSize.toInt ∧ (start < total → start + pageSize.toInt < 2 ^ 63) ∧
        Fits total (start + pageSize.toInt.toNat) sizes

/-- The calls from a position on. -/
lemma pageThrough_from (hcall : ∀ token size, call token size =
      pageOfListing none token size none (.ok l)) (hl : l.length < 2 ^ 63) {sizes : List Int64}
    {start : ℕ} {token : String} (hstart : start < l.length) (htoken : Marks token start)
    (hfits : Fits l.length start sizes) (hsum : l.length ≤ start + sizeSum sizes) :
    pageThrough call sizes token = .ok (l.drop start, "") := by
  induction sizes generalizing start token with
  | nil => exact absurd hsum (by simp [sizeSum, hstart])
  | cons pageSize sizes ih =>
      obtain ⟨hpos, hfit, hfits⟩ := hfits
      have hpage := pageOfListing_eq htoken (hstart.trans hl) hl hpos hfit
      simp only [pageThrough, if_neg htoken.1, hcall, hpage]
      have hrest : (l.drop start).take pageSize.toInt.toNat ++
          l.drop (start + pageSize.toInt.toNat) = l.drop start := by
        rw [← List.drop_drop, List.take_append_drop]
      by_cases hmore : start + pageSize.toInt.toNat < l.length
      · have hnext := ih hmore (marks_tokenAt hmore hl) hfits (by
          simpa [sizeSum, Nat.add_assoc] using hsum)
        simp only [hnext, hrest]
      · -- the last page: the calls stop here, whatever sizes are left
        rw [tokenAt, if_neg hmore]
        have hstop : pageThrough call sizes "" = .ok ([], "") := by cases sizes <;> rfl
        rw [List.drop_eq_nil_of_le (not_lt.mp hmore), List.append_nil] at hrest
        simp only [hstop, hrest, List.append_nil]

/-- **The pages add up to the listing**, whatever their sizes. -/
theorem pageThrough_eq (hcall : ∀ token size, call token size =
      pageOfListing none token size none (.ok l)) (hl : l.length < 2 ^ 63) {sizes : List Int64}
    (hne : sizes ≠ []) (hfits : Fits l.length 0 sizes) (hsum : l.length ≤ sizeSum sizes) :
    pageThrough call sizes firstPageToken = .ok (l, "") := by
  by_cases hnil : l = []
  · subst hnil
    obtain ⟨pageSize, sizes, rfl⟩ := List.exists_cons_of_ne_nil hne
    have hpage := pageOfListing_eq marks_first (by decide) hl hfits.1 hfits.2.1
    have hstop : pageThrough call sizes "" = .ok ([], "") := by cases sizes <;> rfl
    have htoken : tokenAt ([] : List ListObject).length (0 + pageSize.toInt.toNat) = "" := if_neg (by simp)
    rw [htoken] at hpage
    simp only [pageThrough, if_neg marks_first.1, hcall, hpage, hstop]
    simp
  · exact pageThrough_from hcall hl (List.length_pos_of_ne_nil hnil) marks_first hfits (by
      rwa [Nat.zero_add])

/-- The iterator has the objects `rest` still to yield. -/
def ListIterator.Holds (l : List ListObject) (i : ListIterator) (rest : List ListObject) : Prop :=
  i.pageSize = 1000 ∧ ∃ start, start ≤ l.length ∧ rest = i.page ++ l.drop start ∧
    (i.done = true ∧ start = l.length ∨ i.done = false ∧ Marks i.pageToken start)

lemma holds_new (l : List ListObject) : newListIterator.Holds l l :=
  ⟨rfl, 0, Nat.zero_le _, rfl, .inr ⟨rfl, marks_first⟩⟩

/-- What `Next` answers, with these objects still to yield. -/
def answerOf : List ListObject → Outcome ListErr ListObject
  | [] => .error .eof
  | o :: _ => .ok o

/-- An iterator that has an object at hand, or knows that there is none. -/
lemma ListIterator.Holds.next_settled {i : ListIterator} {rest : List ListObject} (fuel : ℕ)
    (h : i.Holds l rest) (hset : i.page ≠ [] ∨ i.done = true) :
    ∃ i', i.next call (fuel + 1) = some (answerOf rest, i') ∧ i'.Holds l rest.tail := by
  obtain ⟨hsize, start, hstart, hrest, hpos⟩ := h
  cases hpage : i.page with
  | cons o page =>
      refine ⟨{ i with page := page }, ?_, hsize, start, hstart, ?_, hpos⟩
      · simp only [ListIterator.next, hpage, hrest, List.cons_append, answerOf]
      · rw [hrest, hpage, List.cons_append, List.tail_cons]
  | nil =>
      have hdone : i.done = true := hset.resolve_left fun h => h hpage
      have hend : start = l.length := by
        rcases hpos with h | h
        · exact h.2
        · rw [hdone] at h
          exact absurd h.1 (by decide)
      have hnil : rest = [] := by rw [hrest, hpage, hend, List.drop_length]; rfl
      subst hnil
      refine ⟨i, ?_, hsize, start, hstart, hrest, hpos⟩
      simp only [ListIterator.next, hpage, hdone, if_true, answerOf]

/-- What one call of `Next` answers, and what is left then. -/
lemma ListIterator.Holds.next {i : ListIterator} {rest : List ListObject} {fuel : ℕ}
    (hcall : ∀ token size, call token size = pageOfListing none token size none (.ok l))
    (hl : l.length + 1000 < 2 ^ 63) (hfuel : 2 ≤ fuel) (h : i.Holds l rest) :
    ∃ i', i.next call fuel = some (answerOf rest, i') ∧ i'.Holds l rest.tail := by
  obtain ⟨fuel, rfl⟩ := Nat.exists_eq_add_of_le' hfuel
  by_cases hset : i.page ≠ [] ∨ i.done = true
  · exact h.next_settled _ hset
  rw [not_or, not_not, Bool.not_eq_true] at hset
  obtain ⟨hsize, start, hstart, hrest, hpos⟩ := h
  have htoken : Marks i.pageToken start := by
    rcases hpos with h | h
    · rw [hset.2] at h
      exact absurd h.1 (by decide)
    · exact h.2
  have hone : (1000 : Int64).toInt = 1000 := by decide
  have hpos : 0 < (1000 : Int64).toInt := by decide
  have hlist := pageOfListing_eq htoken (by omega) (by omega : l.length < 2 ^ 63) hpos
    (by rw [hone]; omega)
  rw [hone] at hlist
  -- one page is fetched, and the second round of the loop looks at it
  have hstep : i.next call (fuel + 2) = ListIterator.next call (fuel + 1)
      { i with pageToken := tokenAt l.length (start + 1000),
               done := tokenAt l.length (start + 1000) == "",
               page := (l.drop start).take 1000 } := by
    rw [ListIterator.next]
    simp only [hset.1, hset.2, Bool.false_eq_true, if_false, hsize, hcall, hlist, Bool.false_or]
    rfl
  rw [hstep]
  have hsplit : rest = (l.drop start).take 1000 ++ l.drop (start + 1000) := by
    rw [← List.drop_drop, List.take_append_drop, hrest, hset.1, List.nil_append]
  by_cases hmore : start + 1000 < l.length
  · have hmarks := marks_tokenAt hmore (by omega)
    refine ListIterator.Holds.next_settled fuel
      ⟨hsize, start + 1000, hmore.le, hsplit, .inr ⟨by simpa using hmarks.1, hmarks⟩⟩ (.inl ?_)
    simp only [ne_eq, List.take_eq_nil_iff, List.drop_eq_nil_iff]
    omega
  · have hdone : (tokenAt l.length (start + 1000) == "") = true := by
      rw [tokenAt, if_neg hmore]
      rfl
    refine ListIterator.Holds.next_settled fuel
      ⟨hsize, l.length, le_rfl, ?_, .inl ⟨hdone, rfl⟩⟩ (.inr hdone)
    rw [hsplit, List.drop_eq_nil_of_le (not_lt.mp hmore), List.drop_length]

/-- **The iterator yields the listing**, and `io.EOF` from then on. -/
theorem answers_eq {i : ListIterator} {rest : List ListObject} {fuel : ℕ}
    (hcall : ∀ token size, call token size = pageOfListing none token size none (.ok l))
    (hl : l.length + 1000 < 2 ^ 63) (hfuel : 2 ≤ fuel) (h : i.Holds l rest) (n : ℕ) :
    i.answers call fuel n =
      some ((rest.take n).map .ok ++ List.replicate (n - rest.length) (.error .eof)) := by
  induction n generalizing i rest with
  | zero => simp [ListIterator.answers]
  | succ n ih =>
      obtain ⟨i', hnext, h'⟩ := h.next hcall hl hfuel
      rw [ListIterator.answers, hnext, Option.bind_some]
      simp only [ih h']
      cases rest with
      | nil => simp [answerOf, List.replicate_succ]
      | cons o rest => simp [answerOf]

end Listing

end Blobster
