import Blobster.Queue.Trim

/-!
# Ids in lexical order

`newQueueID` and `queueIDTime` (`queue.go`).  A generated id carries its creation time in the first
thirteen characters, as a decimal number that is padded to that width, so that a listing of the keyspace
is a listing in time.  The sweep of `Trim` and the pages of a `Tail` stop at the first id past their
bound because of that, with whatever ids of another shape in between.

A Go string is any sequence of bytes.  It is read here one character a byte, `goString`, which keeps
the order of bytes: what `queueIDTime` looks at, the place of the first dash and the digits before it,
is the same for the bytes of a UTF-8 text as for its characters.

* `goString` and `goString_lt` — byte strings and their order.
* **`queueIDTime_newQueueID`** — the time that an id was made from is read back from it.
* `queueIDTime_sorted` — in a sorted list of ids the times are sorted.
* `IsOld.not_mem_behind`, `gated_behind` — what the two early stops leave out.
* **`lexical_order_is_time_order`**
-/

namespace Blobster

open Lexical

/-! ## Byte strings -/

/-- The Go string of these bytes, one character a byte. -/
def goString (bytes : List UInt8) : String :=
  String.ofList (bytes.map fun b => Char.ofNat b.toNat)

lemma toNat_charOfByte (b : UInt8) : (Char.ofNat b.toNat).toNat = b.toNat := by
  have hvalid : b.toNat.isValidChar := .inl (by have := b.toNat_lt; omega)
  rw [Char.ofNat, dif_pos hvalid]
  rfl

lemma goString_lt {bs cs : List UInt8} (h : bs < cs) : goString bs < goString cs := by
  rw [String.lt_iff_toList_lt, goString, goString, String.toList_ofList, String.toList_ofList]
  refine List.map_lt (fun b c hbc => ?_) h
  show (Char.ofNat b.toNat).toNat < (Char.ofNat c.toNat).toNat
  rw [toNat_charOfByte, toNat_charOfByte]
  exact UInt8.lt_iff_toNat_lt.mp hbc

lemma goString_le {bs cs : List UInt8} (h : ¬ cs < bs) : goString bs ≤ goString cs := by
  rcases Std.lt_trichotomy bs cs with hlt | rfl | hlt
  · exact (goString_lt hlt).le
  · exact le_rfl
  · exact absurd hlt h

/-! ## The time in a generated id -/

/-- The digits of `%013d`. -/
lemma toList_formatPadded (m : ℕ) :
    (formatPadded 13 m).toList =
      List.replicate (13 - (Nat.toDigits 10 m).length) '0' ++ Nat.toDigits 10 m := by
  have hneg : ¬ (m : ℤ) < 0 := by omega
  simp only [formatPadded, hneg, if_false, Int.natAbs_natCast, Nat.repr_eq_ofList_toDigits,
    String.toList_append, String.toList_ofList, String.length_ofList]

/-- **The time that an id was made from is read back from it**, to the millisecond. -/
lemma queueIDTime_newQueueID {m : ℕ} (hm : m < 10 ^ 13) {now : ℤ} (hnow : now / 1000000 = m)
    (suffix : String) : queueIDTime (newQueueID now suffix) = some (m * 1000000) := by
  have hlen : (Nat.toDigits 10 m).length ≤ 13 :=
    (Nat.length_toDigits_le_iff (by decide) (by decide)).mpr hm
  have hdigit : ∀ c ∈ (formatPadded 13 m).toList, c.isDigit = true := by
    rw [toList_formatPadded]
    intro c hc
    rcases List.mem_append.mp hc with hzero | hc
    · rw [List.eq_of_mem_replicate hzero]
      decide
    · exact Nat.isDigit_of_mem_toDigits (by decide) (by decide) hc
  have hid : (newQueueID now suffix).toList =
      (formatPadded 13 m).toList ++ '-' :: suffix.toList := by
    simp [newQueueID, hnow]
  have hts : (newQueueID now suffix).toList.takeWhile (· ≠ '-') = (formatPadded 13 m).toList := by
    rw [hid, List.takeWhile_append_of_pos fun c hc => ?_]
    · simp
    · have := hdigit c hc
      refine decide_eq_true fun hdash => ?_
      subst hdash
      cases this
  have hwidth : (formatPadded 13 m).toList.length = 13 := by
    rw [toList_formatPadded, List.length_append, List.length_replicate]
    omega
  have hvalue : digitsValue 0 (formatPadded 13 m).toList = m := by
    rw [toList_formatPadded, digitsValue_append, digitsValue_replicate_zero, digitsValue_toDigits]
  have hdash : '-' ∈ (newQueueID now suffix).toList := by simp [hid]
  simp only [queueIDTime, hts, hdash, hwidth, hvalue, List.all_eq_true.mpr hdigit]
  simp

/-! ## Sorted listings -/

/-- In a sorted list of ids the times are in order, whatever ids without one are in between. -/
lemma queueIDTime_sorted {ids : List String} (h : ids.Pairwise (· ≤ ·)) :
    (ids.filterMap queueIDTime).Pairwise (· ≤ ·) :=
  h.filterMap _ fun _ _ hle _ hx _ hy => queueIDTime_mono hx hy hle

/-- Behind an id that is not old there is none that is. -/
lemma IsOld.not_mem_behind {before behind : List String} {x : String} {horizon ts : ℤ}
    (h : (before ++ x :: behind).Pairwise (· ≤ ·)) (hx : queueIDTime x = some ts)
    (hts : ¬ ts < horizon) : ∀ y ∈ behind, ¬ IsOld horizon y := by
  intro y hy hold
  have hle : x ≤ y := (List.pairwise_cons.mp (List.pairwise_append.mp h).2.1).1 y hy
  exact absurd (hold.lt hx hts) (not_lt.mpr hle)

/-- Behind an id inside the lag window every id that carries a time is inside it. -/
lemma Tail.gated_behind {B : Type} {tl : Tail B} {before behind : List String} {x : String}
    {now : ℤ} (h : (before ++ x :: behind).Pairwise (· ≤ ·)) (hx : tl.gated now x = true) :
    ∀ y ∈ behind, ∀ ts, queueIDTime y = some ts → tl.gated now y = true := by
  intro y hy ty hty
  have hle : x ≤ y := (List.pairwise_cons.mp (List.pairwise_append.mp h).2.1).1 y hy
  cases htx : queueIDTime x with
  | none => simp [Tail.gated, htx] at hx
  | some tx =>
      have hmono := queueIDTime_mono htx hty hle
      simp only [Tail.gated, htx, hty, decide_eq_true_eq] at hx ⊢
      omega

/-- **Lexical order of ids is time order**: for the ids that `newQueueID` makes, for any two byte
strings that are of the shape, for the ids of the model's listings, and so for sorted lists and what the
two early stops leave unread. -/
theorem lexical_order_is_time_order :
    (∀ m : ℕ, m < 10 ^ 13 → ∀ now : ℤ, now / 1000000 = m → ∀ suffix,
      queueIDTime (newQueueID now suffix) = some (m * 1000000)) ∧
    (∀ (bs cs : List UInt8) (tx ty : ℤ), queueIDTime (goString bs) = some tx →
      queueIDTime (goString cs) = some ty → (bs < cs → tx ≤ ty) ∧ (tx < ty → bs < cs)) ∧
    (∀ (x y : String) (tx ty : ℤ), queueIDTime x = some tx → queueIDTime y = some ty →
      (x < y → tx ≤ ty) ∧ (tx < ty → x < y)) ∧
    (∀ ids : List String, ids.Pairwise (· ≤ ·) → (ids.filterMap queueIDTime).Pairwise (· ≤ ·)) ∧
    (∀ (before behind : List String) (x : String),
      (before ++ x :: behind).Pairwise (· ≤ ·) →
        (∀ horizon ts, queueIDTime x = some ts → ¬ ts < horizon →
          ∀ y ∈ behind, ¬ IsOld horizon y) ∧
        (∀ (B : Type) (tl : Tail B) (now : ℤ), tl.gated now x = true →
          ∀ y ∈ behind, ∀ ts, queueIDTime y = some ts → tl.gated now y = true)) := by
  refine ⟨fun m hm now hnow => queueIDTime_newQueueID hm hnow, fun bs cs tx ty hx hy => ⟨?_, ?_⟩,
    fun x y tx ty hx hy => ⟨?_, ?_⟩, fun ids => queueIDTime_sorted, fun before behind x h => ⟨?_, ?_⟩⟩
  · exact fun hlt => queueIDTime_mono hx hy (goString_lt hlt).le
  · intro hlt
    by_contra hge
    have := queueIDTime_mono hy hx (goString_le hge)
    omega
  · exact fun hlt => queueIDTime_mono hx hy hlt.le
  · intro hlt
    by_contra hge
    have := queueIDTime_mono hy hx (not_lt.mp hge)
    omega
  · exact fun horizon ts hx hts => IsOld.not_mem_behind h hx hts
  · exact fun B tl now hx => Tail.gated_behind h hx

/-- A generated id, a longer caller-supplied id of the same millisecond and a foreign id between two
times. -/
theorem lexical_order_is_time_order_mixed :
    queueIDTime (newQueueID 1700000000123999999 "a") = some 1700000000123000000 ∧
    (["1700000000123-", "1700000000123.x", "1700000000124-b"].filterMap queueIDTime).Pairwise
      (· ≤ ·) :=
  ⟨lexical_order_is_time_order.1 1700000000123 (by decide) 1700000000123999999 (by decide) "a",
    lexical_order_is_time_order.2.2.2.1 _ (by decide +kernel)⟩

end Blobster
