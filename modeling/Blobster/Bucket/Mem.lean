import Mathlib
import Blobster.Bucket.Store

/-!
# The mem and file drivers

The reference backend (`mem/mem.go`): a process-wide counter makes the version tokens, and a page
token is a position in the sorted listing of the moment.  The file driver (`file/file.go`) has random
version tokens; its `ListPage` differs only in where the keys come from.

* `memBackend`, `fileBackend` — their versions and listings; `Backend.Positional` — what the listings
  have in common, and **`Backend.Positional.split`** — what such a listing returns.
* **`memBackend_fresh`** — its version tokens are fresh, so what is proved of stores with fresh
  tokens holds of it; **`memBackend_listsStored`** — its listings contain only stored keys.
-/

namespace Blobster

/-- `decodePageToken`; the empty token is refused before. -/
def decodePageToken : PageToken → Option ℕ
  | .first => some 0
  | .at position => some position
  | _ => none

/-- `ListPage` of the mem driver: the objects from the token's position on. -/
def memListPage (s : Store) (token : PageToken) (pageSize : ℕ) (pref : String) :
    Option (List String × PageToken) :=
  let pageSize := if pageSize = 0 then 1000 else pageSize
  let results := s.keysUnder pref
  (decodePageToken token).map fun start =>
    let stop := min (start + pageSize) results.length
    if start ≥ results.length then ([], .done)
    else ((results.drop start).take (stop - start),
      if stop < results.length then .at stop else .done)

/-- A page is what comes next, and the position behind it if there is more. -/
lemma memListPage_eq {s : Store} {token : PageToken} {start n : ℕ} {pref : String}
    (hstart : decodePageToken token = some start) (hn : 0 < n) :
    memListPage s token n pref = some (((s.keysUnder pref).drop start).take n,
      if n < ((s.keysUnder pref).drop start).length then .at (start + n) else .done) := by
  simp only [memListPage, hstart, Option.map_some, hn.ne', if_false, List.length_drop]
  generalize s.keysUnder pref = results
  by_cases hend : start ≥ results.length
  · rw [if_pos hend, List.drop_eq_nil_of_le hend, List.take_nil, if_neg (by omega)]
  · rw [if_neg hend]
    by_cases hmore : n < results.length - start
    · rw [if_pos hmore, if_pos (by omega), Nat.min_eq_left (by omega), Nat.add_sub_cancel_left]
    · rw [if_neg hmore, if_neg (by omega), Nat.min_eq_right (by omega),
        List.take_of_length_le (by rw [List.length_drop]),
        List.take_of_length_le (by rw [List.length_drop]; omega)]

/-- The mem driver's versions count the commits; its listings are those of `ListPage`. -/
def memBackend : Backend where
  version n _ := Nat.repr (n + 1)
  lists s token pageSize pref keys next :=
    decide (memListPage s token pageSize pref = some (keys, next))

/-- The file driver's versions are the random tokens that the commits draw; its listings are those of
`ListPage`. -/
def fileBackend (token : ℕ → Version) : Backend where
  version n _ := token n
  lists := memBackend.lists

/-- A listing that resumes at a position. -/
def Backend.Positional (bk : Backend) : Prop :=
  ∀ s token pageSize pref keys next, bk.lists s token pageSize pref keys next = true →
    memListPage s token pageSize pref = some (keys, next)

lemma positional_memBackend : memBackend.Positional := fun _ _ _ _ _ _ h => of_decide_eq_true h

lemma positional_fileBackend (token : ℕ → Version) : (fileBackend token).Positional :=
  positional_memBackend

/-- **The mem driver's version tokens are fresh.** -/
theorem memBackend_fresh : memBackend.Fresh where
  inj h := Nat.succ_injective (Nat.repr_injective h)
  ne_empty _ _ := Nat.repr_ne_empty

/-- The keys of a map with the given beginning, in order. -/
lemma mem_keysWith {β : String → Type} {m : AList β} {pref key : String} :
    key ∈ (m.keys.filter fun k => pref.toList.isPrefixOf k.toList).insertionSort (· ≤ ·) ↔
      (∃ x, key = pref ++ x) ∧ m.lookup key ≠ none := by
  have hget : key ∈ m.keys ↔ m.lookup key ≠ none := by
    rw [← AList.mem_keys, ← AList.lookup_isSome, Option.isSome_iff_ne_none]
  have hpref : pref.toList.isPrefixOf key.toList = true ↔ ∃ x, key = pref ++ x := by
    rw [List.isPrefixOf_iff_prefix]
    constructor
    · rintro ⟨l, hl⟩
      exact ⟨String.ofList l, String.toList_inj.mp (by simp [hl])⟩
    · rintro ⟨x, rfl⟩
      exact ⟨x.toList, by simp⟩
  rw [List.mem_insertionSort, List.mem_filter, hget, hpref, and_comm]

lemma keysWith_sorted {β : String → Type} (m : AList β) (pref : String) :
    ((m.keys.filter fun k => pref.toList.isPrefixOf k.toList).insertionSort (· ≤ ·)).Pairwise
      (· < ·) := by
  have hnodup := (List.perm_insertionSort (· ≤ ·)
    (m.keys.filter fun k => pref.toList.isPrefixOf k.toList)).nodup_iff.mpr (m.nodupKeys.filter _)
  exact (List.pairwise_insertionSort _ _).imp₂ (fun _ _ h hne => lt_of_le_of_ne h hne) hnodup

lemma Store.mem_keysUnder {s : Store} {pref key : String} :
    key ∈ s.keysUnder pref ↔ (∃ x, key = pref ++ x) ∧ s.get key ≠ none :=
  mem_keysWith

lemma Store.get_ne_none_of_mem_keysUnder {s : Store} {pref key : String}
    (h : key ∈ s.keysUnder pref) : s.get key ≠ none :=
  (Store.mem_keysUnder.mp h).2

/-- The keys under a prefix are listed in order, each once. -/
lemma Store.keysUnder_sorted (s : Store) (pref : String) :
    (s.keysUnder pref).Pairwise (· < ·) :=
  keysWith_sorted _ _

/-- What is deleted is no longer listed, and nothing else changes. -/
lemma Store.keysUnder_erase (s : Store) (pref key : String) :
    (s.erase key).keysUnder pref = (s.keysUnder pref).filter (· ≠ key) := by
  refine ((s.erase key).keysUnder_sorted pref).eq_of_mem_iff ((s.keysUnder_sorted pref).filter _)
    fun k => ?_
  rw [List.mem_filter, Store.mem_keysUnder, Store.mem_keysUnder]
  by_cases hk : k = key
  · simp [hk]
  · simp [hk, Store.get_erase_ne _ _ hk]

/-- A bucket with an empty object under each of the first `n` keys. -/
def Store.filled (bk : Backend) (keys : ℕ → String) : ℕ → Store
  | 0 => {}
  | n + 1 => (filled bk keys n).put bk (keys n) .empty []

section Filled

variable {bk : Backend} {keys : ℕ → String} (hkeys : ∀ {i j}, i < j → keys i < keys j)

lemma Store.get_filled (n : ℕ) (key : String) :
    (Store.filled bk keys n).get key ≠ none ↔ ∃ i < n, key = keys i := by
  induction n with
  | zero => simp [Store.filled]
  | succ n ih =>
      rw [Store.filled]
      by_cases hk : key = keys n
      · subst hk
        simpa using ⟨n, le_rfl, rfl⟩
      · rw [Store.get_put_ne _ _ _ _ _ hk, ih]
        constructor
        · rintro ⟨i, hi, rfl⟩
          exact ⟨i, hi.trans n.lt_succ_self, rfl⟩
        · rintro ⟨i, hi, rfl⟩
          exact ⟨i, lt_of_le_of_ne (Nat.le_of_lt_succ hi) fun h => hk (h ▸ rfl), rfl⟩

include hkeys in
lemma Store.keysUnder_filled {pref : String} (hpref : ∀ i, ∃ x, keys i = pref ++ x) (n : ℕ) :
    (Store.filled bk keys n).keysUnder pref = (List.range n).map keys := by
  have hsorted : ((List.range n).map keys).Pairwise (· < ·) :=
    List.pairwise_lt_range.map _ fun i j h => hkeys h
  refine ((Store.filled bk keys n).keysUnder_sorted _).eq_of_mem_iff hsorted fun key => ?_
  rw [Store.mem_keysUnder, Store.get_filled, List.mem_map]
  constructor
  · rintro ⟨-, i, hi, rfl⟩
    exact ⟨i, List.mem_range.mpr hi, rfl⟩
  · rintro ⟨i, hi, rfl⟩
    exact ⟨hpref i, i, List.mem_range.mp hi, rfl⟩

end Filled

/-- **What a positional listing returns**: what follows the position, up to the end or to a position
behind it. -/
lemma Backend.Positional.split {bk : Backend} (hbk : bk.Positional) {s : Store} {token : PageToken}
    {pageSize : ℕ} {pref : String} {keys : List String} {next : PageToken}
    (h : bk.lists s token pageSize pref keys next = true) :
    ∃ start rest, decodePageToken token = some start ∧
      (s.keysUnder pref).drop start = keys ++ rest ∧
      (next = .done ∧ rest = [] ∨ next = .at (start + keys.length)) := by
  obtain ⟨start, hstart, -⟩ := Option.map_eq_some_iff.mp (hbk _ _ _ _ _ _ h)
  obtain ⟨size, hsize, heq⟩ : ∃ size, 0 < size ∧
      memListPage s token size pref = some (keys, next) := by
    by_cases hzero : pageSize = 0
    · exact ⟨1000, by decide, by simpa [memListPage, hzero] using hbk _ _ _ _ _ _ h⟩
    · exact ⟨pageSize, Nat.pos_of_ne_zero hzero, hbk _ _ _ _ _ _ h⟩
  rw [memListPage_eq hstart hsize, Option.some.injEq, Prod.mk.injEq] at heq
  obtain ⟨rfl, rfl⟩ := heq
  refine ⟨start, _, hstart, (List.take_append_drop size _).symm, ?_⟩
  by_cases hmore : size < ((s.keysUnder pref).drop start).length
  · rw [if_pos hmore, List.length_take_of_le hmore.le]
    exact .inr rfl
  · rw [if_neg hmore]
    exact .inl ⟨rfl, List.drop_eq_nil_of_le (not_lt.mp hmore)⟩

/-- The first page holds as many keys from the head of the listing as were asked for. -/
structure Backend.HeadPages (bk : Backend) : Prop where
  answers : ∀ (s : Store) (n : ℕ) (pref : String), 0 < n →
    ∃ keys next, bk.lists s .first n pref keys next = true
  eq_take : ∀ {s : Store} {n : ℕ} {pref : String} {keys : List String} {next : PageToken}, 0 < n →
    bk.lists s .first n pref keys next = true → keys = (s.keysUnder pref).take n

lemma headPages_memBackend : memBackend.HeadPages where
  answers s n pref _ := by
    obtain ⟨r, hr⟩ : ∃ r, memListPage s .first n pref = some r := ⟨_, rfl⟩
    exact ⟨r.1, r.2, decide_eq_true hr⟩
  eq_take {s n pref keys next} hn h := by
    have h := positional_memBackend _ _ _ _ _ _ h
    rw [memListPage_eq rfl hn, Option.some.injEq, Prod.mk.injEq] at h
    rw [← h.1, List.drop_zero]

/-- **The mem driver lists only what is stored.** -/
theorem memBackend_listsStored : memBackend.ListsStored := by
  intro s token pageSize pref keys next h key hkey
  obtain ⟨start, -, heq⟩ := Option.map_eq_some_iff.mp (of_decide_eq_true h)
  suffices hmem : key ∈ s.keysUnder pref from Store.get_ne_none_of_mem_keysUnder hmem
  by_cases hstart : start ≥ (s.keysUnder pref).length
  · rw [if_pos hstart] at heq
    obtain ⟨rfl, -⟩ := Prod.mk.inj heq
    exact absurd hkey List.not_mem_nil
  · rw [if_neg hstart] at heq
    obtain ⟨rfl, -⟩ := Prod.mk.inj heq
    exact List.mem_of_mem_drop (List.mem_of_mem_take hkey)

end Blobster
