import Blobster.Queue.Sweep

/-!
# Short passes on the mem and file drivers

The page tokens of these drivers are positions in a listing that every call makes anew.  When a sweep
has removed `k` entries of a page of 1000, everything behind the page moves `k` places to the front,
and the next page begins `k` entries too far.

* `visitedAt` — the keys that such a scan visits: a page, then what follows it without as many keys as
  were deleted from it.
* `positionalListing` — this is what a sweep sees on the mem and file drivers.
* **`short_pass_clear_iff`** — a short pass means that the backlog is clear exactly when every old
  entry is visited.
* **`short_pass_leaves_old`** — 1001 messages of which the first and the last are old: a pass removes
  one and reports that it had no more to do.
-/

namespace Blobster

open Interleave

/-- The keys that a scan visits which resumes at a position and deletes the `old` keys of each page. -/
def visitedAt (old : String → Bool) (keys : List String) : List String :=
  if keys.length ≤ trimListPageSize then keys
  else keys.take trimListPageSize ++ visitedAt old
    (keys.drop (trimListPageSize + ((keys.take trimListPageSize).filter old).length))
termination_by keys.length
decreasing_by
  rw [List.length_drop]
  simp only [trimListPageSize] at *
  omega

section Visited

variable {old : String → Bool} {keys : List String}

lemma visitedAt_of_le (h : keys.length ≤ trimListPageSize) : visitedAt old keys = keys := by
  rw [visitedAt, if_pos h]

lemma visitedAt_of_lt (h : trimListPageSize < keys.length) :
    visitedAt old keys = keys.take trimListPageSize ++ visitedAt old
      (keys.drop (trimListPageSize + ((keys.take trimListPageSize).filter old).length)) := by
  rw [visitedAt, if_neg (not_le.mpr h)]

lemma visitedAt_subset {key : String} (h : key ∈ visitedAt old keys) : key ∈ keys := by
  induction keys using visitedAt.induct old with
  | case1 keys hle => rwa [visitedAt_of_le hle] at h
  | case2 keys hle ih =>
      rw [visitedAt_of_lt (not_le.mp hle), List.mem_append] at h
      rcases h with h | h
      · exact List.mem_of_mem_take h
      · exact List.mem_of_mem_drop (ih h)

end Visited

/-- The listing once the old keys of a page have been deleted. -/
lemma filter_page {pre page tail : List String} (old : String → Bool)
    (hnodup : (pre ++ (page ++ tail)).Nodup) :
    (pre ++ (page ++ tail)).filter (fun key => key ∉ page.filter old) =
      pre ++ (page.filter (fun key => !old key) ++ tail) := by
  obtain ⟨-, hpt, hpre⟩ := List.nodup_append.mp hnodup
  obtain ⟨-, -, htail⟩ := List.nodup_append.mp hpt
  rw [List.filter_append, List.filter_append]
  congr 1
  · refine List.filter_eq_self.mpr fun key hkey => decide_eq_true fun hg => ?_
    exact hpre key hkey key (List.mem_append_left _ (List.mem_of_mem_filter hg)) rfl
  congr 1
  · refine List.filter_congr fun key hkey => ?_
    cases hold : old key <;> simp [List.mem_filter, hkey, hold]
  · refine List.filter_eq_self.mpr fun key hkey => decide_eq_true fun hg => ?_
    exact htail key (List.mem_of_mem_filter hg) key hkey rfl

/-- What the next position then leads to: what follows the page, without as many keys. -/
lemma drop_filter_page {pre page tail : List String} (old : String → Bool)
    (hnodup : (pre ++ (page ++ tail)).Nodup) :
    ((pre ++ (page ++ tail)).filter (fun key => key ∉ page.filter old)).drop
      (pre.length + page.length) = tail.drop (page.filter old).length := by
  have hlen : page.length =
      (page.filter old).length + (page.filter fun key => !old key).length :=
    List.length_eq_length_filter_add old
  rw [filter_page old hnodup, ← List.append_assoc, hlen]
  have hsum : pre.length + ((page.filter old).length + (page.filter fun key => !old key).length) =
      (pre ++ page.filter fun key => !old key).length + (page.filter old).length := by
    rw [List.length_append]
    omega
  rw [hsum, List.drop_length_add_append]

/-- The same for a page of an ordered listing. -/
lemma resumes_behind_deleted {all : List String} (hall : all.Pairwise (· < ·)) {start n : ℕ}
    (old : String → Bool) (hn : n ≤ (all.drop start).length) :
    (all.filter (fun key => key ∉ ((all.drop start).take n).filter old)).drop (start + n) =
      ((all.drop start).drop n).drop (((all.drop start).take n).filter old).length := by
  have hsplit : all = all.take start ++ ((all.drop start).take n ++ (all.drop start).drop n) := by
    rw [List.take_append_drop, List.take_append_drop]
  have hnodup : (all.take start ++ ((all.drop start).take n ++ (all.drop start).drop n)).Nodup :=
    hsplit ▸ hall.imp fun h => ne_of_lt h
  have hdrop := drop_filter_page old hnodup
  rw [List.length_take_of_le hn, ← hsplit] at hdrop
  by_cases hzero : n = 0
  · subst hzero
    simp
  · rwa [List.length_take_of_le (by rw [List.length_drop] at hn; omega)] at hdrop

/-- The listing of the mem and file drivers. -/
def positionalListing {bk : Backend} (hbk : bk.lists = memBackend.lists) : Listing bk where
  remaining s pref token := (decodePageToken token).map fun start => (s.keysUnder pref).drop start
  visited := visitedAt
  first _ _ := rfl
  visited_subset := visitedAt_subset
  suffix h := by
    obtain ⟨start, -, rfl⟩ := Option.map_eq_some_iff.mp h
    exact List.drop_suffix _ _
  answers {s pref token rest} h := by
    obtain ⟨start, hstart, -⟩ := Option.map_eq_some_iff.mp h
    obtain ⟨r, hr⟩ : ∃ r, memListPage s token trimListPageSize pref = some r := by
      rw [memListPage, hstart]
      exact ⟨_, rfl⟩
    exact ⟨r.1, r.2, by rw [hbk]; exact decide_eq_true hr⟩
  page {s pref token rest keys next} h hl old := by
    obtain ⟨start, hstart, rfl⟩ := Option.map_eq_some_iff.mp h
    rw [hbk] at hl
    have hpage := positional_memBackend _ _ _ _ _ _ hl
    rw [memListPage_eq hstart (by decide), Option.some.injEq, Prod.mk.injEq] at hpage
    obtain ⟨rfl, rfl⟩ := hpage
    by_cases hmore : trimListPageSize < ((s.keysUnder pref).drop start).length
    · rw [if_pos hmore]
      refine ⟨_, _, (List.take_append_drop trimListPageSize _).symm, visitedAt_of_lt hmore,
        fun key hkey => ?_, fun hdone => (PageToken.noConfusion hdone), fun _ => ⟨fun hnil => ?_,
          fun s' hs' => ?_⟩⟩
      · rw [← List.drop_drop] at hkey
        exact List.mem_of_mem_drop (visitedAt_subset hkey)
      · have hlen := congrArg List.length hnil
        rw [List.length_take_of_le hmore.le] at hlen
        cases hlen
      · refine ⟨_, congrArg some ?_, List.drop_suffix _ _, congrArg _ List.drop_drop⟩
        rw [hs']
        exact resumes_behind_deleted (s.keysUnder_sorted pref) old hmore.le
    · rw [if_neg hmore]
      have hle := not_lt.mp hmore
      rw [visitedAt_of_le hle, List.take_of_length_le hle]
      exact ⟨[], [], by simp, by simp, fun _ h => h, fun _ => rfl, fun h => absurd rfl h⟩

/-! ## When a short pass means that the backlog is clear -/

section Pass

variable {B C : Type} [DecidableEq B] [DecidableEq C] {bk : B → Backend} {c : C} {q : Queue B}
  {w : World B C}

variable (bk c q w) in
/-- **A short pass means a clear backlog** exactly when the pass visits every old entry, or enough old
ones to use up its budget. -/
theorem short_pass_clear_iff (hbk : (bk q.bucket).lists = memBackend.lists) {retention : ℤ}
    {fuel : ℕ} (hret : 0 < retention)
    (hmsg : ((w.store q.bucket).keysUnder queueMsgPrefix).length < fuel)
    (hlease : ((w.store q.bucket).keysUnder queueLeasePrefix).length < fuel) :
    (q.trim retention fuel).Ensures (alone bk noFaults c) (fun r w' => r.1 < defaultTrimBatch →
        Clear (w.clock - retention) (w'.store q.bucket)) w ↔
      defaultTrimBatch ≤
          ((positionalListing hbk).reachedMessages (w.clock - retention) (w.store q.bucket)).length +
          ((positionalListing hbk).reachedLeases (w.clock - retention) (w.store q.bucket)).length ∨
        (positionalListing hbk).VisitsOld (w.clock - retention) (w.store q.bucket) := by
  have hrun := ensures_trim (c := c) (positionalListing hbk) hret hmsg hlease
  constructor
  · intro hclear
    obtain ⟨r, w', ⟨rfl, hs⟩, hc⟩ := (hrun.and hclear).exists_run
    refine or_iff_not_imp_left.mpr fun hfew => ?_
    have hshort := not_le.mp hfew
    exact (Listing.clear_iff_of_short hshort hs).mp (hc (Listing.short_iff.mpr hshort))
  · intro hvisits
    refine hrun.mono ?_
    rintro r w' ⟨rfl, hs⟩ hlt
    have hshort := Listing.short_iff.mp hlt
    exact (Listing.clear_iff_of_short hshort hs).mpr (hvisits.resolve_left (not_le.mpr hshort))

end Pass

/-- The entries of a queue that fits on one page are all visited. -/
lemma visitsOld_of_le {bk : Backend} (hbk : bk.lists = memBackend.lists) {h : ℤ} {s : Store}
    (hmsg : (s.keysUnder queueMsgPrefix).length ≤ trimListPageSize)
    (hlease : (s.keysUnder queueLeasePrefix).length ≤ trimListPageSize) :
    (positionalListing hbk).VisitsOld h s where
  messages x hx hget := by
    refine List.mem_filter.mpr ⟨?_, (oldKey_append _ _ _).trans (decide_eq_true hx)⟩
    change _ ∈ visitedAt _ _
    rw [visitedAt_of_le hmsg]
    exact Store.mem_keysUnder.mpr ⟨⟨x, rfl⟩, hget⟩
  leases x hx hleft := by
    refine List.mem_filter.mpr ⟨?_, (oldKey_append _ _ _).trans (decide_eq_true hx)⟩
    have hlen : (leftoverLeases s ((positionalListing hbk).reachedMessages h s)).length ≤
        trimListPageSize := (List.length_filter_le _ _).trans hlease
    change _ ∈ visitedAt _ _
    rwa [visitedAt_of_le hlen]

/-- A worker of a queue with the given content, at an instant at which ids stamped before the first
100 milliseconds are older than one nanosecond. -/
def janitor (s : Store) : World Unit Unit :=
  { store := fun _ => s, clock := 100000001, mem := fun _ => {} }

/-- Its queue. -/
def janitorQueue : Queue Unit := { bucket := (), lease := 30, headWindow := 1, maxReceives := 0 }

/-- The old message and the old lease of a small queue are gone after a short pass. -/
theorem short_pass_clear_mixed :
    (janitorQueue.trim 1 4).Ensures (alone (fun _ => memBackend) noFaults ()) (fun r w' =>
      r.1 < defaultTrimBatch → Clear 100000000 (w'.store ())) (janitor mixedStore) := by
  have hret : (0 : ℤ) < 1 := by decide
  have hmsg : (mixedStore.keysUnder queueMsgPrefix).length < 4 := by decide +kernel
  have hlease : (mixedStore.keysUnder queueLeasePrefix).length < 4 := by decide +kernel
  refine (short_pass_clear_iff (fun _ => memBackend) () janitorQueue (janitor mixedStore) rfl hret
    hmsg hlease).mpr (.inr (visitsOld_of_le rfl ?_ ?_))
  · exact (hmsg.trans (by decide)).le
  · exact (hlease.trans (by decide)).le

/-! ## A message that is passed over -/

/-- The listing of the mem driver. -/
def memListing : Listing memBackend := positionalListing rfl

/-- The ids of a backlog: an old one, 999 that carry no time, and another old one. -/
def backlogID (i : ℕ) : String :=
  (if i = 0 then "0000000000001-" else if i < 1000 then "0000000000001." else "0000000000002-") ++
    String.ofList (List.replicate i 'a')

lemma backlogID_lt {i j : ℕ} (h : i < j) : backlogID i < backlogID j := by
  have hdot : ∀ x y, "0000000000001-" ++ x < "0000000000001." ++ y := by
    intro x y
    rw [String.lt_iff_toList_lt, String.toList_append, String.toList_append]
    simp [List.cons_lt_cons_iff]
  have htwo : ∀ x y, "0000000000001." ++ x < "0000000000002-" ++ y := by
    intro x y
    rw [String.lt_iff_toList_lt, String.toList_append, String.toList_append]
    simp [List.cons_lt_cons_iff]
  have hj : j ≠ 0 := by omega
  simp only [backlogID, hj, if_false]
  split_ifs with hi hj hi' hj'
  · exact hdot _ _
  · exact (hdot _ "").trans (htwo _ _)
  · exact (append_lt_append_left _).mpr (replicate_lt_replicate 'a' h)
  · exact htwo _ _
  · omega
  · exact (append_lt_append_left _).mpr (replicate_lt_replicate 'a' h)

/-- The first and the last one are old, the others carry no time. -/
lemma isOld_backlogID {h : ℤ} (hh : 2000000 < h) (i : ℕ) :
    IsOld h (backlogID i) ↔ i = 0 ∨ 1000 ≤ i := by
  have htime : queueIDTime (backlogID i) =
      if i = 0 then some 1000000 else if i < 1000 then none else some 2000000 := by
    by_cases hzero : i = 0
    · subst hzero
      decide +kernel
    · by_cases hlt : i < 1000
      · have hdash : '-' ∉ (backlogID i).toList := by simp [backlogID, hzero, hlt]
        simp only [queueIDTime, hdash, hzero, hlt, not_false_eq_true, true_or, if_true, if_false]
      · have hts : (backlogID i).toList.takeWhile (· ≠ '-') = "0000000000002".toList := by
          simp [backlogID, hzero, hlt]
        have hdash : '-' ∈ (backlogID i).toList := by simp [backlogID, hzero, hlt]
        simp only [queueIDTime, hts, hdash, hzero, hlt, if_false]
        decide +kernel
  rw [IsOld, htime]
  split_ifs with hzero hlt
  · simp only [hzero, true_or, iff_true]
    exact ⟨1000000, rfl, by omega⟩
  · simp only [hzero, false_or, not_le.mpr hlt, iff_false]
    rintro ⟨ts, hts, -⟩
    cases hts
  · simp only [hzero, false_or, not_lt.mp hlt, iff_true]
    exact ⟨2000000, rfl, hh⟩

/-- The key of the message `i`. -/
def backlogKey (i : ℕ) : String := queueMsgPrefix ++ backlogID i

lemma backlogKey_lt {i j : ℕ} (h : i < j) : backlogKey i < backlogKey j :=
  (append_lt_append_left _).mpr (backlogID_lt h)

/-- The backlog. -/
def backlog : Store := Store.filled memBackend backlogKey 1001

lemma keysUnder_backlog : backlog.keysUnder queueMsgPrefix = (List.range 1001).map backlogKey :=
  Store.keysUnder_filled backlogKey_lt (fun i => ⟨backlogID i, rfl⟩) 1001

lemma get_backlog (i : ℕ) (hi : i < 1001) : backlog.get (backlogKey i) ≠ none :=
  (Store.get_filled 1001 _).mpr ⟨i, hi, rfl⟩

lemma leases_backlog : backlog.keysUnder queueLeasePrefix = [] := by
  refine List.eq_nil_iff_forall_not_mem.mpr fun key hkey => ?_
  obtain ⟨⟨x, rfl⟩, hget⟩ := Store.mem_keysUnder.mp hkey
  obtain ⟨i, -, hi⟩ := (Store.get_filled 1001 _).mp hget
  exact apart_messages rfl x (backlogID i) hi

lemma filter_firstPage {h : ℤ} (hh : 2000000 < h) :
    ((List.range 1000).map backlogKey).filter (oldKey queueMsgPrefix h) = [backlogKey 0] := by
  have hold : ∀ i, oldKey queueMsgPrefix h (backlogKey i) = decide (i = 0 ∨ 1000 ≤ i) := fun i =>
    (oldKey_append _ _ _).trans (decide_eq_decide.mpr (isOld_backlogID hh i))
  rw [List.range_succ_eq_map, List.map_cons, List.filter_cons_of_pos (by rw [hold]; rfl),
    List.filter_eq_nil_iff.mpr]
  intro key hkey
  obtain ⟨j, hj, rfl⟩ := List.mem_map.mp hkey
  obtain ⟨i, hi, rfl⟩ := List.mem_map.mp hj
  have := List.mem_range.mp hi
  rw [hold, decide_eq_true_iff]
  omega

attribute [irreducible] backlog backlogID

/-- Of the backlog a pass gets to see the first message alone. -/
lemma reachedMessages_backlog {h : ℤ} (hh : 2000000 < h) :
    memListing.reachedMessages h backlog = [backlogKey 0] := by
  have hlen : trimListPageSize < ((List.range 1001).map backlogKey).length := by
    rw [List.length_map, List.length_range]
    decide
  have hpage : ((List.range 1001).map backlogKey).take trimListPageSize =
      (List.range 1000).map backlogKey := by
    rw [← List.map_take, List.take_range]
    rfl
  change (visitedAt _ (backlog.keysUnder queueMsgPrefix)).filter _ = _
  rw [keysUnder_backlog, visitedAt_of_lt hlen, hpage, filter_firstPage hh,
    List.drop_eq_nil_of_le (by rw [List.length_map, List.length_range]; decide),
    visitedAt_of_le (Nat.zero_le _), List.append_nil, filter_firstPage hh]

lemma reachedLeases_backlog (h : ℤ) :
    memListing.reachedLeases h backlog = [] := by
  change (visitedAt _ (leftoverLeases _ _)).filter _ = _
  rw [leftoverLeases, leases_backlog, List.filter_nil, visitedAt_of_le (Nat.zero_le _),
    List.filter_nil]

/-- **A short pass that leaves an old message behind.**  The pass removes the first message; the last
one moves from position 1000 to position 999, and the sweep resumes behind it. -/
theorem short_pass_leaves_old :
    (janitorQueue.trim 1 1002).Ensures (alone (fun _ => memBackend) noFaults ()) (fun r w' =>
      r = (1, none) ∧ 1 < defaultTrimBatch ∧ ¬ Clear 100000000 (w'.store ())) (janitor backlog) := by
  have hm := reachedMessages_backlog (h := 100000000) (by decide)
  have hl := reachedLeases_backlog 100000000
  have hshort : (memListing.reachedMessages 100000000 backlog).length +
      (memListing.reachedLeases 100000000 backlog).length < defaultTrimBatch := by
    rw [hm, hl]
    decide
  obtain ⟨htm, htl⟩ := Listing.trimmed_eq (Nat.lt_of_le_of_lt (Nat.le_add_right _ _) hshort)
  refine (ensures_trim memListing (by decide) ?_ ?_).mono ?_
  · change (backlog.keysUnder queueMsgPrefix).length < 1002
    rw [keysUnder_backlog, List.length_map, List.length_range]
    decide
  · change (backlog.keysUnder queueLeasePrefix).length < 1002
    rw [leases_backlog]
    decide
  · rintro r w' ⟨hr, hs⟩
    change r = ((memListing.trimmedMessages 100000000 backlog).length +
      (memListing.trimmedLeases 100000000 backlog).length, none) at hr
    change backlog.Without (memListing.trimmedKeys 100000000 backlog) (w'.store ()) at hs
    rw [htm, htl, hm, hl, List.take_nil] at hr
    refine ⟨hr, by decide, fun hclear => ?_⟩
    have hvisits := (Listing.clear_iff_of_short hshort hs).mp hclear
    have hlast := hvisits.messages (backlogID 1000)
      ((isOld_backlogID (by decide) _).mpr (.inr le_rfl)) (get_backlog 1000 (by decide))
    rw [hm] at hlast
    exact absurd (List.mem_singleton.mp hlast) (backlogKey_lt (by decide)).ne'

end Blobster
