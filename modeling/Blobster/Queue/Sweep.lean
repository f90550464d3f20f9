import Blobster.Bucket.Alone
import Blobster.Bucket.Mem
import Blobster.Queue.History
import Blobster.Queue.Trim

/-!
# One retention pass

What `Trim` removes when no other client is running and the backend does not fail.  A sweep deletes
while it pages, so what it gets to see depends on where the listing resumes after the deletes.

* `Store.Without` — a store without the objects under some keys, and nothing else changed.
* `Listing` — where a backend's page tokens lead, and which of the keys a scan visits that deletes the
  `old` ones as it goes.
* `ensures_sweepObjects`, `ensures_trimSweep` — the loop over one page, by induction over its keys, and
  the loop over the pages.  Old ids sort before the others that carry a time, so that the sweep may
  stop at the first of these; of the keys it visits it removes the first old ones, up to its budget.
* **`ensures_trim`** — both sweeps, on any such backend.
* `Backend.ResumesAfterLast`, **`trim_exact`** — with tokens that resume behind the last key every key
  is visited, and a pass removes exactly the first 256 old entries.
-/

namespace Blobster

open Interleave

/-! ## What is removed -/

/-- `s'` is `s` without the objects under the keys `gone`. -/
def Store.Without (s : Store) (gone : List String) (s' : Store) : Prop :=
  ∀ key, s'.get key = if key ∈ gone then none else s.get key

namespace Store.Without

variable {s s₁ s' : Store} {gone gone' : List String}

lemma nil (s : Store) : s.Without [] s := fun key => by simp

lemma trans (h : s.Without gone s₁) (h' : s₁.Without gone' s') : s.Without (gone ++ gone') s' := by
  intro key
  rw [h' key, h key]
  by_cases hg : key ∈ gone <;> by_cases hg' : key ∈ gone' <;> simp [hg, hg']

lemma get_ne_none (h : s.Without gone s') {key : String} :
    s'.get key ≠ none ↔ key ∉ gone ∧ s.get key ≠ none := by
  rw [h key]
  by_cases hg : key ∈ gone <;> simp [hg]

/-- What is gone is no longer listed. -/
lemma keysUnder (h : s.Without gone s') (pref : String) :
    s'.keysUnder pref = (s.keysUnder pref).filter (· ∉ gone) := by
  refine (s'.keysUnder_sorted pref).eq_of_mem_iff ((s.keysUnder_sorted pref).filter _) fun key => ?_
  rw [List.mem_filter, Store.mem_keysUnder, Store.mem_keysUnder, h.get_ne_none, decide_eq_true_iff]
  tauto

end Store.Without

/-- The key is that of an entry whose id is stamped before the horizon. -/
def oldKey (pref : String) (h : ℤ) (key : String) : Bool := decide (IsOld h (trimPrefix key pref))

lemma oldKey_append (pref : String) (h : ℤ) (x : String) :
    oldKey pref h (pref ++ x) = decide (IsOld h x) := by
  rw [oldKey, trimPrefix_append]

/-- The keys that are deleted with an entry. -/
def victims (pref : String) (pairedLease : Bool) (key : String) : List String :=
  key :: if pairedLease then [queueLeasePrefix ++ trimPrefix key pref] else []

/-! ## Listings under deletion -/

/-- Where the tokens of a backend lead, and what a scan visits. -/
structure Listing (bk : Backend) where
  /-- What a token leaves to be listed. -/
  remaining : Store → String → PageToken → Option (List String)
  /-- Those of the remaining keys that a scan visits which deletes the `old` ones of each page. -/
  visited : (String → Bool) → List String → List String
  first : ∀ s pref, remaining s pref .first = some (s.keysUnder pref)
  visited_subset : ∀ {old rest key}, key ∈ visited old rest → key ∈ rest
  suffix : ∀ {s pref token rest}, remaining s pref token = some rest → rest <:+ s.keysUnder pref
  answers : ∀ {s pref token rest}, remaining s pref token = some rest →
    ∃ keys next, bk.lists s token trimListPageSize pref keys next = true
  page : ∀ {s pref token rest keys next}, remaining s pref token = some rest →
    bk.lists s token trimListPageSize pref keys next = true → ∀ old, ∃ tail later,
      rest = keys ++ tail ∧ visited old rest = keys ++ later ∧ (∀ key ∈ later, key ∈ tail) ∧
      (next = .done → later = []) ∧
      (next ≠ .done → keys ≠ [] ∧ ∀ s', s'.keysUnder pref =
          (s.keysUnder pref).filter (fun key => key ∉ keys.filter old) →
        ∃ rest', remaining s' pref next = some rest' ∧ rest' <:+ tail ∧ visited old rest' = later)

/-! ## One page -/

section Page

variable {B C : Type} [DecidableEq B] [DecidableEq C] {bk : B → Backend} {c : C} {q : Queue B}
  {w : World B C} {pref : String} {h : ℤ} {paired : Bool}

lemma ensures_deleteIfPresent (key : String) :
    (q.deleteIfPresent key).Ensures (alone bk noFaults c) (fun r w' => r = none ∧
      (w.store q.bucket).Without [key] (w'.store q.bucket)) w := by
  rw [Queue.deleteIfPresent, Prog.ensures_bind, ensures_delete]
  cases hg : (w.store q.bucket).get key with
  | none =>
      have hd : (w.store q.bucket).delete key [] = .error .notFound := by simp [Store.delete, hg]
      rw [hd]
      refine ⟨rfl, fun k => ?_⟩
      by_cases hk : k = key <;> simp [committed, hk, hg]
  | some o =>
      rw [Store.delete_nil_some hg, committed_ok]
      refine ⟨rfl, fun k => ?_⟩
      rw [World.setStore_store_self]
      by_cases hk : k = key
      · simp [hk]
      · simp [hk, Store.get_erase_ne _ _ hk]

lemma ensures_removeEntry (x : String) :
    (q.removeEntry (pref ++ x) x paired).Ensures (alone bk noFaults c) (fun r w' => r = none ∧
      (w.store q.bucket).Without (victims pref paired (pref ++ x)) (w'.store q.bucket)) w := by
  rw [Queue.removeEntry, victims, trimPrefix_append]
  refine (ensures_deleteIfPresent _).bind ?_
  rintro r w₁ ⟨rfl, h₁⟩
  cases paired with
  | false => exact ⟨rfl, h₁⟩
  | true =>
      refine (ensures_deleteIfPresent _).mono ?_
      rintro r w' ⟨rfl, h'⟩
      exact ⟨rfl, h₁.trans h'⟩

/-- The key carries a time that is not before the horizon: the sweep stops. -/
def stopsAt (pref : String) (h : ℤ) (key : String) : Bool :=
  (queueIDTime (trimPrefix key pref)).any (¬ · < h)

/-- Nothing old follows the key at which a sweep stops. -/
lemma filter_oldKey_eq_nil {keys : List String} {x : String} {ts : ℤ}
    (hx : queueIDTime x = some ts) (hts : ¬ ts < h) (hpref : ∀ key ∈ keys, ∃ y, key = pref ++ y)
    (hlt : ∀ key ∈ keys, pref ++ x < key) : keys.filter (oldKey pref h) = [] := by
  refine List.filter_eq_nil_iff.mpr fun key hkey hold => ?_
  obtain ⟨y, rfl⟩ := hpref key hkey
  rw [oldKey_append, decide_eq_true_iff] at hold
  exact lt_asymm (hold.lt hx hts) ((append_lt_append_left pref).mp (hlt _ hkey))

/-- What the loop over one page answers. -/
def pageAnswer (pref : String) (h : ℤ) (keys : List String) (removed budget : ℕ) :
    (ℕ × ℕ) ⊕ (ℕ × Option Err) :=
  let old := (keys.filter (oldKey pref h)).length
  if budget ≤ old then .inr (removed + budget, none)
  else if keys.any (stopsAt pref h) then .inr (removed + old, none)
  else .inl (removed + old, budget - old)

section PageAnswer

variable {key : String} {keys : List String} {removed budget : ℕ}

lemma pageAnswer_nil (hbudget : 0 < budget) :
    pageAnswer pref h [] removed budget = .inl (removed, budget) := by
  simp [pageAnswer, hbudget.ne']

/-- An entry that carries no time is neither removed nor a reason to stop. -/
lemma pageAnswer_cons_skip (hold : oldKey pref h key = false) (hstop : stopsAt pref h key = false) :
    pageAnswer pref h (key :: keys) removed budget = pageAnswer pref h keys removed budget := by
  simp only [pageAnswer, List.filter_cons_of_neg (Bool.eq_false_iff.mp hold), List.any_cons, hstop,
    Bool.false_or]

lemma pageAnswer_cons_stop (hold : oldKey pref h key = false) (hstop : stopsAt pref h key = true)
    (hnil : keys.filter (oldKey pref h) = []) (hbudget : 0 < budget) :
    pageAnswer pref h (key :: keys) removed budget = .inr (removed, none) := by
  simp [pageAnswer, hold, hstop, hnil, hbudget.ne']

lemma pageAnswer_cons_old (hold : oldKey pref h key = true) (hstop : stopsAt pref h key = false)
    (hbudget : 1 < budget) :
    pageAnswer pref h (key :: keys) removed budget =
      pageAnswer pref h keys (removed + 1) (budget - 1) := by
  simp only [pageAnswer, List.filter_cons_of_pos hold, List.length_cons, List.any_cons, hstop,
    Bool.false_or]
  generalize (keys.filter (oldKey pref h)).length = n
  have hle : budget ≤ n + 1 ↔ budget - 1 ≤ n := by omega
  simp only [hle]
  split_ifs
  · exact congrArg (fun m => Sum.inr (m, none)) (by omega)
  · exact congrArg (fun m => Sum.inr (m, none)) (by omega)
  · exact congrArg Sum.inl (Prod.ext (by simp only; omega) (by simp only; omega))

lemma pageAnswer_cons_last (hold : oldKey pref h key = true) :
    pageAnswer pref h (key :: keys) removed 1 = .inr (removed + 1, none) := by
  simp [pageAnswer, hold]

end PageAnswer

/-- The loop over one page removes its first old entries, up to the budget. -/
lemma ensures_sweepObjects (keys : List String) (removed budget : ℕ)
    (hpref : ∀ key ∈ keys, ∃ x, key = pref ++ x) (hsorted : keys.Pairwise (· < ·))
    (hbudget : 0 < budget) :
    (q.sweepObjects pref h paired keys removed budget).Ensures (alone bk noFaults c) (fun r w' =>
      r = pageAnswer pref h keys removed budget ∧ (w.store q.bucket).Without
        (((keys.filter (oldKey pref h)).take budget).flatMap (victims pref paired))
        (w'.store q.bucket)) w := by
  induction keys generalizing removed budget w with
  | nil => exact ⟨(pageAnswer_nil hbudget).symm, by simpa using Store.Without.nil _⟩
  | cons key keys ih =>
      obtain ⟨x, rfl⟩ := hpref key List.mem_cons_self
      obtain ⟨hlt, hsorted⟩ := List.pairwise_cons.mp hsorted
      have hpref : ∀ key ∈ keys, ∃ x, key = pref ++ x :=
        fun k hk => hpref k (List.mem_cons_of_mem _ hk)
      have hskip : queueIDTime x = none →
          (q.sweepObjects pref h paired keys removed budget).Ensures (alone bk noFaults c)
            (fun r w' => r = pageAnswer pref h ((pref ++ x) :: keys) removed budget ∧
              (w.store q.bucket).Without (((((pref ++ x) :: keys).filter (oldKey pref h)).take
                budget).flatMap (victims pref paired)) (w'.store q.bucket)) w := by
        intro hx
        have hold : oldKey pref h (pref ++ x) = false := by simp [oldKey_append, IsOld, hx]
        have hstop : stopsAt pref h (pref ++ x) = false := by simp [stopsAt, trimPrefix_append, hx]
        rw [pageAnswer_cons_skip hold hstop, List.filter_cons_of_neg (Bool.eq_false_iff.mp hold)]
        exact ih removed budget hpref hsorted hbudget
      rw [Queue.sweepObjects, cutPrefix_eq_some.mpr rfl]
      by_cases hempty : x = ""
      · subst hempty
        exact hskip queueIDTime_empty
      · simp only [hempty, if_false]
        cases hx : queueIDTime x with
        | none => exact hskip hx
        | some ts =>
            by_cases hts : ts < h
            · have hold : oldKey pref h (pref ++ x) = true := by
                simp [oldKey_append, IsOld, hx, hts]
              have hstop : stopsAt pref h (pref ++ x) = false := by
                simp [stopsAt, trimPrefix_append, hx, hts]
              simp only [hts, not_true_eq_false, if_false]
              rw [List.filter_cons_of_pos hold]
              refine (ensures_removeEntry x).bind ?_
              rintro r w₁ ⟨rfl, h₁⟩
              by_cases hone : budget - 1 = 0
              · obtain rfl : budget = 1 := by omega
                rw [pageAnswer_cons_last hold]
                exact ⟨rfl, by simpa using h₁⟩
              · simp only [hone, if_false]
                obtain ⟨n, rfl⟩ : ∃ n, budget = n + 1 := ⟨budget - 1, by omega⟩
                rw [pageAnswer_cons_old hold hstop (by omega), List.take_succ_cons,
                  List.flatMap_cons]
                refine (ih _ _ hpref hsorted (by omega)).mono fun r w' hr => ⟨hr.1, h₁.trans hr.2⟩
            · have hnil := filter_oldKey_eq_nil hx hts hpref hlt
              have hold : oldKey pref h (pref ++ x) = false := by
                simp [oldKey_append, IsOld, hx, hts]
              have hstop : stopsAt pref h (pref ++ x) = true := by
                simpa [stopsAt, trimPrefix_append, hx] using not_lt.mp hts
              simp only [hts, not_false_eq_true, if_true]
              rw [List.filter_cons_of_neg (Bool.eq_false_iff.mp hold), hnil, List.take_nil]
              exact ⟨(pageAnswer_cons_stop hold hstop hnil hbudget).symm, .nil _⟩

end Page

/-! ## The pages -/

section Sweep

variable {B C : Type} [DecidableEq B] [DecidableEq C] {bk : B → Backend} {c : C} {q : Queue B}
  {w : World B C} {pref : String} {h : ℤ} {paired : Bool}

/-- The entries that a sweep can remove: the old ones among the keys that it visits. -/
def Listing.reached {bk : Backend} (ls : Listing bk) (pref : String) (h : ℤ) (keys : List String) :
    List String :=
  (ls.visited (oldKey pref h) keys).filter (oldKey pref h)

/-- Leases of messages are not listed with the entries that are swept. -/
def Apart (pref : String) (paired : Bool) : Prop :=
  paired = true → ∀ x y, queueLeasePrefix ++ x ≠ pref ++ y

lemma mem_victims_iff (hap : Apart pref paired) {gone : List String} {key : String}
    (hkey : ∃ x, key = pref ++ x) : key ∈ gone.flatMap (victims pref paired) ↔ key ∈ gone := by
  obtain ⟨x, rfl⟩ := hkey
  simp only [List.mem_flatMap, victims, List.mem_cons]
  constructor
  · rintro ⟨k, hk, rfl | hl⟩
    · exact hk
    · cases paired with
      | false => cases hl
      | true => exact absurd (List.mem_singleton.mp hl).symm (hap rfl _ _)
  · exact fun hk => ⟨_, hk, .inl rfl⟩

/-- After a page has been swept, the listing lacks its old entries. -/
lemma keysUnder_of_without (hap : Apart pref paired) {s s' : Store} {gone : List String}
    (hs : s.Without (gone.flatMap (victims pref paired)) s') :
    s'.keysUnder pref = (s.keysUnder pref).filter (· ∉ gone) := by
  rw [hs.keysUnder]
  refine List.filter_congr fun key hkey => ?_
  simp only [mem_victims_iff hap (Store.mem_keysUnder.mp hkey).1]

/-- Between two rounds: what was removed so far, and what may still be, are the entries that the sweep
can remove. -/
structure Midway (ls : Listing (bk q.bucket)) (pref : String) (h : ℤ) (paired : Bool)
    (s₀ : Store) (all : List String) (total n : ℕ) (v : PageToken × ℕ × ℕ) (w : World B C) : Prop where
  budget : 0 < v.2.2
  total : v.2.1 + v.2.2 = total
  rest : ∃ rest done, ls.remaining (w.store q.bucket) pref v.1 = some rest ∧ rest.length = n ∧
    all = done ++ ls.reached pref h rest ∧ done.length = v.2.1 ∧
    s₀.Without (done.flatMap (victims pref paired)) (w.store q.bucket)

/-- How a sweep ends: the first of the entries it can remove are gone, up to the budget. -/
def Swept (q : Queue B) (pref : String) (paired : Bool) (s₀ : Store) (all : List String) (total : ℕ)
    (r : ℕ × Option Err) (w' : World B C) : Prop :=
  r = ((all.take total).length, none) ∧
    s₀.Without ((all.take total).flatMap (victims pref paired)) (w'.store q.bucket)

lemma ensures_sweepRound (ls : Listing (bk q.bucket)) (hap : Apart pref paired) {s₀ : Store}
    {all : List String} {total n : ℕ} {v : PageToken × ℕ × ℕ}
    (hm : Midway ls pref h paired s₀ all total n v w) :
    (q.sweepRound pref h paired v).Ensures (alone bk noFaults c) (fun r w' => match r with
      | .inl v' => ∃ m < n, Midway ls pref h paired s₀ all total m v' w'
      | .inr out => Swept q pref paired s₀ all total out w') w := by
  obtain ⟨token, removed, budget⟩ := v
  obtain ⟨hbudget, htotal, rest, done, hrest, hn, hall, hdone, hs₀⟩ := hm
  simp only at hbudget htotal hdone hrest
  simp only [Queue.sweepRound, hbudget.ne', if_false]
  refine Prog.ensures_bind.mpr (ensures_listPage (ls.answers hrest) fun keys next hl => ?_)
  obtain ⟨tail, later, hsplit, hvis, hlater, hend, hmore⟩ := ls.page hrest hl (oldKey pref h)
  have hsorted : rest.Pairwise (· < ·) :=
    ((w.store q.bucket).keysUnder_sorted pref).sublist (ls.suffix hrest).sublist
  have hpref : ∀ key ∈ rest, ∃ x, key = pref ++ x := fun key hkey =>
    (Store.mem_keysUnder.mp ((ls.suffix hrest).subset hkey)).1
  subst hsplit
  obtain ⟨hsk, -, hcross⟩ := List.pairwise_append.mp hsorted
  have hreached : ls.reached pref h (keys ++ tail) =
      keys.filter (oldKey pref h) ++ later.filter (oldKey pref h) := by
    rw [Listing.reached, hvis, List.filter_append]
  rw [hreached] at hall
  refine (ensures_sweepObjects keys removed budget
    (fun key hkey => hpref key (List.mem_append_left _ hkey)) hsk hbudget).bind ?_
  rintro r w₁ ⟨rfl, h₁⟩
  have hs₁ := hs₀.trans h₁
  rw [← List.flatMap_append] at hs₁
  by_cases hfull : budget ≤ (keys.filter (oldKey pref h)).length
  · -- the budget ends on this page
    have htake : all.take total = done ++ (keys.filter (oldKey pref h)).take budget := by
      rw [hall, ← htotal, ← hdone, List.take_length_add_append,
        List.take_append_of_le_length hfull]
    simp only [pageAnswer, hfull, if_true, Prog.pure_eq, Prog.ensures_ret, Swept, htake]
    refine ⟨?_, hs₁⟩
    rw [List.length_append, List.length_take, hdone, Nat.min_eq_left hfull]
  · rw [List.take_of_length_le (Nat.le_of_not_le hfull)] at hs₁
    have hlast : later.filter (oldKey pref h) = [] →
        Swept q pref paired s₀ all total (removed + (keys.filter (oldKey pref h)).length, none)
          w₁ := by
      intro hnil
      rw [hnil, List.append_nil] at hall
      have hlen : all.length = removed + (keys.filter (oldKey pref h)).length := by
        rw [hall, List.length_append, hdone]
      have htake : all.take total = all := List.take_of_length_le (by omega)
      rw [Swept, htake, hlen, hall]
      exact ⟨rfl, hs₁⟩
    by_cases hstop : keys.any (stopsAt pref h) = true
    · -- it ends at an id that is past the horizon
      simp only [pageAnswer, hfull, if_false, hstop, if_true]
      obtain ⟨key, hkey, hat⟩ := List.any_eq_true.mp hstop
      obtain ⟨x, rfl⟩ := hpref key (List.mem_append_left _ hkey)
      rw [stopsAt, trimPrefix_append, Option.any_eq_true] at hat
      obtain ⟨ts, hx, hts⟩ := hat
      refine hlast (filter_oldKey_eq_nil hx (of_decide_eq_true hts)
        (fun k hk => hpref k (List.mem_append_right _ (hlater k hk)))
        fun k hk => hcross _ hkey _ (hlater k hk))
    · simp only [pageAnswer, hfull, if_false, hstop]
      by_cases hnext : next = .done
      · simp only [hnext, if_true]
        exact hlast (by rw [hend hnext, List.filter_nil])
      · simp only [hnext, if_false]
        obtain ⟨hne, hgo⟩ := hmore hnext
        obtain ⟨rest', hrest', hsuf, hvis'⟩ := hgo _ (keysUnder_of_without hap (by
          rwa [List.take_of_length_le (Nat.le_of_not_le hfull)] at h₁))
        refine ⟨rest'.length, ?_, ⟨by simp only; omega, by simp only; omega, rest',
          done ++ keys.filter (oldKey pref h), hrest', rfl, ?_, ?_, hs₁⟩⟩
        · have := hsuf.length_le
          have := List.length_pos_of_ne_nil hne
          rw [← hn, List.length_append]
          omega
        · rw [hall, Listing.reached, hvis', List.append_assoc]
        · rw [List.length_append, hdone]

/-- **A sweep** removes the first of the old entries that it visits, up to its budget. -/
lemma ensures_trimSweep (ls : Listing (bk q.bucket)) (hap : Apart pref paired) {budget fuel : ℕ}
    (hbudget : 0 < budget) (hfuel : ((w.store q.bucket).keysUnder pref).length < fuel) :
    (q.trimSweep pref h budget paired fuel).Ensures (alone bk noFaults c)
      (Swept q pref paired (w.store q.bucket)
        (ls.reached pref h ((w.store q.bucket).keysUnder pref)) budget) w := by
  refine Prog.Ensures.loop (fun n v w' => Midway ls pref h paired (w.store q.bucket)
    (ls.reached pref h ((w.store q.bucket).keysUnder pref)) budget n v w')
    (fun n v w' hm => (ensures_sweepRound ls hap hm).mono fun r w'' hr => ?_) hfuel ?_
  · cases r <;> exact hr
  · exact ⟨hbudget, Nat.zero_add _, _, [], ls.first _ _, rfl, rfl, rfl, .nil _⟩

/-! ## Both sweeps -/

section Trim

variable {bk : Backend} (ls : Listing bk) (h : ℤ) (s : Store)

/-- The messages that a pass removes. -/
def Listing.trimmedMessages : List String :=
  (ls.reached queueMsgPrefix h (s.keysUnder queueMsgPrefix)).take defaultTrimBatch

/-- The leases that are left over when messages have been removed. -/
def leftoverLeases (s : Store) (messages : List String) : List String :=
  (s.keysUnder queueLeasePrefix).filter
    (· ∉ messages.map fun key => queueLeasePrefix ++ trimPrefix key queueMsgPrefix)

/-- The leases that a pass then removes on their own. -/
def Listing.trimmedLeases : List String :=
  (ls.reached queueLeasePrefix h (leftoverLeases s (ls.trimmedMessages h s))).take
    (defaultTrimBatch - (ls.trimmedMessages h s).length)

/-- The keys under which a pass deletes. -/
def Listing.trimmedKeys : List String :=
  (ls.trimmedMessages h s).flatMap (victims queueMsgPrefix true) ++ ls.trimmedLeases h s

end Trim

lemma apart_messages : Apart queueMsgPrefix true := by
  intro _ x y hxy
  have hkey : Slot.lease.key x = Slot.payload.key y := hxy
  exact absurd (Slot.key_inj hkey).1 (by decide)

lemma apart_leases : Apart queueLeasePrefix false := fun hf => nomatch hf

/-- The leases that are listed behind the messages' sweep. -/
lemma keysUnder_leases {s s₁ : Store} {messages : List String}
    (hpref : ∀ key ∈ messages, ∃ x, key = queueMsgPrefix ++ x)
    (hs : s.Without (messages.flatMap (victims queueMsgPrefix true)) s₁) :
    s₁.keysUnder queueLeasePrefix = leftoverLeases s messages := by
  rw [hs.keysUnder, leftoverLeases]
  refine List.filter_congr fun key hkey => ?_
  obtain ⟨y, rfl⟩ := (Store.mem_keysUnder.mp hkey).1
  simp only [List.mem_flatMap, List.mem_map, victims, if_true, List.mem_cons, List.not_mem_nil,
    or_false, decide_eq_decide, not_iff_not]
  constructor
  · rintro ⟨k, hk, he | he⟩
    · obtain ⟨x, rfl⟩ := hpref k hk
      exact absurd he (apart_messages rfl y x)
    · exact ⟨k, hk, he.symm⟩
  · rintro ⟨k, hk, he⟩
    exact ⟨k, hk, .inr he.symm⟩

/-- **One pass**: the messages with their leases, then the leases that are left over, within one
budget. -/
theorem ensures_trim (ls : Listing (bk q.bucket)) {retention : ℤ} {fuel : ℕ} (hret : 0 < retention)
    (hmsg : ((w.store q.bucket).keysUnder queueMsgPrefix).length < fuel)
    (hlease : ((w.store q.bucket).keysUnder queueLeasePrefix).length < fuel) :
    (q.trim retention fuel).Ensures (alone bk noFaults c) (fun r w' =>
      r = ((ls.trimmedMessages (w.clock - retention) (w.store q.bucket)).length +
          (ls.trimmedLeases (w.clock - retention) (w.store q.bucket)).length, none) ∧
        (w.store q.bucket).Without (ls.trimmedKeys (w.clock - retention) (w.store q.bucket))
          (w'.store q.bucket)) w := by
  simp only [Queue.trim, not_le.mpr hret, if_false]
  refine Prog.ensures_bind.mpr (ensures_now.mpr ?_)
  have hfirst : (q.trimSweep queueMsgPrefix (w.clock - retention) defaultTrimBatch true fuel).Ensures
      (alone bk noFaults c) (fun r w₁ =>
        r = ((ls.trimmedMessages (w.clock - retention) (w.store q.bucket)).length, none) ∧
        (w.store q.bucket).Without ((ls.trimmedMessages (w.clock - retention)
          (w.store q.bucket)).flatMap (victims queueMsgPrefix true)) (w₁.store q.bucket)) w :=
    ensures_trimSweep ls apart_messages (by decide) hmsg
  refine hfirst.bind ?_
  rintro _ w₁ ⟨rfl, hs₁⟩
  have hleases := keysUnder_leases (fun key hkey => (Store.mem_keysUnder.mp (ls.visited_subset
    (List.mem_of_mem_filter (List.mem_of_mem_take hkey)))).1) hs₁
  by_cases hfull : defaultTrimBatch ≤
      (ls.trimmedMessages (w.clock - retention) (w.store q.bucket)).length
  · have hnone : ls.trimmedLeases (w.clock - retention) (w.store q.bucket) = [] := by
      rw [Listing.trimmedLeases, Nat.sub_eq_zero_of_le hfull, List.take_zero]
    simp only [hfull, or_true, if_true, Listing.trimmedKeys, hnone, List.append_nil]
    exact ⟨rfl, hs₁⟩
  · simp only [hfull, ne_eq, not_true_eq_false, or_self, if_false]
    have hfuel : ((w₁.store q.bucket).keysUnder queueLeasePrefix).length < fuel := by
      rw [hleases]
      exact (List.length_filter_le _ _).trans_lt hlease
    refine (ensures_trimSweep ls apart_leases (Nat.sub_pos_of_lt (not_le.mp hfull)) hfuel).bind ?_
    rw [hleases]
    rintro _ w' ⟨rfl, hs'⟩
    have hsingle : victims queueLeasePrefix false = fun key => [key] := rfl
    rw [hsingle, List.flatMap_singleton'] at hs'
    exact ⟨rfl, hs₁.trans hs'⟩

end Sweep

/-! ## Short passes -/

/-- No old entry is left under `msg/` or `lease/`. -/
def Clear (h : ℤ) (s : Store) : Prop :=
  ∀ x, IsOld h x → s.get (Slot.payload.key x) = none ∧ s.get (Slot.lease.key x) = none

namespace Listing

variable {bk : Backend} (ls : Listing bk) (h : ℤ) (s : Store)

/-- The old messages that a pass visits. -/
def reachedMessages : List String :=
  ls.reached queueMsgPrefix h (s.keysUnder queueMsgPrefix)

/-- The old leases that a pass visits, when it has removed the messages with theirs. -/
def reachedLeases : List String :=
  ls.reached queueLeasePrefix h (leftoverLeases s (ls.reachedMessages h s))

/-- Every old message, and every old lease that is left over, is visited. -/
structure VisitsOld : Prop where
  messages : ∀ x, IsOld h x → s.get (Slot.payload.key x) ≠ none →
    Slot.payload.key x ∈ ls.reachedMessages h s
  leases : ∀ x, IsOld h x → Slot.lease.key x ∈ leftoverLeases s (ls.reachedMessages h s) →
    Slot.lease.key x ∈ ls.reachedLeases h s

variable {ls h s}

lemma trimmed_eq (hlen : (ls.reachedMessages h s).length < defaultTrimBatch) :
    ls.trimmedMessages h s = ls.reachedMessages h s ∧ ls.trimmedLeases h s =
      (ls.reachedLeases h s).take (defaultTrimBatch - (ls.reachedMessages h s).length) := by
  have hm : ls.trimmedMessages h s = ls.reachedMessages h s := List.take_of_length_le hlen.le
  exact ⟨hm, by rw [trimmedLeases, hm]; rfl⟩

/-- A pass is short when it visits few old entries. -/
lemma short_iff :
    (ls.trimmedMessages h s).length + (ls.trimmedLeases h s).length < defaultTrimBatch ↔
      (ls.reachedMessages h s).length + (ls.reachedLeases h s).length < defaultTrimBatch := by
  by_cases hlen : (ls.reachedMessages h s).length < defaultTrimBatch
  · obtain ⟨hm, hl⟩ := trimmed_eq hlen
    rw [hm, hl, List.length_take]
    omega
  · have hm : (ls.trimmedMessages h s).length = defaultTrimBatch :=
      List.length_take_of_le (not_lt.mp hlen)
    omega

lemma mem_leftoverLeases {messages : List String} {x : String} :
    Slot.lease.key x ∈ leftoverLeases s messages ↔ s.get (Slot.lease.key x) ≠ none ∧
      Slot.lease.key x ∉ messages.map fun key => queueLeasePrefix ++ trimPrefix key queueMsgPrefix := by
  rw [leftoverLeases, List.mem_filter, Store.mem_keysUnder, decide_eq_true_iff]
  exact and_congr_left fun _ => and_iff_right ⟨x, rfl⟩

lemma of_mem_reachedMessages {key : String} (hkey : key ∈ ls.reachedMessages h s) :
    ∃ x, key = queueMsgPrefix ++ x :=
  (Store.mem_keysUnder.mp (ls.visited_subset (List.mem_of_mem_filter hkey))).1

lemma of_mem_reachedLeases {key : String} (hkey : key ∈ ls.reachedLeases h s) :
    ∃ x, key = queueLeasePrefix ++ x :=
  (Store.mem_keysUnder.mp (List.mem_of_mem_filter
    (ls.visited_subset (List.mem_of_mem_filter hkey)))).1

section Short

variable (hshort : (ls.reachedMessages h s).length + (ls.reachedLeases h s).length <
  defaultTrimBatch)
include hshort

lemma trimmedKeys_of_short : ls.trimmedKeys h s =
    (ls.reachedMessages h s).flatMap (victims queueMsgPrefix true) ++ ls.reachedLeases h s := by
  obtain ⟨hm, hl⟩ := trimmed_eq (Nat.lt_of_le_of_lt (Nat.le_add_right _ _) hshort)
  rw [trimmedKeys, hm, hl, List.take_of_length_le (by omega)]

lemma payload_mem_trimmedKeys {x : String} :
    Slot.payload.key x ∈ ls.trimmedKeys h s ↔ Slot.payload.key x ∈ ls.reachedMessages h s := by
  rw [trimmedKeys_of_short hshort, List.mem_append]
  refine (or_iff_left fun hl => ?_).trans (mem_victims_iff apart_messages ⟨x, rfl⟩)
  obtain ⟨y, hy⟩ := of_mem_reachedLeases hl
  exact apart_messages rfl y x hy.symm

lemma lease_mem_trimmedKeys {x : String} :
    Slot.lease.key x ∈ ls.trimmedKeys h s ↔ Slot.lease.key x ∈ (ls.reachedMessages h s).map
        (fun key => queueLeasePrefix ++ trimPrefix key queueMsgPrefix) ∨
      Slot.lease.key x ∈ ls.reachedLeases h s := by
  rw [trimmedKeys_of_short hshort, List.mem_append, List.mem_flatMap, List.mem_map]
  refine or_congr_left ⟨?_, ?_⟩
  · rintro ⟨key, hkey, hx⟩
    obtain ⟨y, rfl⟩ := of_mem_reachedMessages hkey
    rcases List.mem_cons.mp hx with hx | hx
    · exact absurd hx (apart_messages rfl x y)
    · exact ⟨_, hkey, (List.mem_singleton.mp hx).symm⟩
  · rintro ⟨key, hkey, hx⟩
    exact ⟨key, hkey, List.mem_cons_of_mem _ (List.mem_singleton.mpr hx.symm)⟩

/-- **A short pass leaves nothing behind exactly when it visits everything old.** -/
theorem clear_iff_of_short {s' : Store} (hs : s.Without (ls.trimmedKeys h s) s') :
    Clear h s' ↔ ls.VisitsOld h s := by
  have hgone : ∀ key, s'.get key = none ↔ (s.get key ≠ none → key ∈ ls.trimmedKeys h s) := by
    intro key
    have hne : s'.get key ≠ none ↔ key ∉ ls.trimmedKeys h s ∧ s.get key ≠ none := hs.get_ne_none
    tauto
  constructor
  · intro hc
    refine ⟨fun x hx hget => ?_, fun x hx hleft => ?_⟩
    · exact (payload_mem_trimmedKeys hshort).mp ((hgone _).mp (hc x hx).1 hget)
    · obtain ⟨hget, hnot⟩ := mem_leftoverLeases.mp hleft
      exact ((lease_mem_trimmedKeys hshort).mp ((hgone _).mp (hc x hx).2 hget)).resolve_left hnot
  · intro hv x hx
    refine ⟨(hgone _).mpr fun hget => ?_, (hgone _).mpr fun hget => ?_⟩
    · exact (payload_mem_trimmedKeys hshort).mpr (hv.messages x hx hget)
    · refine (lease_mem_trimmedKeys hshort).mpr (or_iff_not_imp_left.mpr fun hnot => ?_)
      exact hv.leases x hx (mem_leftoverLeases.mpr ⟨hget, hnot⟩)

end Short

end Listing

/-! ## Tokens that resume behind a key -/

/-- What is listed behind a token that names a key. -/
def restAfter (s : Store) (pref : String) : PageToken → Option (List String)
  | .first => some (s.keysUnder pref)
  | .after key => some ((s.keysUnder pref).filter (key < ·))
  | _ => none

/-- A page holds what comes next, and its token resumes behind the last key of the page. -/
structure Backend.ResumesAfterLast (bk : Backend) : Prop where
  answers : ∀ {s pref token rest n}, restAfter s pref token = some rest → 0 < n →
    ∃ keys next, bk.lists s token n pref keys next = true
  page : ∀ {s pref token rest n keys next}, restAfter s pref token = some rest → 0 < n →
    bk.lists s token n pref keys next = true → ∃ tail, rest = keys ++ tail ∧
      (next = .done → tail = []) ∧
      (next ≠ .done → ∃ key, keys.getLast? = some key ∧ next = .after key)

/-- In an ordered list the elements behind a bound come last. -/
lemma filter_lt_suffix {l : List String} (hl : l.Pairwise (· < ·)) (key : String) :
    l.filter (key < ·) <:+ l := by
  induction l with
  | nil => exact List.suffix_refl _
  | cons a l ih =>
      obtain ⟨hlt, hl⟩ := List.pairwise_cons.mp hl
      by_cases ha : key < a
      · have hall : (a :: l).filter (key < ·) = a :: l := by
          refine List.filter_eq_self.mpr fun b hb => decide_eq_true ?_
          rcases List.mem_cons.mp hb with rfl | hb
          · exact ha
          · exact ha.trans (hlt b hb)
        rw [hall]
      · rw [List.filter_cons_of_neg (by simpa using ha)]
        exact (ih hl).trans (List.suffix_cons a l)

lemma restAfter_suffix {s : Store} {pref : String} {token : PageToken} {rest : List String}
    (h : restAfter s pref token = some rest) : rest <:+ s.keysUnder pref := by
  cases token with
  | first =>
      obtain rfl := Option.some.inj h
      exact List.suffix_refl _
  | after key =>
      obtain rfl := Option.some.inj h
      exact filter_lt_suffix (s.keysUnder_sorted pref) key
  | _ => cases h

/-- What follows a page is still there, and all of it, when keys of the page have been deleted. -/
lemma filter_behind_last {all pre keys tail gone : List String} {key : String}
    (hall : all.Pairwise (· < ·)) (hsplit : all = pre ++ (keys ++ tail))
    (hlast : keys.getLast? = some key) (hgone : ∀ k ∈ gone, k ∈ keys) :
    (all.filter (fun k => k ∉ gone)).filter (key < ·) = tail := by
  obtain ⟨init, rfl⟩ := List.getLast?_eq_some_iff.mp hlast
  have hsorted := hsplit ▸ hall
  obtain ⟨-, hkt, hpre⟩ := List.pairwise_append.mp hsorted
  obtain ⟨hkeys, htail, hcross⟩ := List.pairwise_append.mp hkt
  obtain ⟨-, -, hinit⟩ := List.pairwise_append.mp hkeys
  have hkey : key ∈ init ++ [key] := by simp
  refine ((hall.filter _).filter _).eq_of_mem_iff htail fun x => ?_
  simp only [List.mem_filter, decide_eq_true_iff, hsplit, List.mem_append]
  constructor
  · rintro ⟨⟨hx | (hx | hx) | hx, -⟩, hlt⟩
    · exact absurd hlt (lt_asymm (hpre x hx key (List.mem_append_left _ hkey)))
    · exact absurd hlt (lt_asymm (hinit x hx key (List.mem_singleton_self _)))
    · exact absurd (List.mem_singleton.mp hx) hlt.ne'
    · exact hx
  · intro hx
    exact ⟨⟨.inr (.inr hx), fun hg => lt_irrefl _ (hcross x (hgone x hg) x hx)⟩,
      hcross key hkey x hx⟩

/-- Behind such tokens a scan visits everything, whatever it deletes. -/
def Backend.ResumesAfterLast.listing {bk : Backend} (hbk : bk.ResumesAfterLast) : Listing bk where
  remaining := restAfter
  visited _ rest := rest
  first _ _ := rfl
  visited_subset h := h
  suffix := restAfter_suffix
  answers h := hbk.answers h (by decide)
  page {s pref token rest keys next} h hl old := by
    obtain ⟨tail, hsplit, hend, hmore⟩ := hbk.page h (by decide) hl
    refine ⟨tail, tail, hsplit, hsplit, fun _ hk => hk, hend, fun hnext => ?_⟩
    obtain ⟨key, hlast, rfl⟩ := hmore hnext
    refine ⟨fun hnil => by simp [hnil] at hlast, fun s' hs' => ⟨tail, ?_, List.suffix_refl _, rfl⟩⟩
    obtain ⟨pre, hpre⟩ := restAfter_suffix h
    rw [restAfter, hs', filter_behind_last (s.keysUnder_sorted pref) (hsplit ▸ hpre.symm) hlast
      fun k hk => List.mem_of_mem_filter hk]

/-! ## The pass in terms of ids -/

section Exact

variable (pref : String) (h : ℤ) (s : Store)

/-- The old ids under a prefix, in lexical order. -/
def oldIDs : List String :=
  ((s.keysUnder pref).map (trimPrefix · pref)).filter fun x => IsOld h x

/-- The messages that a pass is to remove. -/
def firstOldMessages : List String := (oldIDs queueMsgPrefix h s).take defaultTrimBatch

/-- The leases that it is to remove then. -/
def firstOldLeases : List String :=
  ((oldIDs queueLeasePrefix h s).filter (· ∉ firstOldMessages h s)).take
    (defaultTrimBatch - (firstOldMessages h s).length)

/-- What a pass with the horizon `h` is to do. -/
structure Trims (r : ℕ × Option Err) (s' : Store) : Prop where
  count : r = ((firstOldMessages h s).length + (firstOldLeases h s).length, none)
  removes : s.Without ((firstOldMessages h s).map Slot.payload.key ++
    (firstOldMessages h s ++ firstOldLeases h s).map Slot.lease.key) s'
  clear : r.1 < defaultTrimBatch → Clear h s'

lemma map_oldIDs :
    (oldIDs pref h s).map (pref ++ ·) = (s.keysUnder pref).filter (oldKey pref h) := by
  rw [oldIDs, List.filter_map, List.map_map]
  refine (List.map_congr_left fun key hkey => ?_).trans (List.map_id _)
  obtain ⟨x, rfl⟩ := (Store.mem_keysUnder.mp (List.mem_of_mem_filter hkey)).1
  simp [trimPrefix_append]

variable {h s} {bk : Backend} (hbk : bk.ResumesAfterLast)
include hbk

lemma trimmedMessages_listing :
    hbk.listing.trimmedMessages h s = (firstOldMessages h s).map Slot.payload.key := by
  rw [Listing.trimmedMessages, firstOldMessages, List.map_take]
  exact congrArg _ (map_oldIDs _ _ _).symm

lemma trimmedLeases_listing :
    hbk.listing.trimmedLeases h s = (firstOldLeases h s).map Slot.lease.key := by
  have hpaired : ((firstOldMessages h s).map Slot.payload.key).map
      (fun key => queueLeasePrefix ++ trimPrefix key queueMsgPrefix) =
        (firstOldMessages h s).map (queueLeasePrefix ++ ·) := by
    rw [List.map_map]
    refine List.map_congr_left fun x _ => ?_
    change queueLeasePrefix ++ trimPrefix (queueMsgPrefix ++ x) queueMsgPrefix = _
    rw [trimPrefix_append]
  have hleft : (leftoverLeases s (hbk.listing.trimmedMessages h s)).filter
      (oldKey queueLeasePrefix h) = ((oldIDs queueLeasePrefix h s).filter
        (· ∉ firstOldMessages h s)).map (queueLeasePrefix ++ ·) := by
    rw [leftoverLeases, trimmedMessages_listing hbk, hpaired, List.filter_comm, ← map_oldIDs,
      List.filter_map]
    refine congrArg _ (List.filter_congr fun x _ => ?_)
    have hmem : queueLeasePrefix ++ x ∈ (firstOldMessages h s).map (queueLeasePrefix ++ ·) ↔
        x ∈ firstOldMessages h s :=
      List.mem_map_of_injective fun y z hyz => (Slot.key_inj (k := .lease) hyz).2
    simp only [Function.comp_apply, hmem]
  rw [Listing.trimmedLeases, firstOldLeases, List.map_take, trimmedMessages_listing hbk,
    List.length_map, ← trimmedMessages_listing hbk]
  exact congrArg _ hleft

/-- The keys of the entries that are to be removed are those under which the pass deletes. -/
lemma mem_trimmedKeys_listing {key : String} : key ∈ hbk.listing.trimmedKeys h s ↔
    key ∈ (firstOldMessages h s).map Slot.payload.key ++
      (firstOldMessages h s ++ firstOldLeases h s).map Slot.lease.key := by
  have hvictims : ∀ x, victims queueMsgPrefix true (Slot.payload.key x) =
      [Slot.payload.key x, Slot.lease.key x] := by
    intro x
    change [_, queueLeasePrefix ++ trimPrefix (queueMsgPrefix ++ x) queueMsgPrefix] = _
    rw [trimPrefix_append]
    rfl
  rw [Listing.trimmedKeys, trimmedMessages_listing, trimmedLeases_listing]
  simp only [List.mem_append, List.mem_flatMap, List.mem_map, exists_exists_and_eq_and, hvictims,
    List.mem_cons, List.not_mem_nil, or_false, List.map_append]
  constructor
  · rintro (⟨x, hx, rfl | rfl⟩ | hl)
    · exact .inl ⟨x, hx, rfl⟩
    · exact .inr (.inl ⟨x, hx, rfl⟩)
    · exact .inr (.inr hl)
  · rintro (⟨x, hx, rfl⟩ | ⟨x, hx, rfl⟩ | hl)
    · exact .inl ⟨x, hx, .inl rfl⟩
    · exact .inl ⟨x, hx, .inr rfl⟩
    · exact .inr hl

lemma visitsOld_listing : hbk.listing.VisitsOld h s where
  messages x hx hget := by
    refine List.mem_filter.mpr ⟨Store.mem_keysUnder.mpr ⟨⟨x, rfl⟩, hget⟩, ?_⟩
    exact (oldKey_append _ _ _).trans (decide_eq_true hx)
  leases x hx hleft :=
    List.mem_filter.mpr ⟨hleft, (oldKey_append _ _ _).trans (decide_eq_true hx)⟩

end Exact

/-- **A pass does exactly what it says**, on a backend whose page tokens resume behind the last key. -/
theorem trim_exact {B C : Type} [DecidableEq B] [DecidableEq C] {bk : B → Backend} {c : C}
    {q : Queue B} {w : World B C} (hbk : (bk q.bucket).ResumesAfterLast) {retention : ℤ} {fuel : ℕ}
    (hret : 0 < retention)
    (hmsg : ((w.store q.bucket).keysUnder queueMsgPrefix).length < fuel)
    (hlease : ((w.store q.bucket).keysUnder queueLeasePrefix).length < fuel) :
    (q.trim retention fuel).Ensures (alone bk noFaults c) (fun r w' =>
      Trims (w.clock - retention) (w.store q.bucket) r (w'.store q.bucket)) w := by
  refine (ensures_trim hbk.listing hret hmsg hlease).mono ?_
  rintro r w' ⟨rfl, hs⟩
  refine ⟨?_, fun key => ?_, fun hshort => ?_⟩
  · rw [trimmedMessages_listing, trimmedLeases_listing, List.length_map, List.length_map]
  · rw [hs key]
    exact if_congr (mem_trimmedKeys_listing hbk) rfl rfl
  · exact (Listing.clear_iff_of_short (Listing.short_iff.mp hshort) hs).mpr (visitsOld_listing hbk)

/-- `ListPage` of a service whose tokens name the last key of the page. -/
def keyListPage (s : Store) (token : PageToken) (pageSize : ℕ) (pref : String) :
    Option (List String × PageToken) :=
  (restAfter s pref token).map fun rest => (rest.take pageSize,
    match (rest.take pageSize).getLast? with
    | some key => if pageSize < rest.length then .after key else .done
    | none => .done)

/-- Such a service, with the versions of the mem driver. -/
def keyedBackend : Backend where
  version := memBackend.version
  lists s token pageSize pref keys next :=
    decide (keyListPage s token pageSize pref = some (keys, next))

lemma resumesAfterLast_keyedBackend : keyedBackend.ResumesAfterLast where
  answers {s pref token rest n} h _ := by
    obtain ⟨r, hr⟩ : ∃ r, keyListPage s token n pref = some r := by
      rw [keyListPage, h]
      exact ⟨_, rfl⟩
    exact ⟨r.1, r.2, decide_eq_true hr⟩
  page {s pref token rest n keys next} h hn hl := by
    have hl := of_decide_eq_true hl
    rw [keyListPage, h, Option.map_some, Option.some.injEq, Prod.mk.injEq] at hl
    obtain ⟨rfl, rfl⟩ := hl
    refine ⟨rest.drop n, (List.take_append_drop n rest).symm, fun hdone => ?_, fun hnext => ?_⟩
    · split at hdone
      · split at hdone
        · cases hdone
        · exact List.drop_eq_nil_of_le (by omega)
      · rename_i hlast
        have hnil := List.getLast?_eq_none_iff.mp hlast
        rw [List.take_eq_nil_iff] at hnil
        rw [hnil.resolve_left hn.ne', List.drop_nil]
    · split at hnext
      · rename_i key hlast
        split at hnext
        · rename_i hlong
          exact ⟨key, hlast, by simp only [hlong, if_true]⟩
        · exact absurd rfl hnext
      · exact absurd rfl hnext

/-- An old message with its lease, an old lease on its own, a message that is too young and one whose
id carries no time. -/
def mixedStore : Store :=
  ((((({} : Store).put memBackend "msg/0000000000001-a" .empty []).put memBackend
    "lease/0000000000001-a" .empty []).put memBackend "lease/0000000000002-b" .empty []).put
      memBackend "msg/0000000000900-c" .empty []).put memBackend "msg/0-report" .empty []

theorem trim_exact_mixed :
    (({ bucket := (), lease := 30, headWindow := 1, maxReceives := 0 } : Queue Unit).trim 1 4).Ensures
      (alone (fun _ => keyedBackend) noFaults ()) (fun r w' => r = (2, none) ∧
        Clear 100000000 (w'.store ()) ∧
        (w'.store ()).get "msg/0000000000001-a" = none ∧
        (w'.store ()).get "msg/0-report" = mixedStore.get "msg/0-report")
      ({ store := fun _ => mixedStore, clock := 100000001, mem := fun _ => {} } :
        World Unit Unit) := by
  have hm : firstOldMessages 100000000 mixedStore = ["0000000000001-a"] := by decide +kernel
  have hl : firstOldLeases 100000000 mixedStore = ["0000000000002-b"] := by decide +kernel
  have hshort : 2 < defaultTrimBatch := by decide
  refine (trim_exact resumesAfterLast_keyedBackend (by decide) (by decide +kernel)
    (by decide +kernel)).mono fun r w' ht => ?_
  change Trims 100000000 mixedStore r (w'.store ()) at ht
  have hr := ht.count
  rw [hm, hl] at hr
  have hgone := ht.removes
  rw [hm, hl] at hgone
  refine ⟨hr, ht.clear (by rw [hr]; exact hshort), ?_, ?_⟩
  · rw [hgone, if_pos (by decide)]
  · rw [hgone, if_neg (by decide)]

end Blobster
