import Blobster.Queue.Tail

/-!
# The window of a page

What a call of `Page` returns while the log and the clock stand still, over a listing that comes in
any number of pages.

* `standing` — the tail's calls, answered by a listing and a clock that stand still;
  `Tail.Yields` — `Page`, run on these answers, returns a page.
* **`Tail.yields_iff`** — the ids above the cursor in the order of the listing, up to the first gated
  one and to the size of the page.
* `Tail.visibleFrom` — the ids of a log that are visible from a cursor on; `Tail.Calls` — calls of
  any sizes, each resuming where the last one ended.
* **`Tail.page_window`** — on a sorted log a page is the next part of the visible ids, and the calls
  partition them.
-/

namespace Blobster

open Interleave

/-! ## A call of `Page` -/

/-- The calls that `Page` makes, answered by a listing and a clock that stand still. -/
def standing {B : Type} (list : PageToken → ℕ → String → Option (List String × PageToken))
    (clock : ℤ) : (o : (bucketSig B).Op) → Option ((bucketSig B).Res o)
  | .listPage _ token pageSize pref => (list token pageSize pref).map .ok
  | .now => some clock
  | _ => none

/-- The number of ids that a page of the given size has room for. -/
def pageLimit (pageSize : ℤ) : ℕ := if pageSize ≤ 0 then defaultHeadWindow else pageSize.toNat

lemma pageLimit_pos (pageSize : ℤ) : 0 < pageLimit pageSize := by
  unfold pageLimit
  split_ifs with h
  · decide
  · omega

/-- The first `n` ids, with the cursor behind them. -/
def cutPage (cursor : String) (n : ℕ) (ids : List String) : List String × String :=
  (ids.take n, lastOr cursor (ids.take n))

namespace Tail

variable {B : Type} (tl : Tail B)
  (list : PageToken → ℕ → String → Option (List String × PageToken)) (clock : ℤ)

/-- `Page`, run while the log and the clock stand still, returns `page`. -/
def Yields (cursor : String) (pageSize : ℤ) (page : List String × String) : Prop :=
  ∃ fuel, (tl.page cursor pageSize fuel).eval (standing list clock) = some (.ok page)

section Page

variable {tl list clock} {cursor : String} {size : ℕ} {token : PageToken}
  {pages : List (List String)}

lemma visible_append (l l' : List String) :
    tl.visible clock (l ++ l') =
      if tl.visible clock l = l then l ++ tl.visible clock l' else tl.visible clock l := by
  induction l with
  | nil => rfl
  | cons x l ih =>
      rw [List.cons_append, visible_cons, visible_cons]
      cases tl.gated clock x with
      | true => simp
      | false =>
          simp only [Bool.false_eq_true, if_false, ih, List.cons.injEq, true_and]
          split_ifs <;> rfl

variable (tl clock cursor) in
/-- One round of the loop over the pages. -/
lemma eval_pageRound {keys : List String} {next : PageToken}
    (h : list token tailListPageSize queueMsgPrefix = some (keys, next)) {out : List String}
    (hout : out.length < size) :
    (tl.pageRound clock cursor size (token, out, lastOr cursor out)).eval (standing list clock) =
      let all := out ++ tl.visible clock (idsAbove cursor keys)
      some (if size ≤ all.length ∨ tl.visible clock (idsAbove cursor keys) ≠ idsAbove cursor keys ∨
          next = .done then .inr (.ok (cutPage cursor size all))
        else .inl (next, all, lastOr cursor all)) := by
  have hans : (listPage tl.queue.bucket token tailListPageSize queueMsgPrefix).eval
      (standing list clock) = some (.ok (keys, next)) := by
    simp only [listPage, Prog.perform, Prog.eval, standing, h]
    rfl
  refine (Prog.eval_bind _ _ _).trans ?_
  rw [hans, Option.bind_some]
  simp only [tl.objects_eq keys out hout, cutPage]
  by_cases hstop : size ≤ (out ++ tl.visible clock (idsAbove cursor keys)).length ∨
      tl.visible clock (idsAbove cursor keys) ≠ idsAbove cursor keys
  · rw [if_pos hstop, if_pos (or_assoc.mp (.inl hstop))]
    rfl
  · rw [if_neg hstop]
    have hroom := (not_le.mp fun h => hstop (.inl h)).le
    by_cases hnext : next = .done
    · rw [if_pos (.inr (.inr hnext)), List.take_of_length_le hroom]
      simp only [hnext, if_true]
      rfl
    · rw [if_neg fun h => (or_assoc.mpr h).elim hstop hnext]
      simp only [hnext, if_false]
      rfl

variable (tl clock cursor) in
/-- The loop over the pages of a listing, with the ids `out` so far. -/
lemma eval_loop (hpages : Pages (fun token => list token tailListPageSize queueMsgPrefix) token pages)
    (out : List String) (hout : out.length < size) (fuel : ℕ) :
    let r := (Prog.loop park (tl.pageRound clock cursor size) fuel
      (token, out, lastOr cursor out)).eval (standing list clock)
    (r = none ∨ r = some (.ok (cutPage cursor size
      (out ++ tl.visible clock (idsAbove cursor pages.flatten))))) ∧
      (pages.length ≤ fuel → r ≠ none) := by
  induction hpages generalizing out fuel with
  | @last token keys h =>
      cases fuel with
      | zero => exact ⟨.inl rfl, by simp⟩
      | succ fuel =>
          have hround := eval_pageRound tl clock cursor h hout
          simp only [or_true, if_true] at hround
          simp only [Prog.eval_loop_succ, hround, Option.bind_some, List.flatten_singleton]
          exact ⟨.inr trivial, by simp⟩
  | @more token next keys pages h hnext hp ih =>
      cases fuel with
      | zero => exact ⟨.inl rfl, by simp⟩
      | succ fuel =>
          have hround := eval_pageRound tl clock cursor h hout
          simp only [hnext, or_false] at hround
          rw [List.flatten_cons, idsAbove_append, visible_append]
          simp only [Prog.eval_loop_succ, hround, Option.bind_some]
          by_cases hgate : tl.visible clock (idsAbove cursor keys) = idsAbove cursor keys
          · simp only [hgate, ne_eq, not_true, or_false, if_true, ← List.append_assoc]
            by_cases hfull : size ≤ (out ++ idsAbove cursor keys).length
            · -- the page is full, and what is listed later is cut off
              simp only [if_pos hfull, cutPage, List.take_append_of_le_length hfull]
              exact ⟨.inr trivial, by simp⟩
            · simp only [if_neg hfull]
              have hstep := ih (out ++ idsAbove cursor keys) (not_le.mp hfull) fuel
              exact ⟨hstep.1, fun hlen => hstep.2 (by simpa using hlen)⟩
          · rw [if_neg hgate, if_pos (.inr hgate)]
            exact ⟨.inr rfl, by simp⟩

/-- **What `Page` returns**: the next ids above the cursor, in the order of the listing, up to the
first gated one. -/
theorem yields_iff
    (hpages : Pages (fun token => list token tailListPageSize queueMsgPrefix) .first pages)
    (pageSize : ℤ) (page : List String × String) :
    tl.Yields list clock cursor pageSize page ↔
      page = cutPage cursor (pageLimit pageSize)
        (tl.visible clock (idsAbove cursor pages.flatten)) := by
  have heval : ∀ fuel, (tl.page cursor pageSize fuel).eval (standing list clock) =
      (Prog.loop park (tl.pageRound clock cursor (pageLimit pageSize)) fuel
        (.first, [], lastOr cursor [])).eval (standing list clock) := fun _ => rfl
  have hloop := eval_loop tl clock cursor hpages []
    (pageLimit_pos pageSize)
  simp only [List.nil_append] at hloop
  constructor
  · rintro ⟨fuel, h⟩
    rw [heval] at h
    rcases (hloop fuel).1 with hnone | hsome
    · rw [hnone] at h
      cases h
    · rw [hsome] at h
      exact (Except.ok.inj (Option.some.inj h)).symm
  · rintro rfl
    refine ⟨pages.length, ?_⟩
    rw [heval]
    exact (hloop pages.length).1.resolve_left ((hloop pages.length).2 le_rfl)

end Page

/-! ## Paging through a log -/

/-- The ids that a tail sees from a cursor on: those above it, up to the first gated one. -/
def visibleFrom (ids : List String) (cursor : String) : List String :=
  tl.visible clock (ids.filter (cursor < ·))

/-- The message keys are listed, over any number of pages. -/
def Listed (ids : List String) : Prop :=
  ∃ pages, Pages (fun token => list token tailListPageSize queueMsgPrefix) .first pages ∧
    pages.flatten = ids.map (queueMsgPrefix ++ ·)

/-- Calls from a cursor on, of any sizes, each resuming where the last one ended, with the pages they
return and the last cursor. -/
inductive Calls : String → List (List String) → String → Prop where
  | none (cursor : String) : Calls cursor [] cursor
  | call {cursor next last : String} {pageSize : ℤ} {out : List String} {outs : List (List String)}
      (h : tl.Yields list clock cursor pageSize (out, next)) (hc : Calls next outs last) :
      Calls cursor (out :: outs) last

section Log

variable {tl list clock} {ids out : List String} {n : ℕ} {cursor next : String}

lemma idsAbove_map (cursor : String) (ids : List String) :
    idsAbove cursor (ids.map (queueMsgPrefix ++ ·)) = ids.filter (cursor < ·) := by
  have hcut : (ids.map (queueMsgPrefix ++ ·)).filterMap (cutPrefix · queueMsgPrefix) = ids := by
    rw [List.filterMap_map]
    refine (List.filterMap_congr fun x _ => ?_).trans List.filterMap_some
    exact cutPrefix_eq_some.mpr rfl
  rw [idsAbove, hcut]
  refine List.filter_congr fun x _ => ?_
  by_cases hx : cursor < x
  · have hne : x ≠ "" := by
      rintro rfl
      exact List.not_lt_nil _ (String.lt_iff_toList_lt.mp hx)
    simp only [hx, not_le.mpr hx, hne, ne_eq, not_false_eq_true, and_self]
  · simp only [hx, not_lt.mp hx, not_true, and_false]

lemma Listed.yields_iff (h : Listed list ids) (pageSize : ℤ) (page : List String × String) :
    tl.Yields list clock cursor pageSize page ↔
      page = cutPage cursor (pageLimit pageSize) (tl.visibleFrom clock ids cursor) := by
  obtain ⟨pages, hpages, hflat⟩ := h
  rw [Tail.yields_iff hpages, hflat, idsAbove_map, visibleFrom]

/-- In a sorted list, what is above the last of the first `n` is what follows them. -/
lemma filter_above_last (hs : ids.Pairwise (· < ·)) (hn : 0 < n)
    (hne : ids.filter (cursor < ·) ≠ []) :
    cursor < lastOr cursor ((ids.filter (cursor < ·)).take n) ∧
      ids.filter (lastOr cursor ((ids.filter (cursor < ·)).take n) < ·) =
        (ids.filter (cursor < ·)).drop n := by
  generalize hl : ids.filter (cursor < ·) = l at hne ⊢
  have hsorted : l.Pairwise (· < ·) := hl ▸ hs.filter _
  have habove : ∀ x ∈ l, cursor < x := fun x hx => by
    rw [← hl] at hx
    simpa using (List.mem_filter.mp hx).2
  obtain ⟨init, last, htake⟩ : ∃ init last, l.take n = init ++ [last] := by
    rcases List.eq_nil_or_concat' (l.take n) with h | h
    · exact absurd h (by simp [hne, hn.ne'])
    · exact h
  have hsplit : l = init ++ [last] ++ l.drop n := by rw [← htake, List.take_append_drop]
  have hlast : cursor < last := habove last (by rw [hsplit]; simp)
  rw [htake, lastOr_concat]
  refine ⟨hlast, ?_⟩
  have hfilter : ids.filter (last < ·) = l.filter (last < ·) := by
    rw [← hl, List.filter_filter]
    refine List.filter_congr fun x _ => ?_
    by_cases hx : last < x
    · simp [hx, hlast.trans hx]
    · simp [hx]
  rw [hfilter]
  conv_lhs => rw [hsplit]
  rw [hsplit, List.append_assoc, List.pairwise_append] at hsorted
  obtain ⟨-, hrest, hinit⟩ := hsorted
  rw [List.singleton_append, List.pairwise_cons] at hrest
  have hnone : ∀ x ∈ init ++ [last], ¬ decide (last < x) = true := fun x hx => by
    rw [decide_eq_true_eq, not_lt]
    rcases List.mem_append.mp hx with hx | hx
    · exact (hinit x hx last (by simp)).le
    · exact (List.mem_singleton.mp hx).le
  have hrest : (l.drop n).filter (last < ·) = l.drop n :=
    List.filter_eq_self.mpr fun x hx => decide_eq_true (hrest.1 x hx)
  rw [List.filter_append, List.filter_eq_nil_iff.mpr hnone, hrest, List.nil_append]

variable (tl clock) in
/-- The visible ids are an initial part, and what follows it is not seen. -/
lemma visible_split (ids : List String) : ∃ rest, ids = tl.visible clock ids ++ rest ∧
    ∀ l, (∀ x ∈ l, tl.gated clock x = false) → tl.visible clock (l ++ rest) = l := by
  refine ⟨ids.dropWhile fun x => !tl.gated clock x, List.takeWhile_append_dropWhile.symm, ?_⟩
  intro l hl
  rw [visible_append, if_pos (tl.visible_eq_self hl)]
  have hnone : tl.visible clock (ids.dropWhile fun x => !tl.gated clock x) = [] := by
    cases hrest : ids.dropWhile fun x => !tl.gated clock x with
    | nil => rfl
    | cons x rest =>
        have hhead := List.head_dropWhile_not (fun x => !tl.gated clock x) (l := ids) (by simp [hrest])
        simp only [hrest, List.head_cons, Bool.not_eq_false'] at hhead
        rw [visible_cons, if_pos hhead]
  rw [hnone, List.append_nil]

/-- **What is visible behind a page** is the rest of what was visible. -/
lemma visibleFrom_next (hs : ids.Pairwise (· < ·)) (hn : 0 < n) :
    tl.visibleFrom clock ids (lastOr cursor ((tl.visibleFrom clock ids cursor).take n)) =
      (tl.visibleFrom clock ids cursor).drop n := by
  by_cases hnone : tl.visibleFrom clock ids cursor = []
  · rw [hnone, List.take_nil, lastOr_nil, List.drop_nil, hnone]
  obtain ⟨rest, hsplit, hrest⟩ := tl.visible_split clock (ids.filter (cursor < ·))
  change ids.filter (cursor < ·) = tl.visibleFrom clock ids cursor ++ rest at hsplit
  have hopen : ∀ x ∈ tl.visibleFrom clock ids cursor, tl.gated clock x = false := fun x hx => by
    simpa using List.all_eq_true.mp List.all_takeWhile x hx
  -- the page is also an initial part of all the ids above the cursor
  generalize hv : tl.visibleFrom clock ids cursor = vis at hnone hsplit hopen ⊢
  have hmin : 0 < min n vis.length := lt_min hn (List.length_pos_of_ne_nil hnone)
  have htake : (ids.filter (cursor < ·)).take (min n vis.length) = vis.take n := by
    rw [hsplit, List.take_append_of_le_length (min_le_right _ _), List.take_eq_take_iff]
    omega
  have hdrop : (ids.filter (cursor < ·)).drop (min n vis.length) = vis.drop n ++ rest := by
    rw [hsplit, List.drop_append_of_le_length (min_le_right _ _)]
    congr 1
    rcases le_total n vis.length with hle | hle
    · rw [min_eq_left hle]
    · rw [min_eq_right hle, List.drop_length, List.drop_of_length_le hle]
  have hne : ids.filter (cursor < ·) ≠ [] := by
    rw [hsplit]
    exact List.append_ne_nil_of_left_ne_nil hnone _
  have hnext := (filter_above_last hs hmin hne).2
  rw [htake, hdrop] at hnext
  rw [visibleFrom, hnext]
  exact hrest _ fun x hx => hopen x (List.mem_of_mem_drop hx)

/-- The pages of consecutive calls, and what is visible behind them, are what was visible. -/
lemma Calls.flatten {outs : List (List String)} (hs : ids.Pairwise (· < ·)) (hl : Listed list ids)
    (hc : tl.Calls list clock cursor outs next) :
    outs.flatten ++ tl.visibleFrom clock ids next = tl.visibleFrom clock ids cursor := by
  induction hc with
  | none => rfl
  | call h _ ih =>
      obtain ⟨rfl, rfl⟩ := Prod.mk.inj ((hl.yields_iff _ _).mp h)
      rw [List.flatten_cons, List.append_assoc, ih, visibleFrom_next hs (pageLimit_pos _),
        List.take_append_drop]

end Log

/-- **`Page` is the exact window after the cursor.**  On a sorted log that does not change, a call
returns the first ids of those visible from its cursor on, in order, and the last of them as the next
cursor; it returns none exactly if nothing is visible.  Calls of any sizes, each resuming where the
last one ended, surface what was visible from the first cursor on, each id once and in order, up to
what is visible from the last one on. -/
theorem page_window {tl : Tail B} {ids : List String} (hs : ids.Pairwise (· < ·))
    (hl : Listed list ids) (cursor : String) :
    (tl.visibleFrom clock ids cursor).Pairwise (· < ·) ∧
    (∀ pageSize page, tl.Yields list clock cursor pageSize page ↔
      page.1 = (tl.visibleFrom clock ids cursor).take
          (if pageSize ≤ 0 then defaultHeadWindow else pageSize.toNat) ∧
        page.2 = page.1.getLast?.getD cursor) ∧
    (∀ pageSize next, tl.Yields list clock cursor pageSize ([], next) ↔
      tl.visibleFrom clock ids cursor = [] ∧ next = cursor) ∧
    ∀ outs last, tl.Calls list clock cursor outs last →
      outs.flatten ++ tl.visibleFrom clock ids last = tl.visibleFrom clock ids cursor := by
  have hyields : ∀ pageSize page, tl.Yields list clock cursor pageSize page ↔
      page.1 = (tl.visibleFrom clock ids cursor).take (pageLimit pageSize) ∧
        page.2 = page.1.getLast?.getD cursor := by
    intro pageSize page
    rw [hl.yields_iff, Prod.ext_iff]
    refine and_congr_right fun h => ?_
    rw [h]
    rfl
  refine ⟨(hs.filter _).sublist (List.takeWhile_sublist _), hyields, fun pageSize next => ?_,
    fun outs last hc => hc.flatten hs hl⟩
  rw [hyields]
  refine and_congr ⟨fun h => ?_, fun h => by rw [h, List.take_nil]⟩ Iff.rfl
  rcases List.take_eq_nil_iff.mp h.symm with h | h
  · exact absurd h (pageLimit_pos pageSize).ne'
  · exact h

/-- Two pages of a log. -/
def twoPages (token : PageToken) (_ : ℕ) (_ : String) : Option (List String × PageToken) :=
  match token with
  | .first => some (["msg/0000000000001-a"], .at 1)
  | _ => some (["msg/0000000000009-b", "msg/job"], .done)

/-- An id inside the lag hides what is behind it, and calls do not get past it. -/
theorem page_window_behind_gate :
    let ids := ["0000000000001-a", "0000000000009-b", "job"]
    let tl : Tail Unit := ⟨⟨(), 30, 256, 0⟩, 5000000⟩
    ids.Pairwise (· < ·) ∧ Listed twoPages ids ∧
      tl.Yields twoPages 9000000 "" 0 (["0000000000001-a"], "0000000000001-a") ∧
      tl.Yields twoPages 9000000 "0000000000001-a" 7 ([], "0000000000001-a") := by
  intro ids tl
  have hs : ids.Pairwise (· < ·) := by decide +kernel
  have hl : Listed twoPages ids :=
    ⟨[["msg/0000000000001-a"], ["msg/0000000000009-b", "msg/job"]],
      .more rfl nofun (.last rfl), by decide +kernel⟩
  refine ⟨hs, hl, ?_, ?_⟩
  · exact ((page_window twoPages 9000000 hs hl "").2.1 0 _).mpr (by decide +kernel)
  · exact ((page_window twoPages 9000000 hs hl "0000000000001-a").2.2.1 7 _).mpr
      (by decide +kernel)

end Tail

end Blobster
