import Mathlib.Data.String.Basic
import Blobster.Lexical.Decimal
import Blobster.Queue.Model

/-!
# The read-only tail

`queuetail.go`: a reader of the message log that claims nothing.  A call of `Page` reads the clock
once, scans the message keyspace from its head, skips the ids at or before its cursor, and stops at
the first id that is stamped within the lag of the clock, or when the page is full.

* `queueIDTime` — the timestamp in an id; **`queueIDTime_mono`** — the lexical order of time-shaped
  ids is the order of their timestamps, which is what the early stop rests on.
* `Tail.objects`, `Tail.page` — the loop over one page of the listing, and `Page`.
* `idsAbove` — the ids a listing has above a cursor; **`Tail.objects_spec`** — whatever makes it
  stop, the loop has surfaced exactly the ids above the cursor in an initial part of what was
  listed.
-/

namespace Blobster

open Interleave Lexical

/-! ## Timestamps in ids -/

/-- `queueIDTime`: the timestamp of an id of the shape `<13 digits>-<suffix>`, in nanoseconds. -/
def queueIDTime (id : String) : Option ℤ :=
  let ts := id.toList.takeWhile (· ≠ '-')
  if '-' ∉ id.toList ∨ ts.length ≠ 13 then none
  else if ts.all Char.isDigit then some (digitsValue 0 ts * 1000000)
  else none

lemma queueIDTime_eq_some {id : String} {ts : ℤ} (h : queueIDTime id = some ts) :
    ∃ ds xs, id.toList = ds ++ xs ∧ ds.length = 13 ∧ (∀ c ∈ ds, c.isDigit = true) ∧
      ts = digitsValue 0 ds * 1000000 := by
  simp only [queueIDTime] at h
  split_ifs at h with hshape hdigits
  rw [not_or, not_not, not_not] at hshape
  exact ⟨_, _, List.takeWhile_append_dropWhile.symm, hshape.2, List.all_eq_true.mp hdigits,
    (Option.some.inj h).symm⟩

/-- **Time-shaped ids sort by their timestamps.** -/
theorem queueIDTime_mono {x y : String} {tx ty : ℤ} (hx : queueIDTime x = some tx)
    (hy : queueIDTime y = some ty) (hle : x ≤ y) : tx ≤ ty := by
  obtain ⟨ds, xs, hxs, hdl, hds, rfl⟩ := queueIDTime_eq_some hx
  obtain ⟨es, ys, hys, hel, hes, rfl⟩ := queueIDTime_eq_some hy
  have hlex : ¬ es ++ ys < ds ++ xs := by
    rw [← hxs, ← hys]
    exact not_lt.mpr (String.le_iff_toList_le.mp hle)
  have hval := digitsValue_mono (m := 0) (n := 0) (hdl.trans hel.symm) hds hes (.inr ⟨rfl, hlex⟩)
  omega

lemma queueIDTime_empty : queueIDTime "" = none := by decide

example : queueIDTime "1700000000123-a" = some 1700000000123000000 := by decide +kernel

/-! ## Keys and ids -/

lemma cutPrefix_eq_some {key pref x : String} : cutPrefix key pref = some x ↔ key = pref ++ x := by
  simp only [cutPrefix]
  split_ifs with h
  · obtain ⟨rest, hrest⟩ := List.isPrefixOf_iff_prefix.mp h
    rw [Option.some.injEq, ← String.toList_inj, ← String.toList_inj, String.toList_append,
      String.toList_ofList, ← hrest, List.drop_left]
    exact (List.append_right_inj _).symm
  · refine ⟨fun hx => (nomatch hx), fun hx => absurd ?_ h⟩
    subst hx
    simp

/-! ## The tail -/

/-- How many keys `Page` asks the backend for at a time. -/
def tailListPageSize : ℕ := 1000

/-- `DefaultHeadWindow`. -/
def defaultHeadWindow : ℕ := 256

/-- A `Tail`.  `WithTailLag` makes a negative lag zero. -/
structure Tail (B : Type) where
  queue : Queue B
  lag : ℤ

namespace Tail

variable {B : Type} (tl : Tail B)

/-- Whether the id is stamped inside the lag window. -/
def gated (now : ℤ) (id : String) : Bool :=
  match queueIDTime id with
  | some ts => decide (now < ts + tl.lag)
  | none => false

/-- The loop over the objects of one page, with `out` and `next` as they are so far; `inr` is a
`return`. -/
def objects (now : ℤ) (cursor : String) (pageSize : ℕ) :
    List String → List String × String → (List String × String) ⊕ (List String × String)
  | [], acc => .inl acc
  | key :: keys, (out, next) =>
      match cutPrefix key queueMsgPrefix with
      | none => objects now cursor pageSize keys (out, next)
      | some id =>
          if id = "" then objects now cursor pageSize keys (out, next)
          else if id ≤ cursor then objects now cursor pageSize keys (out, next)
          else if tl.gated now id then .inr (out, next)
          else if (out ++ [id]).length ≥ pageSize then .inr (out ++ [id], id)
          else objects now cursor pageSize keys (out ++ [id], id)

/-- One round of the loop over the pages of the listing. -/
def pageRound (now : ℤ) (cursor : String) (pageSize : ℕ) :
    PageToken × List String × String →
      BProg B ((PageToken × List String × String) ⊕ Except Err (List String × String))
  | (token, out, next) => do
      match ← listPage tl.queue.bucket token tailListPageSize queueMsgPrefix with
      | .error e => return .inr (.error e)
      | .ok (objs, nextToken) =>
          match tl.objects now cursor pageSize objs (out, next) with
          | .inr page => return .inr (.ok page)
          | .inl (out, next) =>
              if nextToken = .done then return .inr (.ok (out, next))
              else return .inl (nextToken, out, next)

/-- `Page`: the ids surfaced and the cursor to resume from. -/
def page (cursor : String) (pageSize : ℤ) (fuel : ℕ) :
    BProg B (Except Err (List String × String)) := do
  let size := if pageSize ≤ 0 then defaultHeadWindow else pageSize.toNat
  let now ← now
  Prog.loop park (tl.pageRound now cursor size) fuel (.first, [], cursor)

end Tail

/-! ## What the loop surfaces -/

/-- The ids above the cursor among the listed keys. -/
def idsAbove (cursor : String) (keys : List String) : List String :=
  (keys.filterMap (cutPrefix · queueMsgPrefix)).filter fun id => id ≠ "" ∧ ¬ id ≤ cursor

/-- The cursor after a page: the last id of it, or the old cursor. -/
def lastOr (cursor : String) (out : List String) : String := out.getLast?.getD cursor

section Ids

variable {cursor x key : String} {keys l l' : List String}

@[simp] lemma idsAbove_nil : idsAbove cursor [] = [] := rfl

lemma idsAbove_append : idsAbove cursor (l ++ l') = idsAbove cursor l ++ idsAbove cursor l' := by
  simp [idsAbove]

lemma mem_idsAbove : x ∈ idsAbove cursor keys ↔ queueMsgPrefix ++ x ∈ keys ∧ cursor < x := by
  have hne : cursor < x → x ≠ "" := by
    rintro h rfl
    exact List.not_lt_nil _ (String.lt_iff_toList_lt.mp h)
  simp only [idsAbove, List.mem_filter, List.mem_filterMap, cutPrefix_eq_some, decide_eq_true_eq,
    not_le]
  constructor
  · rintro ⟨⟨key, hkey, rfl⟩, -, hx⟩
    exact ⟨hkey, hx⟩
  · rintro ⟨hkey, hx⟩
    exact ⟨⟨_, hkey, rfl⟩, hne hx, hx⟩

lemma idsAbove_singleton (h : key = queueMsgPrefix ++ x) (hx : x ≠ "") (hc : ¬ x ≤ cursor) :
    idsAbove cursor [key] = [x] := by
  simp only [idsAbove, List.filterMap_cons, cutPrefix_eq_some.mpr h, List.filterMap_nil]
  exact List.filter_cons_of_pos (decide_eq_true ⟨hx, hc⟩)

@[simp] lemma lastOr_nil : lastOr cursor [] = cursor := rfl

@[simp] lemma lastOr_concat : lastOr cursor (l ++ [x]) = x := by simp [lastOr]

/-- The cursor only moves to an id of the page. -/
lemma lastOr_mem (h : lastOr cursor l ≠ cursor) : lastOr cursor l ∈ l := by
  cases hl : l.getLast? with
  | none => simp [lastOr, hl] at h
  | some x => simpa [lastOr, hl] using List.mem_of_getLast? hl

/-- Ids in order stay in order as ids of keys. -/
lemma idsAbove_sorted (h : keys.Pairwise (· < ·)) : (idsAbove cursor keys).Pairwise (· < ·) := by
  refine List.Pairwise.filter _ (List.Pairwise.filterMap _ ?_ h)
  intro k k' hlt x hx y hy
  rw [cutPrefix_eq_some] at hx hy
  subst hx hy
  exact (append_lt_append_left _).mp hlt

end Ids

namespace Tail

variable {B : Type} (tl : Tail B) {now : ℤ} {cursor : String} {pageSize : ℕ}

variable (now cursor pageSize) in
/-- What the loop makes of a page `keys`, with `out` and `next` as they are after the listed keys
`l`: it goes over an initial part of the page, and over the whole of it if it does not return. -/
def Covers (keys l : List String) : Prop :=
  ∃ done rest, keys = done ++ rest ∧
    (∀ x ∈ idsAbove cursor (l ++ done), tl.gated now x = false) ∧
    let before := (idsAbove cursor l, lastOr cursor (idsAbove cursor l))
    let after := (idsAbove cursor (l ++ done), lastOr cursor (idsAbove cursor (l ++ done)))
    (tl.objects now cursor pageSize keys before = .inl after ∧ rest = [] ∨
      tl.objects now cursor pageSize keys before = .inr after)

/-- A key after which the loop goes on. -/
lemma Covers.cons {key : String} {keys l : List String}
    (h : tl.Covers now cursor pageSize keys (l ++ [key]))
    (heq : tl.objects now cursor pageSize (key :: keys)
        (idsAbove cursor l, lastOr cursor (idsAbove cursor l)) =
      tl.objects now cursor pageSize keys
        (idsAbove cursor (l ++ [key]), lastOr cursor (idsAbove cursor (l ++ [key])))) :
    tl.Covers now cursor pageSize (key :: keys) l := by
  obtain ⟨done, rest, rfl, hg, h⟩ := h
  refine ⟨key :: done, rest, rfl, by simpa using hg, ?_⟩
  simp only [List.append_assoc, List.singleton_append] at h
  simpa only [heq] using h

/-- What the loop does with one key: it skips it, or the key adds one id above the cursor, which is
gated, fills the page, or is surfaced. -/
lemma objects_cons (now : ℤ) (cursor : String) (pageSize : ℕ) (key : String) (keys : List String) :
    (idsAbove cursor [key] = [] ∧ ∀ acc, tl.objects now cursor pageSize (key :: keys) acc =
        tl.objects now cursor pageSize keys acc) ∨
      ∃ x, idsAbove cursor [key] = [x] ∧ ∀ out next,
        tl.objects now cursor pageSize (key :: keys) (out, next) =
          if tl.gated now x then .inr (out, next)
          else if (out ++ [x]).length ≥ pageSize then .inr (out ++ [x], x)
          else tl.objects now cursor pageSize keys (out ++ [x], x) := by
  cases hcut : cutPrefix key queueMsgPrefix with
  | none => exact .inl ⟨by simp [idsAbove, hcut], fun acc => by simp only [objects, hcut]⟩
  | some x =>
      by_cases hx : x = ""
      · exact .inl ⟨by simp [idsAbove, hcut, hx], fun acc => by
          simp only [objects, hcut, if_pos hx]⟩
      by_cases hc : x ≤ cursor
      · refine .inl ⟨?_, fun acc => by simp only [objects, hcut, if_neg hx, if_pos hc]⟩
        simp only [idsAbove, List.filterMap_cons, hcut, List.filterMap_nil, List.filter_cons, hc,
          not_true, and_false, decide_false, List.filter_nil, Bool.false_eq_true, if_false]
      · exact .inr ⟨x, idsAbove_singleton (cutPrefix_eq_some.mp hcut) hx hc, fun out next => by
          simp only [objects, hcut, if_neg hx, if_neg hc]⟩

/-- **What the loop surfaces**: the ids above the cursor in an initial part of the listing, none of
them gated. -/
theorem objects_spec (pageSize : ℕ) (keys l : List String)
    (hl : ∀ x ∈ idsAbove cursor l, tl.gated now x = false) :
    tl.Covers now cursor pageSize keys l := by
  induction keys generalizing l with
  | nil => exact ⟨[], [], rfl, by simpa using hl, .inl ⟨by simp [objects], rfl⟩⟩
  | cons key keys ih =>
      rcases tl.objects_cons now cursor pageSize key keys with ⟨hnone, heq⟩ | ⟨x, hone, heq⟩
      · have hsame : idsAbove cursor (l ++ [key]) = idsAbove cursor l := by
          rw [idsAbove_append, hnone, List.append_nil]
        exact (ih (l ++ [key]) (by rwa [hsame])).cons tl (by rw [heq, hsame])
      have hids : idsAbove cursor (l ++ [key]) = idsAbove cursor l ++ [x] := by
        rw [idsAbove_append, hone]
      by_cases hgate : tl.gated now x = true
      · refine ⟨[], key :: keys, rfl, by simpa using hl, .inr ?_⟩
        rw [heq, if_pos hgate, List.append_nil]
      have hopen : ∀ y ∈ idsAbove cursor (l ++ [key]), tl.gated now y = false := by
        intro y hy
        rw [hids, List.mem_append, List.mem_singleton] at hy
        rcases hy with hy | rfl
        · exact hl y hy
        · exact Bool.eq_false_iff.mpr hgate
      by_cases hfull : (idsAbove cursor l ++ [x]).length ≥ pageSize
      · refine ⟨[key], keys, rfl, hopen, .inr ?_⟩
        rw [heq, if_neg hgate, if_pos hfull, hids, lastOr_concat]
      · refine (ih (l ++ [key]) hopen).cons tl ?_
        rw [heq, if_neg hgate, if_neg hfull, hids, lastOr_concat]

/-- The ids in front of the first gated one. -/
def visible (now : ℤ) (ids : List String) : List String :=
  ids.takeWhile fun x => !tl.gated now x

lemma visible_cons (now : ℤ) (x : String) (ids : List String) :
    tl.visible now (x :: ids) = if tl.gated now x then [] else x :: tl.visible now ids := by
  rw [visible, List.takeWhile_cons]
  cases tl.gated now x <;> rfl

lemma visible_eq_self {ids : List String} (h : ∀ x ∈ ids, tl.gated now x = false) :
    tl.visible now ids = ids := by
  induction ids with
  | nil => rfl
  | cons x ids ih =>
      rw [visible_cons, h x List.mem_cons_self, if_neg Bool.false_ne_true,
        ih fun y hy => h y (List.mem_cons_of_mem _ hy)]

/-- **What the loop makes of a page**, with the ids `out` so far: it surfaces the ids above the cursor
up to the first gated one, and returns if they fill the page or there is a gated one. -/
theorem objects_eq (keys out : List String) (hout : out.length < pageSize) :
    tl.objects now cursor pageSize keys (out, lastOr cursor out) =
      let all := out ++ tl.visible now (idsAbove cursor keys)
      if pageSize ≤ all.length ∨ tl.visible now (idsAbove cursor keys) ≠ idsAbove cursor keys then
        .inr (all.take pageSize, lastOr cursor (all.take pageSize))
      else .inl (all, lastOr cursor all) := by
  induction keys generalizing out with
  | nil => simp [objects, visible, hout]
  | cons key keys ih =>
      have hsplit : idsAbove cursor (key :: keys) = idsAbove cursor [key] ++ idsAbove cursor keys :=
        idsAbove_append (l := [key])
      rw [hsplit]
      rcases tl.objects_cons now cursor pageSize key keys with ⟨hnone, heq⟩ | ⟨x, hone, heq⟩
      · rw [heq, hnone, List.nil_append, ih out hout]
      rw [heq, hone, List.singleton_append, visible_cons]
      by_cases hgate : tl.gated now x = true
      · simp [hgate, List.take_of_length_le hout.le]
      have hcons : out ++ x :: tl.visible now (idsAbove cursor keys) =
          out ++ [x] ++ tl.visible now (idsAbove cursor keys) := List.append_cons _ _ _
      rw [if_neg hgate, if_neg hgate, hcons]
      by_cases hfull : (out ++ [x]).length ≥ pageSize
      · have hlen : (out ++ [x]).length = pageSize := by
          simp only [List.length_append, List.length_singleton] at hfull ⊢
          omega
        have hle : pageSize ≤ (out ++ [x] ++ tl.visible now (idsAbove cursor keys)).length := by
          rw [List.length_append, hlen]
          exact Nat.le_add_right _ _
        simp only [if_pos hfull, if_pos (Or.inl hle), List.take_left' hlen, lastOr_concat]
      · have hnext := ih (out ++ [x]) (not_le.mp hfull)
        rw [lastOr_concat] at hnext
        simp only [if_neg hfull, hnext, ne_eq, List.cons.injEq, true_and]

/-- Without gated ids, the loop stops only when the page is full. -/
lemma objects_ungated (keys out : List String) (hout : out.length < pageSize)
    (hgate : ∀ x ∈ idsAbove cursor keys, tl.gated now x = false) :
    tl.objects now cursor pageSize keys (out, lastOr cursor out) =
      if pageSize ≤ (out ++ idsAbove cursor keys).length then
        .inr ((out ++ idsAbove cursor keys).take pageSize,
          lastOr cursor ((out ++ idsAbove cursor keys).take pageSize))
      else .inl (out ++ idsAbove cursor keys, lastOr cursor (out ++ idsAbove cursor keys)) := by
  have hall := tl.visible_eq_self hgate
  simp only [tl.objects_eq keys out hout, hall, ne_eq, not_true, or_false]

end Tail

end Blobster
