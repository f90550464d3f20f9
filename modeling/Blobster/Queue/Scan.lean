import Blobster.Bucket.Mem
import Blobster.Bucket.Rules
import Blobster.Queue.Tail

/-!
# Scans of a listing

A scan goes through a listing page by page, with a separate call of the backend for each page; what
is stored may change in between.  What a listing owes a scan is therefore a statement about the run:
the keys it has returned so far are in order, each of them was there at some time during the scan,
and a key that was there the whole time is not passed over (`InOrder`).  A backend that resumes after
the last key returned satisfies this under any interference, one that resumes at a position only as
long as nothing moves.

* `Scan`, `scanned` — the keys a thread has listed since its scan began, read off the history.
* `InOrder` — what the listing owes.
* `Reads` — what a contract must provide for a thread that scans.
* **`Tail.safe_page`** — what a call of `Page` returns: ids above the cursor, in order, none of them
  gated, and among them every id up to the new cursor that was there during the whole scan.
-/

set_option linter.unusedSectionVars false

namespace Blobster

open Interleave Contract

variable {B C : Type} [DecidableEq B] [DecidableEq C]

/-- The keys a scan has listed so far, oldest first, and how many steps the run had taken when it
began. -/
structure Scan where
  keys : List String
  since : ℕ

/-- The scan with one more page. -/
def Scan.add (sc : Scan) (keys : List String) : Scan := ⟨sc.keys ++ keys, sc.since⟩

/-- The page that a step listed for the thread `t`. -/
def pageOf (t : Thread C) : BEvent B C → Option (PageToken × List String)
  | .call u (.listPage _ token _ _) (.ok (keys, _)) => if u = t then some (token, keys) else none
  | _ => none

/-- The scan of the thread `t`: the pages it has listed since it last asked for the first one. -/
def scanned (t : Thread C) : List (BEvent B C × World B C) → Scan
  | [] => ⟨[], 0⟩
  | (e, _) :: h =>
      match pageOf t e with
      | none => scanned t h
      | some (token, keys) => (if token = .first then ⟨[], h.length⟩ else scanned t h).add keys

/-- The scan that the thread `t` continues with the token `token`, or begins. -/
def scanSoFar (t : Thread C) (token : PageToken) (v : BView B C) : Scan :=
  if token = .first then ⟨[], v.hist.length⟩ else scanned t v.hist

/-- The key was stored the whole time since the run had taken `n` steps. -/
def Present (v : BView B C) (b : B) (n : ℕ) (key : String) : Prop :=
  ∀ w ∈ v.worldsFrom n, (w.store b).get key ≠ none

/-- What a listing owes a scan that it has given these keys and the token `next`. -/
structure InOrder (v : BView B C) (b : B) (pref : String) (sc : Scan) (next : PageToken) :
    Prop where
  resumes : next ≠ .first
  sorted : sc.keys.Pairwise (· < ·)
  listed : ∀ key ∈ sc.keys, (∃ x, key = pref ++ x) ∧
    ∃ w ∈ v.worldsFrom sc.since, (w.store b).get key ≠ none
  covers : ∀ x, Present v b sc.since (pref ++ x) →
    (next = .done ∨ ∃ key ∈ sc.keys, pref ++ x ≤ key) → pref ++ x ∈ sc.keys

/-- The listing of the bucket `b` gives every scan what it owes it. -/
def listsInOrder (b : B) (v : BView B C) (e : BEvent B C) : Prop :=
  ∀ t token n pref keys next, e = BEvent.called t (.listPage b token n pref) (.ok (keys, next)) →
    InOrder v b pref ((scanSoFar t token v).add keys) next

section Scans

variable {t : Thread C} {v v' : BView B C} {e : BEvent B C} {w : World B C} {b : B} {n : ℕ}
  {key pref : String} {token next : PageToken} {keys : List String} {sc : Scan}

lemma scanned_push_of_ne (h : e.thread ≠ some t) :
    scanned t (v.push e w).hist = scanned t v.hist := by
  have hpage : pageOf t e = none := by
    unfold pageOf
    split
    · exact if_neg fun hu => h (congrArg some hu)
    · rfl
  simp [scanned, hpage]

/-- A scan that goes on behind a page goes on with its keys. -/
lemma scanSoFar_push_page {size : ℕ} (h : next ≠ .first) :
    scanSoFar t next (v.push (BEvent.called t (.listPage b token size pref) (.ok (keys, next))) w) =
      (scanSoFar t token v).add keys := by
  rw [scanSoFar, if_neg h]
  simp [scanned, pageOf, scanSoFar]

/-- A scan began in the past. -/
lemma scanned_since_le (h : List (BEvent B C × World B C)) : (scanned t h).since ≤ h.length := by
  induction h with
  | nil => exact le_rfl
  | cons p h ih =>
      unfold scanned
      split
      · exact ih.trans (Nat.le_succ _)
      · simp only [Scan.add]
        split
        · exact Nat.le_succ _
        · exact ih.trans (Nat.le_succ _)

lemma scanSoFar_since_le : (scanSoFar t token v).since ≤ v.hist.length := by
  unfold scanSoFar
  split
  · exact le_rfl
  · exact scanned_since_le _

/-- What was stored the whole time until now was so until any earlier moment. -/
lemma Present.of_push (hn : n ≤ v.hist.length) (h : Present (v.push e w) b n key) :
    Present v b n key := by
  intro w' hw'
  refine h w' ?_
  rw [View.push_worldsFrom _ _ _ hn]
  exact List.mem_cons_of_mem _ hw'

/-- A step of another thread adds to the history and leaves the scan of this one alone. -/
lemma interf_scan {M : Machine (bucketSig B) (World B C) (Thread C)} {K : Contract M}
    (h : K.Interf t v v') :
    ∃ e w, v' = v.push e w ∧ scanned t v'.hist = scanned t v.hist := by
  obtain ⟨-, -, ⟨e, w, -, -, rfl⟩ | ⟨u, hu, ⟨e, w, he, rfl⟩, -⟩⟩ := h
  · exact ⟨_, w, rfl, scanned_push_of_ne (by simp [Event.thread])⟩
  · exact ⟨e, w, rfl, scanned_push_of_ne (by simpa [he] using hu)⟩

/-- A listing that fits on one page gives a scan what it owes it. -/
lemma inOrder_onePage (t : Thread C) (v : BView B C) (b : B) (pref : String) :
    InOrder v b pref ((scanSoFar t .first v).add ((v.world.store b).keysUnder pref)) .done where
  resumes := nofun
  sorted := by
    simpa [scanSoFar, Scan.add] using (v.world.store b).keysUnder_sorted pref
  listed key hkey := by
    have hkey : key ∈ (v.world.store b).keysUnder pref := by
      simpa [scanSoFar, Scan.add] using hkey
    obtain ⟨hx, hget⟩ := Store.mem_keysUnder.mp hkey
    refine ⟨hx, v.world, ?_, hget⟩
    simp [scanSoFar, Scan.add, View.worldsFrom_now]
  covers x hp _ := by
    have hget := hp v.world (by simp [scanSoFar, Scan.add, View.worldsFrom_now])
    simpa [scanSoFar, Scan.add] using Store.mem_keysUnder.mpr ⟨⟨x, rfl⟩, hget⟩

end Scans

/-! ## What a call of `Page` returns -/

variable {bk : B → Backend} {flt : Faults} {E : Type}
  {start : Thread C → Entry → World B C → Option (BProg B Unit × World B C)}
  {env : E → World B C → Option (World B C)}

/-- A contract under which the thread `t` may scan the keys under `pref`.  `pos` is what is known of
the token it will continue with; `frame` is what holds throughout the scan. -/
structure Reads (K : Contract (bucketMachine bk flt start env)) (t : Thread C) (b : B)
    (pref : String) (pos : PageToken → BView B C → Prop) (frame : BView B C → Prop) : Prop where
  clock : ∀ {v v'}, K.Interf t v v' → v.world.clock ≤ v'.world.clock
  now : ∀ {v r}, K.inv v → K.guar t v (v.push (BEvent.called t .now r) v.world) ∧
    K.inv (v.push (BEvent.called t .now r) v.world)
  list : ∀ {v token n r}, K.inv v →
    K.guar t v (v.push (BEvent.called t (.listPage b token n pref) r) v.world) ∧
      K.inv (v.push (BEvent.called t (.listPage b token n pref) r) v.world)
  frame_stable : ∀ {v v'}, K.Interf t v v' → frame v → frame v'
  frame_quiet : ∀ {v o r}, frame v → frame (v.push (BEvent.called t o r) v.world)
  first : ∀ v, pos .first v
  stable : ∀ {v v' token}, K.Interf t v v' → pos token v → pos token v'
  page : ∀ {v token n keys next}, K.inv v → pos token v →
    (bk b).lists (v.world.store b) token n pref keys next = true →
    K.adm v (BEvent.called t (.listPage b token n pref) (.ok (keys, next))) →
    InOrder v b pref ((scanSoFar t token v).add keys) next ∧
      (next ≠ .done → pos next (v.push
        (BEvent.called t (.listPage b token n pref) (.ok (keys, next))) v.world))

namespace Tail

variable (tl : Tail B)

/-- What a page read from `cursor` is, in a view after the call.  The call began when the run had
taken `n` steps and its scan when it had taken `since`; the clock then said `now`. -/
structure PageOf (n : ℕ) (cursor : String) (page : List String × String) (now : ℤ) (since : ℕ)
    (v : BView B C) : Prop where
  since_ge : n ≤ since
  since_le : since ≤ v.hist.length
  clock : ∀ w ∈ v.worldsFrom since, now ≤ w.clock
  next : page.2 = lastOr cursor page.1
  sorted : page.1.Pairwise (· < ·)
  above : ∀ x ∈ page.1, cursor < x ∧ tl.gated now x = false ∧
    ∃ w ∈ v.worldsFrom since, (w.store tl.queue.bucket).get (queueMsgPrefix ++ x) ≠ none
  covers : ∀ x, Present v tl.queue.bucket since (queueMsgPrefix ++ x) → cursor < x →
    x ≤ page.2 → x ∈ page.1

/-- What a call of `Page` that succeeds returns. -/
def Returns (n : ℕ) (cursor : String) (r : Except Err (List String × String)) (v : BView B C) :
    Prop :=
  ∀ page, r = .ok page → ∃ now since, tl.PageOf n cursor page now since v

/-- How far a scan of `Page` has come, with the token it goes on with and the ids and the cursor it
has so far. -/
structure Scanning (t : Thread C) (n : ℕ) (cursor : String) (now : ℤ)
    (acc : PageToken × List String × String) (v : BView B C) : Prop where
  since_ge : n ≤ (scanSoFar t acc.1 v).since
  clock : ∀ w ∈ v.worldsFrom (scanSoFar t acc.1 v).since, now ≤ w.clock
  out : acc.2.1 = idsAbove cursor (scanSoFar t acc.1 v).keys
  next : acc.2.2 = lastOr cursor acc.2.1
  gate : ∀ x ∈ acc.2.1, tl.gated now x = false

section Page

variable {tl} {K : Contract (bucketMachine bk flt start env)} {t : Thread C} {n since : ℕ}
  {cursor : String} {now : ℤ} {v v' : BView B C} {pos : PageToken → BView B C → Prop}
  {frame : BView B C → Prop} {acc : PageToken × List String × String} {page : List String × String}

lemma PageOf.push {e : BEvent B C} {w : World B C} (h : tl.PageOf n cursor page now since v)
    (hw : v.world.clock ≤ w.clock) : tl.PageOf n cursor page now since (v.push e w) := by
  have hfrom := v.push_worldsFrom e w h.since_le
  refine ⟨h.since_ge, h.since_le.trans (Nat.le_succ _), ?_, h.next, h.sorted, ?_, ?_⟩
  · intro w' hw'
    rw [hfrom, List.mem_cons] at hw'
    rcases hw' with rfl | hw'
    · exact (h.clock _ (v.world_mem_worldsFrom h.since_le)).trans hw
    · exact h.clock w' hw'
  · intro x hx
    obtain ⟨hc, hg, w', hw', hget⟩ := h.above x hx
    exact ⟨hc, hg, w', by rw [hfrom]; exact List.mem_cons_of_mem _ hw', hget⟩
  · exact fun x hp => h.covers x (hp.of_push h.since_le)

lemma Returns.rely (hR : Reads K t tl.queue.bucket queueMsgPrefix pos frame)
    {r : Except Err (List String × String)} (hr : K.Rely t v v') (h : tl.Returns n cursor r v) :
    tl.Returns n cursor r v' := by
  refine hr.stable (P := tl.Returns n cursor r) (fun hs h page hpage => ?_) h
  obtain ⟨now, since, hp⟩ := h page hpage
  have hclock := hR.clock hs
  obtain ⟨e, w, rfl⟩ := hs.push
  exact ⟨now, since, hp.push hclock⟩

lemma Scanning.interf (hR : Reads K t tl.queue.bucket queueMsgPrefix pos frame) (hs : K.Interf t v v')
    (h : tl.Scanning t n cursor now acc v) : tl.Scanning t n cursor now acc v' := by
  have hclock := hR.clock hs
  obtain ⟨e, w, rfl, hscan⟩ := interf_scan hs
  have hnow := h.clock _ (v.world_mem_worldsFrom scanSoFar_since_le)
  by_cases hfirst : acc.1 = .first
  · -- The scan has not begun yet: it will begin in the new view.
    have hkeys : (scanSoFar t acc.1 (v.push e w)).keys = (scanSoFar t acc.1 v).keys := by
      simp [scanSoFar, hfirst]
    refine ⟨?_, ?_, by rw [hkeys]; exact h.out, h.next, h.gate⟩
    · simp only [scanSoFar, hfirst, if_true, View.push_hist, List.length_cons]
      exact (h.since_ge.trans scanSoFar_since_le).trans (Nat.le_succ _)
    · simp only [scanSoFar, hfirst, if_true, View.worldsFrom_now, List.mem_singleton]
      rintro _ rfl
      exact hnow.trans hclock
  · have hsame : scanSoFar t acc.1 (v.push e w) = scanSoFar t acc.1 v := by
      rw [scanSoFar, scanSoFar, if_neg hfirst, if_neg hfirst, hscan]
    refine ⟨by rw [hsame]; exact h.since_ge, ?_, by rw [hsame]; exact h.out, h.next, h.gate⟩
    rw [hsame, View.push_worldsFrom _ _ _ scanSoFar_since_le]
    exact List.forall_mem_cons.mpr ⟨hnow.trans hclock, h.clock⟩

/-- An initial part of what an ordered listing has given, when the page is returned after it. -/
lemma pageOf_done (sc : Scan) {done rest : List String} {next : PageToken}
    (hn : n ≤ sc.since) (hlen : sc.since ≤ v.hist.length)
    (hclock : ∀ w ∈ v.worldsFrom sc.since, now ≤ w.clock)
    (hin : InOrder v tl.queue.bucket queueMsgPrefix sc next) (hkeys : sc.keys = done ++ rest)
    (hgate : ∀ x ∈ idsAbove cursor done, tl.gated now x = false) :
    tl.PageOf n cursor (idsAbove cursor done, lastOr cursor (idsAbove cursor done)) now sc.since
      v := by
  have hsorted := hkeys ▸ hin.sorted
  refine ⟨hn, hlen, hclock, rfl, idsAbove_sorted (List.pairwise_append.mp hsorted).1, ?_, ?_⟩
  · intro x hx
    obtain ⟨hmem, hc⟩ := mem_idsAbove.mp hx
    exact ⟨hc, hgate x hx, (hin.listed _ (hkeys ▸ List.mem_append_left _ hmem)).2⟩
  · intro x hp hc hle
    -- The new cursor is one of the ids, so the scan has come at least as far as `x`.
    have hlast : lastOr cursor (idsAbove cursor done) ∈ idsAbove cursor done :=
      lastOr_mem fun heq => absurd (heq ▸ hle) (not_le.mpr hc)
    have hmem := (mem_idsAbove.mp hlast).1
    have hx := hin.covers x hp (.inr ⟨_, hkeys ▸ List.mem_append_left _ hmem,
      (append_le_append_left _).mpr hle⟩)
    rw [hkeys, List.mem_append] at hx
    refine mem_idsAbove.mpr ⟨hx.resolve_right fun hrest => ?_, hc⟩
    have hlt := (List.pairwise_append.mp hsorted).2.2 _ hmem _ hrest
    exact absurd ((append_lt_append_left _).mp hlt) (not_lt.mpr hle)

/-- One round: the call returns, or the scan goes on. -/
lemma safe_pageRound (hR : Reads K t tl.queue.bucket queueMsgPrefix pos frame) {size : ℕ}
    (h : tl.Scanning t n cursor now acc v) (hpos : pos acc.1 v) (hf : frame v) :
    K.Safe t (fun r v' => (match r with
        | .inl acc => tl.Scanning t n cursor now acc v' ∧ pos acc.1 v'
        | .inr r => tl.Returns n cursor r v') ∧ frame v')
      (tl.pageRound now cursor size acc) v := by
  obtain ⟨token, out, next⟩ := acc
  refine safe_listPage fun v₁ hr₁ hi₁ r hlist ha => ⟨(hR.list hi₁).1, (hR.list hi₁).2, ?_⟩
  have hs := hr₁.stable (P := tl.Scanning t n cursor now _) (fun hs h => h.interf hR hs) h
  have hp := hr₁.stable (P := pos token) hR.stable hpos
  have hf' : ∀ v', K.Rely t (v₁.push (BEvent.called t _ r) v₁.world) v' → frame v' := fun v' hr =>
    hr.stable hR.frame_stable (hR.frame_quiet (hr₁.stable hR.frame_stable hf))
  rcases hlist with ⟨keys, nextToken, hlist, rfl⟩ | rfl
  · obtain ⟨hin, hpos'⟩ := hR.page hi₁ hp hlist ha
    obtain ⟨done, rest, rfl, hgate, hstop⟩ := tl.objects_spec size keys
      (scanSoFar t token v₁).keys (hs.out ▸ hs.gate)
    have hacc : (out, next) = (idsAbove cursor (scanSoFar t token v₁).keys,
        lastOr cursor (idsAbove cursor (scanSoFar t token v₁).keys)) :=
      Prod.ext hs.out (hs.next.trans (congrArg _ hs.out))
    -- If the call returns here, this is its page.
    have hpage : tl.PageOf n cursor (idsAbove cursor ((scanSoFar t token v₁).keys ++ done),
        lastOr cursor (idsAbove cursor ((scanSoFar t token v₁).keys ++ done))) now
        (scanSoFar t token v₁).since v₁ :=
      pageOf_done ((scanSoFar t token v₁).add (done ++ rest)) hs.since_ge
        scanSoFar_since_le hs.clock hin (List.append_assoc _ _ _).symm hgate
    have hret : ∀ e v', K.Rely t (v₁.push e v₁.world) v' → tl.Returns n cursor
        (.ok (idsAbove cursor ((scanSoFar t token v₁).keys ++ done),
          lastOr cursor (idsAbove cursor ((scanSoFar t token v₁).keys ++ done)))) v' := by
      rintro e v' hr
      refine Returns.rely hR hr ?_
      rintro page ⟨⟩
      exact ⟨now, _, hpage.push le_rfl⟩
    simp only [hacc]
    rcases hstop with ⟨hobj, rfl⟩ | hobj
    · simp only [hobj]
      split_ifs with hdone
      · exact .ret fun v' hr _ => ⟨hret _ v' hr, hf' v' hr⟩
      · refine .ret fun v' hr _ => ⟨⟨?_, hr.stable hR.stable (hpos' hdone)⟩, hf' v' hr⟩
        refine hr.stable (P := tl.Scanning t n cursor now _) (fun hs h => h.interf hR hs) ?_
        refine ⟨?_, ?_, ?_, rfl, hgate⟩
        · rw [scanSoFar_push_page hin.resumes]
          exact hs.since_ge
        · rw [scanSoFar_push_page hin.resumes]
          exact (hpage.push le_rfl).clock
        · rw [scanSoFar_push_page hin.resumes, List.append_nil]
          rfl
    · simp only [hobj]
      exact .ret fun v' hr _ => ⟨hret _ v' hr, hf' v' hr⟩
  · exact .ret fun v' hr _ => ⟨fun page hpage => (nomatch hpage), hf' v' hr⟩

/-- **What `Page` returns.** -/
theorem safe_page (hR : Reads K t tl.queue.bucket queueMsgPrefix pos frame) (pageSize : ℤ)
    (fuel : ℕ) (hf : frame v) :
    K.Safe t (fun r v' => tl.Returns v.hist.length cursor r v' ∧ frame v')
      (tl.page cursor pageSize fuel) v := by
  refine safe_now fun v₁ hr₁ hi₁ ha => ⟨(hR.now hi₁).1, (hR.now hi₁).2, ?_⟩
  refine Safe.loop (I := fun acc v' => tl.Scanning t v.hist.length cursor v₁.world.clock acc v' ∧
    pos acc.1 v' ∧ frame v') (fun v => safe_park) ?_ ?_ fuel _ _ (hR.now hi₁).2 ?_
  · exact fun acc v' _ hI => (safe_pageRound hR hI.1 hI.2.1 hI.2.2).mono fun r _ _ h => by
      cases r
      · exact ⟨h.1.1, h.1.2, h.2⟩
      · exact h
  · exact fun r v' _ h => .ret fun v'' hr _ => ⟨h.1.rely hR hr, hr.stable hR.frame_stable h.2⟩
  · refine ⟨⟨?_, ?_, rfl, rfl, fun x hx => absurd hx List.not_mem_nil⟩, hR.first _,
      hR.frame_quiet (hr₁.stable hR.frame_stable hf)⟩
    · simp only [scanSoFar, if_true, View.push_hist, List.length_cons]
      exact (hr₁.length_le).trans (Nat.le_succ _)
    · simp only [scanSoFar, if_true, View.worldsFrom_now, List.mem_singleton]
      rintro _ rfl
      exact le_rfl

end Page

end Tail

end Blobster
