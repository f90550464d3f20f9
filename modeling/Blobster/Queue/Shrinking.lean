import Blobster.Queue.LateCommit

/-!
# A log that shrinks while it is read

A page token of the mem and file drivers is a position, and the listing it points into is made anew
by every call.  A message that is deleted between two calls moves everything behind it one place to
the front; a scan that has already passed it then resumes one place too far.

* `Between` — a reader has been given a page and will resume behind it.
* `keepsBehind` — nothing is deleted at or before what such a reader has been given.
* `LosesNothing` — a step that moves a reader's cursor has given it every message that was there
  during its whole call, above the old cursor and up to the new one.
* **`Tail.shifted_past`** — a message is passed over for good when another one is deleted behind the
  reader; **`Tail.nothing_lost`** — nothing is as long as that does not happen.
-/

set_option linter.unusedSectionVars false

namespace Blobster

open Interleave Contract

variable {B C : Type} [DecidableEq B] [DecidableEq C]

/-- The thread `t` has listed a page that was not the last, and has done nothing since. -/
def Between (t : Thread C) (v : BView B C) : Prop :=
  ∃ b token n pref keys next,
    v.lastOf t = some (BEvent.called t (.listPage b token n pref) (.ok (keys, next))) ∧ next ≠ .done

lemma Between.push_of_ne {t : Thread C} {v : BView B C} {e : BEvent B C} {w : World B C}
    (hb : Between t v) (h : e.thread ≠ some t) : Between t (v.push e w) := by
  simpa only [Between, View.lastOf_push_of_ne h] using hb

/-- How many steps the run had taken when the current call of the thread `t` began. -/
def callSince (t : Thread C) : List (BEvent B C × World B C) → ℕ
  | [] => 0
  | (.start u _, _) :: h => if u = t then h.length + 1 else callSince t h
  | _ :: h => callSince t h

lemma callSince_push_of_ne {t : Thread C} {v : BView B C} {e : BEvent B C} {w : World B C}
    (h : e.thread ≠ some t) : callSince t (v.push e w).hist = callSince t v.hist := by
  cases e with
  | start u x => exact if_neg fun hu => h (congrArg some hu)
  | env => rfl
  | call u o r => rfl

namespace Tail

variable (tl : Tail B)

/-- A reader of a log from which anyone may delete. -/
def shrinkingStart (t : Thread C) (e : Entry) (w : World B C) :
    Option (BProg B Unit × World B C) :=
  match t.2, e with
  | .main, .page pageSize fuel => some (tl.follow (w.mem t.1).cursor pageSize fuel, w)
  | .main, .remove id => some (discard (delete tl.queue.bucket (queueMsgPrefix ++ id) []), w)
  | _, _ => none

/-- The machine: any number of readers and of deletions, and a clock that moves forward. -/
def shrinking (bk : B → Backend) (flt : Faults) : Machine (bucketSig B) (World B C) (Thread C) :=
  bucketMachine bk flt tl.shrinkingStart fun (d : ℕ) w => some (w.advance d)

variable {tl} in
/-- The entry points are all there is to start, and starting changes nothing. -/
lemma shrinkingStart_cases {d : C} {g : Goroutine} {e : Entry} {w w' : World B C} {p : BProg B Unit}
    (h : tl.shrinkingStart (d, g) e w = some (p, w')) :
    g = .main ∧ w' = w ∧
      ((∃ pageSize fuel, e = .page pageSize fuel ∧ p = tl.follow (w.mem d).cursor pageSize fuel) ∨
        ∃ id, e = .remove id ∧ p = discard (delete tl.queue.bucket (queueMsgPrefix ++ id) [])) := by
  dsimp only [shrinkingStart] at h
  split at h
  · cases h
    exact ⟨rfl, rfl, .inl ⟨_, _, rfl, rfl⟩⟩
  · cases h
    exact ⟨rfl, rfl, .inr ⟨_, rfl, rfl⟩⟩
  · cases h

/-- The messages, in order. -/
def log (w : World B C) : List String := (w.store tl.queue.bucket).keysUnder queueMsgPrefix

/-- No message is deleted at or before what a reader between two pages has been given. -/
def keepsBehind (v : BView B C) (e : BEvent B C) : Prop :=
  ∀ u x pre r, e = BEvent.called u (.delete tl.queue.bucket (queueMsgPrefix ++ x) pre) r →
    tl.Logged v.world x → ∀ t, Between t v → ∀ key ∈ (scanned t v.hist).keys,
      key < queueMsgPrefix ++ x

/-- If the step moves the cursor of a reader, it gives it every message above the old cursor and up
to the new one that was stored during its whole call. -/
def LosesNothing (v : BView B C) (_ : BEvent B C) (w : World B C) : Prop :=
  ∀ d, ∃ out, (w.mem d).surfaced = (v.world.mem d).surfaced ++ out ∧
    ∀ x, Present v tl.queue.bucket (callSince (d, .main) v.hist) (queueMsgPrefix ++ x) →
      (v.world.mem d).cursor < x → x ≤ (w.mem d).cursor → x ∈ out

/-- What a thread promises about each of its steps. -/
structure Shrinks (t : Thread C) (v v' : BView B C) : Prop where
  clock : v.world.clock ≤ v'.world.clock
  others : ∀ d, (d, Goroutine.main) ≠ t → v'.world.mem d = v.world.mem d
  behind : ∀ u, Between u v → (scanned u v.hist).keys <+: tl.log v.world →
    (scanned u v.hist).keys <+: tl.log v'.world
  loses : ∀ e, tl.LosesNothing v e v'.world

/-- The contract. -/
def shrinkingContract (bk : B → Backend) (flt : Faults) :
    Contract (tl.shrinking (C := C) bk flt) where
  adm := tl.keepsBehind
  inv _ := True
  guar := tl.Shrinks
  idle _ _ := True

variable {tl} {bk : B → Backend} {flt : Faults} {t : Thread C} {v v' : BView B C} {d : C}
  {e : BEvent B C} {w : World B C} {keys : List String} {token next : PageToken}

lemma losesNothing_of_mem (h : w.mem = v.world.mem) : tl.LosesNothing v e w := fun d =>
  ⟨[], by simp [h], fun _ _ hlt hle => absurd (h ▸ hle) (not_le.mpr hlt)⟩

lemma Shrinks.quiet : tl.Shrinks t v (v.push e v.world) :=
  ⟨le_rfl, fun _ _ => rfl, fun _ _ h => h, fun _ => losesNothing_of_mem rfl⟩

/-- A deletion behind no reader leaves what the readers have been given where it is. -/
lemma Shrinks.delete {x : String} {pre : List Precondition} {r : Except Err Unit}
    (ha : tl.keepsBehind v (BEvent.called t (.delete tl.queue.bucket (queueMsgPrefix ++ x) pre) r))
    (hx : tl.Logged v.world x) (e : BEvent B C) :
    tl.Shrinks t v (v.push e (v.world.setStore tl.queue.bucket
      ((v.world.store tl.queue.bucket).erase (queueMsgPrefix ++ x)))) := by
  refine ⟨le_rfl, fun _ _ => rfl, fun u hu hpre => ?_, fun _ => losesNothing_of_mem rfl⟩
  have hlt := ha t x pre r rfl hx u hu
  obtain ⟨rest, hrest⟩ := hpre
  rw [log, View.push_world, World.setStore_store_self, Store.keysUnder_erase]
  have hself : (scanned u v.hist).keys.filter (· ≠ queueMsgPrefix ++ x) = (scanned u v.hist).keys :=
    List.filter_eq_self.mpr fun key hkey => decide_eq_true (hlt key hkey).ne
  refine ⟨rest.filter (· ≠ queueMsgPrefix ++ x), ?_⟩
  rw [← log, ← hrest, List.filter_append, hself]

/-! ## A positional listing -/

/-- What a reader knows of the token it resumes with: what it has been given is the part of the log
before that position. -/
def Resumed (tl : Tail B) (t : Thread C) (token : PageToken) (v : BView B C) : Prop :=
  token = .first ∨ token = .at (scanned t v.hist).keys.length ∧ Between t v ∧
    (scanned t v.hist).keys <+: tl.log v.world

lemma Resumed.scanSoFar (h : tl.Resumed t token v) :
    (scanSoFar t token v).keys <+: tl.log v.world ∧
      decodePageToken token = some (Blobster.scanSoFar t token v).keys.length := by
  rcases h with rfl | ⟨rfl, -, hpre⟩
  · exact ⟨List.nil_prefix, rfl⟩
  · exact ⟨hpre, rfl⟩

lemma Resumed.interf (hs : (tl.shrinkingContract bk flt).Interf t v v') (h : tl.Resumed t token v) :
    tl.Resumed t token v' := by
  rcases h with h | ⟨htok, hb, hpre⟩
  · exact .inl h
  refine .inr ?_
  obtain ⟨-, -, ⟨n, w, ⟨⟩, -, rfl⟩ | ⟨u, hu, ⟨e, w, he, rfl⟩, hg⟩⟩ := hs
  · rw [scanned_push_of_ne (e := .env) nofun]
    exact ⟨htok, hb.push_of_ne nofun, hpre⟩
  · have hne : e.thread ≠ some t := by simpa [he] using hu
    rw [scanned_push_of_ne hne]
    exact ⟨htok, hb.push_of_ne hne, hg.behind t hb hpre⟩

/-- **A page at a position**: what it adds to the scan is the next part of the log. -/
lemma Resumed.page (hbk : (bk tl.queue.bucket).Positional) (h : tl.Resumed t token v) {n : ℕ}
    (hlist : (bk tl.queue.bucket).lists (v.world.store tl.queue.bucket) token n queueMsgPrefix keys
      next = true) :
    ∃ rest, (Blobster.scanSoFar t token v).keys ++ keys ++ rest = tl.log v.world ∧
      (next = .done ∧ rest = [] ∨
        next = .at ((Blobster.scanSoFar t token v).keys ++ keys).length) := by
  obtain ⟨start, rest, hstart, hdrop, hnext⟩ := hbk.split hlist
  obtain ⟨⟨tail, htail⟩, hdec⟩ := h.scanSoFar
  obtain rfl := Option.some.inj (hstart.symm.trans hdec)
  refine ⟨rest, ?_, by rwa [List.length_append]⟩
  rw [← log, ← htail, List.drop_left] at hdrop
  rw [List.append_assoc, ← hdrop, htail]

/-- Such a page gives the scan what it owes it. -/
lemma inOrder_of_log {sc : Scan} {rest : List String} (hsince : sc.since ≤ v.hist.length)
    (hlog : sc.keys ++ rest = tl.log v.world) (hnext : next = .done ∧ rest = [] ∨ ∃ p, next = .at p) :
    InOrder v tl.queue.bucket queueMsgPrefix sc next where
  resumes := by
    rcases hnext with ⟨rfl, -⟩ | ⟨p, rfl⟩ <;> exact nofun
  sorted := by
    have hsorted := (v.world.store tl.queue.bucket).keysUnder_sorted queueMsgPrefix
    rw [← log, ← hlog] at hsorted
    exact (List.pairwise_append.mp hsorted).1
  listed key hkey := by
    have hmem : key ∈ tl.log v.world := hlog ▸ List.mem_append_left _ hkey
    obtain ⟨hx, hget⟩ := Store.mem_keysUnder.mp hmem
    exact ⟨hx, v.world, v.world_mem_worldsFrom hsince, hget⟩
  covers x hp hreach := by
    have hsorted := (v.world.store tl.queue.bucket).keysUnder_sorted queueMsgPrefix
    have hmem : queueMsgPrefix ++ x ∈ tl.log v.world :=
      Store.mem_keysUnder.mpr ⟨⟨x, rfl⟩, hp v.world (v.world_mem_worldsFrom hsince)⟩
    rw [← log, ← hlog] at hsorted
    rw [← hlog, List.mem_append] at hmem
    refine hmem.resolve_right fun hrest => ?_
    rcases hreach with rfl | ⟨key, hkey, hle⟩
    · obtain ⟨-, rfl⟩ := hnext.resolve_right nofun
      exact absurd hrest List.not_mem_nil
    · exact absurd ((List.pairwise_append.mp hsorted).2.2 key hkey _ hrest) (not_lt.mpr hle)

/-- What a reader relies on. -/
lemma shrinkingReads (hbk : (bk tl.queue.bucket).Positional) (flt : Faults) (d : C) (m : Mem)
    (n : ℕ) :
    Reads (tl.shrinkingContract bk flt) (d, .main) tl.queue.bucket queueMsgPrefix
      (tl.Resumed (d, .main))
      fun v => v.world.mem d = m ∧ callSince (d, .main) v.hist = n where
  clock := by
    rintro v v' ⟨-, -, ⟨n, w, ⟨⟩, -, rfl⟩ | ⟨u, -, -, hg⟩⟩
    · exact le_add_of_nonneg_right (Int.natCast_nonneg n)
    · exact hg.clock
  now _ := ⟨.quiet, trivial⟩
  list _ := ⟨.quiet, trivial⟩
  frame_stable := by
    rintro v v' ⟨-, -, ⟨n, w, ⟨⟩, -, rfl⟩ | ⟨u, hu, ⟨e, w, he, rfl⟩, hg⟩⟩ ⟨hm, hsince⟩
    · exact ⟨hm, hsince⟩
    · have hne : e.thread ≠ some (d, .main) := by simpa [he] using hu
      exact ⟨(hg.others d hu.symm).trans hm, (callSince_push_of_ne hne).trans hsince⟩
  frame_quiet h := h
  first _ := .inl rfl
  stable hs h := h.interf hs
  page := by
    intro v token n keys next _ hpos hlist _
    obtain ⟨rest, hlog, hnext⟩ := hpos.page hbk hlist
    have hin : InOrder v tl.queue.bucket queueMsgPrefix
        ((scanSoFar (d, .main) token v).add keys) next :=
      inOrder_of_log scanSoFar_since_le hlog (hnext.imp_right fun h => ⟨_, h⟩)
    refine ⟨hin, fun hmore => .inr ?_⟩
    have hscan : scanned (d, .main) (v.push (BEvent.called (d, .main)
        (.listPage tl.queue.bucket token n queueMsgPrefix) (.ok (keys, next))) v.world).hist =
        (scanSoFar (d, .main) token v).add keys := by
      simp [scanned, pageOf, scanSoFar]
    rw [hscan]
    refine ⟨hnext.resolve_left fun h => hmore h.1, ?_, ⟨rest, hlog⟩⟩
    exact ⟨_, _, _, _, _, _, View.lastOf_push_self rfl, hmore⟩

lemma safe_followShrinking (hbk : (bk tl.queue.bucket).Positional) (pageSize : ℤ) (fuel : ℕ)
    (hsince : callSince (d, .main) v.hist = v.hist.length) :
    (tl.shrinkingContract bk flt).Safe (d, .main) (fun _ _ => True)
      (tl.follow (v.world.mem d).cursor pageSize fuel) v := by
  have hR := shrinkingReads hbk flt d (v.world.mem d) v.hist.length
  refine Safe.bind trivial (safe_page hR pageSize fuel ⟨rfl, hsince⟩) ?_
  rintro r v₁ - ⟨hret, hmem⟩
  cases r with
  | error e => exact .ret fun _ _ _ => trivial
  | ok page =>
      refine safe_critical fun v₂ hr₂ _ _ => ⟨?_, trivial, .ret fun _ _ _ => trivial⟩
      obtain ⟨hmem₂, hsince₂⟩ := hr₂.stable hR.frame_stable hmem
      obtain ⟨now, since, hp⟩ := (hret.rely hR hr₂) page rfl
      rw [← hmem₂] at hp
      refine ⟨le_rfl, fun d' hd => World.setMem_mem_ne _ _ _ fun h => hd (by rw [h]),
        fun _ _ h => h, fun e d' => ?_⟩
      by_cases hd : d' = d
      · subst hd
        rw [View.push_world, World.setMem_mem_self]
        refine ⟨page.1, rfl, fun x hx hlt hle => hp.covers x (fun w hw => ?_) hlt hle⟩
        rw [hsince₂] at hx
        exact hx w (v₂.worldsFrom_anti hp.since_ge hw)
      · rw [View.push_world, World.setMem_mem_ne _ _ _ hd]
        exact ⟨[], (List.append_nil _).symm, fun _ _ hlt hle => absurd hle (not_le.mpr hlt)⟩

lemma shrinking_sound (hbk : (bk tl.queue.bucket).Positional) (w₀ : World B C) :
    (tl.shrinkingContract bk flt).Sound w₀ where
  init := ⟨trivial, fun _ => trivial⟩
  env _ _ _ _ := trivial
  stable _ _ _ _ _ := trivial
  start := by
    rintro ⟨d, g⟩ e v p w - - - hstart
    obtain ⟨rfl, rfl, ⟨pageSize, fuel, rfl, rfl⟩ | ⟨id, rfl, rfl⟩⟩ := shrinkingStart_cases hstart
    · refine ⟨.quiet, trivial, ?_⟩
      exact safe_followShrinking (v := v.push _ v.world) hbk pageSize fuel (if_pos rfl)
    · refine ⟨.quiet, trivial, Safe.discard trivial (fun _ h => h) ?_⟩
      refine safe_delete (k := .ret) (fun v₁ _ _ r st hst _ ha => ?_) fun v₁ _ _ e _ _ => ?_
      · obtain ⟨⟨o, ho⟩, rfl⟩ := Store.delete_ok hst
        have hlogged : tl.Logged v₁.world _ := fun hnone => nomatch ho.symm.trans hnone
        exact ⟨.delete ha hlogged _, trivial, .ret fun _ _ _ => trivial⟩
      · exact ⟨.quiet, trivial, .ret fun _ _ _ => trivial⟩

/-- **Nothing is lost** by a reader of the mem or file driver, in every run in which no message is
deleted at or before what a reader between two pages has been given. -/
theorem nothing_lost (hbk : (bk tl.queue.bucket).Positional) {w₀ : World B C}
    {c : Config (bucketSig B) (World B C) (Thread C)}
    (hc : Reach (tl.shrinking bk flt) tl.keepsBehind w₀ c) : c.view.Along tl.LosesNothing := by
  refine hc.along fun {c c' e} hc hs ha => ?_
  obtain ⟨n, w, ⟨⟩, -, hv⟩ | ⟨u, -, -, hg⟩ := (shrinking_sound hbk w₀).step_guar hc hs ha
  · exact losesNothing_of_mem (by rw [hv]; rfl)
  · exact hg.loses e

/-! ## Runs -/

/-- A page that was not the last. -/
def isOpenPage : BEvent B C → Bool
  | .call _ (.listPage _ _ _ _) (.ok (_, next)) => decide (next ≠ .done)
  | _ => false

/-- Runs in which every listing fits on one page. -/
def listsAtOnce (v : BView B C) (_ : BEvent B C) : Bool := v.hist.all fun a => !isOpenPage a.1

lemma keepsBehind_of_listsAtOnce (v : BView B C) (e : BEvent B C) (h : listsAtOnce v e = true) :
    tl.keepsBehind v e := by
  rintro u x pre r - - t ⟨b, token, n, pref, keys, next, hlast, hnext⟩
  obtain ⟨a, ha, heq⟩ := List.mem_map.mp (List.mem_of_find?_eq_some hlast)
  have hopen := List.all_eq_true.mp h a ha
  rw [heq] at hopen
  simp [isOpenPage, hnext] at hopen

/-- Two messages of which one is deleted while the reader, of the clock's lag, is at work. -/
theorem nothing_lost_deleted :
    ∃ c, Reach ((⟨⟨(), 30, 256, 0⟩, 5000000⟩ : Tail Unit).shrinking (C := Fin 2)
          (fun _ => memBackend) ⟨true, true⟩)
        (⟨⟨(), 30, 256, 0⟩, 5000000⟩ : Tail Unit).keepsBehind
        ⟨20000000, fun _ => (({} : Store).put memBackend "msg/a" .empty []).put memBackend "msg/b"
          .empty [], fun _ => {}⟩ c ∧
      (c.view.world.mem 0).surfaced = ["a", "b"] ∧ (c.view.world.store ()).get "msg/a" = none ∧
      c.view.Along (⟨⟨(), 30, 256, 0⟩, 5000000⟩ : Tail Unit).LosesNothing := by
  obtain ⟨c, hreach, htest⟩ := reach_of_run_adm
    (M := (⟨⟨(), 30, 256, 0⟩, 5000000⟩ : Tail Unit).shrinking (C := Fin 2) (fun _ => memBackend)
      ⟨true, true⟩)
    (w := ⟨20000000, fun _ => (({} : Store).put memBackend "msg/a" .empty []).put memBackend "msg/b"
      .empty [], fun _ => {}⟩)
    keepsBehind_of_listsAtOnce
    (l := [.start (0, .main) (.page 10 1), .call (0, .main) .ok,
      .call (0, .main) (.page ["msg/a", "msg/b"] .done), .start (1, .main) (.remove "a"),
      .call (1, .main) .ok, .call (0, .main) .ok])
    (p := fun c => decide ((c.view.world.mem 0).surfaced = ["a", "b"]) &&
      ((c.view.world.store ()).get "msg/a").isNone) (by decide +kernel)
  rw [Bool.and_eq_true, decide_eq_true_eq, Option.isNone_iff_eq_none] at htest
  exact ⟨c, hreach, htest.1, htest.2, nothing_lost positional_memBackend hreach⟩

/-- Ids of one millisecond, in order. -/
def tick (i : ℕ) : String := "0000000000001-" ++ String.ofList (List.replicate i 'a')

lemma queueIDTime_tick (i : ℕ) : queueIDTime (tick i) = some 1000000 := by
  have hts : (tick i).toList.takeWhile (· ≠ '-') = "0000000000001".toList := by simp [tick]
  have hmem : '-' ∈ (tick i).toList := by simp [tick]
  simp only [queueIDTime, hts, hmem]
  decide +kernel

lemma tick_lt {i j : ℕ} (h : i < j) : tick i < tick j :=
  (append_lt_append_left _).mpr (replicate_lt_replicate 'a' h)

lemma empty_lt_tick (i : ℕ) : "" < tick i := by
  by_contra hle
  have hnone := queueIDTime_empty
  rw [← eq_empty_of_le (not_lt.mp hle), queueIDTime_tick] at hnone
  cases hnone

/-- The key of the message `i`. -/
def tickKey (i : ℕ) : String := queueMsgPrefix ++ tick i

lemma tickKey_lt {i j : ℕ} (h : i < j) : tickKey i < tickKey j :=
  (append_lt_append_left _).mpr (tick_lt h)

lemma tickKey_inj {i j : ℕ} (h : tickKey i = tickKey j) : i = j := by
  rcases lt_trichotomy i j with hlt | rfl | hlt
  · exact absurd h (tickKey_lt hlt).ne
  · rfl
  · exact absurd h (tickKey_lt hlt).ne'

/-- A log of `n` messages. -/
def ticks : ℕ → Store
  | 0 => {}
  | n + 1 => (ticks n).put memBackend (tickKey n) .empty []

lemma ticks_eq (n : ℕ) : ticks n = Store.filled memBackend tickKey n := by
  induction n with
  | zero => rfl
  | succ n ih => rw [ticks, ih, Store.filled]

lemma get_ticks (n : ℕ) (key : String) : (ticks n).get key ≠ none ↔ ∃ i < n, key = tickKey i := by
  rw [ticks_eq, Store.get_filled]

attribute [irreducible] ticks

lemma keysUnder_ticks (n : ℕ) :
    (ticks n).keysUnder queueMsgPrefix = (List.range n).map tickKey := by
  rw [ticks_eq, Store.keysUnder_filled tickKey_lt fun i => ⟨tick i, rfl⟩]

/-- The reader of the run: no lag. -/
def tickTail : Tail Unit := ⟨⟨(), 30, 256, 0⟩, 0⟩

lemma idsAbove_ticks (l : List ℕ) : idsAbove "" (l.map tickKey) = l.map tick := by
  induction l with
  | nil => rfl
  | cons i l ih =>
      have hone : idsAbove "" [tickKey i] = [tick i] :=
        idsAbove_singleton rfl (empty_lt_tick i).ne' (not_le.mpr (empty_lt_tick i))
      have hsplit : idsAbove "" (tickKey i :: l.map tickKey) =
          idsAbove "" [tickKey i] ++ idsAbove "" (l.map tickKey) := idsAbove_append (l := [tickKey i])
      rw [List.map_cons, hsplit, hone, ih]
      rfl

/-- What the loop of the reader makes of a page that does not fill its own. -/
lemma objects_ticks (l l' : List ℕ) (h : l.length + l'.length < 2000) :
    tickTail.objects 1000000 "" 2000 (l'.map tickKey) (l.map tick, lastOr "" (l.map tick)) =
      .inl ((l ++ l').map tick, lastOr "" ((l ++ l').map tick)) := by
  rw [tickTail.objects_ungated _ _ (by simp; omega), idsAbove_ticks, ← List.map_append, if_neg]
  · simpa using h
  · rw [idsAbove_ticks]
    rintro x hx
    obtain ⟨i, -, rfl⟩ := List.mem_map.mp hx
    simp [gated, queueIDTime_tick, tickTail]

/-- How a reader's call ends. -/
def advanceTo : Except Err (List String × String) → BProg B Unit
  | .error _ => .ret ()
  | .ok page => Prog.call (S := bucketSig B) (.mem fun mem =>
      { mem with cursor := page.2, surfaced := mem.surfaced ++ page.1 }) fun _ => .ret ()

/-- A reader's call of `Page`, from its first step on. -/
lemma follow_eq (cursor : String) {pageSize : ℤ} (h : 0 < pageSize) (fuel : ℕ) :
    tl.follow cursor pageSize fuel = Prog.call (S := bucketSig B) .now fun now =>
      Prog.loop park (tl.pageRound now cursor pageSize.toNat) fuel (.first, [], cursor) >>=
        advanceTo := by
  rw [follow, page, if_neg (not_le.mpr h)]
  refine congrArg (Prog.call (S := bucketSig B) .now) (funext fun now =>
    congrArg (Prog.bind (Prog.loop park (tl.pageRound now cursor pageSize.toNat) fuel
      (.first, [], cursor))) (funext fun r => ?_))
  cases r <;> rfl

section Rounds

variable {now : ℤ} {cursor : String} {size : ℕ} {objs : List String}
  {acc acc' : List String × String} {α : Type} (fuel : ℕ) (token : PageToken)
  (f : Except Err (List String × String) → BProg B α)

/-- A round of `Page` that goes on. -/
lemma round_more (hobj : tl.objects now cursor size objs acc = .inl acc') (hmore : next ≠ .done) :
    ∃ k, (Prog.loop park (tl.pageRound now cursor size) (fuel + 1) (token, acc) >>= f) =
        Prog.call (S := bucketSig B) (.listPage tl.queue.bucket token tailListPageSize queueMsgPrefix)
          k ∧
      k (.ok (objs, next)) =
        (Prog.loop park (tl.pageRound now cursor size) fuel (next, acc') >>= f) := by
  refine ⟨_, rfl, ?_⟩
  simp only [Prog.bind, hobj, if_neg hmore, Prog.pure_eq]
  rfl

/-- The round of `Page` on the last page. -/
lemma round_last (hobj : tl.objects now cursor size objs acc = .inl acc') :
    ∃ k, (Prog.loop park (tl.pageRound now cursor size) (fuel + 1) (token, acc) >>= f) =
        Prog.call (S := bucketSig B) (.listPage tl.queue.bucket token tailListPageSize queueMsgPrefix)
          k ∧
      k (.ok (objs, .done)) = f (.ok acc') := by
  refine ⟨_, rfl, ?_⟩
  simp only [Prog.bind, hobj, if_true, Prog.pure_eq]

end Rounds

/-- A reader is given two pages, and a message is deleted between them. -/
lemma reach_between {w : World B C} {d d' : C} (hd : d' ≠ d) {pageSize : ℤ} (hsize : 0 < pageSize)
    {x : String} {o : Object} (hx : (w.store tl.queue.bucket).get (queueMsgPrefix ++ x) = some o)
    {keys keys' : List String} {p : ℕ} {acc acc' : List String × String}
    (hlist : (bk tl.queue.bucket).lists (w.store tl.queue.bucket) .first tailListPageSize
      queueMsgPrefix keys (.at p) = true)
    (hobj : tl.objects w.clock (w.mem d).cursor pageSize.toNat keys ([], (w.mem d).cursor) = .inl acc)
    (hlist' : (bk tl.queue.bucket).lists ((w.store tl.queue.bucket).erase (queueMsgPrefix ++ x))
      (.at p) tailListPageSize queueMsgPrefix keys' .done = true)
    (hobj' : tl.objects w.clock (w.mem d).cursor pageSize.toNat keys' acc = .inl acc') :
    ∃ c, ∃ v : BView B C, ∃ e, Reach (tl.shrinking bk flt) anyStep w c ∧
      (∀ u ∈ v.worlds, u.mem = w.mem ∧ ((u.store tl.queue.bucket) = w.store tl.queue.bucket ∨
        u.store tl.queue.bucket = (w.store tl.queue.bucket).erase (queueMsgPrefix ++ x))) ∧
      c.view = v.push e (v.world.setMem d { v.world.mem d with
        cursor := acc'.2, surfaced := (v.world.mem d).surfaced ++ acc'.1 }) := by
  set w' := w.setStore tl.queue.bucket ((w.store tl.queue.bucket).erase (queueMsgPrefix ++ x))
  have hstore' : w'.store tl.queue.bucket =
      (w.store tl.queue.bucket).erase (queueMsgPrefix ++ x) := World.setStore_store_self _ _ _
  have hmore : PageToken.at p ≠ .done := nofun
  obtain ⟨k₁, hcall₁, hk₁⟩ := round_more 1 .first advanceTo hobj hmore
  obtain ⟨k₂, hcall₂, hk₂⟩ := round_last 0 (.at p) advanceTo hobj'
  have hdel : (w.store tl.queue.bucket).delete (queueMsgPrefix ++ x) [] =
      .ok ((w.store tl.queue.bucket).erase (queueMsgPrefix ++ x)) := by
    simp [Store.delete, hx, conditionsPass]
  -- The first page, the deletion, the second page, the new cursor.
  have h₀ : Reach (tl.shrinking bk flt) anyStep w (Config.init _ _ w) := .init
  obtain ⟨c₁, h₁, hv₁, hp₁, hidle₁⟩ :=
    h₀.andStart (t := (d, .main)) (s := .page pageSize 2) rfl rfl trivial
  rw [follow_eq _ hsize] at hp₁
  obtain ⟨c₂, h₂, hv₂, hp₂, hidle₂⟩ := h₁.andCall (x := Choice.ok) hp₁ rfl trivial
  rw [hv₁] at hv₂ hp₂
  have hw₂ : c₂.view.world = w := by rw [hv₂]; rfl
  have he₃ : (tl.shrinking bk flt).exec (d, .main) (.listPage tl.queue.bucket .first
      tailListPageSize queueMsgPrefix) (Choice.page keys (.at p)) c₂.view.world =
      some (.ok (keys, .at p), w) := by
    rw [hw₂]
    exact exec_listPage_of flt (d, .main) hlist
  obtain ⟨c₃, h₃, hv₃, hp₃, hidle₃⟩ := h₂.andCall (hp₂.trans hcall₁) he₃ trivial
  rw [hk₁] at hp₃
  have hother : c₃.prog (d', .main) = .ret () := by
    rw [hidle₃ _ (by simp [hd]), hidle₂ _ (by simp [hd]), hidle₁ _ (by simp [hd])]
    rfl
  obtain ⟨c₄, h₄, hv₄, hp₄, hidle₄⟩ := h₃.andStart (s := .remove x) hother rfl trivial
  have hw₄ : c₄.view.world = w := by rw [hv₄, hv₃]; rfl
  have he₅ : (tl.shrinking bk flt).exec (d', .main) (.delete tl.queue.bucket (queueMsgPrefix ++ x) [])
      Choice.ok c₄.view.world = some (.ok (), w') := by
    rw [hw₄]
    exact exec_delete_of bk flt (d', .main) hdel
  obtain ⟨c₅, h₅, hv₅, -, hidle₅⟩ := h₄.andCall hp₄ he₅ trivial
  have hw₅ : c₅.view.world = w' := by rw [hv₅]; rfl
  rw [← hidle₄ _ (by simp [hd.symm]), ← hidle₅ _ (by simp [hd.symm])] at hp₃
  have he₆ : (tl.shrinking bk flt).exec (d, .main) (.listPage tl.queue.bucket (.at p)
      tailListPageSize queueMsgPrefix) (Choice.page keys' .done) c₅.view.world =
      some (.ok (keys', .done), w') := by
    rw [hw₅]
    exact exec_listPage_of flt (d, .main) (hstore' ▸ hlist')
  obtain ⟨c₆, h₆, hv₆, hp₆, -⟩ := h₅.andCall (hp₃.trans hcall₂) he₆ trivial
  rw [hk₂] at hp₆
  have hw₆ : c₆.view.world = w' := by rw [hv₆]; rfl
  obtain ⟨c₇, h₇, hv₇, -, -⟩ := h₆.andCall (x := Choice.ok) hp₆ rfl trivial
  refine ⟨c₇, c₆.view, _, h₇, fun u hu => ?_, hv₇⟩
  have hcase : u = w ∨ u = w' := by
    simp only [hv₆, hv₅, hv₄, hv₃, hv₂, View.push_worlds, List.mem_cons] at hu
    rcases hu with hu | hu | hu | hu | hu | hu | hu
    · exact .inr hu
    · exact .inr hu
    · exact .inl hu
    · exact .inl hu
    · exact .inl hu
    · exact .inl hu
    · exact .inl (List.mem_singleton.mp hu)
  rcases hcase with rfl | rfl
  · exact ⟨rfl, .inl rfl⟩
  · exact ⟨rfl, .inr hstore'⟩

/-- The same for logs of such messages: what the reader has then been given. -/
lemma reach_ticks {st : Store} {l l' : List ℕ} {i p : ℕ} (hlen : l.length + l'.length < 2000)
    (hi : st.get (tickKey i) ≠ none)
    (hlist : memListPage st .first tailListPageSize queueMsgPrefix = some (l.map tickKey, .at p))
    (hlist' : memListPage (st.erase (tickKey i)) (.at p) tailListPageSize queueMsgPrefix =
      some (l'.map tickKey, .done)) :
    ∃ c, ∃ v : BView Unit (Fin 2), ∃ e,
      Reach (tickTail.shrinking (fun _ => memBackend) ⟨false, false⟩) anyStep
        ⟨1000000, fun _ => st, fun _ => {}⟩ c ∧
      (∀ u ∈ v.worlds, u.mem = (fun _ => {}) ∧ (u.store () = st ∨
        u.store () = st.erase (tickKey i))) ∧
      c.view = v.push e (v.world.setMem 0 { v.world.mem 0 with
        cursor := lastOr "" ((l ++ l').map tick),
        surfaced := (v.world.mem 0).surfaced ++ (l ++ l').map tick }) := by
  obtain ⟨o, ho⟩ := Option.ne_none_iff_exists'.mp hi
  have hobj : tickTail.objects 1000000 "" 2000 (l.map tickKey) ([], "") =
      .inl (l.map tick, lastOr "" (l.map tick)) := objects_ticks [] l (by simp; omega)
  exact reach_between (w := ⟨1000000, fun _ => st, fun _ => {}⟩) (d := 0) (by decide : (1 : Fin 2) ≠ 0)
    (by decide : (0 : ℤ) < 2000) ho (decide_eq_true hlist) hobj (decide_eq_true hlist')
    (objects_ticks l l' hlen)

/-- The listing of the log of 1002 messages, and what is left of it when the oldest is gone. -/
lemma memListPage_ticks : memListPage (ticks 1002) .first tailListPageSize queueMsgPrefix =
    some ((List.range 1000).map tickKey, .at 1000) := by
  simp [memListPage, decodePageToken, keysUnder_ticks, tailListPageSize, ← List.map_take,
    List.take_range]

lemma memListPage_ticks_erase : memListPage ((ticks 1002).erase (tickKey 0)) (.at 1000)
    tailListPageSize queueMsgPrefix = some ([1001].map tickKey, .done) := by
  have hrest : ((ticks 1002).erase (tickKey 0)).keysUnder queueMsgPrefix =
      (List.range' 1 1001).map tickKey := by
    rw [Store.keysUnder_erase, keysUnder_ticks, List.range_eq_range', List.range'_succ,
      List.map_cons, List.filter_cons_of_neg (by simp), List.filter_eq_self.mpr]
    intro key hkey
    obtain ⟨i, hi, rfl⟩ := List.mem_map.mp hkey
    have hpos := (List.mem_range'_1.mp hi).1
    exact decide_eq_true fun h => absurd (tickKey_inj h) (by omega)
  simp [memListPage, decodePageToken, hrest, tailListPageSize, ← List.map_drop, List.drop_range']

/-- **A message is passed over.**  The reader is given the first thousand of 1002 messages; the oldest
is deleted; the reader resumes at the position 1000, where the last message now is.  The message
before it is stored all the time, and the reader's cursor is behind it. -/
theorem shifted_past :
    ∃ c, Reach (tickTail.shrinking (C := Fin 2) (fun _ => memBackend) ⟨false, false⟩) anyStep
        ⟨1000000, fun _ => ticks 1002, fun _ => {}⟩ c ∧
      ¬ c.view.Along tickTail.LosesNothing ∧ (c.view.world.mem 0).cursor = tick 1001 ∧
      tick 1000 ∉ (c.view.world.mem 0).surfaced ∧
      ∀ w ∈ c.view.worlds, tickTail.Logged w (tick 1000) := by
  have hstored : ∀ i, i < 1002 → (ticks 1002).get (tickKey i) ≠ none := fun i hi =>
    (get_ticks _ _).mpr ⟨i, hi, rfl⟩
  have hkept : ((ticks 1002).erase (tickKey 0)).get (tickKey 1000) ≠ none := by
    rw [Store.get_erase_ne _ _ fun h => absurd (tickKey_inj h) (by omega)]
    exact hstored 1000 (by omega)
  have hmissed : tick 1000 ∉ (List.range 1000 ++ [1001]).map tick := by
    intro hmem
    obtain ⟨i, hi, heq⟩ := List.mem_map.mp hmem
    obtain rfl := tickKey_inj (congrArg (queueMsgPrefix ++ ·) heq)
    simp at hi
  have hlast : lastOr "" ((List.range 1000 ++ [1001]).map tick) = tick 1001 := by
    rw [List.map_append, List.map_singleton, lastOr_concat]
  obtain ⟨c, v, e, hreach, hworlds, hview⟩ := reach_ticks (by simp) (hstored 0 (by omega))
    memListPage_ticks memListPage_ticks_erase
  have hlogged : ∀ w ∈ v.worlds, tickTail.Logged w (tick 1000) := by
    intro w hw
    rcases (hworlds w hw).2 with hst | hst
    · exact fun hnone => hstored 1000 (by omega) (hst ▸ hnone)
    · exact fun hnone => hkept (hst ▸ hnone)
  have hmem : v.world.mem = fun _ => {} := (hworlds _ v.world_mem_worlds).1
  generalize (List.range 1000 ++ [1001]).map tick = out at hmissed hlast hview
  have hcursor : (c.view.world.mem 0).cursor = tick 1001 := by
    rw [hview, View.push_world, World.setMem_mem_self, hlast]
  have hsurfaced : (c.view.world.mem 0).surfaced = out := by
    rw [hview, View.push_world, World.setMem_mem_self, hmem, List.nil_append]
  refine ⟨c, hreach, fun halong => ?_, hcursor, hsurfaced ▸ hmissed, ?_⟩
  · have hlost : tickTail.LosesNothing v e c.view.world := by
      rw [View.Along, hview] at halong
      rw [hview]
      exact halong.1
    obtain ⟨out', hout, hall⟩ := hlost 0
    rw [hsurfaced, hmem, List.nil_append] at hout
    subst hout
    refine hmissed (hall _ (fun w hw => hlogged w (v.worldsFrom_subset _ hw)) ?_ ?_)
    · rw [hmem]
      exact empty_lt_tick _
    · rw [hcursor]
      exact (tick_lt (by omega)).le
  · rw [hview, View.push_worlds]
    refine List.forall_mem_cons.mpr ⟨?_, hlogged⟩
    exact (hlogged v.world v.world_mem_worlds :)

end Tail

end Blobster
