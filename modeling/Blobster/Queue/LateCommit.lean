import Blobster.Queue.Scan

/-!
# Nothing is committed behind a reader

A reader of the log moves its cursor past an id only when the lag has passed since the id's
timestamp.  If every payload commits before the lag has passed since its own timestamp, then nothing
can appear later at or below the cursor: an id there has no later timestamp than the cursor, so its
time to commit was over when the cursor moved.

* `Timely` — what follows from that for the history of a log: an id that is stored now and was not
  stored in some earlier world was still within its lag then.  **`reach_timely`** — it holds in every
  run in which the payloads commit in time.
* `LogSetup` — producers and readers of one log.
* **`LogSetup.surfaced_once_in_order`** — each reader is given ids in strictly increasing order, and
  every committed id up to its cursor.
-/

set_option linter.unusedSectionVars false

namespace Blobster

open Interleave Contract

variable {B C : Type} [DecidableEq B] [DecidableEq C]

/-! ## Logs whose payloads commit in time -/

namespace Tail

variable (tl : Tail B)

/-- The payload of the id is stored. -/
def Logged (w : World B C) (x : String) : Prop :=
  (w.store tl.queue.bucket).get (queueMsgPrefix ++ x) ≠ none

instance (w : World B C) (x : String) : Decidable (tl.Logged w x) := by
  unfold Logged; infer_instance

/-- Every payload that a step commits has a time-shaped id, and the lag has not passed since its
timestamp. -/
def commitsInTime (v : BView B C) (e : BEvent B C) : Prop :=
  ∀ t x body md pre r,
    e = BEvent.called t (.write tl.queue.bucket (queueMsgPrefix ++ x) body md pre) r →
    ¬ tl.Logged v.world x → ∃ ts, queueIDTime x = some ts ∧ v.world.clock < ts + tl.lag

/-- What the history of such a log is like. -/
structure Timely (v : BView B C) : Prop where
  clock : ∀ w ∈ v.worlds, w.clock ≤ v.world.clock
  shaped : ∀ w ∈ v.worlds, ∀ x, tl.Logged w x → ∃ ts, queueIDTime x = some ts
  late : ∀ w ∈ v.worlds, ∀ x ts, tl.Logged v.world x → ¬ tl.Logged w x →
    queueIDTime x = some ts → w.clock < ts + tl.lag

variable {tl}

lemma Timely.push {v : BView B C} {e : BEvent B C} {w : World B C} (h : tl.Timely v)
    (hclock : v.world.clock ≤ w.clock)
    (hnew : ∀ x, tl.Logged w x → ¬ tl.Logged v.world x →
      ∃ ts, queueIDTime x = some ts ∧ v.world.clock < ts + tl.lag) : tl.Timely (v.push e w) := by
  refine ⟨?_, ?_, ?_⟩
  · intro w' hw'
    rcases List.mem_cons.mp hw' with rfl | hw'
    · exact le_rfl
    · exact (h.clock w' hw').trans hclock
  · intro w' hw' x hx
    rcases List.mem_cons.mp hw' with rfl | hw'
    · by_cases hx' : tl.Logged v.world x
      · exact h.shaped _ v.world_mem_worlds x hx'
      · exact (hnew x hx hx').imp fun ts hts => hts.1
    · exact h.shaped w' hw' x hx
  · intro w' hw' x ts hx hnot hts
    rcases List.mem_cons.mp hw' with rfl | hw'
    · exact absurd hx hnot
    · by_cases hx' : tl.Logged v.world x
      · exact h.late w' hw' x ts hx' hnot hts
      · obtain ⟨ts', hts', hlt⟩ := hnew x hx hx'
        obtain rfl := Option.some.inj (hts.symm.trans hts')
        exact (h.clock w' hw').trans_lt hlt

end Tail

/-- A clock that moves forward and nothing else. -/
def Forward {E : Type} (env : E → World B C → Option (World B C)) : Prop :=
  ∀ e w w', env e w = some w' → w.clock ≤ w'.clock

lemma forward_advance : Forward fun (d : ℕ) (w : World B C) => some (w.advance d) := by
  rintro d w w' ⟨⟩
  exact le_add_of_nonneg_right (Int.natCast_nonneg d)

/-- **Histories of logs whose payloads commit in time.** -/
theorem reach_timely {tl : Tail B} {bk : B → Backend} {flt : Faults} {E : Type}
    {start : Thread C → Entry → World B C → Option (BProg B Unit × World B C)}
    {env : E → World B C → Option (World B C)} (hstart : StartsQuietly start)
    (henv : ClockOnly env) (hfwd : Forward env) {adm : BView B C → BEvent B C → Prop}
    (hadm : ∀ v e, adm v e → tl.commitsInTime v e) {w₀ : World B C}
    (hinit : ∀ x, tl.Logged w₀ x → ∃ ts, queueIDTime x = some ts)
    {c : Config (bucketSig B) (World B C) (Thread C)}
    (hc : Reach (bucketMachine bk flt start env) adm w₀ c) :
    tl.Timely c.view ∧ Reach (bucketMachine bk flt start env) (fun v e => adm v e ∧ tl.Timely v)
      w₀ c := by
  refine hc.keeps (I := tl.Timely) ?_ fun {c c' e} hs ha h => ?_
  · have hw : ∀ w ∈ (⟨w₀, []⟩ : BView B C).worlds, w = w₀ := fun w hw => List.mem_singleton.mp hw
    refine ⟨fun w h => (hw w h ▸ le_rfl), fun w h => hw w h ▸ hinit, fun w h x ts hx hnot => ?_⟩
    exact absurd (hw w h ▸ hx) hnot
  · have hnew : ∀ x, tl.Logged c'.view.world x → ¬ tl.Logged c.view.world x →
        ∃ ts, queueIDTime x = some ts ∧ c.view.world.clock < ts + tl.lag := by
      intro x hx hnot
      have hne : (c'.view.world.store tl.queue.bucket).get (queueMsgPrefix ++ x) ≠
          (c.view.world.store tl.queue.bucket).get (queueMsgPrefix ++ x) := by
        intro heq
        exact hnot fun hnone => hx (heq.trans hnone)
      obtain ⟨t, body, md, pre, r, rfl, -, -⟩ | ⟨t, pre, r, -, hnone⟩ :=
        step_get hstart henv hs hne
      · exact hadm _ _ ha t x body md pre r rfl hnot
      · exact absurd hnone hx
    cases hs with
    | env he => exact h.push (hfwd _ _ _ he) hnew
    | start hp he => exact h.push (hstart _ _ _ _ _ he).2.ge hnew
    | call hp he => exact h.push (exec_clock he).ge hnew

/-! ## Producers and readers -/

namespace Tail

variable (tl : Tail B)

/-- A reader's call of `Page` from its cursor: what it is given is appended to what it has, and it
goes on from the cursor it is given. -/
def follow (cursor : String) (pageSize : ℤ) (fuel : ℕ) : BProg B Unit := do
  match ← tl.page cursor pageSize fuel with
  | .error _ => return ()
  | .ok (out, next) =>
      let _ ← critical fun mem => { mem with cursor := next, surfaced := mem.surfaced ++ out }

/-- What a reader has been given, up to its cursor. -/
structure Caught (w : World B C) (m : Mem) : Prop where
  sorted : m.surfaced.Pairwise (· < ·)
  le_cursor : ∀ x ∈ m.surfaced, x ≤ m.cursor
  stamped : m.cursor = "" ∨ ∃ ts, queueIDTime m.cursor = some ts ∧ ts + tl.lag ≤ w.clock
  all : ∀ x, tl.Logged w x → x ≤ m.cursor → x ∈ m.surfaced

variable {tl} {w w' : World B C} {m : Mem}

lemma eq_empty_of_le {x : String} (h : x ≤ "") : x = "" := by
  by_contra hx
  refine absurd h (not_le.mpr (String.lt_iff_toList_lt.mpr ?_))
  cases hl : x.toList with
  | nil => exact absurd (String.toList_inj.mp (hl.trans String.toList_empty.symm)) hx
  | cons c cs => exact List.nil_lt_cons c cs

/-- Nothing new appears at or below the cursor of a reader. -/
lemma Caught.step (h : tl.Caught w m) (hclock : w.clock ≤ w'.clock)
    (hnew : ∀ x, tl.Logged w' x → ¬ tl.Logged w x →
      ∃ ts, queueIDTime x = some ts ∧ w.clock < ts + tl.lag) : tl.Caught w' m := by
  refine ⟨h.sorted, h.le_cursor, ?_, fun x hx hle => ?_⟩
  · exact h.stamped.imp_right fun ⟨ts, hts, hlag⟩ => ⟨ts, hts, hlag.trans hclock⟩
  · by_cases hold : tl.Logged w x
    · exact h.all x hold hle
    · obtain ⟨tx, htx, hlt⟩ := hnew x hx hold
      rcases h.stamped with hempty | ⟨ts, hts, hlag⟩
      · rw [hempty] at hle
        obtain rfl := eq_empty_of_le hle
        exact absurd (queueIDTime_empty.symm.trans htx) (by simp)
      · have := queueIDTime_mono htx hts hle
        omega

/-- **A page closes the gap** between the old cursor and the new one. -/
lemma Caught.page {v : BView B C} {n since : ℕ} {now : ℤ} {page : List String × String}
    (h : tl.Caught v.world m) (ht : tl.Timely v) (hp : tl.PageOf n m.cursor page now since v) :
    tl.Caught v.world { m with cursor := page.2, surfaced := m.surfaced ++ page.1 } := by
  have hsub := v.worldsFrom_subset since
  -- The new cursor is the old one, or an id of the page whose lag was over when the clock was read.
  have hnext : page.2 = m.cursor ∨ page.2 ∈ page.1 := by
    rw [hp.next]
    exact or_iff_not_imp_left.mpr lastOr_mem
  have hstamp : page.2 ∈ page.1 → ∃ ts, queueIDTime page.2 = some ts ∧ ts + tl.lag ≤ now := by
    intro hmem
    obtain ⟨-, hgate, w, hw, hlogged⟩ := hp.above _ hmem
    obtain ⟨ts, hts⟩ := ht.shaped w (hsub hw) _ hlogged
    simp only [gated, hts, decide_eq_false_iff_not, not_lt] at hgate
    exact ⟨ts, hts, hgate⟩
  have hnow : now ≤ v.world.clock := hp.clock _ (v.world_mem_worldsFrom hp.since_le)
  have hcursor : m.cursor ≤ page.2 := by
    rcases hnext with heq | hmem
    · exact heq.ge
    · exact (hp.above _ hmem).1.le
  have hlast : ∀ x ∈ page.1, x ≤ page.2 := by
    intro x hx
    rw [hp.next]
    obtain ⟨l, y, hl⟩ := (List.eq_nil_or_concat' page.1).resolve_left (List.ne_nil_of_mem hx)
    have hs := hp.sorted
    rw [hl] at hx hs ⊢
    rw [lastOr_concat]
    rcases List.mem_append.mp hx with hx | hx
    · exact ((List.pairwise_append.mp hs).2.2 x hx y (List.mem_singleton_self y)).le
    · exact (List.mem_singleton.mp hx).le
  refine ⟨?_, ?_, ?_, ?_⟩
  · refine List.pairwise_append.mpr ⟨h.sorted, hp.sorted, fun x hx y hy => ?_⟩
    exact (h.le_cursor x hx).trans_lt (hp.above y hy).1
  · intro x hx
    rcases List.mem_append.mp hx with hx | hx
    · exact (h.le_cursor x hx).trans hcursor
    · exact hlast x hx
  · rcases hnext with heq | hmem
    · exact heq ▸ h.stamped
    · obtain ⟨ts, hts, hlag⟩ := hstamp hmem
      exact .inr ⟨ts, hts, hlag.trans hnow⟩
  · intro x hx hle
    refine List.mem_append.mpr ?_
    by_cases hold : x ≤ m.cursor
    · exact .inl (h.all x hx hold)
    · have hmem : page.2 ∈ page.1 := hnext.resolve_left fun heq => hold (heq ▸ hle)
      obtain ⟨ts, hts, hlag⟩ := hstamp hmem
      obtain ⟨tx, htx⟩ := ht.shaped _ v.world_mem_worlds x hx
      -- Its lag was over during the whole scan, so it was there during the whole scan.
      refine .inr (hp.covers x (fun w hw hnone => ?_) (not_le.mp hold) hle)
      have hlate := ht.late w (hsub hw) x tx hx (fun hl => hl hnone) htx
      have hclock := hp.clock w hw
      have := queueIDTime_mono htx hts hle
      omega

end Tail

/-- Producers and readers of one log. -/
structure LogSetup (B C : Type) where
  tail : Tail B
  uuid : C → String

namespace LogSetup

variable (s : LogSetup B C)

/-- The entry points: a client enqueues, or reads on from where it is. -/
def start (t : Thread C) (e : Entry) (w : World B C) : Option (BProg B Unit × World B C) :=
  match t.2, e with
  | .main, .enqueue body attrs => some (discard (s.tail.queue.enqueue (s.uuid t.1) body attrs), w)
  | .main, .enqueueWithID id body attrs =>
      some (discard (s.tail.queue.enqueueWithID id body attrs), w)
  | .main, .page pageSize fuel => some (s.tail.follow (w.mem t.1).cursor pageSize fuel, w)
  | _, _ => none

/-- What an entry point starts. -/
inductive Starts (c : C) (w : World B C) : Goroutine → Entry → BProg B Unit → Prop where
  | enqueue (body : ByteArray) (attrs : Metadata) :
      Starts c w .main (.enqueue body attrs)
        (discard (s.tail.queue.enqueue (s.uuid c) body attrs))
  | enqueueWithID (id : String) (body : ByteArray) (attrs : Metadata) :
      Starts c w .main (.enqueueWithID id body attrs)
        (discard (s.tail.queue.enqueueWithID id body attrs))
  | page (pageSize : ℤ) (fuel : ℕ) :
      Starts c w .main (.page pageSize fuel) (s.tail.follow (w.mem c).cursor pageSize fuel)

variable {s} in
/-- The entry points are all there is to start, and starting changes nothing. -/
lemma start_cases {c : C} {g : Goroutine} {e : Entry} {w w' : World B C} {p : BProg B Unit}
    (h : s.start (c, g) e w = some (p, w')) : s.Starts c w g e p ∧ w' = w := by
  dsimp only [start] at h
  split at h
  · cases h
    exact ⟨.enqueue _ _, rfl⟩
  · cases h
    exact ⟨.enqueueWithID _ _ _, rfl⟩
  · cases h
    exact ⟨.page _ _, rfl⟩
  · cases h

/-- The machine: any number of clients, each making any number of calls, and a clock that moves
forward. -/
def machine (bk : B → Backend) (flt : Faults) : Machine (bucketSig B) (World B C) (Thread C) :=
  bucketMachine bk flt s.start fun (d : ℕ) w => some (w.advance d)

/-- The payloads commit in time and the listing is in order. -/
def orderly (v : BView B C) (e : BEvent B C) : Prop :=
  s.tail.commitsInTime v e ∧ listsInOrder s.tail.queue.bucket v e

/-- What a client promises about each of its steps. -/
structure Guar (t : Thread C) (v v' : BView B C) : Prop where
  clock : v.world.clock ≤ v'.world.clock
  others : ∀ d, (d, Goroutine.main) ≠ t → v'.world.mem d = v.world.mem d

/-- The contract: every reader has caught up to its cursor. -/
def contract (bk : B → Backend) (flt : Faults) : Contract (s.machine (C := C) bk flt) where
  adm v e := s.orderly v e ∧ s.tail.Timely v
  inv v := ∀ d, s.tail.Caught v.world (v.world.mem d)
  guar := Guar
  idle _ _ := True

variable {s} {bk : B → Backend} {flt : Faults} {v v' : BView B C} {d : C} {x : String}

lemma Guar.quiet {t : Thread C} {e : BEvent B C} : Guar t v (v.push e v.world) :=
  ⟨le_rfl, fun _ _ => rfl⟩

/-- A payload that commits in time. -/
lemma safe_writePayload {t : Thread C} (body : ByteArray) (attrs : Metadata) :
    (s.contract bk flt).Safe t (fun _ _ => True) (s.tail.queue.writePayload x body attrs) v := by
  refine safe_writeAll_last (k := .ret) (fun _ _ => .ret fun _ _ _ => trivial) ?_
    fun v₁ _ hi₁ e => ⟨.quiet, hi₁⟩
  intro v₁ _ hi₁ r st hst ha e
  obtain rfl := Store.write_ok hst
  refine ⟨⟨le_rfl, fun _ _ => rfl⟩, fun d => (hi₁ d).step le_rfl fun y hy hnot => ?_⟩
  by_cases hyx : y = x
  · subst hyx
    exact ha.1.1 t y body attrs _ r rfl hnot
  · refine absurd ?_ hnot
    have hne : queueMsgPrefix ++ y ≠ queueMsgPrefix ++ x := fun heq =>
      hyx (le_antisymm ((append_le_append_left _).mp heq.le) ((append_le_append_left _).mp heq.ge))
    simpa [Tail.Logged, Store.get_put_ne _ _ _ _ _ hne] using hy

/-- What a reader relies on: the others leave its cursor alone, and its listings are in order. -/
lemma reads (bk : B → Backend) (flt : Faults) (d : C) (m : Mem) :
    Reads (s.contract bk flt) (d, .main) s.tail.queue.bucket queueMsgPrefix (fun _ _ => True)
      fun v => v.world.mem d = m where
  clock := by
    rintro v v' ⟨-, -, ⟨n, w, ⟨⟩, -, rfl⟩ | ⟨u, -, -, hg⟩⟩
    · exact le_add_of_nonneg_right (Int.natCast_nonneg n)
    · exact hg.clock
  now hi := ⟨.quiet, hi⟩
  list hi := ⟨.quiet, hi⟩
  frame_stable := by
    rintro v v' ⟨-, -, ⟨n, w, ⟨⟩, -, rfl⟩ | ⟨u, hu, -, hg⟩⟩ hm
    · exact hm
    · exact (hg.others d hu.symm).trans hm
  frame_quiet hm := hm
  first _ := trivial
  stable _ _ := trivial
  page _ _ _ ha := ⟨ha.1.2 _ _ _ _ _ _ rfl, fun _ => trivial⟩

lemma safe_follow (hi : (s.contract bk flt).inv v) (pageSize : ℤ) (fuel : ℕ) :
    (s.contract bk flt).Safe (d, .main) (fun _ _ => True)
      (s.tail.follow (v.world.mem d).cursor pageSize fuel) v := by
  have hR := reads (s := s) bk flt d (v.world.mem d)
  refine Safe.bind hi (Tail.safe_page hR pageSize fuel rfl) ?_
  rintro r v₁ - ⟨hret, hmem⟩
  cases r with
  | error e => exact .ret fun _ _ _ => trivial
  | ok page =>
      refine safe_critical fun v₂ hr₂ hi₂ ha => ?_
      have hmem₂ := hr₂.stable (P := fun v' => v'.world.mem d = v.world.mem d) hR.frame_stable hmem
      obtain ⟨now, since, hp⟩ := (hret.rely hR hr₂) page rfl
      rw [← hmem₂] at hp
      refine ⟨⟨le_rfl, fun d' hd => World.setMem_mem_ne _ _ _ fun h => hd (by rw [h])⟩, fun d' => ?_,
        .ret fun _ _ _ => trivial⟩
      by_cases hd : d' = d
      · subst hd
        rw [View.push_world, World.setMem_mem_self]
        exact ((hi₂ d').page ha.2 hp).step le_rfl fun x hx hnot => absurd hx hnot
      · rw [View.push_world, World.setMem_mem_ne _ _ _ hd]
        exact (hi₂ d').step le_rfl fun x hx hnot => absurd hx hnot

lemma sound {w₀ : World B C} (hlog : ∀ x, s.tail.Logged w₀ x → ∃ ts, queueIDTime x = some ts)
    (hmem : ∀ d, w₀.mem d = {}) : (s.contract bk flt).Sound w₀ where
  init := by
    refine ⟨fun d => ?_, fun _ => trivial⟩
    rw [hmem]
    refine ⟨.nil, fun x hx => absurd hx List.not_mem_nil, .inl rfl, fun x hx hle => ?_⟩
    obtain rfl := Tail.eq_empty_of_le hle
    obtain ⟨ts, hts⟩ := hlog _ hx
    exact absurd (queueIDTime_empty.symm.trans hts) (by simp)
  env := by
    rintro v v' hi ⟨n, w, ⟨⟩, -, rfl⟩ d
    exact (hi d).step (le_add_of_nonneg_right (Int.natCast_nonneg n)) fun x hx hnot => absurd hx hnot
  stable _ _ _ _ _ := trivial
  start := by
    rintro ⟨d, g⟩ e v p w hi - - hstart
    obtain ⟨hcase, rfl⟩ := start_cases (s := s) hstart
    cases hcase with
    | enqueue body attrs =>
        refine ⟨.quiet, hi, Safe.discard hi (fun _ h => h) ?_⟩
        refine safe_now fun v₁ _ hi₁ _ => ⟨.quiet, hi₁, ?_⟩
        refine Safe.bind hi₁ (safe_writePayload _ _) fun r _ _ _ => ?_
        cases r <;> exact .ret fun _ _ _ => trivial
    | enqueueWithID id body attrs =>
        refine ⟨.quiet, hi, Safe.discard hi (fun _ h => h) ?_⟩
        unfold Queue.enqueueWithID
        split
        · exact .ret fun _ _ _ => trivial
        · refine Safe.bind hi (safe_writePayload _ _) fun r _ _ _ => ?_
          split <;> exact .ret fun _ _ _ => trivial
    | page pageSize fuel =>
        exact ⟨.quiet, hi, safe_follow (v := v.push _ v.world) hi _ _⟩

/-- **The tail never skips a late commit.**  Every reader is given ids in strictly increasing order,
so no id twice, and has been given every id in the log at or before its cursor. -/
theorem surfaced_once_in_order {w₀ : World B C}
    (hlog : ∀ x, s.tail.Logged w₀ x → ∃ ts, queueIDTime x = some ts) (hmem : ∀ d, w₀.mem d = {})
    {c : Config (bucketSig B) (World B C) (Thread C)}
    (hc : Reach (s.machine bk flt) s.orderly w₀ c) (d : C) :
    (c.view.world.mem d).surfaced.Pairwise (· < ·) ∧ (c.view.world.mem d).surfaced.Nodup ∧
      ∀ x, s.tail.Logged c.view.world x → x ≤ (c.view.world.mem d).cursor →
        x ∈ (c.view.world.mem d).surfaced := by
  have hquiet : StartsQuietly s.start := by
    rintro ⟨d, g⟩ e w p w' hstart
    obtain ⟨-, rfl⟩ := start_cases hstart
    exact ⟨rfl, rfl⟩
  have hreach := (reach_timely hquiet clockOnly_advance forward_advance (fun _ _ h => h.1) hlog hc).2
  have hsound : (s.contract bk flt).Sound w₀ := sound hlog hmem
  have hcaught := (hsound.reach hreach).1 d
  exact ⟨hcaught.sorted, hcaught.sorted.imp fun h => h.ne, hcaught.all⟩

/-! ## A run -/

/-- A run in which every listing fits on one page and every payload commits in time. -/
def isOrderly (tl : Tail Unit) (v : BView Unit C) : BEvent Unit C → Bool
  | .call _ (.listPage _ token _ pref) (.ok (keys, next)) =>
      decide (token = .first) && decide (next = .done) &&
        decide (keys = (v.world.store ()).keysUnder pref)
  | .call _ (.write _ key _ _ _) _ =>
      ((cutPrefix key queueMsgPrefix).bind queueIDTime).any fun ts =>
        decide (v.world.clock < ts + tl.lag)
  | _ => true

lemma orderly_of_isOrderly {s : LogSetup Unit C} (v : BView Unit C) (e : BEvent Unit C)
    (h : isOrderly s.tail v e = true) : s.orderly v e := by
  constructor
  · rintro t x body md pre r rfl -
    dsimp only [isOrderly, BEvent.called] at h
    rw [cutPrefix_eq_some.mpr rfl, Option.bind_some, Option.any_eq_true] at h
    obtain ⟨ts, hts, hlt⟩ := h
    exact ⟨ts, hts, of_decide_eq_true hlt⟩
  · rintro t token n pref keys next rfl
    simp only [isOrderly, Bool.and_eq_true, decide_eq_true_eq] at h
    obtain ⟨⟨rfl, rfl⟩, rfl⟩ := h
    exact inOrder_onePage t v _ pref

/-- A producer and a reader with a lag of five milliseconds. -/
def laggingLog : LogSetup Unit (Fin 2) := ⟨⟨⟨(), 30, 256, 0⟩, 5000000⟩, fun _ => "u"⟩

/-- Of two ids of the same millisecond the later one commits first; the reader sees neither within
the lag, and then both in order, one on a page. -/
theorem surfaced_once_in_order_tie :
    ∃ c, Reach (laggingLog.machine (fun _ => memBackend) ⟨true, true⟩) laggingLog.orderly
        ⟨10000000, fun _ => {}, fun _ => {}⟩ c ∧
      (c.view.world.mem 1).surfaced = ["0000000000010-a", "0000000000010-b"] ∧
      (c.view.world.mem 1).surfaced.Nodup := by
  obtain ⟨c, hreach, htest⟩ := reach_of_run_adm
    (M := laggingLog.machine (fun _ => memBackend) ⟨true, true⟩)
    (w := ⟨10000000, fun _ => {}, fun _ => {}⟩) (orderly_of_isOrderly (s := laggingLog))
    (l := [.start (0, .main) (.enqueueWithID "0000000000010-b" .empty []), .call (0, .main) .ok,
      .start (1, .main) (.page 1 1), .call (1, .main) .ok,
      .start (0, .main) (.enqueueWithID "0000000000010-a" .empty []), .call (0, .main) .ok,
      .call (1, .main) (.page ["msg/0000000000010-a", "msg/0000000000010-b"] .done),
      .call (1, .main) .ok, .env (5000000 : ℕ),
      .start (1, .main) (.page 1 1), .call (1, .main) .ok,
      .call (1, .main) (.page ["msg/0000000000010-a", "msg/0000000000010-b"] .done),
      .call (1, .main) .ok, .start (1, .main) (.page 1 1), .call (1, .main) .ok,
      .call (1, .main) (.page ["msg/0000000000010-a", "msg/0000000000010-b"] .done),
      .call (1, .main) .ok])
    (p := fun c => decide ((c.view.world.mem 1).surfaced =
      ["0000000000010-a", "0000000000010-b"])) (by decide +kernel)
  have hnil : ∀ x, ¬ laggingLog.tail.Logged ⟨10000000, fun _ => {}, fun _ : Fin 2 => {}⟩ x :=
    fun x hx => hx (Store.get_empty _)
  exact ⟨c, hreach, of_decide_eq_true htest, (surfaced_once_in_order
    (fun x hx => absurd hx (hnil x)) (fun _ => rfl) hreach 1).2.1⟩

end LogSetup

end Blobster
