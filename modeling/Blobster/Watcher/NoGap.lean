import Blobster.Queue.LateCommit
import Blobster.Watcher.Instances

/-!
# The watcher leaves no gap

The durable cursor says how far a watch has come.  What it stands for is that everything at or below
it is done with: the message was enqueued, or it had left the source when it was its turn.  That holds
at every moment, for any number of instances that share a cursor, whoever of them holds the lock.

The argument needs no more of an instance than its own history.  The cursor that it starts a page from
is covered: it was read from the object, or it is the one that the instance itself has written.  The
page leaves out nothing that was there during the scan, the copies are made before the cursor is
written, and nothing is committed behind a page, because the lag of the last id on it is over.

* `Bridge.Covered` — what a cursor stands for; `Paged.covered_next` — a page whose messages are copied
  covers its last id.
* **`Bridge.no_gap`** — in every state that is reached, the durable cursor is covered.
-/

set_option linter.unusedSectionVars false

namespace Blobster

open Interleave Contract

variable {B C : Type} [DecidableEq B] [DecidableEq C]

namespace Bridge

variable (s : Bridge B C)

/-- The payloads of the source commit in time, and its listing is in order. -/
def orderly (v : BView B C) (e : BEvent B C) : Prop :=
  s.tail.commitsInTime v e ∧ listsInOrder s.source.bucket v e

/-! ## What a cursor stands for -/

/-- The message was enqueued under its id, with a body and attributes that the source had, and the
call returned without an error. -/
def Enqueued (v : BView B C) (x : String) : Prop :=
  ∃ t o o' r w w',
    (w, BEvent.called t (.write s.localQueue.bucket (queueMsgPrefix ++ x) o.body o'.metadata
      [.ifNotExists]) r, w') ∈ v.steps ∧
    (r = .ok () ∨ r = .error .preconditionFailed) ∧
    (∃ w₁ ∈ v.worlds, (w₁.store s.source.bucket).get (queueMsgPrefix ++ x) = some o) ∧
    ∃ w₂ ∈ v.worlds, (w₂.store s.source.bucket).get (queueMsgPrefix ++ x) = some o'

/-- The source did not have the message at some moment since. -/
def Gone (v : BView B C) (x : String) (since : ℤ) : Prop :=
  ∃ w ∈ v.worlds, since ≤ w.clock ∧ ¬ s.tail.Logged w x

/-- Every message at or below the cursor is done with. -/
def Covered (v : BView B C) (cursor : String) : Prop :=
  ∀ x ts, queueIDTime x = some ts → x ≤ cursor → s.Enqueued v x ∨ s.Gone v x (ts + s.lag)

variable {s} {v v' : BView B C} {x cursor : String}

lemma Enqueued.mono (hle : View.Le v v') (h : s.Enqueued v x) : s.Enqueued v' x := by
  obtain ⟨t, o, o', r, w, w', hmem, hr, ⟨w₁, hw₁, ho⟩, ⟨w₂, hw₂, ho'⟩⟩ := h
  exact ⟨t, o, o', r, w, w', hle.steps hmem, hr, ⟨w₁, hle.worlds hw₁, ho⟩, ⟨w₂, hle.worlds hw₂, ho'⟩⟩

lemma Gone.mono {since : ℤ} (hle : View.Le v v') (h : s.Gone v x since) : s.Gone v' x since := by
  obtain ⟨w, hw, hclock, hnot⟩ := h
  exact ⟨w, hle.worlds hw, hclock, hnot⟩

lemma Gone.earlier {since since' : ℤ} (h : s.Gone v x since) (hle : since' ≤ since) :
    s.Gone v x since' := by
  obtain ⟨w, hw, hclock, hnot⟩ := h
  exact ⟨w, hw, hle.trans hclock, hnot⟩

lemma Covered.mono (hle : View.Le v v') (h : s.Covered v cursor) : s.Covered v' cursor :=
  fun x ts hts hx => (h x ts hts hx).imp (Enqueued.mono hle) (Gone.mono hle)

/-- The empty cursor stands for nothing. -/
lemma covered_empty : s.Covered v "" := by
  intro x ts hts hx
  obtain rfl := Tail.eq_empty_of_le hx
  exact absurd (queueIDTime_empty.symm.trans hts) (by simp)

/-- A page behind a covered cursor: what it left out was gone at some moment of the scan, and its last
id was in the log.  The clock said `now` when the scan began. -/
structure Paged (s : Bridge B C) (cursor : String) (page : List String × String) (now : ℤ)
    (v : BView B C) : Prop where
  covered : s.Covered v cursor
  left_out : ∀ x, cursor < x → x ≤ page.2 → x ∉ page.1 → s.Gone v x now
  last : page.2 ≠ cursor → s.tail.gated now page.2 = false ∧ ∃ w ∈ v.worlds, s.tail.Logged w page.2

lemma Paged.mono {page : List String × String} {now : ℤ} (hle : View.Le v v')
    (h : s.Paged cursor page now v) : s.Paged cursor page now v' where
  covered := h.covered.mono hle
  left_out x hc hx hnot := (h.left_out x hc hx hnot).mono hle
  last hne := by
    obtain ⟨hgate, w, hw, hlog⟩ := h.last hne
    exact ⟨hgate, w, hle.worlds hw, hlog⟩

/-- What a call of `Page` returns, in these terms. -/
lemma paged_of_pageOf {page : List String × String} {now : ℤ} {n since : ℕ}
    (hc : s.Covered v cursor) (h : s.tail.PageOf n cursor page now since v) :
    s.Paged cursor page now v := by
  have hsub := v.worldsFrom_subset since
  refine ⟨hc, fun x hlt hle hnot => ?_, fun hne => ?_⟩
  · by_contra hgone
    refine hnot (h.covers x (fun w hw hnone => hgone ?_) hlt hle)
    exact ⟨w, hsub hw, h.clock w hw, fun hlog => hlog hnone⟩
  · rw [h.next] at hne ⊢
    obtain ⟨-, hgate, w, hw, hlog⟩ := h.above _ (lastOr_mem hne)
    exact ⟨hgate, w, hsub hw, hlog⟩

/-- The message has been copied, or was gone. -/
def Copied (s : Bridge B C) (now : ℤ) (v : BView B C) (x : String) : Prop :=
  s.Enqueued v x ∨ s.Gone v x now

lemma Copied.mono {now : ℤ} (hle : View.Le v v') (h : s.Copied now v x) : s.Copied now v' x :=
  h.imp (Enqueued.mono hle) (Gone.mono hle)

/-- **A page whose messages have been copied covers its last id.**  The lag of that id is over, and so
it is for everything in front of it. -/
lemma Paged.covered_next {page : List String × String} {now : ℤ} (h : s.Paged cursor page now v)
    (hcopied : ∀ x ∈ page.1, s.Copied now v x) (ht : s.tail.Timely v) : s.Covered v page.2 := by
  intro x ts hts hle
  by_cases hold : x ≤ cursor
  · exact h.covered x ts hts hold
  have hlt := not_le.mp hold
  obtain ⟨hgate, w, hw, hlog⟩ := h.last fun heq => hold (heq ▸ hle)
  obtain ⟨ts', hts'⟩ := ht.shaped w hw _ hlog
  have hlag : ts' + s.lag ≤ now := by
    simp only [Tail.gated, hts', decide_eq_false_iff_not, not_lt] at hgate
    exact hgate
  have horder := queueIDTime_mono hts hts' hle
  have hcopy : s.Copied now v x := by
    by_cases hmem : x ∈ page.1
    · exact hcopied x hmem
    · exact .inr (h.left_out x hlt hle hmem)
  exact hcopy.imp id fun hgone => hgone.earlier (by omega)

/-! ## The contract -/

variable {bk : B → Backend} {flt : Faults}
  {others : Thread C → Entry → World B C → Option (BProg B Unit × World B C)}

variable (s bk flt others) in
/-- The durable cursor is covered. -/
def contract : Contract (s.machine bk flt others) where
  adm v e := s.orderly v e ∧ s.tail.Timely v
  inv v := ∀ o, (v.world.store s.bucket).get s.cursorPath = some o →
    s.Covered v (cursorText o.body)
  guar _ v v' := v.world.clock ≤ v'.world.clock
  idle _ _ := True

/-- Where the cursor stays as it is, the invariant stays true. -/
lemma inv_push {e : BEvent B C} {w : World B C} (hi : (s.contract bk flt others).inv v)
    (hsame : (w.store s.bucket).get s.cursorPath = (v.world.store s.bucket).get s.cursorPath) :
    (s.contract bk flt others).inv (v.push e w) := by
  intro o ho
  rw [View.push_world, hsame] at ho
  exact (hi o ho).mono (v.le_push e w)

lemma interf_clock {t : Thread C} (h : (s.contract bk flt others).Interf t v v') :
    v.world.clock ≤ v'.world.clock := by
  obtain ⟨-, -, ⟨n, w, ⟨⟩, -, rfl⟩ | ⟨u, -, -, hg⟩⟩ := h
  · exact le_add_of_nonneg_right (Int.natCast_nonneg n)
  · exact hg

lemma rely_clock {t : Thread C} (h : (s.contract bk flt others).Rely t v v') :
    v.world.clock ≤ v'.world.clock :=
  h.of_step (R := fun v v' => v.world.clock ≤ v'.world.clock) (fun _ => le_rfl) le_trans interf_clock

/-- What a scan of the source relies on. -/
lemma reads (t : Thread C) (cursor : String) :
    Reads (s.contract bk flt others) t s.tail.queue.bucket queueMsgPrefix (fun _ _ => True)
      fun v => s.Covered v cursor where
  clock := interf_clock
  now hi := ⟨le_rfl, inv_push hi rfl⟩
  list hi := ⟨le_rfl, inv_push hi rfl⟩
  frame_stable hs hc := by
    obtain ⟨e, w, rfl⟩ := hs.push
    exact hc.mono (View.le_push _ _ _)
  frame_quiet hc := hc.mono (View.le_push _ _ _)
  first _ := trivial
  stable _ _ := trivial
  page _ _ _ ha := ⟨ha.1.2 _ _ _ _ _ _ rfl, fun _ => trivial⟩

/-! ## The programs -/

variable {t : Thread C}

/-- The enqueue of what was read from the source. -/
lemma safe_enqueueWithID (o o' : Object)
    (ho : ∃ w ∈ v.worlds, (w.store s.source.bucket).get (queueMsgPrefix ++ x) = some o)
    (ho' : ∃ w ∈ v.worlds, (w.store s.source.bucket).get (queueMsgPrefix ++ x) = some o') :
    (s.contract bk flt others).Safe t (fun r v => ∀ b, r = .ok b → s.Enqueued v x)
      (s.localQueue.enqueueWithID x o.body o'.metadata) v := by
  have hret : ∀ {v : BView B C} {r : Except Err Bool}, (∀ b, r = .ok b → s.Enqueued v x) →
      (s.contract bk flt others).Safe t (fun r v => ∀ b, r = .ok b → s.Enqueued v x) (.ret r) v :=
    fun h => .ret fun _ hr _ b hb => (h b hb).mono hr.le
  have herror : ∀ {v : BView B C} (e : Err) (b : Bool),
      (.error e : Except Err Bool) = .ok b → s.Enqueued v x := fun e b h => by cases h
  have henq : ∀ {v₁ : BView B C} {w : World B C} {r : Except Err Unit}, View.Le v v₁ →
      (r = .ok () ∨ r = .error .preconditionFailed) → s.Enqueued (v₁.push (BEvent.called t
        (.write s.localQueue.bucket (queueMsgPrefix ++ x) o.body o'.metadata [.ifNotExists]) r) w)
        x := by
    intro v₁ w r hle hr
    obtain ⟨w₁, hw₁, ho⟩ := ho
    obtain ⟨w₂, hw₂, ho'⟩ := ho'
    exact ⟨t, o, o', r, _, _, List.mem_cons_self, hr,
      ⟨w₁, List.mem_cons_of_mem _ (hle.worlds hw₁), ho⟩,
      ⟨w₂, List.mem_cons_of_mem _ (hle.worlds hw₂), ho'⟩⟩
  unfold Queue.enqueueWithID
  split
  · exact hret (herror _)
  · refine safe_writeAll (fun v₁ hr₁ hi₁ r st hst _ _ => ?_) fun v₁ hr₁ hi₁ e _ _ => ?_
    · have hsame := get_setStore_write (b := s.bucket) hst fun h => s.msg_ne_cursorPath x h.2
      refine ⟨le_rfl, inv_push hi₁ hsame, ?_⟩
      split
      · exact hret fun _ _ => henq hr₁.le (.inr rfl)
      · exact hret (herror _)
      · exact hret fun _ _ => henq hr₁.le (.inl rfl)
    · refine ⟨le_rfl, inv_push hi₁ rfl, ?_⟩
      split
      · rename_i heq
        exact hret fun _ _ => henq hr₁.le (.inr heq)
      · exact hret (herror _)
      · rename_i heq
        cases heq

/-- **The copy of one message.** -/
lemma safe_replicate {now : ℤ} (hnow : now ≤ v.world.clock) (x : String) :
    (s.contract bk flt others).Safe t (fun r v => r = .ok () → s.Copied now v x)
      (s.replicate x) v := by
  have hret : ∀ {v : BView B C} {r : Except Err Unit}, (r = .ok () → s.Copied now v x) →
      (s.contract bk flt others).Safe t (fun r v => r = .ok () → s.Copied now v x) (.ret r) v :=
    fun h => .ret fun _ hr _ hok => (h hok).mono hr.le
  have hgone : ∀ {v v' : BView B C} {e : BEvent B C}, (s.contract bk flt others).Rely t v v' →
      now ≤ v.world.clock → (v'.world.store s.source.bucket).get (queueMsgPrefix ++ x) = none →
      s.Copied now (v'.push e v'.world) x := by
    intro v v' e hr hnow hnone
    exact .inr ⟨v'.world, List.mem_cons_self, hnow.trans (rely_clock hr), fun hlog => hlog hnone⟩
  refine safe_attributes fun v₁ hr₁ hi₁ r hr _ => ⟨le_rfl, inv_push hi₁ rfl, ?_⟩
  have hnow₁ := hnow.trans (rely_clock hr₁)
  obtain ⟨o', ho', rfl⟩ | ⟨hnone, rfl⟩ | rfl := hr
  · refine safe_readAll fun v₂ hr₂ hi₂ r hr _ => ⟨le_rfl, inv_push hi₂ rfl, ?_⟩
    have hle₂ : View.Le v₁ v₂ := (v₁.le_push _ _).trans hr₂.le
    obtain ⟨o, ho, rfl⟩ | ⟨hnone, rfl⟩ | rfl := hr
    · refine Safe.bind (inv_push hi₂ rfl) (safe_enqueueWithID (v := v₂.push _ _) o o'
        ⟨_, List.mem_cons_of_mem _ v₂.world_mem_worlds, ho⟩
        ⟨_, List.mem_cons_of_mem _ (hle₂.worlds v₁.world_mem_worlds), ho'⟩) fun r v₃ _ hr => ?_
      cases r with
      | error e => exact hret fun h => by cases h
      | ok b => exact hret fun _ => .inl (hr b rfl)
    · exact hret fun _ => hgone (v := v₁.push _ _) hr₂ hnow₁ hnone
    · exact hret fun h => by cases h
  · exact hret fun _ => hgone hr₁ hnow hnone
  · exact hret fun h => by cases h

/-- **The copies of a page.** -/
lemma safe_replicateAll {now : ℤ} (hnow : now ≤ v.world.clock)
    (hi : (s.contract bk flt others).inv v) (msgs : List String) :
    (s.contract bk flt others).Safe t
      (fun r v => r = .ok () → ∀ x ∈ msgs, s.Copied now v x) (s.replicateAll msgs) v := by
  induction msgs generalizing v with
  | nil => exact .ret fun _ _ _ _ x hx => absurd hx List.not_mem_nil
  | cons m msgs ih =>
      have hcopy : (s.contract bk flt others).Safe t
          (fun r v => (r = .ok () → s.Copied now v m) ∧ now ≤ v.world.clock) (s.replicate m) v :=
        (safe_replicate hnow m).frame (fun hs h => h.trans (interf_clock hs))
          (fun hs h => h.trans hs.2) hnow
      refine Safe.bind hi hcopy fun r v₁ hi₁ hr => ?_
      obtain ⟨hr, hnow₁⟩ := hr
      cases r with
      | error e => exact .ret fun _ _ _ h => by cases h
      | ok _ =>
          have hrest := (ih hnow₁ hi₁).grow (P := fun v => s.Copied now v m)
            (fun hle h => h.mono hle) (hr rfl)
          refine hrest.mono fun r v₂ _ h hok => ?_
          exact List.forall_mem_cons.mpr ⟨h.2, h.1 hok⟩

/-- **The cursor is moved to the end of a page whose messages are copied.** -/
lemma safe_writeCursor {page : List String × String} {now : ℤ} (version : Version)
    (hp : s.Paged cursor page now v) (hcopied : ∀ x ∈ page.1, s.Copied now v x) :
    (s.contract bk flt others).Safe t (fun r v => ∀ ver, r = .ok ver → s.Covered v page.2)
      (s.writeCursor page.2 version) v := by
  have hret : ∀ {v : BView B C} {r : Except Err Version}, (∀ ver, r = .ok ver → s.Covered v page.2) →
      (s.contract bk flt others).Safe t (fun r v => ∀ ver, r = .ok ver → s.Covered v page.2)
        (.ret r) v := fun h => .ret fun _ hr _ ver hver => (h ver hver).mono hr.le
  have hnext : ∀ {v₁ : BView B C}, View.Le v v₁ → s.tail.Timely v₁ → s.Covered v₁ page.2 :=
    fun hle ht => (hp.mono hle).covered_next (fun x hx => (hcopied x hx).mono hle) ht
  refine safe_writeAll (fun v₁ hr₁ hi₁ r st hst _ ha => ?_) fun v₁ hr₁ hi₁ e _ _ => ?_
  · have hcov := hnext hr₁.le ha.2
    have hinv : (s.contract bk flt others).inv (v₁.push (BEvent.called t (.write s.bucket s.cursorPath
        page.2.toUTF8 [] [Watch.cursorCondition version]) r) (v₁.world.setStore s.bucket st)) := by
      intro o ho
      obtain rfl := Store.write_ok hst
      rw [View.push_world, World.setStore_store_self, Store.get_put_self, Option.some.injEq] at ho
      subst ho
      rw [cursorText_toUTF8]
      exact hcov.mono (v₁.le_push _ _)
    refine ⟨le_rfl, hinv, ?_⟩
    cases r with
    | error e => exact hret fun _ h => by cases h
    | ok _ =>
        refine safe_attributes fun v₂ hr₂ hi₂ r hr _ => ⟨le_rfl, inv_push hi₂ rfl, ?_⟩
        have hle : View.Le v₁ v₂ := (v₁.le_push _ _).trans hr₂.le
        obtain ⟨o, -, rfl⟩ | ⟨-, rfl⟩ | rfl := hr
        · exact hret fun _ _ => hcov.mono (hle.trans (v₂.le_push _ _))
        · exact hret fun _ h => by cases h
        · exact hret fun _ h => by cases h
  · exact ⟨le_rfl, inv_push hi₁ rfl, hret fun _ h => by cases h⟩

lemma safe_readCursor : (s.contract bk flt others).Safe t
    (fun r v => ∀ c, r = .ok c → s.Covered v c.1) s.readCursor v := by
  have hret : ∀ {v : BView B C} {r : Except Err (String × Version)},
      (∀ c, r = .ok c → s.Covered v c.1) → (s.contract bk flt others).Safe t
        (fun r v => ∀ c, r = .ok c → s.Covered v c.1) (.ret r) v :=
    fun h => .ret fun _ hr _ c hc => (h c hc).mono hr.le
  refine safe_attributes fun v₁ hr₁ hi₁ r hr _ => ⟨le_rfl, inv_push hi₁ rfl, ?_⟩
  obtain ⟨o, -, rfl⟩ | ⟨-, rfl⟩ | rfl := hr
  · refine safe_readAll fun v₂ hr₂ hi₂ r hr _ => ⟨le_rfl, inv_push hi₂ rfl, ?_⟩
    obtain ⟨o', ho', rfl⟩ | ⟨-, rfl⟩ | rfl := hr
    · refine hret fun c hc => ?_
      cases hc
      exact (hi₂ o' ho').mono (v₂.le_push _ _)
    · exact hret fun c hc => by cases hc
    · exact hret fun c hc => by cases hc
  · refine hret fun c hc => ?_
    cases hc
    exact covered_empty
  · exact hret fun c hc => by cases hc

/-- **Every round goes on with a covered cursor.** -/
lemma steered (t : Thread C) : s.Steered (s.contract bk flt others)
    (Op.Spares s.bucket s.cursorPath) t (fun c v => s.Covered v c.1)
    (fun c page v => ∃ now, s.Paged c.1 page now v ∧ now ≤ v.world.clock)
    (fun c page v => ∃ now, s.Paged c.1 page now v ∧ ∀ x ∈ page.1, s.Copied now v x) where
  interf hs hc := by
    obtain ⟨e, w, rfl⟩ := hs.push
    exact hc.mono (View.le_push _ _ _)
  own hs hc := by
    obtain ⟨⟨e, w, -, rfl⟩, -⟩ := hs
    exact hc.mono (View.le_push _ _ _)
  lock := s.lockCalls_spares
  calls o ho v ch r w hi he _ := ⟨(exec_clock he).ge, inv_push hi (exec_spares ho he)⟩
  read v := safe_readCursor
  page fuel hi hc := by
    refine (Tail.safe_page (reads t _) _ _ hc).mono fun r v₁ _ hr page hpage => ?_
    obtain ⟨now, since, hpage⟩ := hr.1 page hpage
    exact ⟨now, paged_of_pageOf hr.2 hpage,
      hpage.clock _ (v₁.world_mem_worldsFrom hpage.since_le)⟩
  copy hi hp := by
    obtain ⟨now, hp, hnow⟩ := hp
    refine ((safe_replicateAll hnow hi _).grow (fun hle h => Paged.mono hle h) hp).mono ?_
    exact fun r v₁ _ hr hok => ⟨now, hr.2, hr.1 hok⟩
  move _ _ hcopied := by
    obtain ⟨now, hp, hcopied⟩ := hcopied
    exact safe_writeCursor _ hp hcopied

/-- **The watcher leaves no gap.**  Any number of instances of one watch run, pause, lose the lock to
each other and are started again, next to anyone who leaves the cursor alone; calls may fail, with or
without an effect.  If the ids of the source are time-shaped, its payloads commit before the lag has
passed and its listing is in order, then whenever the durable cursor is at `c`, every time-shaped id at
or below `c` has been enqueued by a call that returned without an error, or the source did not have it
at some moment after its lag had passed. -/
theorem no_gap (s : Bridge B C) (bk : B → Backend) (flt : Faults)
    (ho : Bystanders (Op.Spares s.bucket s.cursorPath) others)
    {w₀ : World B C} (hlog : ∀ x, s.tail.Logged w₀ x → ∃ ts, queueIDTime x = some ts)
    (h₀ : (w₀.store s.bucket).get s.cursorPath = none)
    {cfg : Config (bucketSig B) (World B C) (Thread C)}
    (hc : Reach (s.machine bk flt others) s.orderly w₀ cfg) {o : Object}
    (hcursor : (cfg.view.world.store s.bucket).get s.cursorPath = some o) {x : String} {ts : ℤ}
    (hx : queueIDTime x = some ts) (hle : x ≤ cursorText o.body) :
    s.Enqueued cfg.view x ∨ s.Gone cfg.view x (ts + s.lag) := by
  have hquiet : StartsQuietly (s.start others) := fun _ _ _ _ _ hs =>
    (s.start_cases s.lockCalls_spares ho hs).1
  have hreach := (reach_timely hquiet clockOnly_advance forward_advance (fun _ _ h => h.1) hlog hc).2
  have hsound : (s.contract bk flt others).Sound w₀ :=
    sound_of_steered ho steered (fun _ _ => trivial) (fun o h => absurd (h₀.symm.trans h) (by simp))
      (fun hi hstore => inv_push hi (by rw [hstore])) fun _ _ hclock => hclock
  exact (hsound.reach hreach).1 o hcursor x ts hx hle

/-! ## A run -/

/-- The log of the source does not change, and its listing fits on one page. -/
def isOrderly (s : Bridge B C) (v : BView B C) : BEvent B C → Bool
  | .call _ (.listPage b token _ pref) (.ok (keys, next)) =>
      decide (b ≠ s.source.bucket) || (decide (token = .first) && decide (next = .done) &&
        decide (keys = (v.world.store b).keysUnder pref))
  | .call _ (.write b _ _ _ _) _ => decide (b ≠ s.source.bucket)
  | _ => true

lemma orderly_of_isOrderly (s : Bridge B C) (v : BView B C) (e : BEvent B C)
    (h : isOrderly s v e = true) : s.orderly v e := by
  constructor
  · rintro t x body md pre r rfl
    exact absurd rfl (of_decide_eq_true h)
  · rintro t token n pref keys next rfl
    simp only [isOrderly, Bool.or_eq_true, Bool.and_eq_true, decide_eq_true_eq] at h
    obtain ⟨⟨rfl, rfl⟩, rfl⟩ := h.resolve_left fun hne => hne rfl
    exact inOrder_onePage t v _ pref

/-- The cursor has moved to the message, and the message has been enqueued. -/
theorem no_gap_one :
    ∃ cfg, Reach (oneInstance.machine (fun _ => memBackend) ⟨true, true⟩ noOthers)
        oneInstance.orderly oneLogged cfg ∧
      ∃ o, (cfg.view.world.store true).get oneInstance.cursorPath = some o ∧
        "0000000000010-a" ≤ cursorText o.body ∧
        (oneInstance.Enqueued cfg.view "0000000000010-a" ∨
          oneInstance.Gone cfg.view "0000000000010-a" (10000000 + 5000000)) := by
  obtain ⟨cfg, hreach, htest⟩ := reach_of_run_adm (w := oneLogged) (l := copyOne)
    (orderly_of_isOrderly oneInstance)
    (p := fun cfg => ((cfg.view.world.store true).get oneInstance.cursorPath).any
      fun o => decide (cursorText o.body = "0000000000010-a")) (by decide +kernel)
  obtain ⟨o, ho, htext⟩ := (Option.any_eq_true _ _).mp htest
  have hle : "0000000000010-a" ≤ cursorText o.body := (of_decide_eq_true htext).ge
  have hlog : ∀ x, oneInstance.tail.Logged oneLogged x → ∃ ts, queueIDTime x = some ts := by
    intro x hx
    by_cases hkey : queueMsgPrefix ++ x = queueMsgPrefix ++ "0000000000010-a"
    · obtain rfl : x = "0000000000010-a" := (String.append_right_inj _).mp hkey
      exact ⟨10000000, by decide +kernel⟩
    · refine absurd ?_ hx
      exact (Store.get_put_ne _ _ _ _ _ hkey).trans (Store.get_empty _)
  exact ⟨cfg, hreach, o, ho, hle, no_gap oneInstance _ _ (bystanders_noOthers _) hlog rfl hreach ho
    (by decide +kernel) hle⟩

end Bridge

end Blobster
