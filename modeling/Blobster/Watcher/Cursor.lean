import Blobster.Queue.Tail
import Blobster.Watcher.Instances

/-!
# The cursor moves forward

The cursor is guarded by a compare-and-swap, so that an instance that was paused cannot take it back.
What the guard compares is a version, and the version of what an instance has written is not returned
by the write: it is read back by a second call.  If another instance has moved the cursor between the
two, the version that comes back is the other's, and the guard is gone: the next swap goes through,
from wherever the instance believes the cursor to be.

* `Bridge.ReadsBack` — the condition that excludes this: a read-back finds the cursor that was
  written.
* `Bridge.Guarded` — what an instance then knows: as long as the version it compares with is the
  stored one, the stored cursor is not ahead of its own.
* **`Bridge.cursor_forward`** — so the durable cursor never moves backward, and is never removed.
* **`Bridge.cursor_rewound`** — a run in which an instance takes the cursor back.
-/

set_option linter.unusedSectionVars false

namespace Blobster

open Interleave Contract

variable {B C : Type} [DecidableEq B] [DecidableEq C]

/-- **A page resumes at its cursor or behind it.** -/
lemma Tail.le_objects (tl : Tail B) {now : ℤ} {cursor : String} {pageSize : ℕ} {keys : List String}
    {acc acc' : List String × String} (hacc : cursor ≤ acc.2)
    (h : tl.objects now cursor pageSize keys acc = .inl acc' ∨
      tl.objects now cursor pageSize keys acc = .inr acc') : cursor ≤ acc'.2 := by
  induction keys generalizing acc with
  | nil =>
      rcases h with h | h
      · cases h
        exact hacc
      · cases h
  | cons key keys ih =>
      obtain ⟨-, heq⟩ | ⟨x, hids, heq⟩ := tl.objects_cons now cursor pageSize key keys
      · rw [heq] at h
        exact ih hacc h
      · have hx : x ∈ idsAbove cursor [key] := hids ▸ List.mem_singleton_self x
        have hlt : cursor < x := (mem_idsAbove.mp hx).2
        obtain ⟨out, next⟩ := acc
        rw [heq] at h
        split_ifs at h
        · obtain h | h := h
          · cases h
          · cases h
            exact hacc
        · obtain h | h := h
          · cases h
          · cases h
            exact hlt.le
        · exact ih hlt.le h

namespace Bridge

variable (s : Bridge B C)

/-- The object that holds the cursor. -/
def cursorAt (w : World B C) : Option Object := (w.store s.bucket).get s.cursorPath

/-- The cursor is still there, and not behind. -/
def Advances (w w' : World B C) : Prop :=
  ∀ o, s.cursorAt w = some o → ∃ o', s.cursorAt w' = some o' ∧ cursorText o.body ≤ cursorText o'.body

/-- The call that reads the version back after a write of the cursor finds what was written. -/
def ReadsBack (v : BView B C) (e : BEvent B C) : Prop :=
  ∀ t attrs body md pre, e = BEvent.called t (.attributes s.bucket s.cursorPath) (.ok attrs) →
    v.lastOf t = some (BEvent.called t (.write s.bucket s.cursorPath body md pre) (.ok ())) →
    ∀ o, s.cursorAt v.world = some o → o.body = body

/-- The version guards the cursor of an instance. -/
def Guarded (bk : B → Backend) (c : String × Version) (w : World B C) : Prop :=
  c.2 ≠ "" → (w.store s.bucket).Issued (bk s.bucket) c.2 ∧
    ∀ o, s.cursorAt w = some o → o.version = c.2 → cursorText o.body ≤ c.1

variable {s} {bk : B → Backend} {flt : Faults}
  {others : Thread C → Entry → World B C → Option (BProg B Unit × World B C)} {v v' : BView B C}
  {w w' : World B C} {t : Thread C} {c : String × Version}

lemma Advances.refl (w : World B C) : s.Advances w w := fun o ho => ⟨o, ho, le_rfl⟩

lemma Advances.trans {w'' : World B C} (h : s.Advances w w') (h' : s.Advances w' w'') :
    s.Advances w w'' := by
  intro o ho
  obtain ⟨o', ho', hle⟩ := h o ho
  obtain ⟨o'', ho'', hle'⟩ := h' o' ho'
  exact ⟨o'', ho'', hle.trans hle'⟩

lemma advances_of_eq (h : s.cursorAt w' = s.cursorAt w) : s.Advances w w' :=
  fun o ho => ⟨o, h.trans ho, le_rfl⟩

/-- **A version that has been issued guards for ever**: no later commit gets it. -/
lemma Guarded.follows (hb : (bk s.bucket).Fresh)
    (hs : (w.store s.bucket).Follows (w'.store s.bucket))
    (hok : (w'.store s.bucket).Ok (bk s.bucket)) (h : s.Guarded bk c w) : s.Guarded bk c w' := by
  intro hne
  obtain ⟨hissued, hle⟩ := h hne
  refine ⟨hissued.follows hs, fun o ho hver => ?_⟩
  exact hle o (hok.get_of_issued hb hs hissued ho hver) hver

/-- An issued version guards a cursor that is not behind what is stored. -/
lemma guarded_of_stored {o : Object} (hissued : (w.store s.bucket).Issued (bk s.bucket) c.2)
    (ho : s.cursorAt w = some o) (hle : cursorText o.body ≤ c.1) : s.Guarded bk c w := by
  refine fun _ => ⟨hissued, fun o' ho' _ => ?_⟩
  obtain rfl := Option.some.inj (ho.symm.trans ho')
  exact hle

/-- **A swap goes through only over a cursor that is not ahead.** -/
lemma Guarded.le_of_write {body : ByteArray} {md : Metadata} {st : Store} {o : Object}
    (h : s.Guarded bk c w) (hst : (w.store s.bucket).write (bk s.bucket) s.cursorPath body md
      [Watch.cursorCondition c.2] = .ok st) (ho : s.cursorAt w = some o) :
    cursorText o.body ≤ c.1 := by
  unfold Watch.cursorCondition at hst
  split_ifs at hst with hver
  · obtain ⟨o', ho', hver', -⟩ := Store.write_ifMatch_ok hver hst
    obtain rfl := Option.some.inj (ho.symm.trans ho')
    exact (h hver).2 o ho hver'
  · have hnone := (Store.write_ifNotExists_ok hst).1
    exact absurd (hnone.symm.trans ho) (by simp)

/-! ## The contract -/

variable (s bk flt others) in
/-- The cursor has only moved forward. -/
def forwardContract : Contract (s.machine bk flt others) where
  adm := s.ReadsBack
  inv v := (v.world.store s.bucket).Ok (bk s.bucket) ∧ v.worlds.Pairwise fun w' w => s.Advances w w'
  guar _ v v' := (v.world.store s.bucket).Follows (v'.world.store s.bucket) ∧
    (v'.world.store s.bucket).Ok (bk s.bucket)
  idle _ _ := True

lemma forward_push {e : BEvent B C} (hi : (s.forwardContract bk flt others).inv v)
    (hok : (w.store s.bucket).Ok (bk s.bucket)) (hadv : s.Advances v.world w) :
    (s.forwardContract bk flt others).inv (v.push e w) := by
  refine ⟨hok, List.pairwise_cons.mpr ⟨fun w' hw' => ?_, hi.2⟩⟩
  rcases List.mem_cons.mp hw' with rfl | hw'
  · exact hadv
  · exact ((List.pairwise_cons.mp hi.2).1 w' hw').trans hadv

/-- A step that leaves the buckets as they are. -/
lemma forward_still {e : BEvent B C} (hi : (s.forwardContract bk flt others).inv v)
    (hstore : w.store = v.world.store) : (s.forwardContract bk flt others).inv (v.push e w) :=
  forward_push hi (hstore ▸ hi.1) (advances_of_eq (by simp only [cursorAt, hstore]))

lemma forward_quiet {e : BEvent B C} (hi : (s.forwardContract bk flt others).inv v)
    (hstore : w.store = v.world.store) :
    (s.forwardContract bk flt others).guar t v (v.push e w) ∧
      (s.forwardContract bk flt others).inv (v.push e w) := by
  refine ⟨⟨?_, (forward_still (e := e) hi hstore).1⟩, forward_still hi hstore⟩
  rw [View.push_world, hstore]
  exact .refl _

/-- A call that only reads. -/
lemma forward_read {α : Type} {Q : α → BView B C → Prop} {p : BProg B α} {e : BEvent B C}
    (hi : (s.forwardContract bk flt others).inv v)
    (hp : (s.forwardContract bk flt others).Safe t Q p (v.push e v.world)) :
    (s.forwardContract bk flt others).guar t v (v.push e v.world) ∧
      (s.forwardContract bk flt others).inv (v.push e v.world) ∧
      (s.forwardContract bk flt others).Safe t Q p (v.push e v.world) :=
  ⟨(forward_quiet hi rfl).1, (forward_quiet (t := t) hi rfl).2, hp⟩

/-- A call that leaves the cursor alone. -/
lemma forward_spares {o : Op B} (ho : o.Spares s.bucket s.cursorPath) {ch : Choice} {r : o.Res}
    (hi : (s.forwardContract bk flt others).inv v)
    (he : exec bk flt t o ch v.world = some (r, w)) {e : BEvent B C} :
    (s.forwardContract bk flt others).guar t v (v.push e w) ∧
      (s.forwardContract bk flt others).inv (v.push e w) := by
  have hok : (w.store s.bucket).Ok (bk s.bucket) := exec_ok he hi.1
  exact ⟨⟨exec_follows he s.bucket, hok⟩, forward_push hi hok (advances_of_eq (exec_spares ho he))⟩

lemma guarded_interf (hb : (bk s.bucket).Fresh)
    (hs : (s.forwardContract bk flt others).Interf t v v') (h : s.Guarded bk c v.world) :
    s.Guarded bk c v'.world := by
  obtain ⟨-, hi, ⟨n, w, ⟨⟩, -, rfl⟩ | ⟨u, -, -, hg⟩⟩ := hs
  · exact h.follows hb (.refl _) hi.1
  · exact h.follows hb hg.1 hg.2

lemma rely_follows (hr : (s.forwardContract bk flt others).Rely t v v') :
    (v.world.store s.bucket).Follows (v'.world.store s.bucket) := by
  refine hr.of_step (R := fun v v' => (v.world.store s.bucket).Follows (v'.world.store s.bucket))
    (fun _ => .refl _) Store.Follows.trans ?_
  rintro v v' ⟨-, -, ⟨n, w, ⟨⟩, -, rfl⟩ | ⟨u, -, -, hg⟩⟩
  · exact .refl _
  · exact hg.1

/-! ## The programs -/

/-- The cursor in hand is guarded, if there is one. -/
def InHand (s : Bridge B C) (bk : B → Backend) (r : Except Err (String × Version)) (v : BView B C) :
    Prop :=
  ∀ c, r = .ok c → s.Guarded bk c v.world

lemma inHand_error (e : Err) : s.InHand bk (.error e) v := fun c hc => by cases hc

lemma safe_inHand (hb : (bk s.bucket).Fresh) {r : Except Err (String × Version)}
    (h : s.InHand bk r v) : (s.forwardContract bk flt others).Safe t (s.InHand bk) (.ret r) v :=
  .ret fun _ hr _ c hc => hr.stable (guarded_interf hb) (h c hc)

/-- **What is read is guarded.**  The cursor may move between the two calls; the version is then one
that nothing stored will ever have again. -/
lemma forward_readCursor (hb : (bk s.bucket).Fresh) :
    (s.forwardContract bk flt others).Safe t (s.InHand bk) s.readCursor v := by
  refine safe_attributes fun v₁ hr₁ hi₁ r hr _ => forward_read hi₁ ?_
  obtain ⟨o, ho, rfl⟩ | ⟨-, rfl⟩ | rfl := hr
  · refine safe_readAll fun v₂ hr₂ hi₂ r hr _ => forward_read hi₂ ?_
    obtain ⟨o', ho', rfl⟩ | ⟨-, rfl⟩ | rfl := hr
    · refine safe_inHand hb fun c hc => ?_
      cases hc
      have hissued := (hi₁.1.issued ho).follows (rely_follows (v := v₁.push _ _) hr₂)
      exact guarded_of_stored hissued ho' le_rfl
    · exact safe_inHand hb (inHand_error _)
    · exact safe_inHand hb (inHand_error _)
  · refine safe_inHand hb fun c hc => ?_
    cases hc
    exact fun hne => absurd rfl hne
  · exact safe_inHand hb (inHand_error _)

/-- A page resumes at the cursor or behind it, whatever is listed. -/
lemma forward_page (cursor : String) (pageSize : ℤ) (fuel : ℕ) :
    (s.forwardContract bk flt others).Safe t (fun r _ => ∀ page, r = .ok page → cursor ≤ page.2)
      (s.tail.page cursor pageSize fuel) v := by
  refine safe_now fun v₁ hr₁ hi₁ _ => forward_read hi₁ ?_
  refine Safe.loop (I := fun acc _ => cursor ≤ acc.2.2) (fun v => safe_park) ?_
    (fun _ _ _ h => .ret fun _ _ _ => h) fuel _ _ (forward_still hi₁ rfl) le_rfl
  rintro ⟨token, out, next⟩ v _ hle
  refine safe_listPage fun v₂ hr₂ hi₂ r hr _ => forward_read hi₂ ?_
  obtain ⟨keys, nextToken, -, rfl⟩ | rfl := hr
  · dsimp only
    split
    · rename_i page heq
      refine .ret fun _ _ _ page' hpage => ?_
      cases hpage
      exact s.tail.le_objects hle (.inr heq)
    · rename_i out' next' heq
      have hle' := s.tail.le_objects hle (.inl heq)
      split
      · refine .ret fun _ _ _ page' hpage => ?_
        cases hpage
        exact hle'
      · exact .ret fun _ _ _ => hle'
  · refine .ret fun _ _ _ page hpage => ?_
    cases hpage

/-- **The cursor is written over one that is not ahead of it**, and guarded by what is read back. -/
lemma forward_writeCursor (hb : (bk s.bucket).Fresh) {next : String} (hle : c.1 ≤ next)
    (hc : s.Guarded bk c v.world) :
    (s.forwardContract bk flt others).Safe t
      (fun r v => ∀ ver, r = .ok ver → s.Guarded bk (next, ver) v.world)
      (s.writeCursor next c.2) v := by
  have herror : ∀ {v : BView B C} (e : Err), (s.forwardContract bk flt others).Safe t
      (fun r v => ∀ ver, r = .ok ver → s.Guarded bk (next, ver) v.world)
      (.ret (.error e : Except Err Version)) v := fun e => .ret fun _ _ _ ver h => by cases h
  refine safe_writeAll (fun v₁ hr₁ hi₁ r st hst _ _ => ?_) fun v₁ hr₁ hi₁ e _ _ => ?_
  · have hc₁ := hr₁.stable (guarded_interf hb) hc
    have hadv : s.Advances v₁.world (v₁.world.setStore s.bucket st) := by
      intro o ho
      have hold := hc₁.le_of_write hst ho
      obtain rfl := Store.write_ok hst
      refine ⟨_, by rw [cursorAt, World.setStore_store_self, Store.get_put_self], ?_⟩
      rw [cursorText_toUTF8]
      exact hold.trans hle
    have hok : ((v₁.world.setStore s.bucket st).store s.bucket).Ok (bk s.bucket) := by
      rw [World.setStore_store_self, Store.write_ok hst]
      exact Store.Ok.put hi₁.1
    have hfollows : (v₁.world.store s.bucket).Follows
        ((v₁.world.setStore s.bucket st).store s.bucket) := by
      rw [World.setStore_store_self, Store.write_ok hst]
      exact .put
    refine ⟨⟨hfollows, hok⟩, forward_push hi₁ hok hadv, ?_⟩
    cases r with
    | error e => exact herror _
    | ok _ =>
        refine safe_attributes fun v₂ hr₂ hi₂ r hr hback => forward_read hi₂ ?_
        obtain ⟨o, ho, rfl⟩ | ⟨-, rfl⟩ | rfl := hr
        · have hlast := hr₂.lastOf.trans (View.lastOf_push_self rfl)
          have hbody : o.body = next.toUTF8 := hback t _ _ _ _ rfl hlast o ho
          refine .ret fun _ hr _ ver hver => hr.stable (guarded_interf hb) ?_
          cases hver
          refine guarded_of_stored (hi₂.1.issued ho) ho ?_
          rw [hbody, cursorText_toUTF8]
        · exact herror _
        · exact herror _
  · exact forward_read hi₁ (herror _)

/-- **Every round goes on with a guarded cursor.** -/
lemma steered_forward (hb : (bk s.bucket).Fresh) (t : Thread C) :
    s.Steered (s.forwardContract bk flt others) (Op.Spares s.bucket s.cursorPath) t
      (fun c v => s.Guarded bk c v.world) (fun c page _ => c.1 ≤ page.2)
      (fun c page _ => c.1 ≤ page.2) where
  interf := guarded_interf hb
  own hs hc := hc.follows hb hs.2.1 hs.2.2
  lock := s.lockCalls_spares
  calls o ho v ch r w hi he _ := forward_spares ho hi he
  read v := forward_readCursor hb
  page {c v} fuel _ _ := forward_page c.1 watchPageSize fuel
  copy {c page v} _ hle := by
    have hcopies : (s.forwardContract bk flt others).Safe t (fun _ _ => True)
        (s.replicateAll page.1) v :=
      safe_of_calls (fun o ho v ch r w hi he _ => forward_spares ho hi he)
        (s.within_replicateAll page.1)
    refine hcopies.mono ?_
    exact fun _ _ _ _ _ => hle
  move _ hc hle := forward_writeCursor hb hle hc

/-- **The durable cursor never moves backward.**  Any number of instances of one watch run, pause, lose
the lock to each other and are started again, next to anyone who leaves the cursor alone; calls may
fail, with or without an effect.  If every call that reads the version of a just written cursor back
finds that cursor, then of any two moments of the run the later one has the cursor at or behind that of
the earlier one: it is not removed, and it is not taken back. -/
theorem cursor_forward (s : Bridge B C) (bk : B → Backend) (flt : Faults)
    (hb : (bk s.bucket).Fresh) (ho : Bystanders (Op.Spares s.bucket s.cursorPath) others)
    {w₀ : World B C} (h₀ : (w₀.store s.bucket).Ok (bk s.bucket))
    {cfg : Config (bucketSig B) (World B C) (Thread C)}
    (hc : Reach (s.machine bk flt others) s.ReadsBack w₀ cfg) :
    cfg.view.worlds.Pairwise fun later earlier => s.Advances earlier later := by
  have hsound : (s.forwardContract bk flt others).Sound w₀ :=
    sound_of_steered ho (steered_forward hb) (fun _ _ => trivial)
      ⟨h₀, List.pairwise_singleton _ _⟩ forward_still fun hi hstore _ => (forward_quiet hi hstore).1
  exact (hsound.reach hc).1.2

/-! ## Two runs -/

/-- Where the thread wrote before, the cursor is what it wrote. -/
def readsBack (s : Bridge B C) (v : BView B C) : BEvent B C → Bool
  | .call t (.attributes _ _) _ =>
      match v.lastOf t with
      | some (.call _ (.write _ key body _ _) (.ok _)) =>
          decide (key ≠ s.cursorPath) ||
            (s.cursorAt v.world).all fun o => @decide (o.body = body) (decidableEqByteArray _ _)
      | _ => true
  | _ => true

lemma readsBack_of_test (s : Bridge B C) (v : BView B C) (e : BEvent B C)
    (h : readsBack s v e = true) : s.ReadsBack v e := by
  rintro t attrs body md pre rfl hlast o ho
  simpa [readsBack, BEvent.called, hlast, ho] using h

/-- Two instances that copy from the one bucket to the other. -/
def twoInstances : Bridge Bool Bool where
  toWatch := oneInstance.toWatch
  owners c _ := if c then "b" else "a"
  valid := validWatchName_default

/-- Three messages, of which the first is old enough to be seen. -/
def threeLogged : World Bool Bool where
  clock := 15000000
  store b := if b then {} else ((({} : Store).put memBackend "msg/0000000000010-a" .empty []).put
    memBackend "msg/0000000000020-b" .empty []).put memBackend "msg/0000000000030-c" .empty []
  mem _ := {}

/-- A consumer of the source, which removes what it is done with. -/
def consumer (_ : Thread Bool) (e : Entry) (w : World Bool Bool) :
    Option (BProg Bool Unit × World Bool Bool) :=
  match e with
  | .remove id => some (discard (delete false (queueMsgPrefix ++ id) []), w)
  | _ => none

lemma bystanders_consumer :
    Bystanders (Op.Spares twoInstances.bucket twoInstances.cursorPath) consumer where
  quiet t e w p w' h := by
    unfold consumer at h
    split at h
    · obtain ⟨-, rfl⟩ := Prod.mk.inj (Option.some.inj h)
      exact ⟨rfl, rfl⟩
    · cases h
  within t e w p w' h := by
    unfold consumer at h
    split at h
    · obtain ⟨rfl, -⟩ := Prod.mk.inj (Option.some.inj h)
      exact Prog.Within.discard (by exact ⟨fun h => Bool.false_ne_true h.1, fun _ => trivial⟩)
    · cases h

/-- The machine of these runs. -/
def twoInstancesMachine : Machine (bucketSig Bool) (World Bool Bool) (Thread Bool) :=
  twoInstances.machine (fun _ => memBackend) ⟨true, true⟩ consumer

/-- The first instance moves the cursor to the first message. -/
def firstMoves (rest : List (Action twoInstancesMachine)) : List (Action twoInstancesMachine) :=
  .start (false, .main) (.runAsHolder 2) :: .call (false, .main) .ok :: .call (false, .main) .ok ::
  .call (false, .main) .ok :: .call (false, .main) .ok :: .call (false, .main) .ok ::
  .call (false, .main) .ok :: .call (false, .main) (.branch false) ::
  .call (false, .main) (.branch false) :: .call (false, .main) .ok ::
  .call (false, .main)
    (.page ["msg/0000000000010-a", "msg/0000000000020-b", "msg/0000000000030-c"] .done) ::
  .call (false, .main) .ok :: .call (false, .main) .ok :: .call (false, .main) .ok ::
  .call (false, .main) .ok :: rest

/-- When the lease is over, the second instance goes on to the last message. -/
def secondMoves (rest : List (Action twoInstancesMachine)) : List (Action twoInstancesMachine) :=
  .env (16000000000 : ℕ) :: .start (true, .main) (.runAsHolder 2) :: .call (true, .main) .ok ::
  .call (true, .main) .ok :: .call (true, .main) .ok :: .call (true, .main) .ok ::
  .call (true, .main) .ok :: .call (true, .main) .ok :: .call (true, .main) .ok ::
  .call (true, .main) (.branch false) :: .call (true, .main) (.branch false) ::
  .call (true, .main) .ok ::
  .call (true, .main)
    (.page ["msg/0000000000010-a", "msg/0000000000020-b", "msg/0000000000030-c"] .done) ::
  .call (true, .main) .ok :: .call (true, .main) .ok :: .call (true, .main) .ok ::
  .call (true, .main) .ok :: .call (true, .main) .ok :: .call (true, .main) .ok ::
  .call (true, .main) .ok :: .call (true, .main) .ok :: rest

/-- The first instance is paused when it has read the version of its cursor back. -/
def passOn : List (Action twoInstancesMachine) :=
  firstMoves (.call (false, .main) .ok :: secondMoves [])

/-- The cursor of the world. -/
def cursorIn (w : World Bool Bool) : Option String :=
  (twoInstances.cursorAt w).map fun o => cursorText o.body

/-- The cursor was at the first message and is now at the last. -/
theorem cursor_forward_passed_on :
    ∃ cfg, Reach twoInstancesMachine twoInstances.ReadsBack threeLogged cfg ∧
      (cfg.view.worlds.map cursorIn).dedup =
        [some "0000000000030-c", some "0000000000010-a", none] ∧
      cfg.view.worlds.Pairwise fun later earlier => twoInstances.Advances earlier later := by
  obtain ⟨cfg, hreach, htest⟩ := reach_of_run_adm (w := threeLogged) (l := passOn)
    (readsBack_of_test twoInstances) (p := fun cfg => decide ((cfg.view.worlds.map cursorIn).dedup =
      [some "0000000000030-c", some "0000000000010-a", none])) (by decide +kernel)
  have h₀ : (threeLogged.store true).Ok memBackend := Store.Ok.empty _
  exact ⟨cfg, hreach, of_decide_eq_true htest, cursor_forward twoInstances _ _ memBackend_fresh
    bystanders_consumer h₀ hreach⟩

/-- The first instance is paused before it has read the version of its cursor back; the second one goes
on, and the last message leaves the source; then the first one wakes up. -/
def takeBack : List (Action twoInstancesMachine) :=
  firstMoves (secondMoves
    [.start (true, .renewer) (.remove "0000000000030-c"), .call (true, .renewer) .ok,
      .call (false, .main) .ok, .call (false, .main) (.branch false),
      .call (false, .main) (.branch false), .call (false, .main) .ok,
      .call (false, .main) (.page ["msg/0000000000010-a", "msg/0000000000020-b"] .done),
      .call (false, .main) .ok, .call (false, .main) .ok, .call (false, .main) .ok,
      .call (false, .main) .ok])

/-- **A cursor that is taken back.**  The version that the first instance reads back is the second
one's, and so its next swap goes through. -/
theorem cursor_rewound :
    ∃ cfg, Reach twoInstancesMachine anyStep threeLogged cfg ∧
      (cfg.view.worlds.map cursorIn).dedup =
        [some "0000000000020-b", some "0000000000030-c", some "0000000000010-a", none] := by
  obtain ⟨cfg, hreach, htest⟩ := reach_of_run_any (w := threeLogged) (l := takeBack)
    (p := fun cfg => decide ((cfg.view.worlds.map cursorIn).dedup =
      [some "0000000000020-b", some "0000000000030-c", some "0000000000010-a", none]))
    (by decide +kernel)
  exact ⟨cfg, hreach, of_decide_eq_true htest⟩

end Bridge

end Blobster
