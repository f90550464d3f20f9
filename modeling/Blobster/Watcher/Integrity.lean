import Blobster.Watcher.Instances

/-!
# What arrives is what was sent

A copy is made of two reads of the source, of the attributes and of the bytes, and of one create-only
write.  So whatever payload is ever found in the local queue was written by an instance from what it
had read, and what it had read was there.

The two reads are two calls.  If the message is replaced between them, by a producer that uses its id
again, the copy has the attributes of the one and the bytes of the other.

* `Op.AddsNone` — the calls that write no payload; `Bridge.Origin` — where a copy comes from.
* **`Bridge.copied_faithfully`** — as long as the source does not change a message, every payload of
  the local queue is one of the source, with its bytes and its attributes.
* **`Bridge.copied_mixed`** — a run in which an id is used again between the two reads.
-/

set_option linter.unusedSectionVars false

namespace Blobster

open Interleave Contract

variable {B C : Type} [DecidableEq B] [DecidableEq C]

/-- The call writes nothing under the prefix. -/
def Op.AddsNone (b : B) (pref : String) : Op B → Prop
  | .write b' key _ _ _ => ¬ (b' = b ∧ ∃ x, key = pref ++ x)
  | _ => True

/-- What is there after such a call was there before. -/
lemma exec_addsNone {bk : B → Backend} {flt : Faults} {t : Thread C} {o : Op B} {ch : Choice}
    {w w' : World B C} {r : o.Res} {b : B} {pref x : String} (ho : o.AddsNone b pref)
    (h : exec bk flt t o ch w = some (r, w')) {obj : Object}
    (hobj : (w'.store b).get (pref ++ x) = some obj) : (w.store b).get (pref ++ x) = some obj := by
  by_contra hne
  have hdiff : (w'.store b).get (pref ++ x) ≠ (w.store b).get (pref ++ x) :=
    fun heq => hne (heq ▸ hobj)
  obtain ⟨body, md, pre, rfl, -, -⟩ | ⟨pre, rfl, hnone⟩ := exec_get h b (pref ++ x) hdiff
  · exact ho ⟨rfl, x, rfl⟩
  · exact absurd (hnone.symm.trans hobj) (by simp)

/-- `Page` only reads. -/
lemma Tail.within_page {P : Op B → Prop} {tl : Tail B} (hnow : P .now) (hpark : P .park)
    (hlist : ∀ token n pref, P (.listPage tl.queue.bucket token n pref)) (cursor : String)
    (pageSize : ℤ) (fuel : ℕ) : (tl.page cursor pageSize fuel).Within P := by
  refine .call hnow fun now => Prog.Within.loop (by exact ⟨hpark, fun r => r.elim⟩) ?_ fuel _
  rintro ⟨token, out, next⟩
  refine .call (hlist _ _ _) fun r => ?_
  split
  · trivial
  · split
    · trivial
    · split <;> trivial

namespace Bridge

variable (s : Bridge B C)

/-- The bytes and the attributes were those of the message in the source, each of them at some
moment. -/
structure Origin (v : BView B C) (x : String) (body : ByteArray) (md : Metadata) : Prop where
  body : ∃ w ∈ v.worlds, ∃ o, (w.store s.source.bucket).get (queueMsgPrefix ++ x) = some o ∧
    o.body = body
  metadata : ∃ w ∈ v.worlds, ∃ o, (w.store s.source.bucket).get (queueMsgPrefix ++ x) = some o ∧
    o.metadata = md

/-- The calls of those who put no payload into the local queue. -/
def leavesLocal : Op B → Prop := Op.AddsNone s.localQueue.bucket queueMsgPrefix

variable {s} {bk : B → Backend} {flt : Faults}
  {others : Thread C → Entry → World B C → Option (BProg B Unit × World B C)} {v v' : BView B C}
  {w : World B C} {t : Thread C} {x : String}

lemma Origin.mono {body : ByteArray} {md : Metadata} (hle : View.Le v v')
    (h : s.Origin v x body md) : s.Origin v' x body md := by
  obtain ⟨⟨w, hw, ho⟩, ⟨w', hw', ho'⟩⟩ := h
  exact ⟨⟨w, hle.worlds hw, ho⟩, ⟨w', hle.worlds hw', ho'⟩⟩

variable (s bk flt others) in
/-- Every payload of the local queue comes from the source. -/
def originContract : Contract (s.machine bk flt others) where
  adm := anyStep
  inv v := ∀ x o, (v.world.store s.localQueue.bucket).get (queueMsgPrefix ++ x) = some o →
    s.Origin v x o.body o.metadata
  guar _ _ _ := True
  idle _ _ := True

/-- Where nothing is added, nothing has to be accounted for. -/
lemma origin_push {e : BEvent B C} (hi : (s.originContract bk flt others).inv v)
    (h : ∀ x o, (w.store s.localQueue.bucket).get (queueMsgPrefix ++ x) = some o →
      (v.world.store s.localQueue.bucket).get (queueMsgPrefix ++ x) = some o) :
    (s.originContract bk flt others).inv (v.push e w) :=
  fun x o ho => (hi x o (h x o ho)).mono (v.le_push e w)

lemma origin_calls {o : Op B} (ho : s.leavesLocal o) {ch : Choice} {r : o.Res} {e : BEvent B C}
    (hi : (s.originContract bk flt others).inv v)
    (he : exec bk flt t o ch v.world = some (r, w)) :
    (s.originContract bk flt others).inv (v.push e w) :=
  origin_push hi fun _ _ hobj => exec_addsNone ho he hobj

/-- A program that puts no payload into the local queue. -/
lemma origin_within {α : Type} {p : BProg B α} (hp : p.Within s.leavesLocal) :
    (s.originContract bk flt others).Safe t (fun _ _ => True) p v :=
  safe_of_calls (fun _ ho _ _ _ _ hi he _ => ⟨trivial, origin_calls ho hi he⟩) hp

/-! ## The programs -/

/-- The enqueue of what was read from the source. -/
lemma origin_enqueueWithID {body : ByteArray} {md : Metadata} (h : s.Origin v x body md) :
    (s.originContract bk flt others).Safe t (fun _ _ => True)
      (s.localQueue.enqueueWithID x body md) v := by
  unfold Queue.enqueueWithID
  split
  · exact .ret fun _ _ _ => trivial
  refine safe_writeAll (fun v₁ hr₁ hi₁ r st hst _ _ => ⟨trivial, ?_, ?_⟩) fun v₁ hr₁ hi₁ e _ _ =>
    ⟨trivial, origin_push hi₁ fun _ _ h => h, ?_⟩
  · intro y o ho
    obtain rfl := Store.write_ok hst
    rw [View.push_world, World.setStore_store_self] at ho
    have hle := v₁.le_push (BEvent.called t (.write s.localQueue.bucket (queueMsgPrefix ++ x) body md
      [.ifNotExists]) r) (v₁.world.setStore s.localQueue.bucket
        ((v₁.world.store s.localQueue.bucket).put (bk s.localQueue.bucket) (queueMsgPrefix ++ x)
          body md))
    by_cases hkey : queueMsgPrefix ++ y = queueMsgPrefix ++ x
    · obtain rfl : y = x := (String.append_right_inj _).mp hkey
      rw [Store.get_put_self, Option.some.injEq] at ho
      subst ho
      exact h.mono (hr₁.le.trans hle)
    · rw [Store.get_put_ne _ _ _ _ _ hkey] at ho
      exact (hi₁ y o ho).mono hle
  · split <;> exact .ret fun _ _ _ => trivial
  · split <;> exact .ret fun _ _ _ => trivial

/-- **The copy of one message.** -/
lemma origin_replicate (x : String) :
    (s.originContract bk flt others).Safe t (fun _ _ => True) (s.replicate x) v := by
  have hdone : ∀ {v : BView B C} {r : Except Err Unit},
      (s.originContract bk flt others).Safe t (fun _ _ => True) (.ret r) v :=
    .ret fun _ _ _ => trivial
  refine safe_attributes fun v₁ hr₁ hi₁ r hr _ => ⟨trivial, origin_push hi₁ fun _ _ h => h, ?_⟩
  obtain ⟨o', ho', rfl⟩ | ⟨-, rfl⟩ | rfl := hr
  · refine safe_readAll fun v₂ hr₂ hi₂ r hr _ => ⟨trivial, origin_push hi₂ fun _ _ h => h, ?_⟩
    have hle₂ : View.Le v₁ v₂ := (v₁.le_push _ _).trans hr₂.le
    obtain ⟨o, ho, rfl⟩ | ⟨-, rfl⟩ | rfl := hr
    · have horigin : s.Origin (v₂.push (BEvent.called t (.read s.source.bucket (queueMsgPrefix ++ x))
          (.ok o.body)) v₂.world) x o.body o'.metadata := by
        refine ⟨⟨v₂.world, List.mem_cons_of_mem _ v₂.world_mem_worlds, o, ho, rfl⟩, ?_⟩
        exact ⟨v₁.world, List.mem_cons_of_mem _ (hle₂.worlds v₁.world_mem_worlds), o', ho', rfl⟩
      refine Safe.bind (origin_push hi₂ fun _ _ h => h) (origin_enqueueWithID horigin) ?_
      intro r v₃ _ _
      cases r with
      | error e => exact hdone
      | ok b => exact hdone
    · exact hdone
    · exact hdone
  · exact hdone
  · exact hdone

lemma origin_replicateAll (hi : (s.originContract bk flt others).inv v) (msgs : List String) :
    (s.originContract bk flt others).Safe t (fun _ _ => True) (s.replicateAll msgs) v := by
  induction msgs generalizing v with
  | nil => exact .ret fun _ _ _ => trivial
  | cons m msgs ih =>
      refine Safe.bind hi (origin_replicate m) fun r v₁ hi₁ _ => ?_
      cases r with
      | error e => exact .ret fun _ _ _ => trivial
      | ok _ => exact ih hi₁

lemma within_readCursor : s.readCursor.Within s.leavesLocal := by
  refine .call trivial fun r => ?_
  split
  · trivial
  · trivial
  · refine .call trivial fun r => ?_
    split <;> trivial

lemma within_writeCursor (cursor : String) (version : Version) :
    (s.writeCursor cursor version).Within s.leavesLocal := by
  have hcursor : ¬ (s.bucket = s.localQueue.bucket ∧ ∃ x, s.cursorPath = queueMsgPrefix ++ x) := by
    rintro ⟨-, x, hx⟩
    exact s.msg_ne_cursorPath x hx.symm
  refine .call hcursor fun r => ?_
  split
  · trivial
  · refine .call trivial fun r => ?_
    split <;> trivial

/-- **Everything else that an instance does** puts no payload into the local queue. -/
lemma steered_origin (hlock : ¬ (s.locker.bucket = s.localQueue.bucket ∧
      ∃ x, s.lockPath = queueMsgPrefix ++ x)) (t : Thread C) :
    s.Steered (s.originContract bk flt others) s.leavesLocal t (fun _ _ => True) (fun _ _ _ => True)
      (fun _ _ _ => True) where
  interf _ _ := trivial
  own _ _ := trivial
  lock := ⟨trivial, fun _ _ _ => hlock, fun _ => trivial, trivial, fun _ _ => trivial, fun _ => trivial,
    fun _ => trivial, trivial⟩
  calls o ho v ch r w hi he _ := ⟨trivial, origin_calls ho hi he⟩
  read v := (origin_within within_readCursor).mono fun _ _ _ _ _ _ => trivial
  page fuel _ _ := (origin_within (Tail.within_page trivial trivial (fun _ _ _ => trivial) _ _ _)).mono
    fun _ _ _ _ _ _ => trivial
  copy hi _ := by
    refine (origin_replicateAll hi _).mono ?_
    exact fun _ _ _ _ _ => trivial
  move _ _ _ := (origin_within (within_writeCursor _ _)).mono fun _ _ _ _ _ _ => trivial

/-- **What arrives is what was sent.**  Any number of instances of one watch run, pause, lose the lock
to each other and are started again, and calls may fail, with or without an effect; next to them
anyone works on the buckets who puts no payload into the local queue, which was empty at the start.  If
the message `x` of the source was the same whenever it was there, then a payload `x` in the local queue
has the bytes and the attributes of that message. -/
theorem copied_faithfully (s : Bridge B C) (bk : B → Backend) (flt : Faults)
    (ho : Bystanders s.leavesLocal others)
    (hlock : ¬ (s.locker.bucket = s.localQueue.bucket ∧ ∃ x, s.lockPath = queueMsgPrefix ++ x))
    {w₀ : World B C}
    (h₀ : ∀ x, (w₀.store s.localQueue.bucket).get (queueMsgPrefix ++ x) = none)
    {cfg : Config (bucketSig B) (World B C) (Thread C)}
    (hc : Reach (s.machine bk flt others) anyStep w₀ cfg) {x : String} {o : Object}
    (hlocal : (cfg.view.world.store s.localQueue.bucket).get (queueMsgPrefix ++ x) = some o)
    (hfixed : ∀ w ∈ cfg.view.worlds, ∀ w' ∈ cfg.view.worlds, ∀ m m',
      (w.store s.source.bucket).get (queueMsgPrefix ++ x) = some m →
      (w'.store s.source.bucket).get (queueMsgPrefix ++ x) = some m' → m = m') :
    ∃ w ∈ cfg.view.worlds, ∃ m, (w.store s.source.bucket).get (queueMsgPrefix ++ x) = some m ∧
      o.body = m.body ∧ o.metadata = m.metadata := by
  have hsound : (s.originContract bk flt others).Sound w₀ :=
    sound_of_steered ho (steered_origin hlock) (fun _ _ => trivial)
      (fun x o h => absurd ((h₀ x).symm.trans h) (by simp))
      (fun hi hstore => origin_push hi fun _ _ h => by rwa [hstore] at h) fun _ _ _ => trivial
  obtain ⟨⟨w, hw, m, hm, hbody⟩, ⟨w', hw', m', hm', hmd⟩⟩ := (hsound.reach hc).1 x o hlocal
  obtain rfl := hfixed w hw w' hw' m m' hm hm'
  exact ⟨w, hw, m, hm, hbody.symm, hmd.symm⟩

/-! ## Two runs -/

/-- The copy of the one message is a faithful one. -/
theorem copied_faithfully_one :
    ∃ cfg, Reach (oneInstance.machine (fun _ => memBackend) ⟨true, true⟩ noOthers) anyStep oneLogged
        cfg ∧
      ∃ o, (cfg.view.world.store true).get "msg/0000000000010-a" = some o ∧
        ∃ w ∈ cfg.view.worlds, ∃ m, (w.store false).get "msg/0000000000010-a" = some m ∧
          o.body = m.body ∧ o.metadata = m.metadata := by
  obtain ⟨cfg, hreach, htest⟩ := reach_of_run_any (w := oneLogged) (l := copyOne)
    (p := fun cfg => ((cfg.view.world.store true).get "msg/0000000000010-a").isSome &&
      cfg.view.worlds.all fun w => decide ((w.store false).get "msg/0000000000010-a" =
        (oneLogged.store false).get "msg/0000000000010-a")) (by decide +kernel)
  obtain ⟨hsome, hall⟩ := (Bool.and_eq_true _ _).mp htest
  obtain ⟨o, ho⟩ := Option.isSome_iff_exists.mp hsome
  have hsame := List.all_eq_true.mp hall
  have hfixed : ∀ w ∈ cfg.view.worlds, ∀ w' ∈ cfg.view.worlds, ∀ m m',
      (w.store false).get "msg/0000000000010-a" = some m →
      (w'.store false).get "msg/0000000000010-a" = some m' → m = m' := by
    intro w hw w' hw' m m' hm hm'
    rw [of_decide_eq_true (hsame w hw)] at hm
    rw [of_decide_eq_true (hsame w' hw')] at hm'
    exact Option.some.inj (hm.symm.trans hm')
  have hlock : ¬ (oneInstance.locker.bucket = oneInstance.localQueue.bucket ∧
      ∃ x, oneInstance.lockPath = queueMsgPrefix ++ x) := by
    rintro ⟨-, x, hx⟩
    have hhead := congrArg (fun s => s.toList.head?) hx
    simp [Watch.lockPath, oneInstance, queueMsgPrefix] at hhead
  exact ⟨cfg, hreach, o, ho, copied_faithfully (x := "0000000000010-a") oneInstance _ _
    (bystanders_noOthers _) hlock (fun _ => rfl) hreach ho hfixed⟩

/-- Someone who removes messages from the source and puts others there. -/
def reuser (_ : Thread Unit) (e : Entry) (w : World Bool Unit) :
    Option (BProg Bool Unit × World Bool Unit) :=
  match e with
  | .remove id => some (discard (delete false (queueMsgPrefix ++ id) []), w)
  | .enqueueWithID id body attrs => some (discard (oneInstance.source.enqueueWithID id body attrs), w)
  | _ => none

/-- The message is replaced when the instance has read its attributes and not yet its bytes. -/
def replaceBetween : List (Action (oneInstance.machine (fun _ => memBackend) ⟨true, true⟩ reuser)) :=
  readOne [.start ((), .renewer) (.remove "0000000000010-a"), .call ((), .renewer) .ok,
    .start ((), .renewer) (.enqueueWithID "0000000000010-a" "new".toUTF8 [("kind", .text "new")]),
    .call ((), .renewer) .ok,
    .call ((), .main) .ok, .call ((), .main) .ok]

/-- **A copy that was never sent.**  It has the attributes of the message that was there first and the
bytes of the one that replaced it. -/
theorem copied_mixed :
    ∃ cfg, Reach (oneInstance.machine (fun _ => memBackend) ⟨true, true⟩ reuser) anyStep oneLogged
        cfg ∧
      ∃ o, (cfg.view.world.store true).get "msg/0000000000010-a" = some o ∧
        ∀ w ∈ cfg.view.worlds, ∀ m, (w.store false).get "msg/0000000000010-a" = some m →
          ¬ (o.body = m.body ∧ o.metadata = m.metadata) := by
  obtain ⟨cfg, hreach, htest⟩ := reach_of_run_any (w := oneLogged) (l := replaceBetween)
    (p := fun cfg => ((cfg.view.world.store true).get "msg/0000000000010-a").any fun o : Object =>
      cfg.view.worlds.all fun w => ((w.store false).get "msg/0000000000010-a").all fun m : Object =>
        !decide (o.body = m.body ∧ o.metadata = m.metadata)) (by decide +kernel)
  obtain ⟨o, ho, hall⟩ := (Option.any_eq_true _ _).mp htest
  refine ⟨cfg, hreach, o, ho, fun w hw m hm hsame => ?_⟩
  have hnot := (Option.all_eq_true _ _).mp (List.all_eq_true.mp hall w hw) m hm
  simp [hsame] at hnot

end Bridge

end Blobster
