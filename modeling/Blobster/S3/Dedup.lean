import Blobster.Bucket.Mem
import Blobster.S3.Service
import Blobster.Watcher.Model

/-!
# The verdict of `EnqueueWithID` on S3

`EnqueueWithID` (`queue.go`) writes the payload create-only and takes "precondition failed" to mean that
the payload exists.  On S3 the answer passes three layers: the service answers the `PutObject`, the s3
driver maps its error, the queue reads the mapped error.  The mapping has one error for 412, which S3
sends when the object exists, and for 409, which it sends when another operation on the key is under way.

* `Request`, `driver`, `serve` — the layers: `driver` carries out the steps of a queue by requests, and
  `serve` is S3.  `serve_created` — but for the 409 and for requests that are turned away, S3 behind the
  driver is the bucket that the queue is written for.
* `Watcher.replicate` — the copy of a message that trusts the verdict.
* `Dedup.Verdicts` — what a producer and a watcher conclude; `Dedup.Settled` — the condition on S3.
* **`Dedup.verdict_sound`** — under it the verdict is right in every run; **`Dedup.false_verdict`** — a
  delete that meets the request makes it wrong: both calls succeed and the message is nowhere.
-/

set_option linter.unusedSectionVars false

namespace Blobster

open Interleave Contract S3

namespace Dedup

/-! ## The driver and the service -/

/-- The requests of the s3 driver: a `PutObject`, or a step that is not taken apart here. -/
inductive Request (B : Type) where
  | putObject (b : B) (key : String) (body : ByteArray) (metadata : Metadata)
      (conditions : PutConditions)
  | step (o : Op B)

/-- What each request answers. -/
def Request.Res {B : Type} : Request B → Type
  | .putObject _ _ _ _ _ => Except ServiceError Unit
  | .step o => o.Res

/-- The signature of the driver's requests. -/
def requestSig (B : Type) : Sig := ⟨Request B, Request.Res, Entry⟩

/-- A program of requests. -/
abbrev RProg (B : Type) (α : Type) := Prog (requestSig B) α

/-- The shared state with its history. -/
abbrev RView (B C : Type) := View (requestSig B) (World B C) (Thread C)

/-- A step of a run. -/
abbrev REvent (B C : Type) := Event (requestSig B) (Thread C)

/-- The `PutObject` of the thread `t`, answered by `r`. -/
abbrev REvent.put {B C : Type} (t : Thread C) (b : B) (key : String) (body : ByteArray)
    (md : Metadata) (conditions : PutConditions) (r : Except ServiceError Unit) : REvent B C :=
  Event.call (S := requestSig B) t (.putObject b key body md conditions) r

/-- The step `o` of the thread `t`, answered by `r`. -/
abbrev REvent.called {B C : Type} (t : Thread C) (o : Op B) (r : o.Res) : REvent B C :=
  Event.call (S := requestSig B) t (.step o) r

/-- The driver: a write is a `PutObject`, and its error goes through `mapError`. -/
def driver {B : Type} : (o : Op B) → RProg B o.Res
  | .write b key body md pre =>
      match compilePreconditions pre with
      | .error e => .ret (.error e)
      | .ok p => .call (S := requestSig B) (.putObject b key body md (applyWriteConditions p))
          fun r => .ret (r.mapError mapError)
  | o => Prog.perform (S := requestSig B) (.step o)

/-- A program of the queue, carried out by the driver. -/
def onS3 {B α : Type} (p : BProg B α) : RProg B α := Prog.handle (S := bucketSig B) driver p

lemma onS3_bind {B α β : Type} (p : BProg B α) (f : α → BProg B β) :
    onS3 (p >>= f) = onS3 p >>= fun a => onS3 (f a) :=
  Prog.handle_bind _ _ _

/-- The headers of a create-only request. -/
def createOnly : PutConditions := { ifNoneMatch := some "*" }

/-- How S3 treats a request: it serves it, answers a conditional one with 409, or turns it away. -/
inductive Treatment where
  | served
  | conflict
  | slowDown
  | step (ch : Choice)

variable {B C : Type} [DecidableEq B] [DecidableEq C]

/-- A `PutObject`.  A request that is not served changes nothing. -/
def servePut (bk : B → Backend) (w : World B C) (b : B) (key : String) (body : ByteArray)
    (md : Metadata) (c : PutConditions) : Treatment → Option (Except ServiceError Unit × World B C)
  | .served =>
      if c.hold (((w.store b).get key).map Object.version) then
        some (.ok (), w.setStore b ((w.store b).put (bk b) key body md))
      else some (.error preconditionFailed, w)
  | .conflict => if c.isSet then some (.error conditionalRequestConflict, w) else none
  | .slowDown => some (.error slowDown, w)
  | .step _ => none

/-- S3. -/
def serve (bk : B → Backend) (flt : Faults) (t : Thread C) :
    (o : Request B) → Treatment → World B C → Option (o.Res × World B C)
  | .putObject b key body md c, ch, w => servePut bk w b key body md c ch
  | .step o, .step ch, w => exec bk flt t o ch w
  | .step _, _, _ => none

variable {bk : B → Backend} {flt : Faults} {t : Thread C} {b : B} {key : String}
  {body : ByteArray} {md : Metadata} {w w' : World B C}

/-- Every other step is the bucket's. -/
lemma serve_step {o : Op B} {r : o.Res} {ch : Treatment}
    (h : serve bk flt t (.step o) ch w = some (r, w')) : ∃ ch, exec bk flt t o ch w = some (r, w') := by
  cases ch with
  | step ch => exact ⟨ch, h⟩
  | _ => cases h

/-- A create-only request succeeds exactly where nothing is stored. -/
lemma hold_createOnly (current : Option Version) : createOnly.hold current = current.isNone :=
  hold_applyWriteConditions (p := { ifNotExists := true }) (by decide) (by decide) current

/-- **A create-only request that S3 serves is the create-only write of the bucket.** -/
lemma servePut_created (bk : B → Backend) (flt : Faults) (t : Thread C) (b : B) (key : String)
    (body : ByteArray) (md : Metadata) (w : World B C) :
    ∃ r w', servePut bk w b key body md createOnly .served = some (r, w') ∧
      exec bk flt t (.write b key body md [.ifNotExists]) .ok w = some (r.mapError mapError, w') := by
  cases hg : (w.store b).get key with
  | none =>
      refine ⟨.ok (), w.setStore b ((w.store b).put (bk b) key body md), ?_, ?_⟩
      · rw [servePut, hold_createOnly, hg]
        rfl
      · simp only [exec, Store.write, compilePreconditions_ifNotExists, hg]
        rfl
  | some o =>
      refine ⟨.error preconditionFailed, w, ?_, ?_⟩
      · rw [servePut, hold_createOnly, hg]
        rfl
      · simp only [exec, Store.write, compilePreconditions_ifNotExists, hg]
        rfl

/-- What S3 can make of a create-only request. -/
lemma servePut_cases {ch : Treatment} {r : Except ServiceError Unit}
    (h : servePut bk w b key body md createOnly ch = some (r, w')) :
    (r = .ok () ∧ w' = w.setStore b ((w.store b).put (bk b) key body md)) ∨
      (w' = w ∧ ((r = .error preconditionFailed ∧ (w.store b).get key ≠ none) ∨
        r = .error conditionalRequestConflict ∨ r = .error slowDown)) := by
  cases ch with
  | served =>
      rw [servePut, hold_createOnly] at h
      cases hg : (w.store b).get key with
      | none =>
          rw [hg] at h
          cases h
          exact .inl ⟨rfl, rfl⟩
      | some o =>
          rw [hg] at h
          cases h
          exact .inr ⟨rfl, .inl ⟨rfl, nofun⟩⟩
  | conflict =>
      cases h
      exact .inr ⟨rfl, .inr (.inl rfl)⟩
  | slowDown =>
      cases h
      exact .inr ⟨rfl, .inr (.inr rfl)⟩
  | step ch => cases h

/-! ## Producers and watchers -/

variable (wt : Watcher B)

/-- A producer's `EnqueueWithID`, which then holds the verdict. -/
def producing (id : String) (body : ByteArray) (attrs : Metadata) : BProg B Unit := do
  let r ← wt.localQueue.enqueueWithID id body attrs
  let _ ← critical fun mem => { mem with reported := some (r.map fun existed => (id, existed)) }

/-- A watcher's copy of one message, which it then takes as done or not. -/
def watching (id : String) : BProg B Unit := do
  let r ← wt.replicate id
  let _ ← critical fun mem => { mem with outcome := some (.replicate id, r) }

/-- The entry points.  A client makes one call. -/
def start (t : Thread C) (e : Entry) (w : World B C) : Option (RProg B Unit × World B C) :=
  if (w.mem t.1).called then none else
  let w' := w.setMem t.1 { w.mem t.1 with called := true }
  match t.2, e with
  | .main, .enqueueWithID id body attrs => some (onS3 (producing wt id body attrs), w')
  | .main, .replicate id => some (onS3 (watching wt id), w')
  | _, _ => none

variable {wt} in
/-- What a start does. -/
lemma start_cases {d : C} {g : Goroutine} {e : Entry} {w w' : World B C} {p : RProg B Unit}
    (h : start wt (d, g) e w = some (p, w')) :
    g = .main ∧ w' = w.setMem d { w.mem d with called := true } ∧
      ((∃ id body attrs, p = onS3 (producing wt id body attrs)) ∨
        ∃ id, p = onS3 (watching wt id)) := by
  dsimp only [start] at h
  split at h
  · cases h
  · split at h
    · cases h
      exact ⟨rfl, rfl, .inl ⟨_, _, _, rfl⟩⟩
    · cases h
      exact ⟨rfl, rfl, .inr ⟨_, rfl⟩⟩
    · cases h

/-- The machine.  What everyone else does to the buckets, and the passing of time, are moves of the
environment, which may leave any content at any moment. -/
def machine (bk : B → Backend) (flt : Faults) :
    Machine (requestSig B) (World B C) (Thread C) where
  Choice := Treatment
  Env := (B → Store) × ℤ
  exec := serve bk flt
  start := start wt
  env := fun e w => some { w with store := e.1, clock := e.2 }

/-- The client's create-only request was answered, and the payload was there at that moment. -/
def Stored (v : RView B C) (c : C) (id : String) : Prop :=
  ∃ w₀ body md r w₁,
    (w₀, REvent.put (c, .main) wt.localQueue.bucket (queueMsgPrefix ++ id) body md createOnly r, w₁) ∈
      v.steps ∧ (w₁.store wt.localQueue.bucket).get (queueMsgPrefix ++ id) ≠ none

/-- The client found that the message is gone from the source. -/
def Vanished (v : RView B C) (c : C) (id : String) : Prop :=
  ∃ w₀ w₁,
    (w₀, REvent.called (c, .main) (.attributes wt.source.bucket (queueMsgPrefix ++ id))
      (.error .notFound), w₁) ∈ v.steps ∨
    (w₀, REvent.called (c, .main) (.read wt.source.bucket (queueMsgPrefix ++ id))
      (.error .notFound), w₁) ∈ v.steps

/-- What is concluded from the verdicts is right: a message that is reported to exist was there when S3
answered, and a message that a watcher takes as copied was too, unless it had left the source. -/
structure Verdicts (v : RView B C) : Prop where
  existed : ∀ c id, (v.world.mem c).reported = some (.ok (id, true)) → Stored wt v c id
  copied : ∀ c id, (v.world.mem c).outcome = some (.replicate id, .ok ()) →
    Vanished wt v c id ∨ Stored wt v c id

/-- S3 does not answer a create-only request for a payload with 409 where there is none. -/
def Settled (v : RView B C) (e : REvent B C) : Prop :=
  ∀ t id body md,
    e = REvent.put t wt.localQueue.bucket (queueMsgPrefix ++ id) body md createOnly
      (.error conditionalRequestConflict) →
    (v.world.store wt.localQueue.bucket).get (queueMsgPrefix ++ id) ≠ none

/-! ## The contract -/

/-- The verdicts so far are right, and nobody touches another client's. -/
def contract (bk : B → Backend) (flt : Faults) : Contract (machine (C := C) wt bk flt) where
  adm := Settled wt
  inv := Verdicts wt
  guar t v v' := ∀ d, d ≠ t.1 → v'.world.mem d = v.world.mem d
  idle _ _ := True

variable {wt} {v v' : RView B C} {c : C} {id : String}

lemma Stored.mono (h : v.Le v') (hs : Stored wt v c id) : Stored wt v' c id := by
  obtain ⟨w₀, body, md, r, w₁, hmem, hget⟩ := hs
  exact ⟨w₀, body, md, r, w₁, h.steps hmem, hget⟩

lemma Vanished.mono (h : v.Le v') (hs : Vanished wt v c id) : Vanished wt v' c id := by
  obtain ⟨w₀, w₁, hmem⟩ := hs
  exact ⟨w₀, w₁, hmem.imp (fun h' => h.steps h') fun h' => h.steps h'⟩

/-- A step that leaves the verdicts alone. -/
lemma Verdicts.push (h : Verdicts wt v) {e : REvent B C}
    (hrep : ∀ d, (w.mem d).reported = (v.world.mem d).reported)
    (hout : ∀ d, (w.mem d).outcome = (v.world.mem d).outcome) : Verdicts wt (v.push e w) where
  existed d x hx := (h.existed d x ((hrep d).symm.trans hx)).mono (v.le_push e w)
  copied d x hx := (h.copied d x ((hout d).symm.trans hx)).imp
    (fun h' => h'.mono (v.le_push e w)) fun h' => h'.mono (v.le_push e w)

variable (bk flt t) in
/-- The step of a thread that leaves the memories alone. -/
lemma Verdicts.quiet (h : Verdicts wt v) {e : REvent B C} (hmem : w.mem = v.world.mem) :
    (contract wt bk flt).guar t v (v.push e w) ∧ Verdicts wt (v.push e w) :=
  ⟨fun d _ => congrFun hmem d, h.push (fun d => by rw [hmem]) fun d => by rw [hmem]⟩

/-- The request of an enqueue: if it succeeds, or the driver reports that a precondition failed, the
payload was there when S3 answered. -/
lemma safe_writePayload (c : C) (id : String) (body : ByteArray) (md : Metadata) (v : RView B C) :
    (contract wt bk flt).Safe (c, .main)
      (fun r v => r = .ok () ∨ r = .error .preconditionFailed → Stored wt v c id)
      (onS3 (wt.localQueue.writePayload id body md)) v := by
  intro v₁ _ hi₁ ch r w he ha
  -- Whatever S3 answered, what is there at that moment decides.
  have hput : (w.mem = v₁.world.mem) ∧ ((r.mapError mapError = .ok () ∨
      r.mapError mapError = .error .preconditionFailed) →
      (w.store wt.localQueue.bucket).get (queueMsgPrefix ++ id) ≠ none) := by
    obtain ⟨-, rfl⟩ | ⟨rfl, ⟨-, hget⟩ | rfl | rfl⟩ := servePut_cases he
    · refine ⟨rfl, fun _ => ?_⟩
      rw [World.setStore_store_self, Store.get_put_self]
      exact nofun
    · exact ⟨rfl, fun _ => hget⟩
    · exact ⟨rfl, fun _ => ha _ id body md rfl⟩
    · exact ⟨rfl, nofun⟩
  obtain ⟨hguar, hinv⟩ := hi₁.quiet bk flt (c, .main) hput.1
  refine ⟨hguar, hinv, .ret fun v₂ hr₂ _ hres => ?_⟩
  exact Stored.mono hr₂.le ⟨v₁.world, body, md, r, w, List.mem_cons_self, hput.2 hres⟩

/-- Sequential composition. -/
lemma safe_bind {α β : Type} {p : BProg B α} {f : α → BProg B β} {Q : α → RView B C → Prop}
    {Q' : β → RView B C → Prop} (hi : Verdicts wt v)
    (hp : (contract wt bk flt).Safe t Q (onS3 p) v)
    (hf : ∀ a v', Verdicts wt v' → Q a v' → (contract wt bk flt).Safe t Q' (onS3 (f a)) v') :
    (contract wt bk flt).Safe t Q' (onS3 (p >>= f)) v := by
  rw [onS3_bind]
  exact Safe.bind hi hp hf

variable (bk flt) in
/-- `EnqueueWithID`: whatever the verdict, the payload was there when S3 answered. -/
lemma safe_enqueueWithID (hi : Verdicts wt v) (c : C) (id : String) (body : ByteArray)
    (md : Metadata) :
    (contract wt bk flt).Safe (c, .main) (fun r v => ∀ existed, r = .ok existed → Stored wt v c id)
      (onS3 (wt.localQueue.enqueueWithID id body md)) v := by
  unfold Queue.enqueueWithID
  split
  · exact .ret fun _ _ _ => nofun
  · refine safe_bind hi (safe_writePayload c id body md v) fun r v₁ _ hr => ?_
    split
    · exact .ret fun v₂ hr₂ _ _ _ => (hr (.inr rfl)).mono hr₂.le
    · exact .ret fun _ _ _ => nofun
    · exact .ret fun v₂ hr₂ _ _ _ => (hr (.inl rfl)).mono hr₂.le

/-- A read of the source. -/
lemma safe_readSource {o : Op B} {α : Type} {k : o.Res → BProg B α}
    {Q : α → RView B C → Prop} (hdriver : driver o = Prog.perform (S := requestSig B) (.step o))
    (hquiet : ∀ {ch r w w'}, exec bk flt (c, .main) o ch w = some (r, w') → w' = w)
    (h : ∀ r (v₁ : RView B C), Verdicts wt (v₁.push (REvent.called (c, .main) o r) v₁.world) →
      (contract wt bk flt).Safe (c, .main) Q (onS3 (k r))
        (v₁.push (REvent.called (c, .main) o r) v₁.world)) :
    (contract wt bk flt).Safe (c, .main) Q (onS3 (.call (S := bucketSig B) o k)) v := by
  have hprog : onS3 (.call (S := bucketSig B) o k) =
      .call (S := requestSig B) (.step o) fun r => onS3 (k r) := by
    simp only [onS3, Prog.handle]
    rw [hdriver]
    rfl
  rw [hprog]
  intro v₁ _ hi₁ ch r w he _
  obtain ⟨ch, he⟩ := serve_step he
  obtain rfl := hquiet he
  obtain ⟨hguar, hinv⟩ := hi₁.quiet bk flt (c, .main)
    (e := REvent.called (c, .main) o r) rfl
  exact ⟨hguar, hinv, h r v₁ hinv⟩

/-- `replicate`. -/
lemma safe_replicate (c : C) (id : String) :
    (contract wt bk flt).Safe (c, .main)
      (fun r v => r = .ok () → Vanished wt v c id ∨ Stored wt v c id)
      (onS3 (wt.replicate id)) v := by
  refine safe_readSource rfl (fun he => (exec_attributes he).1) fun r v₁ hi₁ => ?_
  rcases r with e | attrs
  · cases e with
    | notFound =>
        refine .ret fun v₂ hr₂ _ _ => .inl (Vanished.mono hr₂.le ?_)
        exact ⟨_, _, .inl List.mem_cons_self⟩
    | _ => exact .ret fun _ _ _ => nofun
  · refine safe_readSource rfl (fun he => (exec_read he).1) fun r v₂ hi₂ => ?_
    rcases r with e | bytes
    · cases e with
      | notFound =>
          refine .ret fun v₂ hr₂ _ _ => .inl (Vanished.mono hr₂.le ?_)
          exact ⟨_, _, .inr List.mem_cons_self⟩
      | _ => exact .ret fun _ _ _ => nofun
    · have hsafe := safe_enqueueWithID bk flt hi₂ c id bytes attrs.metadata
      refine safe_bind (p := wt.localQueue.enqueueWithID id bytes attrs.metadata) hi₂ hsafe
        fun r v₃ _ hr => ?_
      cases r with
      | error e => exact .ret fun _ _ _ => nofun
      | ok existed => exact .ret fun v₄ hr₄ _ _ => .inr ((hr existed rfl).mono hr₄.le)

/-- The call of a client that then holds what it concludes. -/
lemma safe_conclude {α : Type} {p : BProg B α} {f : α → Mem → Mem} (hi : Verdicts wt v)
    {Q : α → RView B C → Prop} (hp : (contract wt bk flt).Safe (c, .main) Q (onS3 p) v)
    (hf : ∀ a v₁ v₂, Q a v₁ → v₁.Le v₂ → Verdicts wt v₂ → Verdicts wt (v₂.push
        (REvent.called (c, .main) (.mem (f a)) (v₂.world.mem c))
        (v₂.world.setMem c (f a (v₂.world.mem c))))) :
    (contract wt bk flt).Safe (c, .main) (fun _ _ => True)
      (onS3 (p >>= fun a => critical (f a) >>= fun _ => Prog.ret ())) v := by
  refine safe_bind hi hp fun a v₁ _ ha v₂ hr₂ hi₂ ch r w he _ => ?_
  obtain ⟨ch, he⟩ := serve_step he
  obtain ⟨rfl, rfl⟩ := exec_mem he
  refine ⟨fun d hd => World.setMem_mem_ne _ _ _ hd, hf a v₁ v₂ ha hr₂.le hi₂, ?_⟩
  exact .ret fun _ _ _ => trivial

/-- The verdict a client comes to hold is right. -/
lemma Verdicts.conclude (h : Verdicts wt v) {e : REvent B C} {m : Mem}
    (hexisted : ∀ x, m.reported = some (.ok (x, true)) → Stored wt v c x)
    (hcopied : ∀ x, m.outcome = some (.replicate x, .ok ()) → Vanished wt v c x ∨ Stored wt v c x) :
    Verdicts wt (v.push e (v.world.setMem c m)) := by
  have hle := v.le_push e (v.world.setMem c m)
  constructor
  · intro d x hx
    by_cases hd : d = c
    · subst hd
      rw [View.push_world, World.setMem_mem_self] at hx
      exact (hexisted x hx).mono hle
    · rw [View.push_world, World.setMem_mem_ne _ _ _ hd] at hx
      exact (h.existed d x hx).mono hle
  · intro d x hx
    by_cases hd : d = c
    · subst hd
      rw [View.push_world, World.setMem_mem_self] at hx
      exact (hcopied x hx).imp (fun h' => h'.mono hle) fun h' => h'.mono hle
    · rw [View.push_world, World.setMem_mem_ne _ _ _ hd] at hx
      exact (h.copied d x hx).imp (fun h' => h'.mono hle) fun h' => h'.mono hle

lemma safe_producing (hi : Verdicts wt v) (c : C) (id : String) (body : ByteArray) (md : Metadata) :
    (contract wt bk flt).Safe (c, .main) (fun _ _ => True) (onS3 (producing wt id body md)) v := by
  refine safe_conclude hi (safe_enqueueWithID bk flt hi c id body md) fun r v₁ v₂ hr hle hi₂ => ?_
  refine hi₂.conclude (fun x hx => ?_) fun x hx => hi₂.copied c x hx
  cases r with
  | error e => cases hx
  | ok existed =>
      cases hx
      exact (hr true rfl).mono hle

lemma safe_watching (hi : Verdicts wt v) (c : C) (id : String) :
    (contract wt bk flt).Safe (c, .main) (fun _ _ => True) (onS3 (watching wt id)) v := by
  refine safe_conclude hi (safe_replicate c id) fun r v₁ v₂ hr hle hi₂ => ?_
  refine hi₂.conclude (fun x hx => hi₂.existed c x hx) fun x hx => ?_
  cases hx
  exact (hr rfl).imp (fun h => h.mono hle) fun h => h.mono hle

lemma sound {w₀ : World B C} (hmem : ∀ d, w₀.mem d = {}) : (contract wt bk flt).Sound w₀ where
  init := by
    refine ⟨⟨fun d x hx => ?_, fun d x hx => ?_⟩, fun _ => trivial⟩ <;>
    · rw [show w₀.mem d = {} from hmem d] at hx
      cases hx
  env := by
    rintro v v' hi ⟨e, w, ⟨⟩, -, rfl⟩
    exact hi.push (fun _ => rfl) fun _ => rfl
  stable _ _ _ _ _ := trivial
  start := by
    rintro ⟨d, g⟩ e v p w hi - - hstart
    obtain ⟨rfl, rfl, hp⟩ := start_cases hstart
    have hquiet : Verdicts wt (v.push (.start (d, .main) e)
        (v.world.setMem d { v.world.mem d with called := true })) :=
      hi.conclude (fun x hx => hi.existed d x hx) fun x hx => hi.copied d x hx
    refine ⟨fun d' hd => World.setMem_mem_ne _ _ _ hd, hquiet, ?_⟩
    obtain ⟨id, body, attrs, rfl⟩ | ⟨id, rfl⟩ := hp
    · exact safe_producing hquiet d id body attrs
    · exact safe_watching hquiet d id

/-- **The verdict of `EnqueueWithID` is right on S3 as long as S3 does not answer 409 for a payload that
is not there**: in every such run, a message that `EnqueueWithID` reports to exist was there when S3
answered the request, and so was one that a watcher takes as copied, unless it had left the source. -/
theorem verdict_sound {w₀ : World B C} (hmem : ∀ d, w₀.mem d = {})
    {cfg : Config (requestSig B) (World B C) (Thread C)}
    (hreach : Reach (machine wt bk flt) (Settled wt) w₀ cfg) : Verdicts wt cfg.view :=
  ((sound hmem).reach hreach).1

/-! ## Runs -/

/-- Where a conflict is answered, the object is there. -/
def isSettled (v : RView B C) : REvent B C → Bool
  | .call _ (.putObject b key _ _ _) (.error err) =>
      err != conditionalRequestConflict || ((v.world.store b).get key).isSome
  | _ => true

variable (wt) in
lemma settled_of_isSettled (v : RView B C) (e : REvent B C) (h : isSettled v e = true) :
    Settled wt v e := by
  rintro t id body md rfl
  simp only [isSettled, bne_self_eq_false, Bool.false_or] at h
  exact Option.ne_none_iff_isSome.mpr h

/-- No payload was there when a request for it was answered, and no message was missed in the source. -/
def isBlind (p : World B C × REvent B C × World B C) : Bool :=
  match p.2.1 with
  | .call _ (.putObject b key _ _ _) _ => ((p.2.2.store b).get key).isNone
  | .call _ (.step (.attributes _ _)) (.error .notFound) => false
  | .call _ (.step (.read _ _)) (.error .notFound) => false
  | _ => true

lemma not_stored (h : v.steps.all isBlind = true) : ¬ Stored wt v c id := by
  rintro ⟨w₀, body, md, r, w₁, hmem, hget⟩
  have hblind := List.all_eq_true.mp h _ hmem
  exact hget (Option.isNone_iff_eq_none.mp hblind)

lemma not_vanished (h : v.steps.all isBlind = true) : ¬ Vanished wt v c id := by
  rintro ⟨w₀, w₁, hmem | hmem⟩ <;> exact absurd (List.all_eq_true.mp h _ hmem) nofun

/-- A watcher that copies from one bucket to another. -/
def twoBuckets : Watcher Bool := ⟨⟨false, 30, 256, 0⟩, ⟨true, 30, 256, 0⟩⟩

/-- A bucket with one message, of id `a`. -/
def oneMessage : Store := ({} : Store).put memBackend (queueMsgPrefix ++ "a") .empty []

/-- The message is in both buckets. -/
def inBoth : World Bool (Fin 2) := ⟨0, fun _ => oneMessage, fun _ => {}⟩

/-- A conflict with an operation that leaves the payload there: the verdict is right. -/
theorem verdict_sound_conflict :
    ∃ cfg, Reach (machine twoBuckets (fun _ => memBackend) ⟨true, true⟩) (Settled twoBuckets) inBoth
        cfg ∧
      (cfg.view.world.mem 0).reported = some (.ok ("a", true)) ∧ Stored twoBuckets cfg.view 0 "a" := by
  obtain ⟨cfg, hreach, htest⟩ := reach_of_run_adm
    (M := machine twoBuckets (fun _ => memBackend) ⟨true, true⟩) (w := inBoth)
    (settled_of_isSettled twoBuckets)
    (l := [.start (0, .main) (.enqueueWithID "a" .empty []), .call (0, .main) .conflict,
      .call (0, .main) (.step .ok)])
    (p := fun cfg => decide ((cfg.view.world.mem 0).reported = some (.ok ("a", true))))
    (by decide +kernel)
  have hrep := of_decide_eq_true htest
  exact ⟨cfg, hreach, hrep, (verdict_sound (fun _ => rfl) hreach).existed 0 "a" hrep⟩

/-- **A false verdict.**  The payload is deleted, and the requests of a producer and of a watcher meet the
delete: S3 answers both with 409.  The producer is told that its message exists, the watcher takes its
message as copied, and there is none. -/
theorem false_verdict :
    ∃ cfg, Reach (machine twoBuckets (fun _ => memBackend) ⟨true, true⟩) anyStep inBoth cfg ∧
      (cfg.view.world.mem 0).reported = some (.ok ("a", true)) ∧
      ¬ Stored twoBuckets cfg.view 0 "a" ∧
      (cfg.view.world.mem 1).outcome = some (.replicate "a", .ok ()) ∧
      ¬ (Vanished twoBuckets cfg.view 1 "a" ∨ Stored twoBuckets cfg.view 1 "a") ∧
      (cfg.view.world.store true).get (queueMsgPrefix ++ "a") = none := by
  obtain ⟨cfg, hreach, htest⟩ := reach_of_run_any
    (M := machine twoBuckets (fun _ => memBackend) ⟨true, true⟩) (w := inBoth)
    (l := [.start (0, .main) (.enqueueWithID "a" .empty []), .start (1, .main) (.replicate "a"),
      .call (1, .main) (.step .ok), .call (1, .main) (.step .ok),
      .env (fun b => if b then oneMessage.erase (queueMsgPrefix ++ "a") else oneMessage, 0),
      .call (0, .main) .conflict, .call (1, .main) .conflict,
      .call (0, .main) (.step .ok), .call (1, .main) (.step .ok)])
    (p := fun cfg => decide ((cfg.view.world.mem 0).reported = some (.ok ("a", true))) &&
      decide ((cfg.view.world.mem 1).outcome = some (.replicate "a", .ok ())) &&
      ((cfg.view.world.store true).get (queueMsgPrefix ++ "a")).isNone &&
      cfg.view.steps.all isBlind) (by decide +kernel)
  simp only [Bool.and_eq_true, decide_eq_true_eq, Option.isNone_iff_eq_none] at htest
  obtain ⟨⟨⟨hrep, hout⟩, hnone⟩, hblind⟩ := htest
  exact ⟨cfg, hreach, hrep, not_stored hblind, hout,
    not_or.mpr ⟨not_vanished hblind, not_stored hblind⟩, hnone⟩

end Dedup

end Blobster
