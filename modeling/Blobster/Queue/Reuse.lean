import Blobster.Queue.History

/-!
# Reusing an id

What happens to a message when its id is enqueued again after it is gone.  The payload of an id is
then not one object but one after the other, and `Ack` and the dead-letter move, which delete the
payload in a step of its own and without a condition, may hit a later one than the one they mean.

A client is *busy* with an id between a call that fixes which payload it means and the step that
acts on it (`Busy`): after it has looked at the payload, after it has written the dead record, after
`Ack` has deleted the lease, and after a renew that has yet to read its version back.  The condition
under which ids may be reused is that they are reused at rest (`reusedAtRest`): when nobody is busy
with the id, and no lease of it is left.

Nothing here depends on the clock.

* `Settles` — what entitles a client to remove a payload: it has acknowledged a delivery of that very
  payload, or has itself moved it to the dead letters.
* `Change` — everything one step of a client can do to the objects of the queue.
* `HandleTied` — a lease record that is a handle's own, or that it might swap, stands next to the
  payload it was delivered for, or to none; **`HandleTied.change`** — no step breaks this.
* `restContract` — the contract, and **`unmoved_rely`**: while a client is busy with an id, its payload
  is removed at most.
-/

set_option linter.unusedSectionVars false

namespace Blobster

open Interleave Contract

namespace QueueSetup

variable {B C : Type} [DecidableEq B] [DecidableEq C] (s : QueueSetup B C) (bk : B → Backend)

/-- The call was made and answered so. -/
def Did (v : BView B C) (t : Thread C) (o : Op B) (r : o.Res) : Prop :=
  ∃ p ∈ v.steps, p.2.1 = BEvent.called t o r

/-- The client has called `Ack` on a handle that was delivered for the payload with this version. -/
def AckedFor (v : BView B C) (c : C) (x : String) (ver : Version) : Prop :=
  ∃ p ∈ v.steps, p.2.1 = Event.start (c, .main) Entry.ack ∧ DeliveredFor p.1 c x ver

/-- The payload that is stored under the id, or the last one that was. -/
def latest (v : BView B C) (x : String) : Option Object :=
  (s.lastWith v x).bind fun w => s.slot w .payload x

/-- The calls after which a client acts on the payload of the id as it has found it. -/
inductive Commits (t : Thread C) (x : String) (w : World B C) : BEvent B C → Prop where
  | attributes (r : Except Err Attributes) (hr : r ≠ .error .backend) :
      Commits t x w (.called t (.attributes s.bucket (Slot.payload.key x)) r)
  | read (r : Except Err ByteArray) (hr : r ≠ .error .backend) :
      Commits t x w (.called t (.read s.bucket (Slot.payload.key x)) r)
  | bury (body : ByteArray) (md : Metadata) (pre : List Precondition) :
      Commits t x w (.called t (.write s.bucket (Slot.dead.key x) body md pre) (.ok ()))
  | release (ver : Version) (hd : DeliveredFor w t.1 x ver) (pre : List Precondition) :
      Commits t x w (.called t (.delete s.bucket (Slot.lease.key x) pre) (.ok ()))
  | renew (body : ByteArray) (md : Metadata) (pre : List Precondition) (ht : t.2 = .renewer) :
      Commits t x w (.called t (.write s.bucket (Slot.lease.key x) body md pre) (.ok ()))

/-- The thread has made such a call and not acted on it yet. -/
def Busy (v : BView B C) (t : Thread C) (x : String) : Prop :=
  ∃ e, v.lastOf t = some e ∧ s.Commits t x v.world e

/-- The condition on runs: an id that has had a payload is given another one only when no lease of it
is stored and nobody is busy with it. -/
def reusedAtRest (v : BView B C) (e : BEvent B C) : Prop :=
  ∀ t x body md pre r, e = BEvent.called t (.write s.bucket (Slot.payload.key x) body md pre) r →
    s.slot v.world .payload x = none → s.Known v x →
      s.slot v.world .lease x = none ∧ ∀ u, ¬ s.Busy v u x

/-- The client has read the attributes of the payload and written it to the dead record. -/
def BuriedBy (v : BView B C) (c : C) (x : String) (o : Object) : Prop :=
  Did v (c, .main) (.attributes s.bucket (Slot.payload.key x)) (.ok o.attributes) ∧
    ∃ n : ℕ, Did v (c, .main) (.write s.bucket (Slot.dead.key x) o.body
      (o.metadata.set queueReceivesField (.int n)) []) (.ok ())

/-- What entitles a thread to remove the payload `o` of the id: `Ack` was called on a handle that was
delivered for it, or the client has moved it to the dead record, which still holds it. -/
def Settles (t : Thread C) (v : BView B C) (x : String) (o : Object) : Prop :=
  t.2 = .main ∧
    (AckedFor v t.1 x o.version ∨ (s.BuriedBy v t.1 x o ∧ s.DeadHolds v.world x o))

/-- **What one step of a client does to the objects of the queue**, when ids are reused. -/
inductive Change (t : Thread C) (v : BView B C) (w' : World B C) : Prop where
  | quiet (h : ∀ k x, s.slot w' k x = s.slot v.world k x)
  | create (x : String) (o : Object) (honly : s.OnlySlot v.world w' .payload x)
      (ho : s.slot w' .payload x = some o) (hnone : s.slot v.world .payload x = none)
      (hrest : s.Known v x → s.slot v.world .lease x = none ∧ ∀ u, ¬ s.Busy v u x)
  | lease (x : String) (o : Object) (honly : s.OnlySlot v.world w' .lease x)
      (ho : s.slot w' .lease x = some o) (hown : s.OwnedBy t.1 o)
      (htied : ∀ m, (v.world.mem t.1).message = some m → m.id = x →
        ∀ p, s.slot v.world .payload x = some p → p.version = m.payloadVersion)
  | unlease (x : String) (honly : s.OnlySlot v.world w' .lease x)
      (hnone : s.slot w' .lease x = none)
  | remove (x : String) (o : Object) (honly : s.OnlySlot v.world w' .payload x)
      (ho : s.slot v.world .payload x = some o) (hnone : s.slot w' .payload x = none)
      (hby : s.Settles t v x o)
  | bury (x : String) (o d : Object) (n : ℕ) (honly : s.OnlySlot v.world w' .dead x)
      (hd : s.slot w' .dead x = some d) (ho : s.latest v x = some o) (hbody : d.body = o.body)
      (hmd : d.metadata = o.metadata.set queueReceivesField (.int n))

variable {s bk} {t : Thread C} {v v' : BView B C} {w' : World B C} {e : BEvent B C} {c : C}
  {x : String} {o : Object}

/-! ## Reading the history -/

lemma Did.mono {p : Op B} {r : p.Res} (h : Did v t p r) (hv : v.Le v') : Did v' t p r :=
  h.imp fun _ hp => ⟨hv.steps hp.1, hp.2⟩

lemma AckedFor.mono {ver : Version} (h : AckedFor v c x ver) (hv : v.Le v') :
    AckedFor v' c x ver :=
  h.imp fun _ hp => ⟨hv.steps hp.1, hp.2⟩

lemma BuriedBy.mono (h : s.BuriedBy v c x o) (hv : v.Le v') : s.BuriedBy v' c x o :=
  ⟨h.1.mono hv, h.2.imp fun _ hn => hn.mono hv⟩

lemma did_push {p : Op B} {r : p.Res} : Did (v.push (BEvent.called t p r) w') t p r :=
  ⟨_, List.mem_cons_self, rfl⟩

lemma latest_of_some (h : s.slot v.world .payload x = some o) : s.latest v x = some o := by
  simp [latest, lastWith_of_some h, h]

lemma latest_push_of_none (h : s.slot w' .payload x = none) :
    s.latest (v.push e w') x = s.latest v x := by
  simp [latest, lastWith_push_of_none h]

lemma latest_push_same (h : s.slot w' .payload x = s.slot v.world .payload x) :
    s.latest (v.push e w') x = s.latest v x := by
  cases hp : s.slot w' .payload x with
  | none => exact latest_push_of_none hp
  | some p =>
      have hp' : s.slot (v.push e w').world .payload x = some p := hp
      rw [latest_of_some hp', latest_of_some (h.symm.trans hp)]

/-- The stored payload is the latest one. -/
lemma eq_of_latest {p : Object} (h : s.latest v x = some o)
    (hp : s.slot v.world .payload x = some p) : p = o :=
  Option.some.inj ((latest_of_some hp).symm.trans h)

/-- A call of one's own that commits. -/
lemma busy_push (he : e.thread = some t) (hc : s.Commits t x w' e) :
    s.Busy (v.push e w') t x :=
  ⟨e, View.lastOf_push_self he, hc⟩

/-! ## The invariant -/

variable (s) in
/-- Next to a lease record with this version, the payload is the one with version `pv`, or none. -/
def TiedTo (w : World B C) (x : String) (ver pv : Version) : Prop :=
  ∀ l, s.slot w .lease x = some l → l.version = ver →
    ∀ p, s.slot w .payload x = some p → p.version = pv

variable (s) in
/-- Likewise, next to a lease record of the client's own. -/
def OwnTied (w : World B C) (c : C) (x : String) (pv : Version) : Prop :=
  ∀ l, s.slot w .lease x = some l → s.OwnedBy c l →
    ∀ p, s.slot w .payload x = some p → p.version = pv

/-- A record that is in place keeps its payload from being replaced. -/
lemma TiedTo.change (hb : (bk s.bucket).Fresh) {ver pv : Version}
    (hok : (w'.store s.bucket).Ok (bk s.bucket))
    (hf : (v.world.store s.bucket).Follows (w'.store s.bucket)) (hch : s.Change t v w')
    (hknown : s.Known v x) (hiss : Store.Issued (bk s.bucket) (v.world.store s.bucket) ver)
    (h : s.TiedTo v.world x ver pv) : s.TiedTo w' x ver pv := by
  intro l hl hver p hp
  have hl₀ : s.slot v.world .lease x = some l := hok.get_of_issued hb hf hiss hl hver
  refine h l hl₀ hver p ?_
  cases hch with
  | quiet hq => exact (hq _ _).symm.trans hp
  | create x' o honly ho hnone hrest =>
      by_cases hx : x = x'
      · subst hx
        exact absurd ((hrest hknown).1.symm.trans hl₀) (by simp)
      · exact (honly.of_id hx).symm.trans hp
  | remove x' o honly ho hnone hby =>
      by_cases hx : x = x'
      · subst hx
        exact absurd (hnone.symm.trans hp) (by simp)
      · exact (honly.of_id hx).symm.trans hp
  | lease x' o honly ho hown htied => exact (honly.of_slot (by simp)).symm.trans hp
  | unlease x' honly hnone => exact (honly.of_slot (by simp)).symm.trans hp
  | bury x' o d n honly hd ho hbody hmd => exact (honly.of_slot (by simp)).symm.trans hp

/-- Whoever has a handle writes a lease record only next to the payload of the handle. -/
lemma OwnTied.change {m : Message} (hch : s.Change t v w')
    (hm : (v.world.mem c).message = some m) (hid : m.id = x) (hknown : s.Known v x)
    (h : s.OwnTied v.world c x m.payloadVersion) : s.OwnTied w' c x m.payloadVersion := by
  intro l hl hown p hp
  cases hch with
  | quiet hq => exact h l ((hq _ _).symm.trans hl) hown p ((hq _ _).symm.trans hp)
  | create x' o honly ho hnone hrest =>
      have hl₀ := (honly.of_slot (y := x) (by simp)).symm.trans hl
      by_cases hx : x = x'
      · subst hx
        exact absurd ((hrest hknown).1.symm.trans hl₀) (by simp)
      · exact h l hl₀ hown p ((honly.of_id hx).symm.trans hp)
  | remove x' o honly ho hnone hby =>
      by_cases hx : x = x'
      · subst hx
        exact absurd (hnone.symm.trans hp) (by simp)
      · exact h l ((honly.of_id hx).symm.trans hl) hown p ((honly.of_id hx).symm.trans hp)
  | lease x' o honly ho hown' htied =>
      have hp₀ := (honly.of_slot (y := x) (by simp)).symm.trans hp
      by_cases hx : x = x'
      · subst hx
        obtain rfl := Option.some.inj (ho.symm.trans hl)
        obtain rfl := hown.unique hown'
        exact htied m hm hid p hp₀
      · exact h l ((honly.of_id hx).symm.trans hl) hown p hp₀
  | unlease x' honly hnone =>
      by_cases hx : x = x'
      · subst hx
        exact absurd (hnone.symm.trans hl) (by simp)
      · exact h l ((honly.of_id hx).symm.trans hl) hown p
          ((honly.of_slot (by simp)).symm.trans hp)
  | bury x' o d n honly hd ho hbody hmd =>
      exact h l ((honly.of_slot (by simp)).symm.trans hl) hown p
        ((honly.of_slot (by simp)).symm.trans hp)

variable (s bk) in
/-- What holds of a handle: the lease records it may act on stand next to the payload it was delivered
for, or to none. -/
structure HandleTied (v : BView B C) (c : C) (m : Message) : Prop where
  msgPath : m.msgPath = Slot.payload.key m.id
  leasePath : m.leasePath = Slot.lease.key m.id
  owner : m.owner = s.owner c
  known : s.Known v m.id
  issued : Store.Issued (bk s.bucket) (v.world.store s.bucket) m.version
  tied : s.TiedTo v.world m.id m.version m.payloadVersion
  own : s.OwnTied v.world c m.id m.payloadVersion

variable (s bk) in
/-- The invariant. -/
structure AllTied (v : BView B C) : Prop where
  store : (v.world.store s.bucket).Ok (bk s.bucket)
  uncalled : ∀ c, (v.world.mem c).called = false → (v.world.mem c).message = none
  handle : ∀ c m, (v.world.mem c).message = some m → s.HandleTied bk v c m

/-- **No step breaks a handle.** -/
lemma HandleTied.change (hb : (bk s.bucket).Fresh) {m : Message}
    (hok : (w'.store s.bucket).Ok (bk s.bucket))
    (hf : (v.world.store s.bucket).Follows (w'.store s.bucket)) (hch : s.Change t v w')
    (hm : (v.world.mem c).message = some m) (h : s.HandleTied bk v c m) :
    s.HandleTied bk (v.push e w') c m where
  msgPath := h.msgPath
  leasePath := h.leasePath
  owner := h.owner
  known := h.known.mono (View.le_push _ _ _)
  issued := h.issued.follows hf
  tied := h.tied.change hb hok hf hch h.known h.issued
  own := h.own.change hch hm rfl h.known

/-- A commit. -/
lemma AllTied.change (hb : (bk s.bucket).Fresh) (h : s.AllTied bk v) (hch : s.Change t v w')
    (hmem : w'.mem = v.world.mem) (hok : (w'.store s.bucket).Ok (bk s.bucket))
    (hf : (v.world.store s.bucket).Follows (w'.store s.bucket)) :
    s.AllTied bk (v.push e w') where
  store := hok
  uncalled c hc := by
    rw [View.push_world, hmem] at hc ⊢
    exact h.uncalled c hc
  handle c m hm := by
    rw [View.push_world, hmem] at hm
    exact (h.handle c m hm).change hb hok hf hch hm

/-- Nothing in the bucket changes, and no handle. -/
lemma AllTied.same (h : s.AllTied bk v) (hstore : w'.store = v.world.store)
    (hmem : w'.mem = v.world.mem) : s.AllTied bk (v.push e w') where
  store := by rw [View.push_world, hstore]; exact h.store
  uncalled c hc := by
    rw [View.push_world, hmem] at hc ⊢
    exact h.uncalled c hc
  handle c m hm := by
    rw [View.push_world, hmem] at hm
    have hok := h.handle c m hm
    refine ⟨hok.msgPath, hok.leasePath, hok.owner, hok.known.mono (View.le_push _ _ _), ?_, ?_, ?_⟩
    · rw [View.push_world, hstore]
      exact hok.issued
    · simpa only [TiedTo, slot, View.push_world, hstore] using hok.tied
    · simpa only [OwnTied, slot, View.push_world, hstore] using hok.own

lemma AllTied.quiet (h : s.AllTied bk v) : s.AllTied bk (v.push e v.world) := h.same rfl rfl

/-- A client's memory changes. -/
lemma AllTied.setMem {mem : Mem} (h : s.AllTied bk v)
    (huncalled : mem.called = false → mem.message = none)
    (hm : ∀ m, mem.message = some m → s.HandleTied bk v c m) :
    s.AllTied bk (v.push e (v.world.setMem c mem)) where
  store := h.store
  uncalled d hd := by
    by_cases hdc : d = c
    · subst hdc
      simp only [View.push_world, World.setMem_mem_self] at hd ⊢
      exact huncalled hd
    · simp only [View.push_world, World.setMem_mem_ne _ _ _ hdc] at hd ⊢
      exact h.uncalled d hd
  handle d m hdm := by
    have hok : s.HandleTied bk v d m := by
      by_cases hdc : d = c
      · subst hdc
        simp only [View.push_world, World.setMem_mem_self] at hdm
        exact hm m hdm
      · simp only [View.push_world, World.setMem_mem_ne _ _ _ hdc] at hdm
        exact h.handle d m hdm
    exact ⟨hok.msgPath, hok.leasePath, hok.owner, hok.known.mono (View.le_push _ _ _), hok.issued,
      hok.tied, hok.own⟩

/-- The handle's flags and its outcome do not matter. -/
lemma HandleTied.of_flags {m m' : Message} (h : s.HandleTied bk v c m) (hs : m.SameClaim m') :
    s.HandleTied bk v c m' where
  msgPath := by rw [hs.msgPath, hs.id]; exact h.msgPath
  leasePath := by rw [hs.leasePath, hs.id]; exact h.leasePath
  owner := hs.owner.trans h.owner
  known := by rw [hs.id]; exact h.known
  issued := by rw [hs.version]; exact h.issued
  tied := by rw [hs.id, hs.version, hs.payloadVersion]; exact h.tied
  own := by rw [hs.id, hs.payloadVersion]; exact h.own

/-- A client changes its handle. -/
lemma AllTied.onMessage {f : Message → Message} (h : s.AllTied bk v)
    (hf : ∀ m, (v.world.mem c).message = some m → s.HandleTied bk v c (f m)) :
    s.AllTied bk (v.push e (v.world.setMem c ((v.world.mem c).onMessage f))) := by
  refine h.setMem (fun hc => ?_) (fun m hm => ?_)
  · simpa [Mem.onMessage] using h.uncalled c hc
  · obtain ⟨m₀, hm₀, rfl⟩ := Option.map_eq_some_iff.mp (by simpa [Mem.onMessage] using hm)
    exact hf m₀ hm₀

/-! ## The contract -/

variable (s) in
/-- What a client promises about each of its steps. -/
structure Promise (t : Thread C) (v v' : BView B C) : Prop where
  follows : (v.world.store s.bucket).Follows (v'.world.store s.bucket)
  frame : ∀ d, d ≠ t.1 → v'.world.mem d = v.world.mem d
  change : s.Change t v v'.world
  handle : HandleStep t.2 (v.world.mem t.1) (v'.world.mem t.1)

variable (s bk) in
/-- The contract of the queue's clients, for ids that are reused at rest, whatever the clock does. -/
def restContract (flt : Faults) {E : Type} (env : E → World B C → Option (World B C)) :
    Contract (bucketMachine bk flt s.start env) where
  adm := s.reusedAtRest
  inv := s.AllTied bk
  guar := s.Promise
  idle _ _ := True

lemma Promise.quiet (h : Active t v.world) : s.Promise t v (v.push e v.world) where
  follows := .refl _
  frame _ _ := rfl
  change := .quiet fun _ _ => rfl
  handle := h.handleStep

lemma Promise.setMem {m : Mem} (h : HandleStep t.2 (v.world.mem t.1) m) :
    s.Promise t v (v.push e (v.world.setMem t.1 m)) where
  follows := .refl _
  frame _ hd := World.setMem_mem_ne v.world t.1 m hd
  change := .quiet fun _ _ => rfl
  handle := by simpa using h

section Contract

variable {flt : Faults} {E : Type} {env : E → World B C → Option (World B C)}

lemma restHandles (henv : ClockOnly env) : Handles (s.restContract bk flt env) where
  env := by
    rintro v v' ⟨d, w, hw, -, rfl⟩
    exact (henv d _ w hw).2
  frame hg := hg.frame
  handle hg := hg.handle
  quiet _ hi ha := ⟨.quiet ha, AllTied.quiet hi⟩
  flags _ _ hi hstep hf _ :=
    ⟨.setMem hstep, AllTied.onMessage hi fun m hm => (AllTied.handle hi _ m hm).of_flags (hf m)⟩

/-- What the others do: the clock moves, or a client keeps its promise. -/
lemma rest_cases (henv : ClockOnly env) (h : (s.restContract bk flt env).Interf t v v') :
    ∃ e w, v' = v.push e w ∧ e.thread ≠ some t ∧
      (v.world.store s.bucket).Follows (w.store s.bucket) ∧ ∃ u, s.Change u v w := by
  obtain ⟨-, -, ⟨d, w, hw, -, rfl⟩ | ⟨u, hu, ⟨e, w, he, rfl⟩, hg⟩⟩ := h
  · have hst := (henv d _ w hw).1
    refine ⟨_, w, rfl, nofun, by rw [hst]; exact .refl _, t, .quiet fun _ _ => ?_⟩
    simp only [slot, hst]
  · exact ⟨e, w, rfl, by simpa [he] using hu, hg.follows, u, hg.change⟩

lemma rest_follows (henv : ClockOnly env) (h : (s.restContract bk flt env).Rely t v v') :
    (v.world.store s.bucket).Follows (v'.world.store s.bucket) := by
  refine Rely.of_step (R := fun v v' =>
    (v.world.store s.bucket).Follows (v'.world.store s.bucket)) (fun _ => .refl _)
    .trans (fun hs => ?_) h
  obtain ⟨e, w, rfl, -, hf, -⟩ := rest_cases henv hs
  exact hf

lemma tiedTo_rely (henv : ClockOnly env) (hb : (bk s.bucket).Fresh) {ver pv : Version}
    (h : (s.restContract bk flt env).Rely t v v') (hknown : s.Known v x)
    (hiss : Store.Issued (bk s.bucket) (v.world.store s.bucket) ver)
    (ht : s.TiedTo v.world x ver pv) : s.TiedTo v'.world x ver pv := by
  refine (h.stable (P := fun v => (s.Known v x ∧
    Store.Issued (bk s.bucket) (v.world.store s.bucket) ver) ∧ s.TiedTo v.world x ver pv)
    (fun hs hP => ?_) ⟨⟨hknown, hiss⟩, ht⟩).2
  have hi' := hs.2.1
  obtain ⟨e, w, rfl, -, hf, u, hch⟩ := rest_cases henv hs
  exact ⟨⟨hP.1.1.mono (View.le_push _ _ _), hP.1.2.follows hf⟩,
    hP.2.change hb hi'.store hf hch hP.1.1 hP.1.2⟩

/-! ## While a client is busy -/

variable (s) in
/-- What has not moved about an id: its payload has been removed at most, and a dead record of it
holds it still. -/
structure Unmoved (x : String) (v v' : BView B C) : Prop where
  payload : ∀ p, s.slot v'.world .payload x = some p → s.slot v.world .payload x = some p
  latest : s.latest v' x = s.latest v x
  dead : ∀ o, s.latest v x = some o → s.DeadHolds v.world x o → s.DeadHolds v'.world x o

lemma Unmoved.refl (x : String) (v : BView B C) : s.Unmoved x v v := ⟨fun _ h => h, rfl, fun _ _ h => h⟩

lemma Unmoved.trans {v₁ v₂ v₃ : BView B C} (h : s.Unmoved x v₁ v₂) (h' : s.Unmoved x v₂ v₃) :
    s.Unmoved x v₁ v₃ :=
  ⟨fun p hp => h.payload p (h'.payload p hp), h'.latest.trans h.latest,
    fun o ho hd => h'.dead o (h.latest.trans ho) (h.dead o ho hd)⟩

/-- The step of a client moves the payload of an id only by creating it. -/
lemma Unmoved.of_change (hch : s.Change t v w') (hknown : s.Known v x) {u : Thread C}
    (hbusy : s.Busy v u x) : s.Unmoved x v (v.push e w') := by
  have hsame : s.slot w' .payload x = s.slot v.world .payload x →
      s.slot w' .dead x = s.slot v.world .dead x → s.Unmoved x v (v.push e w') :=
    fun hp hd => ⟨fun p h => hp.symm.trans h, latest_push_same hp,
      fun o _ h => by simpa only [DeadHolds, View.push_world, hd] using h⟩
  cases hch with
  | quiet hq => exact hsame (hq _ _) (hq _ _)
  | create x' o honly ho hnone hrest =>
      by_cases hx : x = x'
      · subst hx
        exact absurd hbusy ((hrest hknown).2 u)
      · exact hsame (honly.of_id hx) (honly.of_id hx)
  | lease x' o honly ho hown htied =>
      exact hsame (honly.of_slot (by simp)) (honly.of_slot (by simp))
  | unlease x' honly hnone => exact hsame (honly.of_slot (by simp)) (honly.of_slot (by simp))
  | remove x' o honly ho hnone hby =>
      by_cases hx : x = x'
      · subst hx
        refine ⟨fun p hp => absurd (hnone.symm.trans hp) (by simp), latest_push_of_none hnone, ?_⟩
        intro o' _ hd
        have hslot := honly.of_slot (j := .dead) (y := x) (by simp)
        simpa only [DeadHolds, View.push_world, hslot] using hd
      · exact hsame (honly.of_id hx) (honly.of_id hx)
  | bury x' o d n honly hd ho hbody hmd =>
      by_cases hx : x = x'
      · subst hx
        have hp := honly.of_slot (j := .payload) (y := x) (by simp)
        refine ⟨fun p h => hp.symm.trans h, latest_push_same hp, fun o' ho' _ => ?_⟩
        obtain rfl := Option.some.inj (ho.symm.trans ho')
        exact ⟨d, n, hd, hbody, hmd⟩
      · exact hsame (honly.of_id hx) (honly.of_id hx)

lemma Commits.mono {w : World B C} (h : s.Commits t x w e)
    (hd : ∀ ver, DeliveredFor w t.1 x ver → DeliveredFor w' t.1 x ver) : s.Commits t x w' e := by
  cases h with
  | attributes r hr => exact .attributes r hr
  | read r hr => exact .read r hr
  | bury body md pre => exact .bury body md pre
  | release ver hdel pre => exact .release ver (hd ver hdel) pre
  | renew body md pre ht => exact .renew body md pre ht

lemma busy_rely (henv : ClockOnly env) (h : (s.restContract bk flt env).Rely t v v')
    (hbusy : s.Busy v t x) : s.Busy v' t x := by
  refine h.stable (P := fun v => s.Busy v t x) (fun {v₁ v₂} hs hP => ?_) hbusy
  have hdel (ver : Version) : DeliveredFor v₁.world t.1 x ver → DeliveredFor v₂.world t.1 x ver :=
    deliveredFor_interf (restHandles henv) hs
  obtain ⟨e, w, rfl, he, -, -⟩ := rest_cases henv hs
  obtain ⟨e', hlast, hcom⟩ := hP
  exact ⟨e', (View.lastOf_push_of_ne he).trans hlast, hcom.mono hdel⟩

/-- **While a client is busy with an id, its payload is removed at most.** -/
lemma unmoved_rely (henv : ClockOnly env) (h : (s.restContract bk flt env).Rely t v v')
    (hknown : s.Known v x) (hbusy : s.Busy v t x) : s.Unmoved x v v' := by
  refine (h.stable (P := fun v' => (s.Known v' x ∧ s.Busy v' t x) ∧ s.Unmoved x v v')
    (fun hs hP => ?_) ⟨⟨hknown, hbusy⟩, .refl x v⟩).2
  have hbusy' := busy_rely henv (.single hs) hP.1.2
  obtain ⟨e, w, rfl, he, -, u, hch⟩ := rest_cases henv hs
  exact ⟨⟨hP.1.1.mono (View.le_push _ _ _), hbusy'⟩,
    hP.2.trans (.of_change hch hP.1.1 hP.1.2)⟩

end Contract

end QueueSetup

end Blobster
