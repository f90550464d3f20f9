import Blobster.Queue.Removal

/-!
# A clean slate for a new message

What a message that is enqueued under a used id inherits from the one before it.  Its receive count
is the count of the lease record that its first claimer finds, so it should find none.  But a
dead-letter move that stops between its two deletes leaves the lease record behind, and so does a
worker that claims from an old listing and stops before it has looked at the payload.

Two things have to be excluded (`CleanSlate`).  A payload is created only when no lease record of
its id is left and nobody is between two calls on the id (`Engaged`); and a first claim, whose lease
record has the count one, is replaced only after the worker that made it has been handed the message.

The contract here stands on the one of `Blobster.Queue.Removal`: that contract's invariant is an
assumption about every step of this one.

* `Cleared` — the payload of an id has been handed out, if there is one.
* **`clean_slate`** — the first delivery of a payload has the count one, and no payload is dead-lettered
  or removed before it has been handed out.
* **`orphan_inherited`** — what happens otherwise.
-/

set_option linter.unusedSectionVars false

namespace Blobster

open Interleave Contract

namespace QueueSetup

variable {B C : Type} [DecidableEq B] [DecidableEq C] (s : QueueSetup B C) (bk : B → Backend)

/-- Some client has been handed a message for this payload. -/
def HandedOut (w : World B C) (x : String) (ver : Version) : Prop := ∃ d, DeliveredFor w d x ver

/-- The calls between winning a lease and looking at the payload. -/
inductive Wins (t : Thread C) (x : String) : BEvent B C → Prop where
  | write (body : ByteArray) (md : Metadata) (pre : List Precondition) :
      Wins t x (.called t (.write s.bucket (Slot.lease.key x) body md pre) (.ok ()))
  | readBack (attrs : Attributes) :
      Wins t x (.called t (.attributes s.bucket (Slot.lease.key x)) (.ok attrs))

/-- The thread has yet to act on a call about the id that it has just made. -/
def Engaged (v : BView B C) (t : Thread C) (x : String) : Prop :=
  s.Busy v t x ∨ ∃ e, v.lastOf t = some e ∧ s.Wins t x e

/-- The condition on runs: payloads are created at rest, and first claims are not abandoned. -/
structure CleanSlate (v : BView B C) (e : BEvent B C) : Prop where
  rest : ∀ t x body md pre r, e = BEvent.called t (.write s.bucket (Slot.payload.key x) body md pre) r →
    s.slot v.world .payload x = none →
      s.slot v.world .lease x = none ∧ ∀ u, ¬ s.Engaged v u x
  firstClaim : ∀ c x body md pre r,
    e = BEvent.called (c, .main) (.write s.bucket (Slot.lease.key x) body md pre) r →
    (v.world.mem c).message = none →
    (v.world.store s.bucket).Accepts (Slot.lease.key x) pre →
    ∀ o l, s.slot v.world .payload x = some o → s.slot v.world .lease x = some l → count l = 1 →
      ∃ d m, s.OwnedBy d l ∧ (v.world.mem d).message = some m ∧ m.id = x

/-- The payload of the id has been handed out, if there is one. -/
def Cleared (w : World B C) (x : String) : Prop :=
  ∀ o, s.slot w .payload x = some o → HandedOut w x o.version

/-- The invariant: next to a payload that has not been handed out, a lease record has the count
one. -/
def Clean (w : World B C) : Prop :=
  ∀ x l, s.slot w .lease x = some l → s.Cleared w x ∨ count l = 1

/-- What a client promises about each of its steps. -/
structure Fair (t : Thread C) (v v' : BView B C) : Prop where
  follows : (v.world.store s.bucket).Follows (v'.world.store s.bucket)
  frame : ∀ d, d ≠ t.1 → v'.world.mem d = v.world.mem d
  handle : HandleStep t.2 (v.world.mem t.1) (v'.world.mem t.1)
  born : ∀ x o, s.slot v'.world .payload x = some o →
    s.slot v.world .payload x = some o ∨ ∀ u, ¬ s.Engaged v u x
  first : ∀ m, (v.world.mem t.1).message = none → (v'.world.mem t.1).message = some m →
    m.receives = 1 ∨ HandedOut v.world m.id m.payloadVersion
  dead : ∀ x, s.slot v'.world .dead x ≠ s.slot v.world .dead x → s.Cleared v.world x
  gone : ∀ x o, s.slot v.world .payload x = some o → s.slot v'.world .payload x ≠ some o →
    s.Cleared v.world x

/-- The contract.  The invariant of `restContract` is assumed of every step. -/
def slateContract (flt : Faults) {E : Type} (env : E → World B C → Option (World B C)) :
    Contract (bucketMachine bk flt s.start env) where
  adm v e := s.CleanSlate v e ∧ s.AllTied bk v
  inv v := s.Clean v.world
  guar := s.Fair
  idle _ _ := True

variable {s bk} {t : Thread C} {v v' : BView B C} {w w' : World B C} {e : BEvent B C} {c : C}
  {x : String} {o : Object}

lemma CleanSlate.reusedAtRest (h : s.CleanSlate v e) : s.reusedAtRest v e :=
  fun t x body md pre r he hnone _ =>
    (h.rest t x body md pre r he hnone).imp_right fun hu u hb => hu u (.inl hb)

/-! ## The steps of a client -/

lemma Cleared.of_slot (h : s.Cleared w x) (hmem : w'.mem = w.mem)
    (hp : ∀ o, s.slot w' .payload x = some o → s.slot w .payload x = some o) : s.Cleared w' x := by
  intro o ho
  have hout := h o (hp o ho)
  simpa only [HandedOut, DeliveredFor, hmem] using hout

lemma Fair.quiet (ha : Active t v.world) : s.Fair t v (v.push e v.world) where
  follows := .refl _
  frame _ _ := rfl
  handle := ha.handleStep
  born _ _ := .inl
  first _ hnone hsome := absurd (hnone.symm.trans hsome) (by simp)
  dead _ hne := absurd rfl hne
  gone _ _ ho hne := absurd ho hne

/-- A critical section. -/
lemma Fair.setMem {m : Mem} (hstep : HandleStep t.2 (v.world.mem t.1) m)
    (hfirst : ∀ msg, (v.world.mem t.1).message = none → m.message = some msg →
      msg.receives = 1 ∨ HandedOut v.world msg.id msg.payloadVersion) :
    s.Fair t v (v.push e (v.world.setMem t.1 m)) where
  follows := .refl _
  frame _ hd := World.setMem_mem_ne v.world t.1 m hd
  handle := by simpa using hstep
  born _ _ := .inl
  first msg hnone hsome := hfirst msg hnone (by simpa using hsome)
  dead _ hne := absurd rfl hne
  gone _ _ ho hne := absurd ho hne

/-- A client's memory changes, and handles with it only as its goroutines may change them. -/
lemma Clean.setMem {m : Mem} (h : s.Clean v.world) (hstep : HandleStep t.2 (v.world.mem t.1) m) :
    s.Clean (v.world.setMem t.1 m) := by
  intro x l hl
  refine (h x l hl).imp_left fun hc o ho => ?_
  obtain ⟨d, hd⟩ := hc o ho
  exact ⟨d, deliveredFor_step (fun _ hd => World.setMem_mem_ne v.world t.1 m hd)
    (by simpa using hstep) hd⟩

/-- A commit that changes one object. -/
lemma fair_only {k : Slot} {st : Store} (hi : s.Clean v.world) (ha : Active t v.world)
    (hf : (v.world.store s.bucket).Follows st)
    (honly : s.OnlySlot v.world (v.world.setStore s.bucket st) k x)
    (hborn : ∀ o, s.slot (v.world.setStore s.bucket st) .payload x = some o →
      s.slot v.world .payload x = some o ∨ ∀ u, ¬ s.Engaged v u x)
    (hcleared : k = .lease ∨ s.Cleared v.world x)
    (hlease : ∀ l, s.slot (v.world.setStore s.bucket st) .lease x = some l →
      s.Cleared (v.world.setStore s.bucket st) x ∨ count l = 1) :
    (∀ e, s.Fair t v (v.push e (v.world.setStore s.bucket st))) ∧
      s.Clean (v.world.setStore s.bucket st) := by
  refine ⟨fun e => ⟨by simpa using hf, fun _ _ => rfl, ha.handleStep, fun y o ho => ?_, ?_, fun y hne => ?_,
    fun y o ho hne => ?_⟩, fun y l hl => ?_⟩
  · by_cases hy : y = x
    · subst hy
      exact hborn o ho
    · exact .inl ((honly.of_id hy).symm.trans ho)
  · exact fun m hnone hsome => absurd (Eq.trans (Eq.symm hnone) hsome) (by simp)
  · by_cases hy : y = x
    · subst hy
      refine hcleared.resolve_left fun hk => hne (honly.of_slot (by simp [hk]))
    · exact absurd (honly.of_id hy) hne
  · by_cases hy : y = x
    · subst hy
      refine hcleared.resolve_left fun hk => hne ?_
      exact (honly.of_slot (by simp [hk])).trans ho
    · exact absurd ((honly.of_id hy).trans ho) hne
  · by_cases hy : y = x
    · subst hy
      exact hlease l hl
    · refine (hi y l ((honly.of_id hy).symm.trans hl)).imp_left fun hc => ?_
      exact hc.of_slot rfl fun o ho => (honly.of_id hy).symm.trans ho

/-- The lease records of an id may be written next to a payload that has been handed out, or with the
count one; and deleted at any time. -/
lemma fair_putLease {st : Store} {md : Metadata} (hi : s.Clean v.world) (ha : Active t v.world)
    (hst : st = (v.world.store s.bucket).put (bk s.bucket) (Slot.lease.key x) .empty md)
    (h : s.Cleared v.world x ∨ queueParseReceives md = 1) :
    (∀ e, s.Fair t v (v.push e (v.world.setStore s.bucket st))) ∧
      s.Clean (v.world.setStore s.bucket st) := by
  subst hst
  have honly : s.OnlySlot v.world (v.world.setStore s.bucket ((v.world.store s.bucket).put
    (bk s.bucket) (Slot.lease.key x) .empty md)) .lease x := only_put v.world (bk s.bucket)
  have hpay := honly.of_slot (j := .payload) (y := x) (by simp)
  refine fair_only hi ha .put honly (fun o ho => .inl (hpay.symm.trans ho)) (.inl rfl)
    fun l hl => ?_
  rw [s.slot_put_self v.world (bk s.bucket) .empty md] at hl
  obtain rfl := Option.some.inj hl
  exact h.imp_left fun hc => hc.of_slot rfl fun o ho => hpay.symm.trans ho

/-- The dead record is written next to a payload that has been handed out. -/
lemma fair_putDead {st : Store} {body : ByteArray} {md : Metadata} (hi : s.Clean v.world)
    (hc : s.Cleared v.world x)
    (hst : st = (v.world.store s.bucket).put (bk s.bucket) (Slot.dead.key x) body md) :
    (∀ e, s.Fair (c, .main) v (v.push e (v.world.setStore s.bucket st))) ∧
      s.Clean (v.world.setStore s.bucket st) ∧ s.Cleared (v.world.setStore s.bucket st) x := by
  subst hst
  have honly : s.OnlySlot v.world (v.world.setStore s.bucket ((v.world.store s.bucket).put
    (bk s.bucket) (Slot.dead.key x) body md)) .dead x := only_put v.world (bk s.bucket)
  have hpay := honly.of_slot (j := .payload) (y := x) (by simp)
  have hc' : s.Cleared (v.world.setStore s.bucket ((v.world.store s.bucket).put
    (bk s.bucket) (Slot.dead.key x) body md)) x := hc.of_slot rfl fun o ho => hpay.symm.trans ho
  have hstep := fair_only (t := (c, .main)) hi (active_main _) .put honly
    (fun o ho => .inl (hpay.symm.trans ho)) (.inr hc) fun _ _ => .inl hc'
  exact ⟨hstep.1, hstep.2, hc'⟩

lemma fair_erase {k : Slot} (hi : s.Clean v.world) (h : k = .lease ∨ s.Cleared v.world x) :
    (∀ e, s.Fair (c, .main) v (v.push e (v.world.setStore s.bucket
        ((v.world.store s.bucket).erase (k.key x))))) ∧
      s.Clean (v.world.setStore s.bucket ((v.world.store s.bucket).erase (k.key x))) := by
  have honly : s.OnlySlot v.world (v.world.setStore s.bucket
    ((v.world.store s.bucket).erase (k.key x))) k x := only_erase v.world
  have hsub (k' : Slot) (o : Object) (ho : s.slot (v.world.setStore s.bucket
      ((v.world.store s.bucket).erase (k.key x))) k' x = some o) :
      s.slot v.world k' x = some o := by
    by_cases hk : k' = k
    · subst hk
      exact absurd ((s.slot_erase_self v.world).symm.trans ho) (by simp)
    · exact (honly.of_slot hk).symm.trans ho
  refine fair_only hi (active_main _) .erase honly (fun o ho => .inl (hsub _ o ho)) h fun l hl => ?_
  exact (hi x l (hsub _ l hl)).imp_left fun hc => hc.of_slot rfl (hsub _)

/-! ## While a client is engaged -/

section Contract

variable {flt : Faults} {E : Type} {env : E → World B C → Option (World B C)}

lemma slateHandles (henv : ClockOnly env) : Handles (s.slateContract bk flt env) where
  env := by
    rintro v v' ⟨d, w, hw, -, rfl⟩
    exact (henv d _ w hw).2
  frame hg := hg.frame
  handle hg := hg.handle
  quiet _ hi ha := ⟨.quiet ha, hi⟩
  flags := by
    intro t v e f hi hstep hf _
    refine ⟨.setMem hstep fun msg hnone hsome => ?_, Clean.setMem hi hstep⟩
    simp [Mem.onMessage, hnone] at hsome

/-- What the others do. -/
lemma slate_cases (henv : ClockOnly env) (h : (s.slateContract bk flt env).Interf t v v') :
    ∃ e w, v' = v.push e w ∧ e.thread ≠ some t ∧
      (v.world.store s.bucket).Follows (w.store s.bucket) ∧
      ∀ x o, s.slot w .payload x = some o →
        s.slot v.world .payload x = some o ∨ ∀ u, ¬ s.Engaged v u x := by
  obtain ⟨-, -, ⟨d, w, hw, -, rfl⟩ | ⟨u, hu, ⟨e, w, he, rfl⟩, hg⟩⟩ := h
  · have hst := (henv d _ w hw).1
    refine ⟨_, w, rfl, nofun, by rw [hst]; exact .refl _, fun x o ho => .inl ?_⟩
    simpa only [slot, hst] using ho
  · exact ⟨e, w, rfl, by simpa [he] using hu, hg.follows, hg.born⟩

lemma slate_follows (henv : ClockOnly env) (h : (s.slateContract bk flt env).Rely t v v') :
    (v.world.store s.bucket).Follows (v'.world.store s.bucket) := by
  refine Rely.of_step (R := fun v v' =>
    (v.world.store s.bucket).Follows (v'.world.store s.bucket)) (fun _ => .refl _)
    .trans (fun hs => ?_) h
  obtain ⟨e, w, rfl, -, hf, -⟩ := slate_cases henv hs
  exact hf

lemma handedOut_rely (henv : ClockOnly env) {ver : Version}
    (h : (s.slateContract bk flt env).Rely t v v') (ho : HandedOut v.world x ver) :
    HandedOut v'.world x ver :=
  ho.imp fun _ hd => deliveredFor_rely (slateHandles henv) h hd

/-- **While a client is engaged with an id, a payload that has been handed out is not replaced.** -/
lemma cleared_rely (henv : ClockOnly env) (h : (s.slateContract bk flt env).Rely t v v')
    (heng : s.Engaged v t x) (hc : s.Cleared v.world x) :
    s.Engaged v' t x ∧ s.Cleared v'.world x := by
  refine h.stable (P := fun v => s.Engaged v t x ∧ s.Cleared v.world x) (fun {v₁ v₂} hs hP => ?_)
    ⟨heng, hc⟩
  have hdel (d : C) (ver : Version) : DeliveredFor v₁.world d x ver → DeliveredFor v₂.world d x ver :=
    deliveredFor_interf (slateHandles henv) hs
  obtain ⟨e, w, rfl, he, -, hborn⟩ := slate_cases henv hs
  obtain ⟨heng, hc⟩ := hP
  refine ⟨?_, fun o ho => ?_⟩
  · rcases heng with ⟨e', hlast, hcom⟩ | ⟨e', hlast, hwin⟩
    · exact .inl ⟨e', (View.lastOf_push_of_ne he).trans hlast, hcom.mono (hdel t.1)⟩
    · exact .inr ⟨e', (View.lastOf_push_of_ne he).trans hlast, hwin⟩
  · rcases hborn x o ho with ho | hnot
    · exact (hc o ho).imp fun d hd => hdel d _ hd
    · exact absurd heng (hnot t)

/-- A call of one's own that engages. -/
lemma engaged_wins (he : e.thread = some t) (hw : s.Wins t x e) : s.Engaged (v.push e w) t x :=
  .inr ⟨e, View.lastOf_push_self he, hw⟩

lemma engaged_commits (he : e.thread = some t) (hc : s.Commits t x w e) :
    s.Engaged (v.push e w) t x := .inl (busy_push he hc)

namespace Slate

section Steps

variable (henv : ClockOnly env) (hb : (bk s.bucket).Fresh)

include henv

/-! ### Enqueue -/

lemma safe_writePayload {body : ByteArray} {attrs : Metadata} {α : Type}
    {Q : α → BView B C → Prop} {k : Except Err Unit → BProg B α}
    (hk : ∀ r v', (s.slateContract bk flt env).Safe (c, .main) Q (k r) v') :
    (s.slateContract bk flt env).Safe (c, .main) Q
      ((s.queue c).writePayload x body attrs >>= k) v := by
  refine safe_writeAll_last hk (fun v₁ hr₁ hi₁ r st hst hadm e => ?_)
    (fun v₁ hr₁ hi₁ e => ⟨.quiet (active_main _), hi₁⟩)
  obtain ⟨hnone, rfl⟩ := Store.write_ifNotExists_ok hst
  obtain ⟨hlease, hrest⟩ := hadm.1.rest _ x _ _ _ _ rfl hnone
  have honly : s.OnlySlot v₁.world (v₁.world.setStore s.bucket ((v₁.world.store s.bucket).put
    (bk s.bucket) (Slot.payload.key x) body attrs)) .payload x := only_put v₁.world (bk s.bucket)
  have hstep := fair_only hi₁ (active_main (c := c) _) .put honly (fun _ _ => .inr hrest)
    (.inr fun o ho => absurd (hnone.symm.trans ho) (by simp)) fun l hl =>
      absurd (hlease.symm.trans ((honly.of_slot (by simp)).symm.trans hl)) (by simp)
  exact ⟨hstep.1 e, hstep.2⟩

lemma safe_enqueue {uuid : String} {body : ByteArray} {attrs : Metadata} :
    (s.slateContract bk flt env).Safe (c, .main) (fun _ _ => True)
      ((s.queue c).enqueue uuid body attrs) v := by
  refine safe_now fun v₁ hr₁ hi₁ _ => ⟨.quiet (active_main _), hi₁, ?_⟩
  refine safe_writePayload henv fun r v₂ => ?_
  split <;> exact .ret fun _ _ _ => trivial

lemma safe_enqueueWithID {id : String} {body : ByteArray} {attrs : Metadata} :
    (s.slateContract bk flt env).Safe (c, .main) (fun _ _ => True)
      ((s.queue c).enqueueWithID id body attrs) v := by
  unfold Queue.enqueueWithID
  split
  · exact .ret fun _ _ _ => trivial
  · refine safe_writePayload henv fun r v₂ => ?_
    split <;> exact .ret fun _ _ _ => trivial

/-! ### Claiming -/

/-- `getLease`, with what the other contract says about the record. -/
lemma safe_getTied {α : Type} {Q : α → BView B C → Prop}
    {k : Except Err (Metadata × Version) → BProg B α}
    (h : ∀ v', (s.slateContract bk flt env).Rely (c, .main) v v' → s.Clean v'.world →
      s.AllTied bk v' → ∀ r e,
      ((∃ o, s.slot v'.world .lease x = some o ∧ r = .ok (o.metadata, o.version)) ∨
        r = .error .notFound ∨ r = .error .backend) →
      (s.slateContract bk flt env).Safe (c, .main) Q (k r) (v'.push e v'.world)) :
    (s.slateContract bk flt env).Safe (c, .main) Q
      ((s.queue c).getLease (Slot.lease.key x) >>= k) v := by
  refine safe_attributes fun v₁ hr₁ hi₁ r hr hadm => ⟨.quiet (active_main _), hi₁, ?_⟩
  obtain ⟨o, ho, rfl⟩ | ⟨-, rfl⟩ | rfl := hr
  · exact h v₁ hr₁ hi₁ hadm.2 _ _ (.inl ⟨o, ho, rfl⟩)
  · exact h v₁ hr₁ hi₁ hadm.2 _ _ (.inr (.inl rfl))
  · exact h v₁ hr₁ hi₁ hadm.2 _ _ (.inr (.inr rfl))

lemma safe_deleteLease {ver : Version} {α : Type} {Q : α → BView B C → Prop}
    {k : Except Err Unit → BProg B α} (hm : Mine (c, .main) v.world)
    (hk : ∀ r v', Mine (c, .main) v'.world →
      (s.slateContract bk flt env).Safe (c, .main) Q (k r) v') :
    (s.slateContract bk flt env).Safe (c, .main) Q
      (delete s.bucket (Slot.lease.key x) [.ifMatch ver] >>= k) v := by
  refine safe_delete (fun v₁ hr₁ hi₁ r st hst _ _ => ?_) (fun v₁ hr₁ hi₁ e _ _ => ?_)
  · have hm₁ := mine_rely (slateHandles henv) hr₁ hm
    obtain ⟨-, rfl⟩ := Store.delete_ok hst
    have hstep := fair_erase (x := x) (k := .lease) (c := c) hi₁ (.inl rfl)
    exact ⟨hstep.1 _, hstep.2, hk _ _ hm₁⟩
  · have hm₁ := mine_rely (slateHandles henv) hr₁ hm
    exact ⟨.quiet (active_main _), hi₁, hk _ _ hm₁⟩

/-- A claim that creates the lease record starts at the count one. -/
lemma safe_createLease {now : ℤ} (hm : Mine (c, .main) v.world) :
    (s.slateContract bk flt env).Safe (c, .main) (fun _ v => Mine (c, .main) v.world)
      ((s.queue c).writeLease (Slot.lease.key x) (s.owner c) now 1 .ifNotExists) v := by
  have H : Handles (s.slateContract bk flt env) := slateHandles henv
  refine safe_writeAll (fun v₁ hr₁ hi₁ r st hst _ _ => ?_) (fun v₁ hr₁ hi₁ e _ _ => ?_)
  · have hm₁ := mine_rely H hr₁ hm
    have hstep := fair_putLease (t := (c, .main)) hi₁ (active_main _)
      (Store.write_ok hst) (.inr ((s.queue c).leaseRecord_count (s.owner c) now 1))
    refine ⟨hstep.1 _, hstep.2, ?_⟩
    cases r with
    | error e => exact .ret fun _ hr _ => mine_rely (v := v₁.push _ _) H hr hm₁
    | ok u =>
        refine safe_attributes fun v₂ hr₂ hi₂ r _ _ => ⟨.quiet (active_main _), hi₂, ?_⟩
        have hm₂ := mine_rely (v := v₁.push _ _) H hr₂ hm₁
        cases r <;> exact .ret fun _ hr _ => mine_rely (v := v₂.push _ _) H hr hm₂
  · have hm₁ := mine_rely H hr₁ hm
    exact ⟨.quiet (active_main _), hi₁,
      .ret fun _ hr _ => mine_rely (v := v₁.push _ _) H hr hm₁⟩

omit henv in
/-- A lease record that a claim or a takeover replaces stands next to a payload that has been handed
out. -/
lemma cleared_of_replaced {l : Object} {body : ByteArray} {md : Metadata} {pre : List Precondition}
    {r : Except Err Unit} (hi : s.Clean v.world) (hm : Mine (c, .main) v.world)
    (hadm : (s.slateContract bk flt env).adm v
      (BEvent.called (c, .main) (.write s.bucket (Slot.lease.key x) body md pre) r))
    (hacc : (v.world.store s.bucket).Accepts (Slot.lease.key x) pre)
    (hl : s.slot v.world .lease x = some l) : s.Cleared v.world x := by
  rcases hi x l hl with hc | hone
  · exact hc
  · intro o ho
    obtain ⟨d, m, hown, hmsg, rfl⟩ := hadm.1.firstClaim c x body md pre r rfl hm.2 hacc o l ho hl hone
    exact ⟨d, m, hmsg, rfl, ((hadm.2.handle d m hmsg).own l hl hown o ho).symm⟩

/-- A claim or a takeover that replaces a lease record. -/
lemma safe_replaceLease {now : ℤ} {n : ℕ} {ver : Version} (hm : Mine (c, .main) v.world)
    (hver : ver ≠ "") :
    (s.slateContract bk flt env).Safe (c, .main)
      (fun res v => Mine (c, .main) v.world ∧
        ∀ ver', res = .ok ver' → s.Engaged v (c, .main) x ∧ s.Cleared v.world x)
      ((s.queue c).writeLease (Slot.lease.key x) (s.owner c) now n (.ifMatch ver)) v := by
  have H : Handles (s.slateContract bk flt env) := slateHandles henv
  refine safe_writeAll (fun v₁ hr₁ hi₁ r st hst _ hadm => ?_) (fun v₁ hr₁ hi₁ e _ _ => ?_)
  · have hm₁ := mine_rely H hr₁ hm
    obtain ⟨l, hl, -, -⟩ := Store.write_ifMatch_ok hver hst
    have hc₁ := cleared_of_replaced hi₁ hm₁ hadm (Store.write_accepts hst) hl
    have hstep := fair_putLease (t := (c, .main)) hi₁ (active_main _)
      (Store.write_ok hst) (.inl hc₁)
    refine ⟨hstep.1 _, hstep.2, ?_⟩
    cases r with
    | error e => exact .ret fun _ hr _ => ⟨mine_rely (v := v₁.push _ _) H hr hm₁, nofun⟩
    | ok u =>
        have hpay : ∀ o, s.slot (v₁.world.setStore s.bucket st) .payload x = some o →
            s.slot v₁.world .payload x = some o := by
          obtain rfl := Store.write_ok hst
          exact fun o ho => ((only_put v₁.world (bk s.bucket)).of_slot (by simp)).symm.trans ho
        refine safe_attributes fun v₂ hr₂ hi₂ r hr _ => ⟨.quiet (active_main _), hi₂, ?_⟩
        have hm₂ := mine_rely (v := v₁.push _ _) H hr₂ hm₁
        obtain ⟨-, hc₂⟩ := cleared_rely (v := v₁.push _ _) henv hr₂
          (engaged_wins rfl (.write _ _ _)) (hc₁.of_slot rfl hpay)
        obtain ⟨o, ho, rfl⟩ | ⟨-, rfl⟩ | rfl := hr
        · refine .ret fun v₃ hr₃ _ => ⟨mine_rely (v := v₂.push _ _) H hr₃ hm₂, fun _ _ => ?_⟩
          exact cleared_rely (v := v₂.push _ _) henv hr₃ (engaged_wins rfl (.readBack _)) hc₂
        · exact .ret fun _ hr _ => ⟨mine_rely (v := v₂.push _ _) H hr hm₂, nofun⟩
        · exact .ret fun _ hr _ => ⟨mine_rely (v := v₂.push _ _) H hr hm₂, nofun⟩
  · have hm₁ := mine_rely H hr₁ hm
    exact ⟨.quiet (active_main _), hi₁,
      .ret fun _ hr _ => ⟨mine_rely (v := v₁.push _ _) H hr hm₁, nofun⟩⟩

/-- The end of a claim: the count is one, or the payload has been handed out before. -/
lemma safe_claimed {now : ℤ} {n : ℕ} {ver : Version} (hm : Mine (c, .main) v.world)
    (hn : n = 1 ∨ (s.Engaged v (c, .main) x ∧ s.Cleared v.world x)) :
    (s.slateContract bk flt env).Safe (c, .main)
      (fun res v => res = .ok none → Mine (c, .main) v.world)
      ((s.queue c).claimed x (s.owner c) now n ver) v := by
  have H : Handles (s.slateContract bk flt env) := slateHandles henv
  refine safe_attributes fun v₁ hr₁ hi₁ r hr _ => ⟨.quiet (active_main _), hi₁, ?_⟩
  have hm₁ := mine_rely H hr₁ hm
  obtain ⟨o, ho, rfl⟩ | ⟨hnone, rfl⟩ | rfl := hr
  · have hout : n = 1 ∨ HandedOut v₁.world x o.version :=
      hn.imp_right fun h => (cleared_rely henv hr₁ h.1 h.2).2 o ho
    refine safe_critical fun v₂ hr₂ hi₂ _ => ?_
    have hm₂ := mine_rely (v := v₁.push _ _) H hr₂ hm₁
    have hstep (mem : Mem) : HandleStep .main (v₂.world.mem c) mem :=
      fun m hmsg => absurd (hm₂.2.symm.trans hmsg) (by simp)
    refine ⟨Fair.setMem (hstep _) fun m _ hmsg => ?_, Clean.setMem (t := (c, .main)) hi₂ (hstep _),
      .ret fun _ _ _ h => by cases h⟩
    cases hmsg
    exact hout.imp_right fun h => handedOut_rely (v := v₁.push _ _) henv hr₂ h
  · exact safe_deleteLease (v := v₁.push _ _) henv hm₁ fun r v₂ hm₂ =>
      .ret fun _ hr _ _ => mine_rely H hr hm₂
  · exact .ret fun _ _ _ h => by cases h

/-! ### Dead letters -/

/-- An engaged client may delete the payload if it has been handed out. -/
lemma safe_deletePayload {α : Type} {Q : α → BView B C → Prop} {k : Except Err Unit → BProg B α}
    (heng : s.Engaged v (c, .main) x) (hc : s.Cleared v.world x)
    (hk : ∀ v₁, (s.slateContract bk flt env).Rely (c, .main) v v₁ → ∀ r e w,
      w.mem = v₁.world.mem → (s.slateContract bk flt env).Safe (c, .main) Q (k r) (v₁.push e w)) :
    (s.slateContract bk flt env).Safe (c, .main) Q
      (delete s.bucket (Slot.payload.key x) [] >>= k) v := by
  refine safe_delete (fun v₁ hr₁ hi₁ r st hst _ _ => ?_) (fun v₁ hr₁ hi₁ e _ _ => ?_)
  · obtain ⟨-, rfl⟩ := Store.delete_ok hst
    have hstep := fair_erase (x := x) (k := .payload) (c := c) hi₁
      (.inr (cleared_rely henv hr₁ heng hc).2)
    exact ⟨hstep.1 _, hstep.2, hk v₁ hr₁ r _ _ rfl⟩
  · exact ⟨.quiet (active_main _), hi₁, hk v₁ hr₁ _ _ _ rfl⟩

lemma safe_removeDead {ver : Version} (hm : Mine (c, .main) v.world)
    (heng : s.Engaged v (c, .main) x) (hc : s.Cleared v.world x) :
    (s.slateContract bk flt env).Safe (c, .main) (fun _ v => Mine (c, .main) v.world)
      ((s.queue c).removeDead x ver) v := by
  have H : Handles (s.slateContract bk flt env) := slateHandles henv
  have hlease : ∀ v' : BView B C, Mine (c, .main) v'.world →
      (s.slateContract bk flt env).Safe (c, .main) (fun _ v => Mine (c, .main) v.world)
        ((s.queue c).removeDeadLease x ver) v' := by
    intro v' hm'
    refine safe_deleteLease henv hm' fun r v₁ hm₁ => ?_
    split <;> exact .ret fun _ hr _ => mine_rely H hr hm₁
  refine safe_deletePayload henv heng hc fun v₁ hr₁ r e w hmem => ?_
  have hm₁ : Mine (c, .main) w := by
    rw [Mine, hmem]
    exact mine_rely H hr₁ hm
  split
  · exact hlease _ hm₁
  · exact hlease _ hm₁
  · exact .ret fun _ hr _ => mine_rely (v := v₁.push e w) H hr hm₁

/-- A dead-letter move touches a payload that has been handed out. -/
lemma safe_deadLetter {n : ℕ} {ver : Version} (hm : Mine (c, .main) v.world)
    (heng : s.Engaged v (c, .main) x) (hc : s.Cleared v.world x) :
    (s.slateContract bk flt env).Safe (c, .main) (fun _ v => Mine (c, .main) v.world)
      ((s.queue c).deadLetter x n ver) v := by
  have H : Handles (s.slateContract bk flt env) := slateHandles henv
  refine safe_attributes fun v₁ hr₁ hi₁ r hr _ => ⟨.quiet (active_main _), hi₁, ?_⟩
  have hm₁ := mine_rely H hr₁ hm
  obtain ⟨-, hc₁⟩ := cleared_rely henv hr₁ heng hc
  obtain ⟨o, ho, rfl⟩ | ⟨hnone, rfl⟩ | rfl := hr
  · refine Safe.bind (Q := fun r v => Mine (c, .main) v.world ∧ (r = .ok () →
      s.Engaged v (c, .main) x ∧ s.Cleared v.world x)) hi₁ ?_ ?_
    · refine safe_readAll fun v₂ hr₂ hi₂ r hr _ => ⟨.quiet (active_main _), hi₂, ?_⟩
      have hm₂ := mine_rely (v := v₁.push _ _) H hr₂ hm₁
      obtain ⟨-, hc₂⟩ := cleared_rely (v := v₁.push _ _) henv hr₂
        (engaged_commits rfl (.attributes _ (by simp))) hc₁
      obtain ⟨o', ho', rfl⟩ | ⟨hnone, rfl⟩ | rfl := hr
      · refine safe_writeAll (fun v₃ hr₃ hi₃ r st hst _ _ => ?_) (fun v₃ hr₃ hi₃ e _ _ => ?_)
        · have hm₃ := mine_rely (v := v₂.push _ _) H hr₃ hm₂
          obtain ⟨-, hc₃⟩ := cleared_rely (v := v₂.push _ _) henv hr₃
            (engaged_commits rfl (.read _ (by simp))) hc₂
          obtain ⟨hfair, hi', hc'⟩ := fair_putDead (c := c) hi₃ hc₃ (Store.write_ok hst)
          refine ⟨hfair _, hi', .ret fun _ hr _ =>
            ⟨mine_rely (v := v₃.push _ _) H hr hm₃, ?_⟩⟩
          rintro rfl
          exact cleared_rely (v := v₃.push _ _) henv hr (engaged_commits rfl (.bury _ _ _)) hc'
        · have hm₃ := mine_rely (v := v₂.push _ _) H hr₃ hm₂
          exact ⟨.quiet (active_main _), hi₃,
            .ret fun _ hr _ => ⟨mine_rely (v := v₃.push _ _) H hr hm₃, nofun⟩⟩
      · refine .ret fun _ hr _ => ⟨mine_rely (v := v₂.push _ _) H hr hm₂, fun _ => ?_⟩
        exact cleared_rely (v := v₂.push _ _) henv hr (engaged_commits rfl (.read _ (by simp))) hc₂
      · exact .ret fun _ hr _ => ⟨mine_rely (v := v₂.push _ _) H hr hm₂, nofun⟩
    · rintro r v₂ - ⟨hm₂, hd⟩
      cases r with
      | error e => exact .ret fun _ hr _ => mine_rely H hr hm₂
      | ok u => exact safe_removeDead henv hm₂ (hd rfl).1 (hd rfl).2
  · exact safe_removeDead (v := v₁.push _ _) henv hm₁
      (engaged_commits rfl (.attributes _ (by simp))) hc₁
  · exact .ret fun _ hr _ => mine_rely (v := v₁.push _ _) H hr hm₁

/-! ### Receive -/

include hb in
lemma safe_tryClaim (hm : Mine (c, .main) v.world) :
    (s.slateContract bk flt env).Safe (c, .main)
      (fun res v => res = .ok none → Mine (c, .main) v.world)
      ((s.queue c).tryClaim x (s.owner c)) v := by
  have H : Handles (s.slateContract bk flt env) := slateHandles henv
  have hdone : ∀ (e : Err) (v' : BView B C), (s.slateContract bk flt env).Safe (c, .main)
      (fun res v => res = .ok none → Mine (c, .main) v.world)
      (.ret (.error e) : BProg B (Except Err (Option Message))) v' :=
    fun e v' => .ret fun _ _ _ h => by cases h
  refine safe_getTied henv fun v₁ hr₁ _ htied lease e₁ hlease => ?_
  have hm₁ := mine_rely H hr₁ hm
  refine safe_now fun v₂ hr₂ hi₂ _ => ⟨.quiet (active_main _), hi₂, ?_⟩
  have hm₂ := mine_rely (v := v₁.push _ _) H hr₂ hm₁
  obtain ⟨o, ho, rfl⟩ | rfl | rfl := hlease
  · have hver := htied.store.version_ne hb ho
    simp only
    split
    · exact .ret fun _ hr _ _ => mine_rely (v := v₂.push _ _) H hr hm₂
    · split
      · refine Safe.bind hi₂ (safe_replaceLease (v := v₂.push _ _) henv hm₂ hver) ?_
        rintro res v₃ hi₃ ⟨hm₃, hwon⟩
        split
        · exact .ret fun _ hr _ _ => mine_rely H hr hm₃
        · exact .ret fun _ hr _ _ => mine_rely H hr hm₃
        · exact hdone _ _
        · obtain ⟨heng, hc⟩ := hwon _ rfl
          refine Safe.bind hi₃ (safe_deadLetter henv hm₃ heng hc) fun r v₄ _ hm₄ => ?_
          split
          · exact hdone _ _
          · exact .ret fun _ hr _ _ => mine_rely H hr hm₄
      · refine Safe.bind hi₂ (safe_replaceLease (v := v₂.push _ _) henv hm₂ hver) ?_
        rintro res v₃ hi₃ ⟨hm₃, hwon⟩
        split
        · exact .ret fun _ hr _ _ => mine_rely H hr hm₃
        · exact .ret fun _ hr _ _ => mine_rely H hr hm₃
        · exact hdone _ _
        · exact safe_claimed henv hm₃ (.inr (hwon _ rfl))
  · refine Safe.bind hi₂ (safe_createLease (v := v₂.push _ _) henv hm₂) ?_
    rintro res v₃ hi₃ hm₃
    split
    · exact .ret fun _ hr _ _ => mine_rely H hr hm₃
    · exact hdone _ _
    · exact safe_claimed henv hm₃ (.inl rfl)
  · exact hdone _ _

/-! ### The renewer, Ack and Nack -/

include hb in
/-- The renewer swaps only next to the payload of its handle. -/
lemma safe_renewOnce {n : ℕ} {ver : Version} {now d : ℤ} (hrun : Running v.world c x n ver d) :
    (s.slateContract bk flt env).Safe (c, .renewer) (fun _ v => Mine (c, .renewer) v.world)
      ((s.queue c).renewOnce (Slot.lease.key x) (s.owner c) n now) v := by
  have H : Handles (s.slateContract bk flt env) := slateHandles henv
  refine safe_messageField H hrun fun v₁ hr₁ hi₁ e m hm hver _ hrun₁ _ => ?_
  rw [hver]
  refine Safe.bind (Q := fun _ v => Mine (c, .renewer) v.world) hi₁ ?_ ?_
  · refine safe_writeAll (fun v₂ hr₂ hi₂ r st hst _ hadm => ?_) (fun v₂ hr₂ hi₂ e _ _ => ?_)
    · have hrun₂ := running_rely (v := v₁.push _ _) H hr₂ hrun₁
      have hc₂ : s.Cleared v₂.world x := by
        obtain ⟨m₂, hm₂, -, rfl, -, rfl, -⟩ := id hrun₂
        have hok := hadm.2.handle c m₂ hm₂
        obtain ⟨l, hl, hlv, -⟩ := Store.write_ifMatch_ok (hok.issued.ne_empty hb) hst
        exact fun o ho => ⟨c, m₂, hm₂, rfl, (hok.tied l hl hlv o ho).symm⟩
      have hstep := fair_putLease (t := (c, .renewer)) hi₂ hrun₂.mine.active (Store.write_ok hst)
        (.inl hc₂)
      refine ⟨hstep.1 _, hstep.2, ?_⟩
      cases r with
      | error e => exact .ret fun _ hr _ => mine_rely (v := v₂.push _ _) H hr hrun₂.mine
      | ok u =>
          refine safe_attributes fun v₃ hr₃ hi₃ r _ _ => ?_
          have hm₃ := mine_rely (v := v₂.push _ _) H hr₃ hrun₂.mine
          refine ⟨.quiet hm₃.active, hi₃, ?_⟩
          cases r <;> exact .ret fun _ hr _ => mine_rely (v := v₃.push _ _) H hr hm₃
    · have hm₂ := mine_rely (v := v₁.push _ _) H hr₂ hrun₁.mine
      exact ⟨.quiet hm₂.active, hi₂, .ret fun _ hr _ => mine_rely (v := v₂.push _ _) H hr hm₂⟩
  · rintro res v₂ hi₂ hm₂
    cases res with
    | error e => exact .ret fun _ hr _ => mine_rely H hr hm₂
    | ok newVersion =>
        refine safe_critical fun v₃ hr₃ hi₃ _ => ?_
        obtain ⟨m₃, hm₃, hst₃⟩ := mine_rely H hr₃ hm₂
        have hstep : HandleStep .renewer (v₃.world.mem c) ((v₃.world.mem c).onMessage fun m =>
            { m with version := newVersion, leaseUntil := now + (s.queue c).lease }) :=
          ⟨m₃, hm₃, hst₃, _, Mem.onMessage_some hm₃, rfl, rfl, rfl, rfl⟩
        refine ⟨Fair.setMem hstep fun msg hnone _ => ?_, Clean.setMem (t := (c, .renewer)) hi₃ hstep,
          .ret fun _ hr _ => mine_rely H hr ⟨_, World.message_onMessage hm₃, hst₃⟩⟩
        exact absurd (hnone.symm.trans hm₃) (by simp)

omit henv in
include hb in
/-- How `Ack` and `Nack` go on with a lease record that is their own: the record that they swap or
delete on its version is the one they have read, and its payload is the one of the handle. -/
lemma cleared_of_own {m : Message} {o o' : Object} (hi : s.AllTied bk v) (hi' : s.AllTied bk v')
    (hf : (v.world.store s.bucket).Follows (v'.world.store s.bucket))
    (ho : s.slot v.world .lease m.id = some o) (hown : s.OwnedBy c o)
    (ho' : s.slot v'.world .lease m.id = some o') (hov : o'.version = o.version)
    (hm : (v'.world.mem c).message = some m) : s.Cleared v'.world m.id := by
  obtain rfl := Rest.own_same hb hi ho hi' hf ho' hov
  exact fun p hp => ⟨c, m, hm, rfl, ((hi'.handle c m hm).own o' ho' hown p hp).symm⟩

include hb in
lemma safe_ack {ver : Version} (hi : s.Clean v.world) (hd : DeliveredFor v.world c x ver) :
    (s.slateContract bk flt env).Safe (c, .main) (fun _ _ => True)
      ((s.queue c).ack (Slot.payload.key x) (Slot.lease.key x) (s.owner c)) v := by
  have H : Handles (s.slateContract bk flt env) := slateHandles henv
  refine safe_settle_then H hi hd (fun _ => .ret fun _ _ _ => trivial)
    fun v₁ m _ hle hcl₁ hid hpv => ?_
  subst hid
  refine safe_getTied henv fun v₂ hr₂ _ htied₂ res e₂ hres => ?_
  have hcl₂ := closing_rely H hr₂ hcl₁
  obtain ⟨o, ho, rfl⟩ | rfl | rfl := hres
  · simp only
    split
    · exact .ret fun _ _ _ => trivial
    · rename_i hown
      refine safe_delete (fun v₃ hr₃ hi₃ res st hst _ hadm₃ => ?_) (fun v₃ hr₃ hi₃ e _ _ => ?_)
      · have hcl₃ := closing_rely (v := v₂.push _ _) H hr₃ hcl₂
        obtain ⟨o', ho', hov, rfl⟩ := Store.delete_ifMatch_ok (htied₂.store.version_ne hb ho) hst
        have hc₃ := cleared_of_own hb htied₂ hadm₃.2 (slate_follows (v := v₂.push _ _) henv hr₃) ho
          (not_not.mp hown) ho' hov hcl₃.1
        have hstep := fair_erase (x := m.id) (k := .lease) (c := c) hi₃ (.inl rfl)
        refine ⟨hstep.1 _, hstep.2, ?_⟩
        split
        · exact .ret fun _ _ _ => trivial
        · exact .ret fun _ _ _ => trivial
        · exact .ret fun _ _ _ => trivial
        · -- from the deletion of the lease on, the client is engaged until it has deleted the payload
          refine safe_deletePayload henv ?_ ?_ fun v₄ _ r e w _ => ?_
          · exact engaged_commits rfl (.release m.payloadVersion ⟨m, hcl₃.1, rfl, rfl⟩ _)
          · exact hc₃.of_slot rfl fun p hp => ((only_erase v₃.world).of_slot (by simp)).symm.trans hp
          · split <;> exact .ret fun _ _ _ => trivial
      · refine ⟨.quiet (active_main _), hi₃, ?_⟩
        split
        · exact .ret fun _ _ _ => trivial
        · exact .ret fun _ _ _ => trivial
        · exact .ret fun _ _ _ => trivial
        · rename_i heq
          cases heq
  · exact .ret fun _ _ _ => trivial
  · exact .ret fun _ _ _ => trivial

include hb in
lemma safe_nack {ver : Version} (hi : s.Clean v.world) (hd : DeliveredFor v.world c x ver) :
    (s.slateContract bk flt env).Safe (c, .main) (fun _ _ => True)
      ((s.queue c).nack (Slot.lease.key x) (s.owner c)) v := by
  have H : Handles (s.slateContract bk flt env) := slateHandles henv
  refine safe_settle_then H hi hd (fun _ => .ret fun _ _ _ => trivial)
    fun v₁ m _ hle hcl₁ hid hpv => ?_
  subst hid
  refine safe_getTied henv fun v₂ hr₂ _ htied₂ res e₂ hres => ?_
  have hcl₂ := closing_rely H hr₂ hcl₁
  obtain ⟨o, ho, rfl⟩ | rfl | rfl := hres
  · simp only
    split
    · exact .ret fun _ _ _ => trivial
    · rename_i hown
      refine safe_now fun v₃ hr₃ hi₃ _ => ⟨.quiet (active_main _), hi₃, ?_⟩
      have hcl₃ := closing_rely (v := v₂.push _ _) H hr₃ hcl₂
      refine safe_writeAll_last (fun r v₄ => ?_) (fun v₄ hr₄ hi₄ _ st hst hadm₄ e => ?_)
        (fun v₄ hr₄ hi₄ e => ⟨.quiet (active_main _), hi₄⟩)
      · split <;> exact .ret fun _ _ _ => trivial
      · have hcl₄ := closing_rely (v := v₃.push _ _) H hr₄ hcl₃
        obtain ⟨o', ho', hov, hst'⟩ := Store.write_ifMatch_ok (htied₂.store.version_ne hb ho) hst
        have hc₄ := cleared_of_own hb htied₂ hadm₄.2 ((slate_follows (v := v₂.push _ _) henv
          hr₃).trans (slate_follows (v := v₃.push _ _) henv hr₄)) ho (not_not.mp hown) ho' hov hcl₄.1
        have hstep := fair_putLease (t := (c, .main)) hi₄ (active_main _) hst' (.inl hc₄)
        exact ⟨hstep.1 e, hstep.2⟩
  · exact .ret fun _ _ _ => trivial
  · exact .ret fun _ _ _ => trivial

end Steps

variable (flt) in
/-- The contract's obligations. -/
lemma sound (henv : ClockOnly env) (hb : (bk s.bucket).Fresh) (hl : (bk s.bucket).ListsStored)
    {w₀ : World B C} (h₀ : s.Initial w₀) : (s.slateContract bk flt env).Sound w₀ where
  init := ⟨fun x l hl => absurd ((h₀.slot _).symm.trans hl) (by simp), fun _ => trivial⟩
  env := by
    rintro v v' hi ⟨d, w, hw, -, rfl⟩
    obtain ⟨hst, hmem⟩ := henv d _ w hw
    simpa only [slateContract, Clean, Cleared, HandedOut, DeliveredFor, slot, View.push_world, hst,
      hmem] using hi
  stable _ _ _ _ _ := trivial
  start := by
    rintro ⟨c, g⟩ e v p w hi - hadm hstart
    change s.start (c, g) e v.world = some (p, w) at hstart
    have hcall (h : (v.world.mem c).called = false) :
        s.Fair (c, .main) v (v.push (.start (c, .main) e) (v.world.setMem c { called := true })) ∧
          s.Clean (v.world.setMem c { called := true }) ∧
          Mine (c, .main) (v.world.setMem c { called := true }) := by
      have hstep : HandleStep .main (v.world.mem c) { called := true } := fun m hm =>
        absurd ((hadm.2.uncalled c h).symm.trans hm) (by simp)
      exact ⟨Fair.setMem hstep (by simp), Clean.setMem (t := (c, .main)) hi hstep, by simp, by simp⟩
    cases start_cases hstart with
    | enqueue body attrs h =>
        obtain ⟨hg, hi', -⟩ := hcall h
        exact ⟨hg, hi', Safe.discard hi' (fun _ h => h) (safe_enqueue henv)⟩
    | enqueueWithID id body attrs h =>
        obtain ⟨hg, hi', -⟩ := hcall h
        exact ⟨hg, hi', Safe.discard hi' (fun _ h => h) (safe_enqueueWithID henv)⟩
    | tryReceive h =>
        obtain ⟨hg, hi', hm⟩ := hcall h
        exact ⟨hg, hi', Safe.discard hi' (fun _ h => h) (safe_tryReceive
          (K := s.slateContract bk flt env) (slateHandles henv) hl
          (fun _ hm _ => safe_tryClaim henv hb hm) hm)⟩
    | ack m hm =>
        have hok := hadm.2.handle c m hm
        refine ⟨.quiet (active_main _), hi, Safe.discard hi (fun _ h => h) ?_⟩
        rw [hok.msgPath, hok.leasePath, hok.owner]
        exact safe_ack (v := v.push _ _) henv hb hi ⟨m, hm, rfl, rfl⟩
    | nack m hm =>
        have hok := hadm.2.handle c m hm
        refine ⟨.quiet (active_main _), hi, Safe.discard hi (fun _ h => h) ?_⟩
        rw [hok.leasePath, hok.owner]
        exact safe_nack (v := v.push _ _) henv hb hi ⟨m, hm, rfl, rfl⟩
    | renew fuel m hm hst =>
        have hok := hadm.2.handle c m hm
        have hmine : Mine (c, .renewer) v.world := ⟨m, hm, hst⟩
        rw [hok.leasePath, hok.owner]
        exact ⟨.quiet hmine.active, hi, safe_renewLoop (K := s.slateContract bk flt env)
          (v := v.push _ _) (slateHandles henv) hi hmine ⟨m, hm, rfl, rfl⟩ fuel
          (fun _ _ _ _ hrun _ => safe_renewOnce henv hb hrun)⟩

end Slate

end Contract

/-! ## The theorem -/

variable (s) in
/-- Whether the latest step of the thread may leave it engaged with the id. -/
def maybeEngaged (v : BView B C) (t : Thread C) (x : String) : Bool :=
  maybeBusy v t x || match v.lastOf t with
    | some (.call _ (.attributes _ key) _) => key == Slot.lease.key x
    | _ => false

lemma Engaged.maybeEngaged (h : s.Engaged v t x) : maybeEngaged v t x = true := by
  rcases h with hbusy | ⟨e, hlast, hwin⟩
  · simp [QueueSetup.maybeEngaged, hbusy.maybeBusy]
  · cases hwin <;> simp [QueueSetup.maybeEngaged, maybeBusy, hlast]

variable (s) in
/-- Whether a step keeps to the condition, and no claim replaces a lease record. -/
def isCleanSlate (v : BView B C) : BEvent B C → Bool
  | .call (c, g) (.write _ key _ _ _) _ =>
      ((cutPrefix key queueMsgPrefix).all fun x => (s.slot v.world .payload x).isSome ||
        ((s.slot v.world .lease x).isNone &&
          v.hist.all fun p => p.1.thread.all fun u => !maybeEngaged v u x)) &&
      (g == .renewer || (v.world.mem c).message.isSome ||
        (cutPrefix key queueLeasePrefix).all fun x => (s.slot v.world .lease x).isNone)
  | _ => true

lemma cleanSlate_of_isCleanSlate (h : s.isCleanSlate v e = true) : s.CleanSlate v e where
  rest := by
    rintro ⟨c, g⟩ x body md pre r rfl hnone
    have hcut : cutPrefix (Slot.payload.key x) queueMsgPrefix = some x := cutPrefix_append _ _
    simp only [isCleanSlate, hcut, hnone, Option.all_some, Option.isSome_none, Bool.false_or,
      Bool.and_eq_true, Option.isNone_iff_eq_none, List.all_eq_true] at h
    refine ⟨h.1.1, fun u heng => ?_⟩
    obtain ⟨e, hlast⟩ : ∃ e, v.lastOf u = some e := by
      rcases heng with ⟨e, hlast, -⟩ | ⟨e, hlast, -⟩ <;> exact ⟨e, hlast⟩
    obtain ⟨p, hp, rfl⟩ := List.mem_map.mp (List.mem_of_find?_eq_some hlast)
    have hu : p.1.thread = some u := by simpa using List.find?_some hlast
    have hall := h.1.2 p hp
    rw [hu, Option.all_some, heng.maybeEngaged] at hall
    cases hall
  firstClaim := by
    rintro c x body md pre r rfl hmsg - o l - hl -
    have hcut : cutPrefix (Slot.lease.key x) queueLeasePrefix = some x := cutPrefix_append _ _
    simp [isCleanSlate, hcut, hmsg, hl] at h

instance [Fintype C] (w : World B C) (x : String) (ver : Version) : Decidable (HandedOut w x ver) := by
  unfold HandedOut
  infer_instance

/-- Two producers and three workers on a queue that delivers a message at most `n` times. -/
def relay (n : ℕ) : QueueSetup Unit (Fin 5) where
  bucket := ()
  lease _ := 30
  headWindow _ := 100
  maxReceives _ := n
  owner := !["p", "a", "b", "q", "d"]
  owner_inj := by decide
  uuid _ := "u"

lemma relay_reach (n : ℕ)
    (as : List (Action ((relay n).machine (fun _ => memBackend) ⟨false, false⟩)))
    (p : Config (bucketSig Unit) (World Unit (Fin 5)) (Thread (Fin 5)) → Bool)
    (h : (((relay n).machine (fun _ => memBackend) ⟨false, false⟩).run
      (Config.init _ _ pristine) as).any p = true) :
    ∃ c, Reach ((relay n).machine (fun _ => memBackend) ⟨false, false⟩) anyStep pristine c ∧
      p c = true := reach_of_run_any h

end QueueSetup

end Blobster
