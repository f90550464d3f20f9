import Blobster.Queue.Footprints

/-!
# A payload is written once

A writer of a payload is open for as long as its body takes to arrive, and only its `Close` looks
whether the message exists.  Many of them may be open for one id, some end with an error, and the
message may be claimed, acked, buried or trimmed meanwhile.  Still, from the commit of a payload to
its removal nothing changes it, and every producer is told the truth about whose payload it is.

The reason is in the calls: the only writes under `msg/` are the create-only commits of the
producers (`Tame` is what all other programs stay within), and a create-only commit finds the id
free or changes nothing.

* `Attempt`, `Began`, `Refused` — a producer's commit step, and what it found.
* `WrittenOnce` — what is to be shown of a run.
* **`Service.payload_written_once`** — it holds of every run.
-/

set_option linter.unusedSectionVars false

namespace Blobster

open Interleave Contract

variable {B C : Type} [DecidableEq B] [DecidableEq C]

/-! ## Programs that write no payload -/

/-- The calls of everyone but a producer: no write of a payload, no change of what was reported. -/
def Tame : Op B → Prop
  | .write _ key _ _ _ => ∀ x, key ≠ queueMsgPrefix ++ x
  | .mem f => ∀ mem, Mem.KeepsReport mem (f mem)
  | _ => True

lemma leaseKey_ne (x y : String) : queueLeasePrefix ++ y ≠ queueMsgPrefix ++ x := fun h =>
  absurd (Slot.key_inj (show Slot.lease.key y = Slot.payload.key x from h)).1 (by simp)

lemma deadKey_ne (x y : String) : queueDeadPrefix ++ y ≠ queueMsgPrefix ++ x := fun h =>
  absurd (Slot.key_inj (show Slot.dead.key y = Slot.payload.key x from h)).1 (by simp)

lemma calm_tame : Calm (Tame : Op B → Prop) where
  attributes _ _ := trivial
  read _ _ := trivial
  delete _ _ _ := trivial
  listPage _ _ _ _ := trivial
  now := trivial
  randIntN _ := trivial
  mem _ h := fun mem => (h mem).toKeepsReport
  await _ := trivial
  select _ := trivial
  park := trivial

lemma writes_lease (b : B) (x : String) : Writes Tame b (queueLeasePrefix ++ x) :=
  fun _ _ _ y => leaseKey_ne y x

lemma writes_dead (b : B) (x : String) : Writes Tame b (queueDeadPrefix ++ x) :=
  fun _ _ _ y => deadKey_ne y x

/-! ## The commit step of a producer -/

namespace Service

variable (s : Service B C)

/-- The commit step of a producer for an id, from the world `w` with the answer `r` to the world
`w'`.  A call that was cancelled before it got there answers some other error. -/
def Attempt (v : BView B C) (d : C) (x : String) (w : World B C) (r : Except Err Unit)
    (w' : World B C) : Prop :=
  r ≠ .error .backend ∧ ∃ body md, (w, BEvent.called (d, .main)
    (.write s.bucket (Slot.payload.key x) body md [.ifNotExists]) r, w') ∈ v.steps

/-- The commit step of `d` began the lifetime of the payload `o`. -/
def Began (v : BView B C) (d : C) (x : String) (o : Object) : Prop :=
  ∃ w r w', s.Attempt v d x w r w' ∧ s.slot w .payload x = none ∧ s.slot w' .payload x = some o

/-- The commit step of `d` fell into the lifetime of the payload `o`. -/
def Refused (v : BView B C) (d : C) (x : String) (o : Object) : Prop :=
  ∃ w r w', s.Attempt v d x w r w' ∧ s.slot w .payload x = some o

/-- The client has called the entry point. -/
def Issued (v : BView B C) (d : C) (e : Entry) : Prop :=
  ∃ w w', (w, Event.start (d, .main) e, w') ∈ v.steps

/-- The client has called `Enqueue` or `EnqueueWithID` for the id, with this body and these
attributes. -/
inductive Requested (v : BView B C) (d : C) (x : String) (r : Body) (attrs : UserMetadata) : Prop
  | enqueue (now : ℤ) (hx : x = newQueueID now (s.uuid d)) (h : Issued v d (.enqueueStream r attrs))
  | enqueueWithID (h : Issued v d (.enqueueWithIDStream x r attrs))

/-- **Every payload is written once**, by one call that says so, and refused to all others. -/
structure WrittenOnce (v : BView B C) : Prop where
  /-- A step leaves a payload as it is or removes it. -/
  kept : ∀ w e w', (w, e, w') ∈ v.steps → ∀ x o, s.slot w .payload x = some o →
    s.slot w' .payload x = some o ∨ s.slot w' .payload x = none
  /-- A payload is the complete body and the normalised attributes of exactly one call, the one whose
  commit began its lifetime; if that call has returned, it reported to have created the message. -/
  source : ∀ w ∈ v.worlds, ∀ x o, s.slot w .payload x = some o → ∃! d, s.Began v d x o ∧
    ∃ r attrs md, s.Requested v d x r attrs ∧ r.err = none ∧ o.body = r.bytes ∧
      normalizeMetadata s.pf attrs = .ok md ∧ o.metadata = textMetadata md ∧
      ∀ out, (v.world.mem d).reported = some out → out = .ok (x, false)
  /-- A call whose commit step falls into the lifetime of a payload is refused; an `EnqueueWithID`
  reports that the message existed, an `Enqueue` fails. -/
  others : ∀ d x o, s.Refused v d x o → ∀ out, (v.world.mem d).reported = some out →
    ((∃ r attrs, Issued v d (.enqueueWithIDStream x r attrs)) ∧ out = .ok (x, true)) ∨
      ((∃ r attrs, Issued v d (.enqueueStream r attrs)) ∧ out = .error .preconditionFailed)
  /-- Whoever reports to have created a message began its lifetime. -/
  truthful : ∀ d x, (v.world.mem d).reported = some (.ok (x, false)) → ∃ o, s.Began v d x o
  /-- A call that failed, or whose reader fails, began no lifetime. -/
  failed : ∀ d, (∃ e, (v.world.mem d).reported = some (.error e)) ∨
    (∃ r attrs, r.err ≠ none ∧ (Issued v d (.enqueueStream r attrs) ∨
      ∃ y, Issued v d (.enqueueWithIDStream y r attrs))) → ∀ x o, ¬ s.Began v d x o

/-! ## The invariant -/

/-- The entry points of a producer. -/
def isEnqueue : Entry → Bool
  | .enqueueStream _ _ => true
  | .enqueueWithIDStream _ _ _ => true
  | _ => false

/-- What the call of `d` has to do with the payload `o` that it committed. -/
def FromCall (v : BView B C) (d : C) (x : String) (o : Object) : Prop :=
  ∃ r attrs md, s.Requested v d x r attrs ∧ r.err = none ∧ o.body = r.bytes ∧
    normalizeMetadata s.pf attrs = .ok md ∧ o.metadata = textMetadata md

/-- What a producer may report after its commit step was refused. -/
def RefusalReport (v : BView B C) (d : C) (x : String) (out : Except Err (String × Bool)) : Prop :=
  ((∃ r attrs, Issued v d (.enqueueWithIDStream x r attrs)) ∧ out = .ok (x, true)) ∨
    ((∃ r attrs, Issued v d (.enqueueStream r attrs)) ∧ out = .error .preconditionFailed)

structure Inv (v : BView B C) : Prop where
  kept : ∀ w e w', (w, e, w') ∈ v.steps → ∀ x o, s.slot w .payload x = some o →
    s.slot w' .payload x = some o ∨ s.slot w' .payload x = none
  begun : ∀ w ∈ v.worlds, ∀ x o, s.slot w .payload x = some o → ∃ d, s.Began v d x o
  below : ∀ d x o, s.Began v d x o → o.seq < (v.world.store s.bucket).next
  single : ∀ d d' x x' o o', s.Began v d x o → s.Began v d' x' o' → o.seq = o'.seq → d = d'
  source : ∀ d x o, s.Began v d x o → s.FromCall v d x o ∧
    ∀ out, (v.world.mem d).reported = some out → out = .ok (x, false)
  others : ∀ d x o, s.Refused v d x o → ∀ out, (v.world.mem d).reported = some out →
    RefusalReport v d x out
  truthful : ∀ d x, (v.world.mem d).reported = some (.ok (x, false)) → ∃ o, s.Began v d x o
  once : ∀ d e, Issued v d e → isEnqueue e = true → (v.world.mem d).called = true ∧
    ∀ e', Issued v d e' → isEnqueue e' = true → e' = e
  paths : ∀ d, (v.world.mem d).PathsOk

variable {s} {v : BView B C} {e : BEvent B C} {w : World B C} {d : C} {x : String} {o : Object}

section Growth

variable {v' : BView B C}

lemma Attempt.mono {w' : World B C} {r : Except Err Unit} (h : s.Attempt v d x w r w')
    (hv : v.Le v') : s.Attempt v' d x w r w' := by
  obtain ⟨hr, body, md, hm⟩ := h
  exact ⟨hr, body, md, hv.steps hm⟩

lemma Began.mono (h : s.Began v d x o) (hv : v.Le v') : s.Began v' d x o := by
  obtain ⟨w, r, w', ha, hw, hw'⟩ := h
  exact ⟨w, r, w', ha.mono hv, hw, hw'⟩

lemma Issued.mono {e : Entry} (h : Issued v d e) (hv : v.Le v') : Issued v' d e := by
  obtain ⟨w, w', hm⟩ := h
  exact ⟨w, w', hv.steps hm⟩

lemma Requested.mono {r : Body} {attrs : UserMetadata} (h : s.Requested v d x r attrs)
    (hv : v.Le v') : s.Requested v' d x r attrs := by
  cases h with
  | enqueue now hx h => exact .enqueue now hx (h.mono hv)
  | enqueueWithID h => exact .enqueueWithID (h.mono hv)

lemma FromCall.mono (h : s.FromCall v d x o) (hv : v.Le v') : s.FromCall v' d x o := by
  obtain ⟨r, attrs, md, hreq, h⟩ := h
  exact ⟨r, attrs, md, hreq.mono hv, h⟩

lemma RefusalReport.mono {out : Except Err (String × Bool)} (h : RefusalReport v d x out)
    (hv : v.Le v') : RefusalReport v' d x out := by
  rcases h with ⟨⟨r, attrs, h⟩, hout⟩ | ⟨⟨r, attrs, h⟩, hout⟩
  · exact .inl ⟨⟨r, attrs, h.mono hv⟩, hout⟩
  · exact .inr ⟨⟨r, attrs, h.mono hv⟩, hout⟩

end Growth

/-- The step `e` is the commit step of `d` for the id. -/
def IsAttempt (s : Service B C) (e : BEvent B C) (d : C) (x : String) (r : Except Err Unit) : Prop :=
  r ≠ .error .backend ∧ ∃ body md, e = BEvent.called (d, .main)
    (.write s.bucket (Slot.payload.key x) body md [.ifNotExists]) r

lemma attempt_push {w₁ w₂ : World B C} {r : Except Err Unit} :
    s.Attempt (v.push e w) d x w₁ r w₂ ↔
      (IsAttempt s e d x r ∧ w₁ = v.world ∧ w₂ = w) ∨ s.Attempt v d x w₁ r w₂ := by
  simp only [Attempt, IsAttempt, View.push_steps, List.mem_cons, Prod.mk.injEq]
  constructor
  · rintro ⟨hr, body, md, ⟨rfl, rfl, rfl⟩ | hm⟩
    · exact .inl ⟨⟨hr, body, md, rfl⟩, rfl, rfl⟩
    · exact .inr ⟨hr, body, md, hm⟩
  · rintro (⟨⟨hr, body, md, rfl⟩, rfl, rfl⟩ | ⟨hr, body, md, hm⟩)
    · exact ⟨hr, body, md, .inl ⟨rfl, rfl, rfl⟩⟩
    · exact ⟨hr, body, md, .inr hm⟩

lemma began_push (h : s.Began (v.push e w) d x o) : s.Began v d x o ∨
    ∃ r, IsAttempt s e d x r ∧ s.slot v.world .payload x = none ∧ s.slot w .payload x = some o := by
  obtain ⟨w₁, r, w₂, ha, hw₁, hw₂⟩ := h
  rcases attempt_push.mp ha with ⟨hat, rfl, rfl⟩ | ha
  · exact .inr ⟨r, hat, hw₁, hw₂⟩
  · exact .inl ⟨w₁, r, w₂, ha, hw₁, hw₂⟩

lemma refused_push (h : s.Refused (v.push e w) d x o) : s.Refused v d x o ∨
    ∃ r, IsAttempt s e d x r ∧ s.slot v.world .payload x = some o := by
  obtain ⟨w₁, r, w₂, ha, hw₁⟩ := h
  rcases attempt_push.mp ha with ⟨hat, rfl, -⟩ | ha
  · exact .inr ⟨r, hat, hw₁⟩
  · exact .inl ⟨w₁, r, w₂, ha, hw₁⟩

lemma issued_push {e' : Entry} (h : Issued (v.push e w) d e') :
    Issued v d e' ∨ e = .start (d, .main) e' := by
  obtain ⟨w₁, w₂, hm⟩ := h
  rcases List.mem_cons.mp hm with heq | hm
  · exact .inr (Prod.mk.inj (Prod.mk.inj heq).2).1.symm
  · exact .inl ⟨w₁, w₂, hm⟩

/-- What a step without a commit may do to the memory of the clients. -/
structure MemStep (s : Service B C) (v : BView B C) (e : BEvent B C) (w : World B C) : Prop where
  called : ∀ d, (v.world.mem d).called = true → (w.mem d).called = true
  start : ∀ d e', e = .start (d, .main) e' → isEnqueue e' = true →
    (v.world.mem d).called = false ∧ (w.mem d).called = true
  reported : ∀ d out, (w.mem d).reported = some out → (v.world.mem d).reported = some out ∨
    (∀ x o, s.Began v d x o → out = .ok (x, false)) ∧
      (∀ x o, s.Refused v d x o → RefusalReport v d x out) ∧
      ∀ x, out = .ok (x, false) → ∃ o, s.Began v d x o
  paths : ∀ d, (w.mem d).PathsOk

lemma IsAttempt.eq {key : String} {body : ByteArray} {md : Metadata} {pre : List Precondition}
    {r r' : Except Err Unit} {d' : C}
    (h : IsAttempt s (BEvent.called (d, .main) (.write s.bucket key body md pre) r) d' x r') :
    d' = d ∧ key = Slot.payload.key x ∧ r' = r := by
  obtain ⟨-, body', md', heq⟩ := h
  injection heq with ht ho hr
  injection ho with _ hkey
  exact ⟨(Prod.mk.inj ht).1.symm, hkey, hr.symm⟩

lemma IsAttempt.unique {r r' : Except Err Unit} {d' : C} {y : String} (h : IsAttempt s e d x r)
    (h' : IsAttempt s e d' y r') : d' = d := by
  obtain ⟨-, body, md, rfl⟩ := h
  exact h'.eq.1

/-- What a commit step finds and leaves: the producer has not returned yet, and a payload that was
not there before is its own. -/
structure CommitStep (s : Service B C) (v : BView B C) (w : World B C) (d : C) (x : String) :
    Prop where
  pending : (w.mem d).reported = none
  own : ∀ o, s.slot v.world .payload x = none → s.slot w .payload x = some o →
    o.seq = (v.world.store s.bucket).next ∧ o.seq < (w.store s.bucket).next ∧ s.FromCall v d x o

/-- **What keeps the invariant**: payloads are left alone, removed, or created by a commit step. -/
lemma Inv.push (h : s.Inv v)
    (hkept : ∀ x o, s.slot v.world .payload x = some o →
      s.slot w .payload x = some o ∨ s.slot w .payload x = none)
    (hnew : ∀ x o, s.slot v.world .payload x = none → s.slot w .payload x = some o →
      ∃ d r, IsAttempt s e d x r)
    (hnext : (v.world.store s.bucket).next ≤ (w.store s.bucket).next)
    (hat : ∀ d x r, IsAttempt s e d x r → CommitStep s v w d x) (hmem : MemStep s v e w) :
    s.Inv (v.push e w) := by
  have hle := View.le_push v e w
  have hbegan : ∀ {d x o}, s.Began (v.push e w) d x o → s.Began v d x o ∨
      (∃ r, IsAttempt s e d x r) ∧ (w.mem d).reported = none ∧
        o.seq = (v.world.store s.bucket).next ∧ o.seq < (w.store s.bucket).next ∧
        s.FromCall v d x o := by
    intro d x o hb
    refine (began_push hb).imp_right ?_
    rintro ⟨r, ha, hnone, ho⟩
    exact ⟨⟨r, ha⟩, (hat d x r ha).pending, (hat d x r ha).own o hnone ho⟩
  refine ⟨?_, ?_, ?_, ?_, ?_, ?_, ?_, ?_, hmem.paths⟩
  · intro w₁ e₁ w₂ hm x o ho
    rcases List.mem_cons.mp hm with heq | hm
    · obtain ⟨rfl, -, rfl⟩ := Prod.mk.inj heq |>.imp_right Prod.mk.inj
      exact hkept x o ho
    · exact h.kept w₁ e₁ w₂ hm x o ho
  · intro w₁ hw₁ x o ho
    rcases List.mem_cons.mp hw₁ with rfl | hw₁
    · cases hv : s.slot v.world .payload x with
      | none =>
          obtain ⟨d, r, ha⟩ := hnew x o hv ho
          exact ⟨d, v.world, r, w₁, attempt_push.mpr (.inl ⟨ha, rfl, rfl⟩), hv, ho⟩
      | some o' =>
          have heq : s.slot w₁ .payload x = some o' := (hkept x o' hv).resolve_right (by simp [ho])
          obtain rfl := Option.some.inj (heq.symm.trans ho)
          exact (h.begun _ v.world_mem_worlds x o' hv).imp fun d hb => hb.mono hle
    · exact (h.begun w₁ hw₁ x o ho).imp fun d hb => hb.mono hle
  · intro d x o hb
    rcases hbegan hb with hb | ⟨-, -, -, hlt, -⟩
    · exact (h.below d x o hb).trans_le hnext
    · exact hlt
  · intro d d' x x' o o' hb hb' hseq
    rcases hbegan hb with hb | ⟨⟨r, ha⟩, -, hseq₁, -, -⟩ <;>
      rcases hbegan hb' with hb' | ⟨⟨r', ha'⟩, -, hseq₂, -, -⟩
    · exact h.single d d' x x' o o' hb hb' hseq
    · exact absurd (h.below d x o hb) (by omega)
    · exact absurd (h.below d' x' o' hb') (by omega)
    · exact ha'.unique ha
  · intro d x o hb
    rcases hbegan hb with hb | ⟨-, hopen, -, -, hfrom⟩
    · obtain ⟨hfrom, hrep⟩ := h.source d x o hb
      refine ⟨hfrom.mono hle, fun out hout => ?_⟩
      rcases hmem.reported d out hout with hold | ⟨hout', -, -⟩
      · exact hrep out hold
      · exact hout' x o hb
    · exact ⟨hfrom.mono hle, fun out hout => absurd (hopen.symm.trans hout) (by simp)⟩
  · intro d x o hb out hout
    rcases refused_push hb with hb | ⟨r, ha, -⟩
    · rcases hmem.reported d out hout with hold | ⟨-, hout', -⟩
      · exact (h.others d x o hb out hold).mono hle
      · exact (hout' x o hb).mono hle
    · exact absurd ((hat d x r ha).pending.symm.trans hout) (by simp)
  · intro d x hout
    rcases hmem.reported d _ hout with hold | ⟨-, -, hout'⟩
    · exact (h.truthful d x hold).imp fun o hb => hb.mono hle
    · exact (hout' x rfl).imp fun o hb => hb.mono hle
  · intro d e₁ he₁ hen₁
    rcases issued_push he₁ with hold₁ | rfl
    · refine ⟨hmem.called d (h.once d e₁ hold₁ hen₁).1, fun e₂ he₂ hen₂ => ?_⟩
      rcases issued_push he₂ with hold₂ | rfl
      · exact (h.once d e₁ hold₁ hen₁).2 e₂ hold₂ hen₂
      · have hcalled := (h.once d e₁ hold₁ hen₁).1
        simp [(hmem.start d e₂ rfl hen₂).1] at hcalled
    · refine ⟨(hmem.start d e₁ rfl hen₁).2, fun e₂ he₂ hen₂ => ?_⟩
      rcases issued_push he₂ with hold₂ | heq
      · have hcalled := (h.once d e₂ hold₂ hen₂).1
        simp [(hmem.start d e₁ rfl hen₁).1] at hcalled
      · cases heq
        rfl

/-- A step of a client that leaves the memories as they are. -/
lemma Inv.memStep (h : s.Inv v) (hmem : w.mem = v.world.mem)
    (he : ∀ d e', e ≠ .start (d, .main) e') : MemStep s v e w := by
  refine ⟨?_, fun d e' heq => absurd heq (he d e'), ?_, ?_⟩
  · exact fun d hd => hmem ▸ hd
  · exact fun d out hout => .inl (hmem ▸ hout)
  · exact fun d => hmem ▸ h.paths d

/-- A commit step that found the id free: a lifetime begins. -/
lemma Inv.commit {bk : Backend} {body : ByteArray} {md : Metadata} (h : s.Inv v)
    (hnone : s.slot v.world .payload x = none) (hrep : (v.world.mem d).reported = none)
    (hfrom : s.FromCall v d x ⟨body, md, bk.version (v.world.store s.bucket).next body,
      (v.world.store s.bucket).next⟩) :
    s.Inv (v.push (BEvent.called (d, .main)
      (.write s.bucket (Slot.payload.key x) body md [.ifNotExists]) (.ok ()))
      (v.world.setStore s.bucket
        ((v.world.store s.bucket).put bk (Slot.payload.key x) body md))) := by
  have hother : ∀ y, y ≠ x → s.slot (v.world.setStore s.bucket
      ((v.world.store s.bucket).put bk (Slot.payload.key x) body md)) .payload y =
        s.slot v.world .payload y := fun y hy => s.slot_put_ne v.world bk body md (by simp [hy])
  refine h.push ?_ ?_ ?_ ?_ (h.memStep rfl fun _ _ => nofun)
  · intro y o ho
    have hy : y ≠ x := fun hy => absurd (hnone.symm.trans (hy ▸ ho)) (by simp)
    exact .inl ((hother y hy).trans ho)
  · intro y o hv ho
    by_cases hy : y = x
    · subst hy
      exact ⟨d, .ok (), by simp, body, md, rfl⟩
    · exact absurd (hv.symm.trans ((hother y hy).symm.trans ho)) (by simp)
  · rw [World.setStore_store_self, Store.next_put]
    exact Nat.le_succ _
  · intro d' y r ha
    obtain ⟨rfl, hk, -⟩ := ha.eq
    obtain ⟨-, rfl⟩ := Slot.key_inj hk
    refine ⟨hrep, fun o _ ho => ?_⟩
    obtain rfl := Option.some.inj ((s.slot_put_self v.world bk body md).symm.trans ho)
    rw [World.setStore_store_self, Store.next_put]
    exact ⟨rfl, Nat.lt_succ_self _, hfrom⟩

/-- A step that leaves the store alone; a commit step among them is one that was refused. -/
lemma Inv.same (h : s.Inv v) (hstore : w.store = v.world.store)
    (hat : ∀ d x r, IsAttempt s e d x r → (w.mem d).reported = none) (hmem : MemStep s v e w) :
    s.Inv (v.push e w) := by
  have hslot : ∀ y, s.slot w .payload y = s.slot v.world .payload y := fun y => by
    rw [QueueSetup.slot, QueueSetup.slot, hstore]
  refine h.push (fun y o ho => .inl ((hslot y).trans ho)) (fun y o hv ho => ?_) (by rw [hstore])
    (fun d y r ha => ⟨hat d y r ha, fun o hv ho => ?_⟩) hmem
  · exact absurd (hv.symm.trans ((hslot y).symm.trans ho)) (by simp)
  · exact absurd (hv.symm.trans ((hslot y).symm.trans ho)) (by simp)

/-! ## The contract -/

/-- What a client promises about each of its steps: what the other callers were told stays. -/
structure Guar (t : Thread C) (v v' : BView B C) : Prop where
  others : ∀ d, (d, Goroutine.main) ≠ t → (v'.world.mem d).reported = (v.world.mem d).reported ∧
    (v'.world.mem d).called = (v.world.mem d).called
  called : ∀ d, (v.world.mem d).called = true → (v'.world.mem d).called = true

lemma Guar.same {t : Thread C} (h : w.mem = v.world.mem) : Guar t v (v.push e w) :=
  ⟨fun _ _ => h ▸ ⟨rfl, rfl⟩, fun _ hd => h ▸ hd⟩

/-- The client has made no commit step and reported nothing. -/
structure Fresh (s : Service B C) (d : C) (v : BView B C) : Prop where
  attempts : ∀ x w r w', ¬ s.Attempt v d x w r w'
  reported : (v.world.mem d).reported = none

/-- A client that has made no call has made no commit step. -/
def Idle (s : Service B C) (t : Thread C) (v : BView B C) : Prop :=
  t.2 = .main → (v.world.mem t.1).called = false → Fresh s t.1 v

variable (s) in
/-- The contract: no assumption on the steps. -/
def contract (bk : B → Backend) (flt : Faults) : Contract (s.machine bk flt) where
  adm _ _ := True
  inv := s.Inv
  guar := Guar
  idle := Idle s

variable {bk : B → Backend} {flt : Faults} {v' : BView B C}

/-- The others neither make the client's commit step nor its report. -/
lemma interf_keeps (h : (s.contract bk flt).Interf (d, .main) v v') :
    (∀ x w r w', s.Attempt v' d x w r w' ↔ s.Attempt v d x w r w') ∧
      (v'.world.mem d).reported = (v.world.mem d).reported ∧
      (v'.world.mem d).called = (v.world.mem d).called := by
  have hpush : ∀ {e : BEvent B C} {w₀ : World B C}, e.thread ≠ some (d, .main) →
      ∀ x w r w', s.Attempt (v.push e w₀) d x w r w' ↔ s.Attempt v d x w r w' := by
    intro e w₀ hne x w r w'
    refine attempt_push.trans (or_iff_right ?_)
    rintro ⟨⟨-, body, md, rfl⟩, -⟩
    exact hne rfl
  obtain ⟨-, -, ⟨n, w₁, ⟨⟩, -, rfl⟩ | ⟨u, hu, ⟨e, w₁, he, rfl⟩, hg⟩⟩ := h
  · exact ⟨hpush (by simp [Event.thread]), rfl, rfl⟩
  · refine ⟨hpush (by rw [he]; simpa using hu), hg.others d (Ne.symm hu)⟩

lemma fresh_interf (h : (s.contract bk flt).Interf (d, .main) v v') (hf : Fresh s d v) :
    Fresh s d v' := by
  obtain ⟨ha, hrep, -⟩ := interf_keeps h
  exact ⟨fun x w r w' hat => hf.attempts x w r w' ((ha x w r w').mp hat), hrep.trans hf.reported⟩

/-! ## Everyone but a producer -/

lemma not_attempt_of_tame {t : Thread C} {op : Op B} {r : op.Res} (h : Tame op) (d : C) (x : String)
    (r' : Except Err Unit) : ¬ IsAttempt s (BEvent.called t op r) d x r' := by
  rintro ⟨-, body, md, heq⟩
  injection heq with _ ho
  rw [ho] at h
  exact h x rfl

lemma keepsReport_of_tame {t : Thread C} {ch : Choice} {op : Op B} {r : op.Res} {w w' : World B C}
    (h : Tame op) (he : exec bk flt t op ch w = some (r, w')) (d : C) :
    Mem.KeepsReport (w.mem d) (w'.mem d) := by
  by_cases hmem : ∃ f, op = .mem f
  · obtain ⟨f, rfl⟩ := hmem
    obtain ⟨-, rfl⟩ := exec_mem he
    by_cases hd : d = t.1
    · subst hd
      rw [World.setMem_mem_self]
      exact h _
    · rw [World.setMem_mem_ne _ _ _ hd]
      exact .refl _
  · rw [exec_memory he fun f hf => hmem ⟨f, hf⟩]
    exact .refl _

/-- A call that writes no payload keeps the contract. -/
lemma tame_step {t : Thread C} {ch : Choice} {op : Op B} {r : op.Res} (hi : s.Inv v)
    (htame : Tame op) (he : exec bk flt t op ch v.world = some (r, w)) :
    Guar t v (v.push (BEvent.called t op r) w) ∧ s.Inv (v.push (BEvent.called t op r) w) := by
  have hkeep := keepsReport_of_tame htame he
  refine ⟨⟨fun d _ => ⟨(hkeep d).reported, (hkeep d).called⟩,
    fun d hd => (hkeep d).called.trans hd⟩, hi.push ?_ ?_ (exec_follows he s.bucket).next_le
      (fun d x r' ha => (not_attempt_of_tame htame d x r' ha).elim) ⟨?_, ?_, ?_, ?_⟩⟩
  · intro x o ho
    by_cases hsame : s.slot w .payload x = s.slot v.world .payload x
    · exact .inl (hsame.trans ho)
    · obtain ⟨body, md, pre, rfl, -, -⟩ | ⟨pre, rfl, hnone⟩ :=
        exec_get he s.bucket (Slot.payload.key x) hsame
      · exact absurd rfl (htame x)
      · exact .inr hnone
  · intro x o hv ho
    have hne : s.slot w .payload x ≠ s.slot v.world .payload x := by simp [hv, ho]
    obtain ⟨body, md, pre, rfl, -, -⟩ | ⟨pre, rfl, hnone⟩ :=
      exec_get he s.bucket (Slot.payload.key x) hne
    · exact absurd rfl (htame x)
    · exact absurd (ho.symm.trans hnone) (by simp)
  · exact fun d hd => (hkeep d).called.trans hd
  · exact fun d e' heq => nomatch heq
  · exact fun d out hout => .inl ((hkeep d).reported.symm.trans hout)
  · exact fun d => (hkeep d).paths (hi.paths d)

/-- The client's call has been issued. -/
def HasCalled (t : Thread C) (v : BView B C) : Prop := t.2 = .main → (v.world.mem t.1).called = true

lemma hasCalled_interf {t : Thread C} (h : (s.contract bk flt).Interf t v v')
    (hc : HasCalled t v) : HasCalled t v' := by
  obtain ⟨d, g⟩ := t
  intro hg
  obtain rfl : g = .main := hg
  exact (interf_keeps h).2.2.trans (hc rfl)

lemma HasCalled.idle {t : Thread C} (h : HasCalled t v) : Idle s t v := fun ht hc =>
  absurd ((h ht).symm.trans hc) (by simp)

lemma idle_interf {t : Thread C} (h : (s.contract bk flt).Interf t v v') (hidle : Idle s t v) :
    Idle s t v' := by
  obtain ⟨d, g⟩ := t
  intro hg hc
  obtain rfl : g = .main := hg
  exact fresh_interf h (hidle rfl ((interf_keeps h).2.2.symm.trans hc))

lemma safe_tame {α : Type} {t : Thread C} {p : BProg B α} (hp : p.Within Tame)
    (hidle : Idle s t v) : (s.contract bk flt).Safe t (fun _ => Idle s t) p v := by
  refine Safe.of_within (P := Tame) (fun h => idle_interf h) ?_ hp hidle
  intro op htame v₁ ch r w hi hidle₁ he _
  obtain ⟨hg, hi'⟩ := tame_step (s := s) hi htame he
  have hkeep := keepsReport_of_tame htame (show exec bk flt t op ch v₁.world = some (r, w) from he) t.1
  refine ⟨hg, hi', fun ht hc => ?_⟩
  have hf := hidle₁ ht (hkeep.called.symm.trans hc)
  refine ⟨fun x w₁ r' w₂ ha => ?_, hkeep.reported.trans hf.reported⟩
  rcases attempt_push.mp ha with ⟨ha, -⟩ | ha
  · exact not_attempt_of_tame htame _ _ _ ha
  · exact hf.attempts x w₁ r' w₂ ha

/-! ## The producers -/

/-- What the commit step of a producer has to do with the answer of `streamPayload`. -/
structure Answered (s : Service B C) (d : C) (x : String) (res : Except Err Unit) (v : BView B C) :
    Prop where
  reported : (v.world.mem d).reported = none
  began : ∀ y o, s.Began v d y o → y = x ∧ res = .ok ()
  refused : ∀ y o, s.Refused v d y o → y = x ∧ res = .error .preconditionFailed
  ok : res = .ok () → ∃ o, s.Began v d x o

lemma Fresh.answered (h : Fresh s d v) (e : Err) : Answered s d x (.error e) v := by
  refine ⟨h.reported, ?_, ?_, nofun⟩
  · rintro y o ⟨w, r, w', ha, -⟩
    exact (h.attempts y w r w' ha).elim
  · rintro y o ⟨w, r, w', ha, -⟩
    exact (h.attempts y w r w' ha).elim

lemma answered_interf {res : Except Err Unit} (h : (s.contract bk flt).Interf (d, .main) v v')
    (hans : Answered s d x res v) : Answered s d x res v' := by
  obtain ⟨ha, hrep, -⟩ := interf_keeps h
  have hbegan : ∀ y o, s.Began v' d y o ↔ s.Began v d y o := fun y o => by
    simp only [Began, ha]
  have hrefused : ∀ y o, s.Refused v' d y o ↔ s.Refused v d y o := fun y o => by
    simp only [Refused, ha]
  exact ⟨hrep.trans hans.reported, fun y o hb => hans.began y o ((hbegan y o).mp hb),
    fun y o hb => hans.refused y o ((hrefused y o).mp hb),
    fun hok => (hans.ok hok).imp fun o hb => (hbegan x o).mpr hb⟩

/-- A step of a producer that is no commit step. -/
lemma fresh_quiet (hi : s.Inv v) (hf : Fresh s d v) {o : Op B} {r : o.Res}
    (hno : ∀ d' x r', ¬ IsAttempt s (BEvent.called (d, .main) o r) d' x r') :
    Guar (d, .main) v (v.push (BEvent.called (d, .main) o r) v.world) ∧
      s.Inv (v.push (BEvent.called (d, .main) o r) v.world) ∧
      Fresh s d (v.push (BEvent.called (d, .main) o r) v.world) := by
  refine ⟨.same rfl, hi.same rfl (fun d' x r' ha => (hno d' x r' ha).elim)
    (hi.memStep rfl fun _ _ => nofun), fun x w r' w' ha => ?_, hf.reported⟩
  rcases attempt_push.mp ha with ⟨ha, -⟩ | ha
  · exact hno _ _ _ ha
  · exact hf.attempts x w r' w' ha

lemma not_attempt {op : Op B} {r : op.Res} (hop : ∀ b key body md pre, op ≠ .write b key body md pre)
    (d' : C) (y : String) (r' : Except Err Unit) :
    ¬ IsAttempt s (BEvent.called (d, .main) op r) d' y r' := by
  rintro ⟨-, body, md, heq⟩
  injection heq with _ ho
  exact hop _ _ _ _ _ ho

/-- A writer that came back holds `buf` and is otherwise the same; nothing has happened meanwhile. -/
def Copied (s : Service B C) (d : C) (wr : MemDriver.Writer) (buf : ByteArray)
    (res : Except Err MemDriver.Writer) (v : BView B C) : Prop :=
  Fresh s d v ∧ ∀ wr', res = .ok wr' → wr' = { wr with buf := buf }

lemma Fresh.copied_error (hf : Fresh s d v) {wr : MemDriver.Writer} {buf : ByteArray} {e : Err} :
    (s.contract bk flt).Safe (d, .main) (Copied s d wr buf) (.ret (.error e)) v :=
  .ret fun _ hr _ => ⟨hr.stable (P := Fresh s d) fresh_interf hf, fun _ h => nomatch h⟩

/-- `ctxErr` looks at the context only. -/
lemma safe_ctxErr {α : Type} {Q : α → BView B C → Prop} {k : Option Err → BProg B α}
    (hf : Fresh s d v)
    (hk : ∀ ctx v₁, Fresh s d v₁ → (s.contract bk flt).Safe (d, .main) Q (k ctx) v₁) :
    (s.contract bk flt).Safe (d, .main) Q (Queue.ctxErr >>= k) v := by
  refine safe_select fun v₁ hr₁ hi₁ stop _ _ => ?_
  have hf₁ := hr₁.stable (P := Fresh s d) fresh_interf hf
  obtain ⟨hg, hi', hf'⟩ := fresh_quiet (o := .select fun _ => true) (r := stop) hi₁ hf₁
    (not_attempt (by simp))
  refine ⟨hg, hi', ?_⟩
  cases stop with
  | true => exact hk (some .backend) _ hf'
  | false => exact hk none _ hf'

lemma safe_writeChunks (ps : List ByteArray) (wr : MemDriver.Writer) (hf : Fresh s d v) :
    (s.contract bk flt).Safe (d, .main) (Copied s d wr (ps.foldl (· ++ ·) wr.buf))
      (Queue.writeChunks wr ps) v := by
  induction ps generalizing wr v with
  | nil =>
      refine .ret fun v' hr _ => ⟨hr.stable (P := Fresh s d) fresh_interf hf, fun wr' h => ?_⟩
      cases h
      rfl
  | cons p ps ih =>
      refine safe_ctxErr hf fun ctx v₁ hf₁ => ?_
      split
      · exact hf₁.copied_error
      · rename_i wr' hwr
        obtain rfl := MemDriver.write_ok hwr
        exact ih { wr with buf := wr.buf ++ p } hf₁

/-- The writer that `io.Copy` hands on holds the whole body, and the reader did not fail. -/
lemma safe_copyBody (r : Body) {wr : MemDriver.Writer} (hbuf : wr.buf = .empty) (hi : s.Inv v)
    (hf : Fresh s d v) :
    (s.contract bk flt).Safe (d, .main)
      (fun res v' => Copied s d wr r.bytes res v' ∧ ((∃ wr', res = .ok wr') → r.err = none))
      (Queue.copyBody wr r) v := by
  refine Safe.bind hi (safe_writeChunks _ wr hf) ?_
  rintro res v₁ - ⟨hf₁, hres⟩
  cases res with
  | error e => exact .ret fun _ hr _ => ⟨⟨hr.stable (P := Fresh s d) fresh_interf hf₁,
      fun _ h => nomatch h⟩, fun h => nomatch h.choose_spec⟩
  | ok wr₁ =>
      have hwr₁ : wr₁ = { wr with buf := r.bytes } := by
        rw [hres wr₁ rfl, hbuf]
        split <;> simp [Body.bytes]
      dsimp only
      split
      · exact .ret fun _ hr _ => ⟨⟨hr.stable (P := Fresh s d) fresh_interf hf₁,
      fun _ h => nomatch h⟩, fun h => nomatch h.choose_spec⟩
      · rename_i herr
        refine .ret fun _ hr _ => ⟨⟨hr.stable (P := Fresh s d) fresh_interf hf₁, fun wr' h => ?_⟩,
          fun _ => herr⟩
        exact (Except.ok.inj h).symm.trans hwr₁

/-- After its commit step, a producer's answer says what the step found. -/
lemma Fresh.attempted (hf : Fresh s d v) {body : ByteArray} {md : Metadata} {r : Except Err Unit}
    (hmem : w.mem = v.world.mem)
    (hfree : s.slot v.world .payload x = none → r = .ok () ∧ ∃ o, s.slot w .payload x = some o)
    (htaken : ∀ o, s.slot v.world .payload x = some o → r = .error .preconditionFailed) :
    Answered s d x r (v.push (BEvent.called (d, .main)
      (.write s.bucket (Slot.payload.key x) body md [.ifNotExists]) r) w) := by
  refine ⟨by rw [View.push_world, hmem]; exact hf.reported, ?_, ?_, fun hr => ?_⟩
  · intro y o hb
    rcases began_push hb with ⟨w₁, r₁, w₂, ha, -⟩ | ⟨r₁, ha, hnone, -⟩
    · exact (hf.attempts y w₁ r₁ w₂ ha).elim
    · obtain ⟨-, rfl⟩ := Slot.key_inj ha.eq.2.1
      exact ⟨rfl, (hfree hnone).1⟩
  · intro y o hb
    rcases refused_push hb with ⟨w₁, r₁, w₂, ha, -⟩ | ⟨r₁, ha, ho⟩
    · exact (hf.attempts y w₁ r₁ w₂ ha).elim
    · obtain ⟨-, rfl⟩ := Slot.key_inj ha.eq.2.1
      exact ⟨rfl, htaken o ho⟩
  · subst hr
    have hnone : s.slot v.world .payload x = none := by
      cases ho : s.slot v.world .payload x with
      | none => rfl
      | some o => exact absurd (htaken o ho) (by simp)
    obtain ⟨-, o, ho⟩ := hfree hnone
    exact ⟨o, v.world, .ok (), w, attempt_push.mpr (.inl ⟨⟨by simp, body, md, rfl⟩, rfl, rfl⟩), hnone,
      ho⟩

/-- The commit step, or a context that was cancelled before it. -/
lemma safe_closePayload (hflt : flt.after = false) {body : ByteArray} {md : Metadata}
    (hf : Fresh s d v) (hfrom : ∀ ver n, s.FromCall v d x ⟨body, md, ver, n⟩) :
    (s.contract bk flt).Safe (d, .main) (Answered s d x)
      (writeAll s.bucket (Slot.payload.key x) body md [.ifNotExists]) v := by
  have hret : ∀ {v₁ : BView B C} {res : Except Err Unit}, Answered s d x res v₁ →
      (s.contract bk flt).Safe (d, .main) (Answered s d x) (.ret res) v₁ := fun hans =>
    .ret fun _ hr _ => hr.stable (P := Answered s d x _) answered_interf hans
  refine safe_writeAll (k := .ret) ?_ ?_
  · intro v₂ hr₂ hi₂ r' st hst hans _
    obtain rfl : r' = .ok () := hans.resolve_right (by simp [hflt])
    obtain ⟨hnone, rfl⟩ := Store.write_ifNotExists_ok hst
    have hf₂ := hr₂.stable (P := Fresh s d) fresh_interf hf
    refine ⟨.same rfl, hi₂.commit hnone hf₂.reported ((hfrom _ _).mono hr₂.le),
      hret (hf₂.attempted rfl (fun _ => ⟨rfl, _, s.slot_put_self _ _ _ _⟩) fun o ho => ?_)⟩
    exact absurd (hnone.symm.trans ho) (by simp)
  · intro v₂ hr₂ hi₂ e hcase _
    have hf₂ := hr₂.stable (P := Fresh s d) fresh_interf hf
    rcases hcase with hst | rfl
    · obtain ⟨rfl, o₀, ho₀⟩ := Store.write_ifNotExists_error hst
      refine ⟨.same rfl, hi₂.same rfl (fun d' y r₁ ha => ?_) (hi₂.memStep rfl fun _ _ => nofun),
        hret (hf₂.attempted rfl (fun hnone => ?_) fun _ _ => rfl)⟩
      · obtain ⟨rfl, -, -⟩ := ha.eq
        exact hf₂.reported
      · exact absurd (hnone.symm.trans ho₀) (by simp)
    · obtain ⟨hg, hi', hf'⟩ := fresh_quiet (o := .write s.bucket (Slot.payload.key x) body md
        [.ifNotExists]) (r := .error .backend) hi₂ hf₂ fun d' y r₁ ha => ha.1 ha.eq.2.2
      exact ⟨hg, hi', hret (hf'.answered _)⟩

/-- **`writePayload`**: the answer says what the commit step found, if the call got that far. -/
lemma safe_streamPayload (hflt : flt.after = false) {r : Body} {attrs : UserMetadata}
    (hreq : s.Requested v d x r attrs) (hi : s.Inv v) (hf : Fresh s d v) :
    (s.contract bk flt).Safe (d, .main) (Answered s d x)
      ((s.queue d).streamPayload s.pf x r attrs) v := by
  have hstop : ∀ {v₁ : BView B C} {e : Err}, Fresh s d v₁ →
      (s.contract bk flt).Safe (d, .main) (Answered s d x) (.ret (.error e)) v₁ := fun hf₁ =>
    .ret fun _ hr _ => (hr.stable (P := Fresh s d) fresh_interf hf₁).answered _
  unfold Queue.streamPayload
  split
  · exact hstop hf
  · rename_i wr hwr
    obtain ⟨hkey, -, hbuf, hmd⟩ := MemDriver.newWriter_payload hwr
    refine Safe.bind hi ((safe_copyBody r hbuf hi hf).grow (P := fun v => s.Requested v d x r attrs)
      (fun hle h => h.mono hle) hreq) ?_
    rintro res v₁ - ⟨⟨⟨hf₁, hres⟩, herr⟩, hreq₁⟩
    cases res with
    | error e => exact hstop hf₁
    | ok wr' =>
        obtain rfl := hres wr' rfl
        have hkey' : wr.key = Slot.payload.key x := hkey
        dsimp only
        rw [hkey']
        exact safe_closePayload hflt hf₁ fun ver n =>
          ⟨r, attrs, wr.opts.metadata, hreq₁, herr ⟨_, rfl⟩, rfl, hmd, rfl⟩

/-- What the result of a producer has to do with its commit step. -/
structure Concluded (s : Service B C) (d : C) (out : Except Err (String × Bool)) (v : BView B C) :
    Prop where
  reported : (v.world.mem d).reported = none
  began : ∀ x o, s.Began v d x o → out = .ok (x, false)
  refused : ∀ x o, s.Refused v d x o → RefusalReport v d x out
  truthful : ∀ x, out = .ok (x, false) → ∃ o, s.Began v d x o

lemma concluded_interf {out : Except Err (String × Bool)}
    (h : (s.contract bk flt).Interf (d, .main) v v') (hc : Concluded s d out v) :
    Concluded s d out v' := by
  obtain ⟨ha, hrep, -⟩ := interf_keeps h
  have hbegan : ∀ y o, s.Began v' d y o ↔ s.Began v d y o := fun y o => by simp only [Began, ha]
  have hrefused : ∀ y o, s.Refused v' d y o ↔ s.Refused v d y o := fun y o => by
    simp only [Refused, ha]
  obtain ⟨e, w, rfl⟩ := h.push
  exact ⟨hrep.trans hc.reported, fun y o hb => hc.began y o ((hbegan y o).mp hb),
    fun y o hb => (hc.refused y o ((hrefused y o).mp hb)).mono (View.le_push _ _ _),
    fun y hy => (hc.truthful y hy).imp fun o hb => (hbegan y o).mpr hb⟩

/-- A result that is decided by the answer of `streamPayload`. -/
lemma Answered.concluded {res : Except Err Unit} {out : Except Err (String × Bool)}
    (h : Answered s d x res v) (hok : res = .ok () → out = .ok (x, false))
    (href : res = .error .preconditionFailed → RefusalReport v d x out)
    (htrue : ∀ y, out = .ok (y, false) → y = x ∧ res = .ok ()) : Concluded s d out v := by
  refine ⟨h.reported, fun y o hb => ?_, fun y o hb => ?_, fun y hy => ?_⟩
  · obtain ⟨rfl, hres⟩ := h.began y o hb
    exact hok hres
  · obtain ⟨rfl, hres⟩ := h.refused y o hb
    exact href hres
  · obtain ⟨rfl, hres⟩ := htrue y hy
    exact h.ok hres

lemma Concluded.safe_ret {out : Except Err (String × Bool)} (h : Concluded s d out v) :
    (s.contract bk flt).Safe (d, .main) (Concluded s d) (.ret out) v :=
  .ret fun _ hr _ => hr.stable (P := Concluded s d out) concluded_interf h

lemma safe_enqueueStream (hflt : flt.after = false) {r : Body} {attrs : UserMetadata}
    (hissued : Issued v d (.enqueueStream r attrs)) (hf : Fresh s d v) :
    (s.contract bk flt).Safe (d, .main) (Concluded s d)
      ((s.queue d).enqueueStream s.pf (s.uuid d) r attrs) v := by
  refine safe_now fun v₁ hr₁ hi₁ _ => ?_
  obtain ⟨hg, hi', hf'⟩ := fresh_quiet (o := .now) (r := v₁.world.clock) hi₁
    (hr₁.stable (P := Fresh s d) fresh_interf hf) (not_attempt nofun)
  have hissued₁ : Issued (v₁.push (BEvent.called (d, .main) .now v₁.world.clock) v₁.world) d
      (.enqueueStream r attrs) := hissued.mono (hr₁.le.trans (View.le_push _ _ _))
  refine ⟨hg, hi', ?_⟩
  refine Safe.bind hi' ((safe_streamPayload hflt (.enqueue _ rfl hissued₁) hi' hf').grow
    (P := fun v => Issued v d (.enqueueStream r attrs)) (fun hle h => h.mono hle) hissued₁) ?_
  rintro res v₂ - ⟨hans, hissued₂⟩
  cases res with
  | error e =>
      refine Concluded.safe_ret (hans.concluded nofun (fun hres => ?_) nofun)
      exact .inr ⟨⟨r, attrs, hissued₂⟩, congrArg _ (Except.error.inj hres)⟩
  | ok u =>
      refine Concluded.safe_ret (hans.concluded (fun _ => rfl) nofun fun y hy => ?_)
      exact ⟨(Prod.mk.inj (Except.ok.inj hy)).1.symm, rfl⟩

lemma safe_enqueueWithIDStream (hflt : flt.after = false) {r : Body} {attrs : UserMetadata}
    (hissued : Issued v d (.enqueueWithIDStream x r attrs)) (hi : s.Inv v) (hf : Fresh s d v) :
    (s.contract bk flt).Safe (d, .main) (Concluded s d)
      ((s.queue d).enqueueWithIDStream s.pf x r attrs) v := by
  unfold Queue.enqueueWithIDStream
  split
  · exact Concluded.safe_ret ((hf.answered (x := x) .backend).concluded nofun nofun nofun)
  · refine Safe.bind hi ((safe_streamPayload hflt (.enqueueWithID hissued) hi hf).grow
      (P := fun v => Issued v d (.enqueueWithIDStream x r attrs)) (fun hle h => h.mono hle)
      hissued) ?_
    rintro res v₂ - ⟨hans, hissued₂⟩
    split
    · exact Concluded.safe_ret (hans.concluded nofun (fun _ => .inl ⟨⟨r, attrs, hissued₂⟩, rfl⟩) nofun)
    · rename_i e hne
      refine Concluded.safe_ret (hans.concluded nofun (fun hres => ?_) nofun)
      exact (hne (Except.error.inj hres)).elim
    · refine Concluded.safe_ret (hans.concluded (fun _ => rfl) nofun fun y hy => ?_)
      exact ⟨(Prod.mk.inj (Except.ok.inj hy)).1.symm, rfl⟩

/-- The report of a result that is decided. -/
lemma safe_reporting {p : BProg B (Except Err (String × Bool))} (hi : s.Inv v)
    (hc : HasCalled (d, .main) v) (hp : (s.contract bk flt).Safe (d, .main) (Concluded s d) p v) :
    (s.contract bk flt).Safe (d, .main) (fun _ => HasCalled (d, .main)) (Queue.reporting p) v := by
  refine Safe.bind hi (hp.frame (P := HasCalled (d, .main)) hasCalled_interf
    (fun hs hc ht => hs.2.called _ (hc ht)) hc) ?_
  rintro out v₁ - ⟨hcon, hc₁⟩
  refine safe_critical fun v₂ hr₂ hi₂ _ => ?_
  have hcon₂ := hr₂.stable (P := Concluded s d out) concluded_interf hcon
  have hc₂ := hr₂.stable (P := HasCalled (d, .main)) hasCalled_interf hc₁
  have hmem : ∀ d', d' ≠ d → (v₂.world.setMem d
      { v₂.world.mem d with reported := some out }).mem d' = v₂.world.mem d' := fun d' hd =>
    World.setMem_mem_ne _ _ _ hd
  have hcalled : ∀ d', ((v₂.world.setMem d
      { v₂.world.mem d with reported := some out }).mem d').called = (v₂.world.mem d').called := by
    intro d'
    by_cases hd : d' = d
    · subst hd
      rw [World.setMem_mem_self]
    · rw [hmem d' hd]
  have hguar : ∀ e, Guar (d, .main) v₂ (v₂.push e (v₂.world.setMem d
      { v₂.world.mem d with reported := some out })) := fun e =>
    ⟨fun d' hd => by
      rw [View.push_world, hmem d' fun h => hd (by rw [h])]
      exact ⟨rfl, rfl⟩, fun d' hd => (hcalled d').trans hd⟩
  refine ⟨hguar _, hi₂.same rfl (fun d' y r ha => (not_attempt nofun d' y r ha).elim) ⟨?_, ?_, ?_, ?_⟩,
    .ret fun v₃ hr₃ _ => hr₃.stable (P := HasCalled (d, .main)) hasCalled_interf
      fun ht => (hguar _).called _ (hc₂ ht)⟩
  · exact fun d' hd => (hcalled d').trans hd
  · exact fun d' e' heq => nomatch heq
  · intro d' out' hout
    by_cases hd : d' = d
    · subst hd
      rw [World.setMem_mem_self] at hout
      obtain rfl := Option.some.inj hout
      exact .inr ⟨hcon₂.began, hcon₂.refused, hcon₂.truthful⟩
    · exact .inl (hmem d' hd ▸ hout)
  · intro d'
    by_cases hd : d' = d
    · subst hd
      rw [World.setMem_mem_self]
      exact hi₂.paths d'
    · rw [hmem d' hd]
      exact hi₂.paths d'

/-! ## The system -/

/-- A call that sets the client's memory up. -/
lemma Inv.called {e : Entry} (hi : s.Inv v) (hnot : (v.world.mem d).called = false) :
    Guar (d, .main) v (v.push (.start (d, .main) e) (v.world.setMem d { called := true })) ∧
      s.Inv (v.push (.start (d, .main) e) (v.world.setMem d { called := true })) := by
  have hmem : ∀ d', d' ≠ d → (v.world.setMem d { called := true }).mem d' = v.world.mem d' :=
    fun d' hd => World.setMem_mem_ne _ _ _ hd
  have hcalled : ∀ d', (v.world.mem d').called = true →
      ((v.world.setMem d { called := true }).mem d').called = true := by
    intro d' hd'
    by_cases hd : d' = d
    · subst hd
      rw [World.setMem_mem_self]
    · rwa [hmem d' hd]
  refine ⟨⟨fun d' hd => ?_, hcalled⟩, hi.same rfl (fun d' y r ha => ?_) ⟨hcalled, ?_, ?_, ?_⟩⟩
  · rw [View.push_world, hmem d' fun h => hd (by rw [h])]
    exact ⟨rfl, rfl⟩
  · obtain ⟨-, body, md, heq⟩ := ha
    cases heq
  · rintro d' e' heq -
    injection heq with ht
    obtain rfl := (Prod.mk.inj ht).1
    exact ⟨hnot, by rw [World.setMem_mem_self]⟩
  · intro d' out hout
    by_cases hd : d' = d
    · subst hd
      rw [World.setMem_mem_self] at hout
      cases hout
    · exact .inl (hmem d' hd ▸ hout)
  · intro d'
    by_cases hd : d' = d
    · subst hd
      rw [World.setMem_mem_self]
      exact fun _ hm => nomatch hm
    · rw [hmem d' hd]
      exact hi.paths d'

/-- The start of a program that is no call of a producer. -/
lemma Inv.started {t : Thread C} {e : Entry} (hi : s.Inv v) (he : isEnqueue e = false) :
    Guar t v (v.push (.start t e) v.world) ∧ s.Inv (v.push (.start t e) v.world) := by
  refine ⟨.same rfl, hi.same rfl (fun d' y r ha => ?_)
    ⟨fun _ hd => hd, fun d' e' heq hen => ?_, fun _ _ hout => .inl hout, hi.paths⟩⟩
  · obtain ⟨-, body, md, heq⟩ := ha
    cases heq
  · cases heq
    exact absurd (he.symm.trans hen) (by simp)

lemma idle_start {t : Thread C} {e : Entry} (h : Idle s t v) :
    Idle s t (v.push (.start t e) v.world) := by
  intro ht hc
  refine ⟨fun x w₁ r w₂ ha => ?_, (h ht hc).reported⟩
  rcases attempt_push.mp ha with ⟨⟨-, body, md, heq⟩, -⟩ | ha
  · cases heq
  · exact (h ht hc).attempts x w₁ r w₂ ha

lemma Fresh.start {e : Entry} (hf : Fresh s d v) :
    Fresh s d (v.push (.start (d, .main) e) (v.world.setMem d { called := true })) := by
  refine ⟨fun x w₁ r w₂ ha => ?_, by rw [View.push_world, World.setMem_mem_self]⟩
  rcases attempt_push.mp ha with ⟨⟨-, body, md, heq⟩, -⟩ | ha
  · cases heq
  · exact hf.attempts x w₁ r w₂ ha

lemma sound (hflt : flt.after = false) {w₀ : World B C} (hinit : s.Initial w₀) :
    (s.contract bk flt).Sound w₀ where
  init := by
    have hsteps : ∀ p, p ∉ (⟨w₀, []⟩ : BView B C).steps := fun p hp => absurd hp List.not_mem_nil
    have hattempt : ∀ d x w r w', ¬ s.Attempt ⟨w₀, []⟩ d x w r w' := by
      rintro d x w r w' ⟨-, body, md, hp⟩
      exact hsteps _ hp
    have hbegan : ∀ d x o, ¬ s.Began ⟨w₀, []⟩ d x o := by
      rintro d x o ⟨w, r, w', ha, -⟩
      exact hattempt d x w r w' ha
    refine ⟨⟨fun w e w' hp => (hsteps _ hp).elim, ?_, fun d x o hb => (hbegan d x o hb).elim,
      fun d d' x x' o o' hb => (hbegan d x o hb).elim, fun d x o hb => (hbegan d x o hb).elim,
      ?_, ?_, ?_, ?_⟩, fun t _ _ => ⟨hattempt t.1, by rw [hinit.mem]⟩⟩
    · intro w hw x o ho
      obtain rfl := List.mem_singleton.mp hw
      exact absurd ((hinit.slot .payload).symm.trans ho) (by simp)
    · rintro d x o ⟨w, r, w', ha, -⟩
      exact (hattempt d x w r w' ha).elim
    · intro d x hout
      rw [hinit.mem] at hout
      cases hout
    · rintro d e ⟨w, w', hp⟩
      exact (hsteps _ hp).elim
    · intro d
      rw [hinit.mem]
      exact fun _ hm => nomatch hm
  env := by
    rintro v v' hi ⟨n, w, ⟨⟩, -, rfl⟩
    refine Inv.same hi rfl (fun d' y r ha => ?_) (Inv.memStep hi rfl fun _ _ => nofun)
    obtain ⟨-, body, md, heq⟩ := ha
    cases heq
  stable t v v' h hidle := idle_interf h hidle
  start := by
    rintro ⟨c, g⟩ e v p w hi hidle - hstart
    have hlease : ∀ {m : Message}, (v.world.mem c).message = some m →
        Writes Tame (s.queue c).bucket m.leasePath := fun hm =>
      (hi.paths c _ hm).symm ▸ writes_lease _ _
    have hissued : ∀ {e : Entry}, Issued (v.push (.start (c, .main) e)
        (v.world.setMem c { called := true })) c e := ⟨_, _, List.mem_cons_self⟩
    have hcalled : ∀ {e : Entry}, HasCalled (c, .main) (v.push (.start (c, .main) e)
        (v.world.setMem c { called := true })) := fun _ => by
      rw [View.push_world, World.setMem_mem_self]
    cases start_cases hstart with
    | enqueueStream r attrs hc =>
        obtain ⟨hg, hi'⟩ := Inv.called (e := .enqueueStream r attrs) hi hc
        have hf := (hidle rfl hc).start (e := .enqueueStream r attrs)
        have hsafe : (s.contract bk flt).Safe _ _ _ _ :=
          safe_reporting hi' hcalled (safe_enqueueStream hflt hissued hf)
        exact ⟨hg, hi', hsafe.mono fun _ _ _ h => h.idle⟩
    | enqueueWithIDStream id r attrs hc =>
        obtain ⟨hg, hi'⟩ := Inv.called (e := .enqueueWithIDStream id r attrs) hi hc
        have hf := (hidle rfl hc).start (e := .enqueueWithIDStream id r attrs)
        have hsafe : (s.contract bk flt).Safe _ _ _ _ :=
          safe_reporting hi' hcalled (safe_enqueueWithIDStream hflt hissued hi' hf)
        exact ⟨hg, hi', hsafe.mono fun _ _ _ h => h.idle⟩
    | trim retention fuel hc =>
        obtain ⟨hg, hi'⟩ := Inv.called (e := .trim retention fuel) hi hc
        exact ⟨hg, hi', safe_tame (within_trim calm_tame _ _ _).discard hcalled.idle⟩
    | tryReceive hc =>
        obtain ⟨hg, hi'⟩ := Inv.called (e := .tryReceive) hi hc
        exact ⟨hg, hi', safe_tame (within_tryReceive calm_tame _ (writes_lease _)
          (writes_dead _) _).discard hcalled.idle⟩
    | ack m hm =>
        obtain ⟨hg, hi'⟩ := Inv.started (t := (c, .main)) (e := .ack) hi rfl
        exact ⟨hg, hi', safe_tame (within_ack calm_tame _ _ _ _).discard (idle_start hidle)⟩
    | nack m hm =>
        obtain ⟨hg, hi'⟩ := Inv.started (t := (c, .main)) (e := .nack) hi rfl
        exact ⟨hg, hi', safe_tame (within_nack calm_tame _ (hlease hm) _).discard (idle_start hidle)⟩
    | renew fuel m hm hst =>
        obtain ⟨hg, hi'⟩ := Inv.started (t := (c, .renewer)) (e := .renewMessage fuel) hi rfl
        exact ⟨hg, hi', safe_tame (within_renewLoop calm_tame _ (hlease hm) _ _ _) (idle_start hidle)⟩

/-- Three producers on one queue. -/
def producers : Service Unit (Fin 3) where
  bucket := ()
  lease _ := 30
  headWindow _ := 256
  maxReceives _ := 0
  owner c := Nat.repr c
  owner_inj := by decide
  uuid _ := "u"
  pf := ⟨id, fun _ => "", id⟩

end Service

end Blobster
