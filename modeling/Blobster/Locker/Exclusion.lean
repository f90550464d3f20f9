import Blobster.Bucket.Mem
import Blobster.Bucket.Rules
import Blobster.Locker.Model

/-!
# Mutual exclusion of the lease lock

Any number of clients run `TryAcquire`, the background renewer and `Release` on one key, with any
pauses between their steps, crashes, and calls that fail before or after they took effect.

What carries the proof is one sentence about each handle: *while its lease has not run out, the
stored record is its own and promises at least as long a lease* (`Holds`), unless the handle has
been released and its renewer has exited.  The version a handle has cached may well belong to
somebody else's record, since it is read back in a separate step; it is only known to have been
issued before (`Store.Issued`).  That is enough: a renew first finds its lease still running, so at
that moment the record is its own, and a token issued before that moment can only match a record
that was stored at that moment (`Store.Ok.get_of_issued`).

* `Guar` — what one step of a client's caller or renewer may do to the record and to the handle.
* `Inv` — the invariant; `Inv.record_write` and `Inv.record_delete` are its two real steps.
* `safe_tryAcquire`, `safe_renewRound`, `safe_release` — the three operations keep the contract.
* **`live_unique`** — at most one handle is live, and `Release` deletes only its own record.
-/

set_option linter.unusedSectionVars false

namespace Blobster

open Interleave Contract

namespace LockSetup

variable {B C : Type} [DecidableEq B] [DecidableEq C] (s : LockSetup B C) (bk : B → Backend)

/-- The stored lock record. -/
def current (w : World B C) : Option Object := (w.store s.bucket).get s.path

/-- The record names the client as its owner. -/
def OwnedBy (c : C) (o : Object) : Prop := o.metadata.text lockOwnerField = s.owner c

/-- The stored record is the client's own and runs at least until `d`. -/
def Holds (w : World B C) (c : C) (d : ℤ) : Prop :=
  ∃ o, s.current w = some o ∧ s.OwnedBy c o ∧
    ∃ u, o.metadata.parseTime lockLeaseField = some u ∧ d ≤ u

/-- A write of the client's own put the record `o` there. -/
def Wrote (v : BView B C) (c : C) (o : Object) : Prop :=
  ∃ w g body md pre r w',
    (w, BEvent.called (c, g) (.write s.bucket s.path body md pre) r, w') ∈ v.steps ∧
      s.current w' = some o ∧ s.current w ≠ some o

/-- A handle that still claims the lock: not finished, not released, and its lease is running. -/
def Live (w : World B C) (c : C) : Prop :=
  ∃ lk, (w.mem c).lock = some lk ∧ lk.finished = false ∧ lk.released = false ∧
    w.clock < lk.leaseUntil

instance (w : World B C) (c : C) : Decidable (Live w c) :=
  decidable_of_iff ((w.mem c).lock.any fun lk =>
      !lk.finished && !lk.released && decide (w.clock < lk.leaseUntil)) <| by
    simp [Live, Option.any_eq_true, and_assoc]

variable {s}

lemma OwnedBy.unique {c d : C} {o : Object} (hc : s.OwnedBy c o) (hd : s.OwnedBy d o) : c = d :=
  s.owner_inj (hc.symm.trans hd)

/-- An unexpired record is not up for takeover. -/
lemma Holds.not_expired {w : World B C} {c : C} {d now : ℤ} (h : s.Holds w c d)
    (hd : now < d) {o : Object} (ho : s.current w = some o) :
    s.OwnedBy c o ∧ lockExpired o.metadata now = false := by
  obtain ⟨o', ho', hown, u, hu, hdu⟩ := h
  obtain rfl := Option.some.inj (ho.symm.trans ho')
  exact ⟨hown, leaseExpired_eq_false hu (hd.trans_le hdu)⟩

variable (s)

/-! ## What a step may do -/

/-- What a step of the goroutine `g` of client `c` may do to the stored record. -/
inductive RecordStep (t : Thread C) (w w' : World B C) : Prop where
  | kept (h : s.current w' = s.current w)
  /-- A record of its own, in place of none, of its own, or of one whose lease has run out.  The
  caller writes only before the handle exists. -/
  | written (o : Object) (h : s.current w' = some o) (hown : s.OwnedBy t.1 o)
      (hfree : ∀ o₀, s.current w = some o₀ →
        s.OwnedBy t.1 o₀ ∨ lockExpired o₀.metadata w.clock = true)
      (hmain : t.2 = .main → (w.mem t.1).lock = none)
  /-- Its own record is deleted once the handle is released and the renewer has exited. -/
  | removed (h : s.current w' = none) (o : Object) (ho : s.current w = some o)
      (hown : s.OwnedBy t.1 o) (lk : Lock) (hlk : (w.mem t.1).lock = some lk)
      (hrel : lk.released = true) (hstop : lk.stopped = true)

/-- What a step of one goroutine may do to the handle it shares with the other. -/
def HandleStep (g : Goroutine) (m m' : Mem) : Prop :=
  match g with
  | .main => ∀ lk, m.lock = some lk → ∃ lk', m'.lock = some lk' ∧ lk'.version = lk.version ∧
      lk'.leaseUntil = lk.leaseUntil ∧ lk'.stopped = lk.stopped
  | .renewer => ∃ lk, m.lock = some lk ∧ lk.stopped = false ∧
      ∃ lk', m'.lock = some lk' ∧ lk'.released = lk.released

/-- What a client promises about each of its steps. -/
structure Guar (t : Thread C) (w w' : World B C) : Prop where
  clock : w'.clock = w.clock
  follows : (w.store s.bucket).Follows (w'.store s.bucket)
  frame : ∀ d, d ≠ t.1 → w'.mem d = w.mem d
  record : s.RecordStep t w w'
  handle : HandleStep t.2 (w.mem t.1) (w'.mem t.1)

/-- What holds of a handle. -/
structure HandleOk (w : World B C) (c : C) (lk : Lock) : Prop where
  path : lk.path = s.path
  owner : lk.owner = s.owner c
  issued : Store.Issued (bk s.bucket) (w.store s.bucket) lk.version
  until_le : lk.leaseUntil ≤ w.clock + s.lease c
  holds : w.clock < lk.leaseUntil →
    s.Holds w c lk.leaseUntil ∨ (lk.released = true ∧ lk.stopped = true)

/-- The invariant. -/
structure Inv (v : BView B C) : Prop where
  store : (v.world.store s.bucket).Ok (bk s.bucket)
  uncalled : ∀ c, (v.world.mem c).called = false → (v.world.mem c).lock = none
  handle : ∀ c lk, (v.world.mem c).lock = some lk → s.HandleOk bk v.world c lk
  past : ∀ p ∈ v.steps, ∀ o, s.current p.2.2 = some o → o.seq < (v.world.store s.bucket).next
  wrote : ∀ c o, s.current v.world = some o → (s.OwnedBy c o ↔ s.Wrote v c o)

/-- The contract of the lock's clients. -/
def contract (flt : Faults) : Contract (s.machine bk flt) where
  adm := anyStep
  inv := s.Inv bk
  guar t v v' := s.Guar t v.world v'.world
  idle _ _ := True

/-! ## Interference -/

/-- What a goroutine knows of its handle between its own calls on the record: the caller is still
acquiring, so there is none; the renewer's handle is up, with a lease no longer than `d`. -/
def Local (t : Thread C) (d : ℤ) (w : World B C) : Prop :=
  match t.2 with
  | .main => (w.mem t.1).called = true ∧ (w.mem t.1).lock = none
  | .renewer => ∃ lk, (w.mem t.1).lock = some lk ∧ lk.stopped = false ∧ lk.leaseUntil ≤ d

/-- Until `d`, the record is the client's own. -/
def Keeps (w : World B C) (c : C) (d : ℤ) : Prop := w.clock < d → s.Holds w c d

variable {s bk} {flt : Faults} {t : Thread C} {v v' : BView B C}

lemma interf_cases (h : (s.contract bk flt).Interf t v v') :
    (∃ d : ℕ, v'.world = v.world.advance d) ∨ ∃ u, u ≠ t ∧ s.Guar u v.world v'.world := by
  obtain ⟨-, -, ⟨d, w, hw, -, rfl⟩ | ⟨u, hu, -, hg⟩⟩ := h
  · exact .inl ⟨d, (Option.some.inj hw).symm⟩
  · exact .inr ⟨u, hu, hg⟩

lemma rely_clock (h : (s.contract bk flt).Rely t v v') : v.world.clock ≤ v'.world.clock := by
  refine Rely.of_step (R := fun v v' => v.world.clock ≤ v'.world.clock) (fun _ => le_rfl)
    le_trans (fun hs => ?_) h
  obtain ⟨d, hw⟩ | ⟨u, -, hg⟩ := interf_cases hs
  · simp [hw, World.advance]
  · exact hg.clock.ge

lemma rely_follows (h : (s.contract bk flt).Rely t v v') :
    (v.world.store s.bucket).Follows (v'.world.store s.bucket) := by
  refine Rely.of_step (R := fun v v' =>
    (v.world.store s.bucket).Follows (v'.world.store s.bucket)) (fun _ => .refl _)
    .trans (fun hs => ?_) h
  obtain ⟨d, hw⟩ | ⟨u, -, hg⟩ := interf_cases hs
  · simpa [hw, World.advance] using Store.Follows.refl _
  · exact hg.follows

/-- What the other goroutine of the same client does to the handle is all that happens to it. -/
lemma interf_mem {c : C} {g : Goroutine} (h : (s.contract bk flt).Interf (c, g) v v') :
    v'.world.mem c = v.world.mem c ∨
      ∃ g', g' ≠ g ∧ HandleStep g' (v.world.mem c) (v'.world.mem c) := by
  obtain ⟨d, hw⟩ | ⟨⟨c', g'⟩, hu, hg⟩ := interf_cases h
  · exact .inl (by rw [hw]; rfl)
  · by_cases hc : c' = c
    · subst hc
      exact .inr ⟨g', fun hgg => hu (by rw [hgg]), hg.handle⟩
    · exact .inl (hg.frame c (Ne.symm hc))

lemma local_interf {d : ℤ} (h : (s.contract bk flt).Interf t v v') (hl : Local t d v.world) :
    Local t d v'.world := by
  obtain ⟨c, g⟩ := t
  rcases interf_mem h with hm | ⟨g', hne, hstep⟩
  · simpa only [Local, hm] using hl
  · cases g with
    | main =>
        obtain rfl : g' = .renewer := by cases g' <;> simp_all
        obtain ⟨lk, hlk, -⟩ := hstep
        exact absurd (hl.2.symm.trans hlk) (by simp)
    | renewer =>
        obtain rfl : g' = .main := by cases g' <;> simp_all
        obtain ⟨lk, hlk, hs, hd⟩ := hl
        obtain ⟨lk', hlk', -, hu', hs'⟩ := hstep lk hlk
        exact ⟨lk', hlk', hs'.trans hs, hu'.trans_le hd⟩

lemma local_rely {d : ℤ} (h : (s.contract bk flt).Rely t v v') (hl : Local t d v.world) :
    Local t d v'.world :=
  h.stable (P := fun v => Local t d v.world) local_interf hl

/-- **The lease rule.**  A record that is the client's own stays so until its deadline, whatever the
others do. -/
lemma keeps_interf {d d' : ℤ} (h : (s.contract bk flt).Interf t v v') (hl : Local t d' v.world)
    (hk : s.Keeps v.world t.1 d) : s.Keeps v'.world t.1 d := by
  intro hd
  obtain ⟨n, hw⟩ | ⟨u, hu, hg⟩ := interf_cases h
  · have hle : v.world.clock ≤ v'.world.clock := by simp [hw, World.advance]
    have hold := hk (hle.trans_lt hd)
    rw [hw]
    exact hold
  · have hold := hk (by rw [← hg.clock]; exact hd)
    rw [hg.clock] at hd
    obtain ⟨o, ho, hown, hdl⟩ := hold
    by_cases hut : u.1 = t.1
    · cases hg.record with
      | kept hkept => exact ⟨o, hkept.trans ho, hown, hdl⟩
      | written o' _ _ _ hmain =>
          obtain ⟨c, g⟩ := t
          obtain ⟨c', g'⟩ := u
          obtain rfl : c' = c := hut
          cases g with
          | main =>
              obtain rfl : g' = .renewer := by cases g' <;> simp_all
              obtain ⟨lk, hlk, -⟩ := hg.handle
              exact absurd (hl.2.symm.trans hlk) (by simp)
          | renewer =>
              obtain rfl : g' = .main := by cases g' <;> simp_all
              obtain ⟨lk, hlk, -⟩ := hl
              exact absurd ((hmain rfl).symm.trans hlk) (by simp)
      | removed _ _ _ _ lk hlk _ hstop =>
          obtain ⟨c, g⟩ := t
          obtain ⟨c', g'⟩ := u
          obtain rfl : c' = c := hut
          cases g with
          | main => exact absurd (hl.2.symm.trans hlk) (by simp)
          | renewer =>
              obtain ⟨lk', hlk', hs', -⟩ := hl
              obtain rfl := Option.some.inj (hlk.symm.trans hlk')
              simp [hs'] at hstop
    · cases hg.record with
      | kept hkept => exact ⟨o, hkept.trans ho, hown, hdl⟩
      | written o' _ _ hfree _ =>
          have hne := Holds.not_expired (s := s) ⟨o, ho, hown, hdl⟩ hd ho
          rcases hfree o ho with h' | h'
          · exact absurd (h'.unique hown) hut
          · simp [hne.2] at h'
      | removed _ o' ho' hown' _ _ _ _ =>
          obtain rfl := Option.some.inj (ho.symm.trans ho')
          exact absurd (hown'.unique hown) hut

lemma keeps_rely {d d' : ℤ} (h : (s.contract bk flt).Rely t v v') (hl : Local t d' v.world)
    (hk : s.Keeps v.world t.1 d) : s.Keeps v'.world t.1 d :=
  (h.stable (P := fun v => Local t d' v.world ∧ s.Keeps v.world t.1 d)
    (fun hs hP => ⟨local_interf hs hP.1, keeps_interf hs hP.1 hP.2⟩) ⟨hl, hk⟩).2

/-! ## The steps of a client -/

/-- A renewer only runs while its handle is up. -/
def Active (t : Thread C) (w : World B C) : Prop :=
  t.2 = .renewer → ∃ lk, (w.mem t.1).lock = some lk ∧ lk.stopped = false

lemma Local.active {d : ℤ} {w : World B C} (h : Local t d w) : Active t w := by
  intro ht
  simp only [Local, ht] at h
  obtain ⟨lk, hlk, hs, -⟩ := h
  exact ⟨lk, hlk, hs⟩

lemma active_main {c : C} (w : World B C) : Active (c, .main) w := fun h => by cases h

/-- A step that leaves the handle as it is. -/
lemma Active.handleStep {w : World B C} (h : Active t w) :
    HandleStep t.2 (w.mem t.1) (w.mem t.1) := by
  cases hg : t.2 with
  | main => exact fun lk hlk => ⟨lk, hlk, rfl, rfl, rfl⟩
  | renewer =>
      obtain ⟨lk, hlk, hs⟩ := h hg
      exact ⟨lk, hlk, hs, lk, hlk, rfl⟩

lemma Guar.quiet {w : World B C} (h : Active t w) : s.Guar t w w where
  clock := rfl
  follows := .refl _
  frame _ _ := rfl
  record := .kept rfl
  handle := h.handleStep

lemma Guar.setMem {w : World B C} {m : Mem} (h : HandleStep t.2 (w.mem t.1) m) :
    s.Guar t w (w.setMem t.1 m) where
  clock := rfl
  follows := .refl _
  frame _ hd := World.setMem_mem_ne w t.1 m hd
  record := .kept rfl
  handle := by simpa using h

/-- A later step adds to the writers of a record only if it puts the record there. -/
lemma wrote_push_iff {c : C} {o : Object} {e : BEvent B C} {w : World B C}
    (h : s.current w = some o → s.current v.world = some o) :
    s.Wrote (v.push e w) c o ↔ s.Wrote v c o := by
  constructor
  · rintro ⟨w₀, g, body, md, pre, r, w₁, hm, ho, hne⟩
    rcases List.mem_cons.mp hm with heq | hm
    · simp only [Prod.mk.injEq] at heq
      obtain ⟨rfl, -, rfl⟩ := heq
      exact absurd (h ho) hne
    · exact ⟨w₀, g, body, md, pre, r, w₁, hm, ho, hne⟩
  · rintro ⟨w₀, g, body, md, pre, r, w₁, hm, ho, hne⟩
    exact ⟨w₀, g, body, md, pre, r, w₁, List.mem_cons_of_mem _ hm, ho, hne⟩

lemma Inv.past_push {e : BEvent B C} {w : World B C} (hi : s.Inv bk v)
    (hw : (w.store s.bucket).Ok (bk s.bucket))
    (hf : (v.world.store s.bucket).Follows (w.store s.bucket)) :
    ∀ p ∈ (v.push e w).steps, ∀ o, s.current p.2.2 = some o → o.seq < (w.store s.bucket).next := by
  intro p hp o ho
  rcases List.mem_cons.mp hp with rfl | hp
  · exact (hw _ _ ho).2
  · exact (hi.past p hp o ho).trans_le hf.next_le

lemma Inv.quiet {e : BEvent B C} (hi : s.Inv bk v) : s.Inv bk (v.push e v.world) where
  store := hi.store
  uncalled := hi.uncalled
  handle := hi.handle
  past := hi.past_push hi.store (.refl _)
  wrote c o ho := (hi.wrote c o ho).trans (wrote_push_iff id).symm

lemma Inv.setMem {e : BEvent B C} {c : C} {m : Mem} (hi : s.Inv bk v)
    (hcalled : m.called = false → m.lock = none)
    (hm : ∀ lk, m.lock = some lk → s.HandleOk bk v.world c lk) :
    s.Inv bk (v.push e (v.world.setMem c m)) where
  store := hi.store
  uncalled d := by
    by_cases hd : d = c
    · subst hd
      simpa using hcalled
    · simpa [World.setMem_mem_ne v.world c m hd] using hi.uncalled d
  handle d lk hlk := by
    have hok : s.HandleOk bk v.world d lk := by
      by_cases hd : d = c
      · subst hd
        exact hm lk (by simpa using hlk)
      · exact hi.handle d lk (by simpa [World.setMem_mem_ne v.world c m hd] using hlk)
    exact ⟨hok.path, hok.owner, hok.issued, hok.until_le, hok.holds⟩
  past := hi.past_push hi.store (.refl _)
  wrote d o ho := (hi.wrote d o ho).trans (wrote_push_iff (w := v.world.setMem c m) fun h => h).symm

/-- Raising the flags of a handle keeps it in order. -/
lemma HandleOk.of_flags {w : World B C} {c : C} {lk lk' : Lock} (h : s.HandleOk bk w c lk)
    (hp : lk'.path = lk.path) (ho : lk'.owner = lk.owner) (hv : lk'.version = lk.version)
    (hu : lk'.leaseUntil = lk.leaseUntil) (hr : lk.released = true → lk'.released = true)
    (hs : lk.stopped = true → lk'.stopped = true) : s.HandleOk bk w c lk' where
  path := hp.trans h.path
  owner := ho.trans h.owner
  issued := hv ▸ h.issued
  until_le := hu ▸ h.until_le
  holds hlive := by
    rw [hu] at hlive ⊢
    exact (h.holds hlive).imp id fun hrs => ⟨hr hrs.1, hs hrs.2⟩

/-- A critical section that changes only the flags of the handle. -/
lemma Inv.onLock {e : BEvent B C} {c : C} {f : Lock → Lock} (hi : s.Inv bk v)
    (hf : ∀ lk, (v.world.mem c).lock = some lk → s.HandleOk bk v.world c (f lk)) :
    s.Inv bk (v.push e (v.world.setMem c ((v.world.mem c).onLock f))) := by
  refine hi.setMem (fun h => ?_) (fun lk hlk => ?_)
  · simp [Mem.onLock, hi.uncalled c h]
  · obtain ⟨lk₀, hlk₀, rfl⟩ := Option.map_eq_some_iff.mp hlk
    exact hf lk₀ hlk₀

lemma record_owner (l : Locker B) (owner : String) (now : ℤ) :
    (l.record owner now).text lockOwnerField = owner := rfl

lemma record_lease (l : Locker B) (owner : String) (now : ℤ) :
    (l.record owner now).parseTime lockLeaseField = some (now + l.lease) := rfl

/-- **Committing a record.**  A client may put its own record in place of none, of its own or of an
expired one: no handle that is still entitled to the old record is left behind. -/
lemma Inv.record_write {now : ℤ} {body : ByteArray} {pre : List Precondition}
    {r : Except Err Unit} {st : Store}
    (hi : s.Inv bk v) (hl : Local t (now + s.lease t.1) v.world)
    (hfree : ∀ o₀, s.current v.world = some o₀ →
      s.OwnedBy t.1 o₀ ∨ lockExpired o₀.metadata v.world.clock = true)
    (hw : (v.world.store s.bucket).write (bk s.bucket) s.path body
      ((s.locker t.1).record (s.owner t.1) now) pre = .ok st) :
    s.Guar t v.world (v.world.setStore s.bucket st) ∧
    s.Inv bk (v.push (BEvent.called t (.write s.bucket s.path body
      ((s.locker t.1).record (s.owner t.1) now) pre) r) (v.world.setStore s.bucket st)) ∧
    s.Holds (v.world.setStore s.bucket st) t.1 (now + s.lease t.1) := by
  obtain rfl := Store.write_ok hw
  set md := (s.locker t.1).record (s.owner t.1) now with hmd
  set st := (v.world.store s.bucket).put (bk s.bucket) s.path body md with hst
  have hcur : s.current (v.world.setStore s.bucket st) =
      some ⟨body, md, (bk s.bucket).version (v.world.store s.bucket).next body,
        (v.world.store s.bucket).next⟩ := by
    simp [current, hst]
  have hown : s.OwnedBy t.1 ⟨body, md, (bk s.bucket).version (v.world.store s.bucket).next body,
      (v.world.store s.bucket).next⟩ := record_owner _ _ _
  have hholds : ∀ d ≤ now + s.lease t.1, s.Holds (v.world.setStore s.bucket st) t.1 d :=
    fun d hd => ⟨_, hcur, hown, _, record_lease _ _ _, hd⟩
  have hfollows : (v.world.store s.bucket).Follows st := .put
  refine ⟨⟨rfl, by simpa using hfollows, fun _ _ => rfl, ?_, hl.active.handleStep⟩,
    ⟨by simpa using hi.store.put, hi.uncalled, ?_, ?_, ?_⟩, hholds _ le_rfl⟩
  · refine .written _ hcur hown hfree fun hg => ?_
    simp only [Local, hg] at hl
    exact hl.2
  · intro d lk hlk
    have hok := hi.handle d lk hlk
    refine ⟨hok.path, hok.owner, by simpa using hok.issued.follows hfollows, hok.until_le, ?_⟩
    intro hlive
    rcases hok.holds hlive with hh | hdone
    · obtain ⟨o₀, ho₀, -⟩ := id hh
      have hne := hh.not_expired hlive ho₀
      obtain rfl : d = t.1 := by
        rcases hfree o₀ ho₀ with h' | h'
        · exact hne.1.unique h'
        · exact absurd (hne.2.symm.trans h') (by simp)
      -- the handle's own record: the renewer replaced it by one that runs at least as long
      refine .inl (hholds _ ?_)
      cases hg : t.2 with
      | main =>
          simp only [Local, hg] at hl
          exact absurd (hl.2.symm.trans hlk) (by simp)
      | renewer =>
          simp only [Local, hg] at hl
          obtain ⟨lk', hlk', -, hd⟩ := hl
          obtain rfl := Option.some.inj (hlk.symm.trans hlk')
          exact hd
    · exact .inr hdone
  · exact hi.past_push (by simpa using hi.store.put) (by simpa using hfollows)
  · intro d o ho
    obtain rfl := Option.some.inj (hcur.symm.trans ho)
    constructor
    · intro hd
      obtain rfl := hd.unique hown
      refine ⟨_, t.2, _, _, _, r, _, List.mem_cons_self, ho, fun h => ?_⟩
      exact absurd (hi.store _ _ h).2 (lt_irrefl _)
    · rintro ⟨w₀, g, body', md', pre', r', w₁, hm, ho', hne⟩
      rcases List.mem_cons.mp hm with heq | hm
      · have hthread := congrArg (fun p => p.2.1.thread) heq
        obtain rfl : (d, g) = t := Option.some.inj hthread
        exact hown
      · exact absurd (hi.past _ hm _ ho') (lt_irrefl _)

/-- **Deleting the record.**  A released client whose renewer has exited may delete its own. -/
lemma Inv.record_delete {c : C} {pre : List Precondition} {r : Except Err Unit} {st : Store}
    {o : Object} {lk : Lock} (hi : s.Inv bk v)
    (hlk : (v.world.mem c).lock = some lk) (hrel : lk.released = true) (hstop : lk.stopped = true)
    (ho : s.current v.world = some o) (hown : s.OwnedBy c o)
    (hd : (v.world.store s.bucket).delete s.path pre = .ok st) :
    s.Guar (c, .main) v.world (v.world.setStore s.bucket st) ∧
    s.Inv bk (v.push (BEvent.called (c, .main) (.delete s.bucket s.path pre) r)
      (v.world.setStore s.bucket st)) := by
  obtain ⟨-, rfl⟩ := Store.delete_ok hd
  have hfollows : (v.world.store s.bucket).Follows ((v.world.store s.bucket).erase s.path) := .erase
  have hcur : s.current (v.world.setStore s.bucket ((v.world.store s.bucket).erase s.path)) =
      none := by
    simp [current]
  refine ⟨⟨rfl, by simpa using hfollows, fun _ _ => rfl, ?_, (active_main _).handleStep⟩,
    ⟨by simpa using hi.store.erase, hi.uncalled, ?_,
      hi.past_push (by simpa using hi.store.erase) (by simpa using hfollows), ?_⟩⟩
  · exact .removed hcur o ho hown lk hlk hrel hstop
  · intro d lk' hlk'
    have hok := hi.handle d lk' hlk'
    refine ⟨hok.path, hok.owner, by simpa using hok.issued.follows hfollows, hok.until_le, ?_⟩
    intro hlive
    rcases hok.holds hlive with hh | hdone
    · obtain rfl := (hh.not_expired hlive ho).1.unique hown
      obtain rfl := Option.some.inj (hlk.symm.trans hlk')
      exact .inr ⟨hrel, hstop⟩
    · exact .inr hdone
  · intro d o' ho'
    exact absurd (hcur.symm.trans ho') (by simp)

/-! ## The operations keep the contract -/

/-- `getRecord`, by the caller. -/
lemma safe_getRecord {c : C} {α : Type} {Q : α → BView B C → Prop}
    {k : Except Err (Metadata × Version) → BProg B α}
    (h : ∀ v', (s.contract bk flt).Rely (c, .main) v v' → s.Inv bk v' → ∀ r e,
      ((∃ o, s.current v'.world = some o ∧ r = .ok (o.metadata, o.version)) ∨
        r = .error .notFound ∨ r = .error .backend) →
      (s.contract bk flt).Safe (c, .main) Q (k r) (v'.push e v'.world)) :
    (s.contract bk flt).Safe (c, .main) Q ((s.locker c).getRecord s.path >>= k) v := by
  refine safe_attributes fun v₁ hr₁ hi₁ r hr _ => ⟨.quiet (active_main _), hi₁.quiet, ?_⟩
  obtain ⟨o, ho, rfl⟩ | ⟨-, rfl⟩ | rfl := hr
  · exact h v₁ hr₁ hi₁ _ _ (.inl ⟨o, ho, rfl⟩)
  · exact h v₁ hr₁ hi₁ _ _ (.inr (.inl rfl))
  · exact h v₁ hr₁ hi₁ _ _ (.inr (.inr rfl))

variable (s bk) in
/-- What is known after a write of the client's own record and the read of its version: the version
is some version that was issued, and the record is the client's own until `d`. -/
structure Written (t : Thread C) (d : ℤ) (r : Except Err Version) (v : BView B C) : Prop where
  loc : Local t d v.world
  le : d ≤ v.world.clock + s.lease t.1
  issued : ∀ ver, r = .ok ver → Store.Issued (bk s.bucket) (v.world.store s.bucket) ver
  keeps : ∀ ver, r = .ok ver → s.Keeps v.world t.1 d

lemma written_rely {d : ℤ} {r : Except Err Version} (hr : (s.contract bk flt).Rely t v v')
    (h : s.Written bk t d r v) : s.Written bk t d r v' where
  loc := local_rely hr h.loc
  le := by have := h.le; have := rely_clock hr; omega
  issued ver hv := (h.issued ver hv).follows (rely_follows hr)
  keeps ver hv := keeps_rely hr h.loc (h.keeps ver hv)

lemma Written.safe_ret {d : ℤ} {r : Except Err Version} (h : s.Written bk t d r v) :
    (s.contract bk flt).Safe t (s.Written bk t d) (.ret r) v :=
  .ret fun _ hr _ => written_rely hr h

lemma Written.error {d : ℤ} {e : Err} (hl : Local t d v.world)
    (hd : d ≤ v.world.clock + s.lease t.1) : s.Written bk t d (.error e) v :=
  ⟨hl, hd, nofun, nofun⟩

/-- A conditional write of an own record, over a record that may be replaced whenever the condition
passes. -/
lemma safe_writeRecord {now : ℤ} {pre : Precondition} (hl : Local t (now + s.lease t.1) v.world)
    (hnow : now ≤ v.world.clock)
    (hfree : ∀ v', (s.contract bk flt).Rely t v v' → s.Inv bk v' → ∀ st,
      (v'.world.store s.bucket).write (bk s.bucket) s.path .empty
        ((s.locker t.1).record (s.owner t.1) now) [pre] = .ok st →
      ∀ o₀, s.current v'.world = some o₀ →
        s.OwnedBy t.1 o₀ ∨ lockExpired o₀.metadata v'.world.clock = true) :
    (s.contract bk flt).Safe t (s.Written bk t (now + s.lease t.1))
      ((s.locker t.1).writeRecord s.path ((s.locker t.1).record (s.owner t.1) now) pre) v := by
  have hw : s.Written bk t (now + s.lease t.1) (.error .backend) v := .error hl (by omega)
  refine safe_writeAll (fun v₁ hr₁ hi₁ r st hst _ _ => ?_) (fun v₁ hr₁ hi₁ e _ _ => ?_)
  · have hw₁ := written_rely hr₁ hw
    obtain ⟨hg, hi, hh⟩ := hi₁.record_write (r := r) hw₁.loc (hfree v₁ hr₁ hi₁ st hst) hst
    refine ⟨hg, hi, ?_⟩
    cases r with
    | error e => exact Written.safe_ret (.error hw₁.loc hw₁.le)
    | ok u =>
        refine safe_attributes fun v₂ hr₂ hi₂ r hr _ => ?_
        have hw₂ : s.Written bk t (now + s.lease t.1) (.error .backend) v₂ :=
          written_rely hr₂ (.error hw₁.loc hw₁.le)
        have hk₂ := keeps_rely hr₂ (v := v₁.push _ _) hw₁.loc fun _ => hh
        refine ⟨.quiet hw₂.loc.active, hi₂.quiet, ?_⟩
        obtain ⟨o, ho, rfl⟩ | ⟨-, rfl⟩ | rfl := hr
        · refine Written.safe_ret ⟨hw₂.loc, hw₂.le, ?_, fun _ _ => hk₂⟩
          rintro ver ⟨⟩
          exact hi₂.store.issued ho
        · exact Written.safe_ret (.error hw₂.loc hw₂.le)
        · exact Written.safe_ret (.error hw₂.loc hw₂.le)
  · have hw₁ := written_rely hr₁ hw
    exact ⟨.quiet hw₁.loc.active, hi₁.quiet, Written.safe_ret (.error hw₁.loc hw₁.le)⟩

/-- The handle comes into being on a record that is the client's own. -/
lemma safe_start {c : C} {d : ℤ} {ver : Version} (h : s.Written bk (c, .main) d (.ok ver) v) :
    (s.contract bk flt).Safe (c, .main) (fun _ _ => True)
      (Locker.start s.key s.path (s.owner c) ver d) v := by
  refine safe_critical fun v₁ hr₁ hi₁ _ => ⟨?_, ?_, .ret fun _ _ _ => trivial⟩
  · refine Guar.setMem fun lk hlk => ?_
    exact absurd ((written_rely hr₁ h).loc.2.symm.trans hlk) (by simp)
  · refine hi₁.setMem (fun hc => ?_) ?_
    · exact absurd ((written_rely hr₁ h).loc.1.symm.trans hc) (by simp)
    · rintro lk ⟨⟩
      exact ⟨rfl, rfl, (written_rely hr₁ h).issued ver rfl, (written_rely hr₁ h).le,
        fun hlive => .inl ((written_rely hr₁ h).keeps ver rfl hlive)⟩

lemma safe_tryAcquire (hb : (bk s.bucket).Fresh) {c : C}
    (hcalled : (v.world.mem c).called = true) (hlock : (v.world.mem c).lock = none) :
    (s.contract bk flt).Safe (c, .main) (fun _ _ => True)
      ((s.locker c).tryAcquire s.key s.path (s.owner c)) v := by
  have hl (d : ℤ) : Local (c, .main) d v.world := ⟨hcalled, hlock⟩
  refine safe_getRecord fun v₁ hr₁ hi₁ r e₁ hr => ?_
  have hl₁ (d : ℤ) := local_rely hr₁ (hl d)
  refine safe_now fun v₂ hr₂ hi₂ _ => ⟨.quiet (active_main _), hi₂.quiet, ?_⟩
  have hl₂ (d : ℤ) := local_rely hr₂ (v := v₁.push _ _) (hl₁ d)
  obtain ⟨o, ho, rfl⟩ | rfl | rfl := hr
  · simp only
    split
    · exact .ret fun _ _ _ => trivial
    · rename_i hexp
      -- the swap succeeds only over the record that was read, and that one has expired
      refine Safe.bind hi₂.quiet (safe_writeRecord (t := (c, .main)) (hl₂ _) le_rfl ?_) ?_
      · intro v₃ hr₃ hi₃ st hst o₀ ho₀
        obtain ⟨o', ho', hov, -⟩ := Store.write_ifMatch_ok (hi₁.store.version_ne hb ho) hst
        obtain rfl := Option.some.inj (ho'.symm.trans ho₀)
        have h₂ := rely_follows (v := v₁.push _ _) hr₂
        have h₃ := rely_follows (v := v₂.push _ _) hr₃
        have hsame := hi₃.store.get_of_issued hb (h₂.trans h₃) (hi₁.store.issued ho) ho' hov
        obtain rfl := Option.some.inj (ho.symm.trans hsame)
        exact .inr (leaseExpired_mono (rely_clock hr₃) (by simpa [lockExpired] using hexp))
      · intro r v₃ hi₃ hw
        split
        · exact .ret fun _ _ _ => trivial
        · exact .ret fun _ _ _ => trivial
        · exact .ret fun _ _ _ => trivial
        · exact safe_start hw
  · refine Safe.bind hi₂.quiet (safe_writeRecord (t := (c, .main)) (hl₂ _) le_rfl ?_) ?_
    · intro v₃ hr₃ hi₃ st hst o₀ ho₀
      exact absurd ((Store.write_ifNotExists_ok hst).1.symm.trans ho₀) (by simp)
    · intro r v₃ hi₃ hw
      split
      · exact .ret fun _ _ _ => trivial
      · exact .ret fun _ _ _ => trivial
      · exact safe_start hw
  · exact .ret fun _ _ _ => trivial

/-! ### The renewer -/

/-- The renewer's handle, with the version and the deadline it has cached. -/
def Running (w : World B C) (c : C) (ver : Version) (d : ℤ) : Prop :=
  ∃ lk, (w.mem c).lock = some lk ∧ lk.stopped = false ∧ lk.version = ver ∧ lk.leaseUntil = d

lemma Running.local {c : C} {ver : Version} {d d' : ℤ} {w : World B C} (h : Running w c ver d)
    (hd : d ≤ d') : Local (c, .renewer) d' w := by
  obtain ⟨lk, hlk, hs, -, hu⟩ := h
  exact ⟨lk, hlk, hs, hu.trans_le hd⟩

/-- Only the renewer itself moves them. -/
lemma running_rely {c : C} {ver : Version} {d : ℤ}
    (h : (s.contract bk flt).Rely (c, .renewer) v v') (hr : Running v.world c ver d) :
    Running v'.world c ver d := by
  refine h.stable (P := fun v => Running v.world c ver d) (fun hs hP => ?_) hr
  rcases interf_mem hs with hm | ⟨g', hne, hstep⟩
  · simpa only [Running, hm] using hP
  · obtain rfl : g' = .main := by cases g' <;> simp_all
    obtain ⟨lk, hlk, hst, hv, hu⟩ := hP
    obtain ⟨lk', hlk', hv', hu', hst'⟩ := hstep lk hlk
    exact ⟨lk', hlk', hst'.trans hst, hv'.trans hv, hu'.trans hu⟩

/-- A field of the handle, read by the renewer. -/
lemma safe_lockField {c : C} {α β : Type} {f : Lock → α} {z : α} {k : α → BProg B β}
    {Q : β → BView B C → Prop} {ver : Version} {d : ℤ} (h : Running v.world c ver d)
    (hk : ∀ v', (s.contract bk flt).Rely (c, .renewer) v v' → s.Inv bk v' → ∀ e lk,
      (v'.world.mem c).lock = some lk → Running v'.world c ver d →
      (s.contract bk flt).Safe (c, .renewer) Q (k (f lk)) (v'.push e v'.world)) :
    (s.contract bk flt).Safe (c, .renewer) Q (lockField f z >>= k) v := by
  refine safe_critical fun v₁ hr₁ hi₁ _ => ?_
  have hrun := running_rely hr₁ h
  obtain ⟨lk, hlk, -⟩ := id hrun
  simp only [Steps, id_eq, World.setMem_self, hlk, Option.map_some, Option.getD_some]
  exact ⟨.quiet (hrun.local le_rfl).active, hi₁.quiet, hk v₁ hr₁ hi₁ _ lk hlk hrun⟩

variable (s bk) in
/-- A moment at which the renewer found its lease still running: the record was its own, and the
version it has cached had been issued. -/
structure Ticked (st : Store) (c : C) (ver : Version) (now d : ℤ) : Prop where
  le : d ≤ now + s.lease c
  issued : Store.Issued (bk s.bucket) st ver
  own : now < d → ∃ o, st.get s.path = some o ∧ s.OwnedBy c o

lemma Inv.ticked (hi : s.Inv bk v) {c : C} {ver : Version} {d : ℤ}
    (h : Running v.world c ver d) :
    s.Ticked bk (v.world.store s.bucket) c ver v.world.clock d := by
  obtain ⟨lk, hlk, hst, rfl, rfl⟩ := h
  have hok := hi.handle c lk hlk
  refine ⟨hok.until_le, hok.issued, fun hlive => ?_⟩
  rcases hok.holds hlive with ⟨o, ho, hown, -⟩ | ⟨-, hstop⟩
  · exact ⟨o, ho, hown⟩
  · exact absurd (hst.symm.trans hstop) (by simp)

/-- `renewOnce`, after the tick: the swap can only hit the record of the tick, which is its own. -/
lemma safe_renewOnce (hb : (bk s.bucket).Fresh) {c : C} {ver : Version} {now d : ℤ} {st : Store}
    (htick : s.Ticked bk st c ver now d) (hlt : now < d) (hrun : Running v.world c ver d)
    (hf : st.Follows (v.world.store s.bucket)) (hnow : now ≤ v.world.clock) :
    (s.contract bk flt).Safe (c, .renewer) (fun _ v => ∃ d, Local (c, .renewer) d v.world)
      ((s.locker c).renewOnce s.path (s.owner c) now) v := by
  refine safe_lockField hrun fun v₁ hr₁ hi₁ e lk hlk hrun₁ => ?_
  obtain ⟨lk', hlk', -, hver, -⟩ := id hrun₁
  obtain rfl := Option.some.inj (hlk.symm.trans hlk')
  rw [hver]
  have hnow₁ := hnow.trans (rely_clock hr₁)
  refine Safe.bind hi₁.quiet
    (safe_writeRecord (t := (c, .renewer)) (hrun₁.local htick.le) hnow₁ ?_) ?_
  · intro v₂ hr₂ hi₂ st' hst' o₀ ho₀
    obtain ⟨o', ho', hov, -⟩ := Store.write_ifMatch_ok (htick.issued.ne_empty hb) hst'
    obtain rfl := Option.some.inj (ho'.symm.trans ho₀)
    have hfollows := (hf.trans (rely_follows hr₁)).trans (rely_follows (v := v₁.push _ _) hr₂)
    have hsame := hi₂.store.get_of_issued hb hfollows htick.issued ho' hov
    obtain ⟨o, ho, hown⟩ := htick.own hlt
    obtain rfl := Option.some.inj (ho.symm.trans hsame)
    exact .inl hown
  · intro r v₂ hi₂ hw
    cases r with
    | error e => exact .ret fun _ hr _ => ⟨_, local_rely hr hw.loc⟩
    | ok newVersion =>
        refine safe_critical fun v₃ hr₃ hi₃ _ => ?_
        have hw₃ := written_rely hr₃ hw
        obtain ⟨lk, hlk, hst, -⟩ := hw₃.loc
        refine ⟨Guar.setMem ⟨lk, hlk, hst, _, Mem.onLock_some hlk, rfl⟩,
          hi₃.onLock fun lk' hlk' => ?_,
          .ret fun _ hr _ => ⟨now + s.lease c, local_rely hr ?_⟩⟩
        · obtain rfl := Option.some.inj (hlk.symm.trans hlk')
          have hok := hi₃.handle c lk hlk
          exact ⟨hok.path, hok.owner, hw₃.issued _ rfl, hw₃.le,
            fun hlive => .inl (hw₃.keeps _ rfl hlive)⟩
        · exact ⟨_, World.lock_onLock hlk, hst, le_rfl⟩

/-- The renewer gives up. -/
lemma safe_finish {c : C} {d : ℤ} {err : Option Err} {a : Unit ⊕ Unit}
    (h : Local (c, .renewer) d v.world) :
    (s.contract bk flt).Safe (c, .renewer) (fun _ v => ∃ d, Local (c, .renewer) d v.world)
      (critical (Mem.onLock (Lock.finish err)) >>= fun _ => .ret a) v := by
  refine safe_critical fun v₁ hr₁ hi₁ _ => ?_
  obtain ⟨lk, hlk, hst, hd⟩ := local_rely hr₁ h
  refine ⟨Guar.setMem ⟨lk, hlk, hst, _, Mem.onLock_some hlk, by simp⟩,
    hi₁.onLock fun lk' hlk' => ?_, .ret fun _ hr _ => ⟨d, local_rely hr ?_⟩⟩
  · exact (hi₁.handle c lk' hlk').of_flags (by simp) (by simp) (by simp) (by simp) (by simp)
      (by simp)
  · exact ⟨_, World.lock_onLock hlk, by simpa using hst, by simpa using hd⟩

lemma safe_renewRound (hb : (bk s.bucket).Fresh) {c : C} {d₀ : ℤ}
    (h : Local (c, .renewer) d₀ v.world) :
    (s.contract bk flt).Safe (c, .renewer) (fun _ v => ∃ d, Local (c, .renewer) d v.world)
      ((s.locker c).renewRound s.path (s.owner c)) v := by
  refine safe_select fun v₁ hr₁ hi₁ r _ _ => ?_
  have hl₁ := local_rely hr₁ h
  refine ⟨.quiet hl₁.active, hi₁.quiet, ?_⟩
  split
  · exact .ret fun _ hr _ => ⟨d₀, local_rely hr hl₁⟩
  · refine safe_now fun v₂ hr₂ hi₂ _ => ?_
    have hl₂ := local_rely (v := v₁.push _ _) hr₂ hl₁
    refine ⟨.quiet hl₂.active, hi₂.quiet, ?_⟩
    obtain ⟨lk, hlk, hst, -⟩ := hl₂
    have hrun₂ : Running v₂.world c lk.version lk.leaseUntil := ⟨lk, hlk, hst, rfl, rfl⟩
    have htick := hi₂.ticked hrun₂
    refine safe_lockField hrun₂ fun v₃ hr₃ hi₃ e lk' hlk' hrun₃ => ?_
    obtain ⟨lk'', hlk'', -, -, hu⟩ := id hrun₃
    obtain rfl := Option.some.inj (hlk'.symm.trans hlk'')
    rw [hu]
    split
    · exact safe_finish (hrun₃.local le_rfl)
    · rename_i hlt
      have hlt : v₂.world.clock < lk.leaseUntil := by simpa using hlt
      have hfollows := rely_follows hr₃
      have hclock := rely_clock hr₃
      refine Safe.bind hi₃.quiet (safe_renewOnce hb htick hlt hrun₃ hfollows hclock) ?_
      rintro r v₄ hi₄ ⟨d, hl₄⟩
      split
      · exact safe_finish hl₄
      · exact safe_finish hl₄
      · exact .ret fun _ hr _ => ⟨d, local_rely hr hl₄⟩

lemma safe_renewLoop (hb : (bk s.bucket).Fresh) {c : C} {d₀ : ℤ} (hi : s.Inv bk v)
    (h : Local (c, .renewer) d₀ v.world) (fuel : ℕ) :
    (s.contract bk flt).Safe (c, .renewer) (fun _ _ => True)
      ((s.locker c).renewLoop s.path (s.owner c) fuel) v := by
  refine Safe.bind (Q := fun _ v => ∃ d, Local (c, .renewer) d v.world) hi
    (Safe.loop (I := fun _ v => ∃ d, Local (c, .renewer) d v.world) (fun _ => safe_park) ?_ ?_
      fuel () v hi ⟨d₀, h⟩) ?_
  · rintro ⟨⟩ v₁ hi₁ ⟨d, hl⟩
    exact (safe_renewRound hb hl).mono fun r v₂ _ h₂ => by cases r <;> exact h₂
  · rintro ⟨⟩ v₁ hi₁ ⟨d, hl⟩
    exact .ret fun _ hr _ => ⟨d, local_rely hr hl⟩
  · rintro ⟨⟩ v₁ hi₁ ⟨d, hl⟩
    refine safe_critical fun v₂ hr₂ hi₂ _ => ?_
    obtain ⟨lk, hlk, hst, -⟩ := local_rely hr₂ hl
    refine ⟨Guar.setMem ⟨lk, hlk, hst, _, Mem.onLock_some hlk, rfl⟩, hi₂.onLock fun lk' hlk' => ?_,
      .ret fun _ _ _ => trivial⟩
    exact (hi₂.handle c lk' hlk').of_flags rfl rfl rfl rfl id fun _ => rfl

/-! ### Release -/

/-- A critical section of the caller that only raises flags. -/
lemma safe_flags {c : C} {α : Type} {Q : α → BView B C → Prop} {f : Lock → Lock}
    {k : Mem → BProg B α}
    (hp : ∀ lk, (f lk).path = lk.path) (ho : ∀ lk, (f lk).owner = lk.owner)
    (hv : ∀ lk, (f lk).version = lk.version) (hu : ∀ lk, (f lk).leaseUntil = lk.leaseUntil)
    (hr : ∀ lk, lk.released = true → (f lk).released = true)
    (hs : ∀ lk, (f lk).stopped = lk.stopped)
    (hk : ∀ v', (s.contract bk flt).Rely (c, .main) v v' → s.Inv bk v' → ∀ e,
      (s.contract bk flt).Safe (c, .main) Q (k (v'.world.mem c))
        (v'.push e (v'.world.setMem c ((v'.world.mem c).onLock f)))) :
    (s.contract bk flt).Safe (c, .main) Q (critical (Mem.onLock f) >>= k) v := by
  refine safe_critical fun v₁ hr₁ hi₁ _ => ⟨Guar.setMem fun lk hlk => ?_,
    hi₁.onLock fun lk hlk => ?_, hk v₁ hr₁ hi₁ _⟩
  · exact ⟨_, Mem.onLock_some hlk, hv lk, hu lk, hs lk⟩
  · exact (hi₁.handle c lk hlk).of_flags (hp lk) (ho lk) (hv lk) (hu lk) (hr lk) (hs lk ▸ id)

/-- The handle has been released. -/
def Releasing (w : World B C) (c : C) : Prop :=
  ∀ lk, (w.mem c).lock = some lk → lk.released = true

lemma releasing_rely {c : C} (h : (s.contract bk flt).Rely (c, .main) v v')
    (hr : Releasing v.world c) : Releasing v'.world c := by
  refine h.stable (P := fun v => Releasing v.world c) (fun hs hP => ?_) hr
  rcases interf_mem hs with hm | ⟨g', hne, hstep⟩
  · simpa only [Releasing, hm] using hP
  · obtain rfl : g' = .renewer := by cases g' <;> simp_all
    obtain ⟨lk, hlk, -, lk', hlk', hrel⟩ := hstep
    intro lk'' hlk''
    obtain rfl := Option.some.inj (hlk'.symm.trans hlk'')
    exact hrel.trans (hP lk hlk)

/-- The handle has been released and its renewer has exited. -/
def Closing (w : World B C) (c : C) : Prop :=
  ∃ lk, (w.mem c).lock = some lk ∧ lk.released = true ∧ lk.stopped = true

lemma closing_rely {c : C} (h : (s.contract bk flt).Rely (c, .main) v v')
    (hc : Closing v.world c) : Closing v'.world c := by
  refine h.stable (P := fun v => Closing v.world c) (fun hs hP => ?_) hc
  rcases interf_mem hs with hm | ⟨g', hne, hstep⟩
  · simpa only [Closing, hm] using hP
  · obtain rfl : g' = .renewer := by cases g' <;> simp_all
    obtain ⟨lk, hlk, -, hstop⟩ := hP
    obtain ⟨lk', hlk', hrun, -⟩ := hstep
    obtain rfl := Option.some.inj (hlk.symm.trans hlk')
    exact absurd (hrun.symm.trans hstop) (by simp)

lemma safe_release (hb : (bk s.bucket).Fresh) {c : C} :
    (s.contract bk flt).Safe (c, .main) (fun _ _ => True)
      ((s.locker c).release s.path (s.owner c)) v := by
  refine safe_flags (fun _ => rfl) (fun _ => rfl) (fun _ => rfl) (fun _ => rfl) (fun _ _ => rfl)
    (fun _ => rfl) fun v₁ hr₁ hi₁ e₁ => ?_
  split
  · exact .ret fun _ _ _ => trivial
  have hrel₁ : Releasing (v₁.world.setMem c ((v₁.world.mem c).onLock
      fun lk => { lk with released := true })) c := by
    intro lk hlk
    obtain ⟨lk₀, -, rfl⟩ := Option.map_eq_some_iff.mp (by simpa [Mem.onLock] using hlk)
    rfl
  refine safe_flags (fun _ => rfl) (fun _ => rfl) (fun _ => rfl) (fun _ => rfl) (fun _ h => h)
    (fun _ => rfl) fun v₂ hr₂ hi₂ e₂ => ?_
  have hrel₂ : Releasing (v₂.world.setMem c ((v₂.world.mem c).onLock
      fun lk => { lk with cancelled := true })) c := by
    intro lk hlk
    obtain ⟨lk₀, hlk₀, rfl⟩ := Option.map_eq_some_iff.mp (by simpa [Mem.onLock] using hlk)
    exact releasing_rely (v := v₁.push _ _) hr₂ hrel₁ lk₀ hlk₀
  refine safe_await fun v₃ hr₃ hi₃ hstop _ => ⟨.quiet (active_main _), hi₃.quiet, ?_⟩
  have hcl₃ : Closing v₃.world c := by
    have hrel₃ := releasing_rely (v := v₂.push _ _) hr₃ hrel₂
    cases hlk : (v₃.world.mem c).lock with
    | none => simp [hlk] at hstop
    | some lk => exact ⟨lk, hlk, hrel₃ lk hlk, by simpa [hlk] using hstop⟩
  refine safe_flags (by simp) (by simp) (by simp) (by simp) (by simp) (by simp)
    fun v₄ hr₄ hi₄ e₄ => ?_
  have hcl₄ : Closing (v₄.world.setMem c ((v₄.world.mem c).onLock (Lock.finish none))) c := by
    obtain ⟨lk, hlk, hrel, hst⟩ := closing_rely (v := v₃.push _ _) hr₄ hcl₃
    exact ⟨_, World.lock_onLock hlk, by simpa using hrel, by simpa using hst⟩
  refine safe_getRecord fun v₅ hr₅ hi₅ r e₅ hr => ?_
  have hcl₅ := closing_rely (v := v₄.push _ _) hr₅ hcl₄
  obtain ⟨o, ho, rfl⟩ | rfl | rfl := hr
  · simp only
    split
    · exact .ret fun _ _ _ => trivial
    · rename_i hown
      refine safe_delete (fun v₆ hr₆ hi₆ r st hst _ _ => ?_) (fun v₆ hr₆ hi₆ e _ _ => ?_)
      · obtain ⟨lk, hlk, hrel, hstop⟩ := closing_rely (v := v₅.push _ _) hr₆ hcl₅
        obtain ⟨o', ho', hov, -⟩ := Store.delete_ifMatch_ok (hi₅.store.version_ne hb ho) hst
        have hsame := hi₆.store.get_of_issued hb (rely_follows (v := v₅.push _ _) hr₆)
          (hi₅.store.issued ho) ho' hov
        obtain rfl := Option.some.inj (ho.symm.trans hsame)
        obtain ⟨hg, hi⟩ := hi₆.record_delete (r := r) hlk hrel hstop ho' (not_not.mp hown) hst
        refine ⟨hg, hi, ?_⟩
        split <;> exact .ret fun _ _ _ => trivial
      · refine ⟨.quiet (active_main _), hi₆.quiet, ?_⟩
        split <;> exact .ret fun _ _ _ => trivial
  · exact .ret fun _ _ _ => trivial
  · exact .ret fun _ _ _ => trivial

/-! ## The theorem -/

variable (s bk) in
/-- A state from which a run may begin: nobody has called anything yet, and if there is a record, it
is well-versioned and none of the clients' owners is in it. -/
structure Initial (w : World B C) : Prop where
  store : (w.store s.bucket).Ok (bk s.bucket)
  mem : ∀ c, w.mem c = {}
  foreign : ∀ c o, s.current w = some o → ¬ s.OwnedBy c o

lemma Inv.advance (hi : s.Inv bk v) (d : ℕ) : s.Inv bk (v.push .env (v.world.advance d)) where
  store := hi.store
  uncalled := hi.uncalled
  handle c lk hlk := by
    have hok := hi.handle c lk hlk
    have hclock : (v.world.advance d).clock = v.world.clock + d := rfl
    refine ⟨hok.path, hok.owner, hok.issued, ?_, fun hlive => hok.holds ?_⟩
    · have := hok.until_le
      simp only [View.push_world]
      omega
    · simp only [View.push_world] at hlive
      omega
  past := hi.past_push hi.store (.refl _)
  wrote c o ho := (hi.wrote c o ho).trans (wrote_push_iff (w := v.world.advance d) fun h => h).symm

/-- `Locker.path` either refuses the key or puts it below the lock directory. -/
lemma path_eq {c : C} {path : String} (h : (s.locker c).path s.key = .ok path) : s.path = path := by
  unfold Locker.path at h
  split at h
  · cases h
  · split at h
    · cases h
    · exact Except.ok.inj h

variable (flt) in
/-- The contract's obligations. -/
lemma sound (hb : (bk s.bucket).Fresh) {w₀ : World B C} (h₀ : s.Initial bk w₀) :
    (s.contract bk flt).Sound w₀ where
  init := by
    refine ⟨⟨h₀.store, ?_, ?_, fun p hp => absurd hp List.not_mem_nil, ?_⟩, fun _ => trivial⟩
    · intro c _
      simp [h₀.mem c]
    · intro c lk hlk
      simp [h₀.mem c] at hlk
    · intro c o ho
      refine ⟨fun hown => absurd hown (h₀.foreign c o ho), ?_⟩
      rintro ⟨w, g, body, md, pre, r, w', hm, -⟩
      exact absurd hm List.not_mem_nil
  env := by
    rintro v v' hi ⟨d, w, hw, -, rfl⟩
    obtain rfl := Option.some.inj hw
    exact hi.advance d
  stable _ _ _ _ _ := trivial
  start := by
    rintro ⟨c, g⟩ e v p w hi - - hstart
    change s.start (c, g) e v.world = some (p, w) at hstart
    unfold LockSetup.start at hstart
    split at hstart
    · rename_i hg
      obtain rfl : g = .main := hg
      split at hstart
      · cases hstart
      · rename_i hcalled
        obtain ⟨rfl, rfl⟩ := Prod.mk.inj (Option.some.inj hstart)
        have hnone := hi.uncalled c (by simpa using hcalled)
        refine ⟨Guar.setMem fun lk hlk => absurd (hnone.symm.trans hlk) (by simp),
          hi.setMem (fun _ => rfl) (fun _ h => by cases h), Safe.discard ?_ (fun _ h => h) ?_⟩
        · exact hi.setMem (fun _ => rfl) (fun _ h => by cases h)
        · unfold Locker.TryAcquire
          split
          · exact .ret fun _ _ _ => trivial
          · rename_i path hpath
            obtain rfl := path_eq hpath
            exact safe_tryAcquire hb (by simp) (by simp)
    · rename_i hg
      obtain rfl : g = .main := hg
      obtain ⟨lk, hlk, heq⟩ := Option.map_eq_some_iff.mp hstart
      obtain ⟨rfl, rfl⟩ := Prod.mk.inj heq
      have hok := hi.handle c lk hlk
      refine ⟨.quiet (active_main _), hi.quiet, Safe.discard hi.quiet (fun _ h => h) ?_⟩
      rw [hok.path, hok.owner]
      exact safe_release hb
    · rename_i hg
      obtain rfl : g = .renewer := hg
      obtain ⟨lk, hlk, heq⟩ := Option.bind_eq_some_iff.mp hstart
      split at heq
      · cases heq
      · rename_i fuel hst
        obtain ⟨rfl, rfl⟩ := Prod.mk.inj (Option.some.inj heq)
        have hok := hi.handle c lk hlk
        have hl : Local (c, .renewer) lk.leaseUntil v.world :=
          ⟨lk, hlk, by simpa using hst, le_rfl⟩
        rw [hok.path, hok.owner]
        exact ⟨.quiet hl.active, hi.quiet, safe_renewLoop hb hi.quiet hl fuel⟩
    · cases hstart

/-- **Mutual exclusion.**  In every reachable state at most one handle is live; and whatever step
removes the lock record is a step of the one client whose write put that record there, so `Release`
never deletes a record written by another handle. -/
theorem live_unique (hb : (bk s.bucket).Fresh) {w₀ : World B C} (h₀ : s.Initial bk w₀)
    {c : Config (bucketSig B) (World B C) (Thread C)}
    (hc : Reach (s.machine bk flt) anyStep w₀ c) :
    (∀ d d', Live c.view.world d → Live c.view.world d' → d = d') ∧
    ∀ e c' o, Step (s.machine bk flt) c e c' → s.current c.view.world = some o →
      s.current c'.view.world = none →
        ∃ t, e.thread = some t ∧ ∀ d, s.Wrote c.view d o ↔ d = t.1 := by
  have hsound := sound flt hb h₀
  have hi : s.Inv bk c.view := (hsound.reach hc).1
  constructor
  · rintro d d' ⟨lk, hlk, -, hrel, hlive⟩ ⟨lk', hlk', -, hrel', hlive'⟩
    have hholds : s.Holds c.view.world d lk.leaseUntil :=
      ((hi.handle d lk hlk).holds hlive).resolve_right fun h => by simp [hrel] at h
    have hholds' : s.Holds c.view.world d' lk'.leaseUntil :=
      ((hi.handle d' lk' hlk').holds hlive').resolve_right fun h => by simp [hrel'] at h
    obtain ⟨o, ho, hown, -⟩ := hholds
    obtain ⟨o', ho', hown', -⟩ := hholds'
    obtain rfl := Option.some.inj (ho.symm.trans ho')
    exact hown.unique hown'
  · intro e c' o hs ho ho'
    rcases hsound.step_guar hc hs trivial with ⟨d, w, hw, -, hv⟩ | ⟨t, ht, -, hg⟩
    · obtain rfl := Option.some.inj hw
      rw [hv] at ho'
      exact absurd (ho.symm.trans ho') (by simp)
    · refine ⟨t, ht, fun d => ?_⟩
      have hown : s.OwnedBy t.1 o := by
        cases hg.record with
        | kept h => exact absurd (ho.symm.trans (h.symm.trans ho')) (by simp)
        | written o' h => exact absurd (h.symm.trans ho') (by simp)
        | removed _ o' h hown =>
            obtain rfl := Option.some.inj (ho.symm.trans h)
            exact hown
      rw [← hi.wrote d o ho]
      exact ⟨fun hd => hd.unique hown, fun hd => hd ▸ hown⟩

/-- Two clients of one lock. -/
def pair : LockSetup Unit Bool where
  bucket := ()
  pref := ".blobster/locks/"
  key := "job"
  lease _ := 15
  owner c := if c then "a" else "b"
  owner_inj := by decide

/-- The first client acquires the lock and stops; when its lease has run out, the second takes
over. -/
def takeover : List (Action (pair.machine (fun _ => memBackend) ⟨true, true⟩)) :=
  [.start (true, .main) .tryAcquire] ++ List.replicate 5 (.call (true, .main) .ok) ++
  [.env (15 : ℕ), .start (false, .main) .tryAcquire] ++ List.replicate 5 (.call (false, .main) .ok)

/-- In that run the second client's handle is live, and no other. -/
theorem live_unique_takeover :
    ∃ c, Reach (pair.machine (fun _ => memBackend) ⟨true, true⟩) anyStep
        ⟨0, fun _ => {}, fun _ => {}⟩ c ∧
      Live c.view.world false ∧ ∀ d, Live c.view.world d → d = false := by
  have hrun : ((pair.machine (fun _ => memBackend) ⟨true, true⟩).run
      (Config.init _ _ ⟨0, fun _ => {}, fun _ => {}⟩) takeover).any
        (fun c => decide (Live c.view.world false)) = true := by decide +kernel
  obtain ⟨c, hreach, hlive⟩ := reach_of_run_any hrun
  have h₀ : pair.Initial (fun _ => memBackend) ⟨0, fun _ => {}, fun _ => {}⟩ :=
    ⟨Store.Ok.empty _, fun _ => rfl, fun c o ho => by simp [current] at ho⟩
  refine ⟨c, hreach, of_decide_eq_true hlive, fun d hd => ?_⟩
  exact (live_unique memBackend_fresh h₀ hreach).1 d false hd (of_decide_eq_true hlive)

end LockSetup

end Blobster
