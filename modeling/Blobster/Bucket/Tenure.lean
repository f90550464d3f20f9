import Blobster.Bucket.Rules
import Blobster.Bucket.Lease

/-!
# Tenure of a lease record

A held lock and a held message are kept the same way: a handle caches the version of the lease record
it has written, and a background renewer swaps the record for a fresh one from time to time.  The
renewer gives up when the lease has run out, and when the swap is refused or the record is gone.

Whether it gives up for a good reason is a question about the cached version alone.  Nobody writes a
record in another client's name, so a record that is the client's own is the one its last write left
there, and the handle is in step with it as long as the read-back of that write succeeded
(`InStep`).  A swap that is then refused was refused because the record is no longer the client's.

* `Renewer` — the renew loop, over what the lock's and the queue's differ in.
* `Tenancy`, `Tenancy.contract` — clients that write records only in their own name and report a loss
  only for a reason.
* **`safe_renewLoop`** — the renewer keeps to that, if no read-back of its own fails.
* **`Tenancy.justified`** — so in every run each loss that is reported has a reason.
-/

set_option linter.unusedSectionVars false

namespace Blobster

open Interleave Contract

/-! ## The renewer -/

/-- What the renew loops of a lock and of a message differ in: where the record is and what is written
to it, and where the handle keeps its fields. -/
structure Renewer (B : Type) where
  bucket : B
  path : String
  fields : ℤ → Metadata
  lease : ℤ
  cancelled : Mem → Bool
  leaseUntil : Mem → ℤ
  version : Mem → Version
  renewed : Version → ℤ → Mem → Mem
  lose : Mem → Mem
  stop : Mem → Mem

namespace Renewer

variable {B : Type} (R : Renewer B)

/-- A field of the handle, read in a critical section. -/
def field {α : Type} (f : Mem → α) : BProg B α := do
  let m ← critical id
  return f m

/-- `renewOnce`. -/
def renewOnce (now : ℤ) : BProg B (Except Err Unit) := do
  let version ← field R.version
  match ← writeBack R.bucket R.path (R.fields now) (.ifMatch version) with
  | .error e => return .error e
  | .ok newVersion =>
      let _ ← critical (R.renewed newVersion (now + R.lease))
      return .ok ()

/-- One round of `renewLoop`; `inr` is a `return`. -/
def renewRound : BProg B (Unit ⊕ Unit) := do
  if ← select R.cancelled then
    return .inr ()
  else
    let now ← now
    let leaseUntil ← field R.leaseUntil
    if !decide (now < leaseUntil) then
      let _ ← critical R.lose
      return .inr ()
    else
      match ← R.renewOnce now with
      | .error .preconditionFailed =>
          let _ ← critical R.lose
          return .inr ()
      | .error .notFound =>
          let _ ← critical R.lose
          return .inr ()
      | _ => return .inl ()

/-- `renewLoop`. -/
def renewLoop (fuel : ℕ) : BProg B Unit := do
  Prog.loop park (fun _ => R.renewRound) fuel ()
  let _ ← critical R.stop

end Renewer

/-! ## Tenants -/

/-- What a lock handle and a message handle have in common. -/
structure Tenure where
  path : String
  owner : String
  version : Version
  leaseUntil : ℤ
  stopped : Bool
  lost : Bool

/-- The handle is the same, except that a loss may have been left unreported. -/
structure Tenure.Same (h h' : Tenure) : Prop where
  path : h'.path = h.path
  owner : h'.owner = h.owner
  version : h'.version = h.version
  leaseUntil : h'.leaseUntil = h.leaseUntil
  stopped : h'.stopped = h.stopped
  lost : h'.lost = true → h.lost = true

lemma Tenure.Same.refl (h : Tenure) : h.Same h := ⟨rfl, rfl, rfl, rfl, rfl, id⟩

/-- Clients that keep records in one bucket: where the records are, who is named in them, and the
handle a client has. -/
structure Tenancy (B C : Type) where
  bucket : B
  ownerField : String
  owner : C → String
  owner_inj : Function.Injective owner
  IsRecord : String → Prop
  handle : Mem → Option Tenure
  handle_empty : ∀ b, handle { called := b } = none

/-- The condition on runs: no version read-back of a renewer fails. -/
def readsBack {B C : Type} (_ : BView B C) (e : BEvent B C) : Prop :=
  ∀ d b key, e ≠ BEvent.called (d, .renewer) (.attributes b key) (.error .backend)

/-- Whether a step keeps to it. -/
def isReadBack {B C : Type} (_ : BView B C) : BEvent B C → Bool
  | .call (_, .renewer) (.attributes _ _) (.error .backend) => false
  | _ => true

lemma readsBack_of_isReadBack {B C : Type} {v : BView B C} {e : BEvent B C}
    (h : isReadBack v e = true) : readsBack v e := by
  rintro d b key rfl
  cases h

namespace Tenancy

variable {B C : Type} [DecidableEq B] [DecidableEq C] (T : Tenancy B C)

/-- The record names the client as its owner. -/
def Own (c : C) (o : Object) : Prop := o.metadata.text T.ownerField = T.owner c

/-- What is stored at the path, if it is the client's own, has the property. -/
def IfOwn (w : World B C) (c : C) (path : String) (P : Object → Prop) : Prop :=
  ∀ o, (w.store T.bucket).get path = some o → T.Own c o → P o

/-- The version is that of the stored record, if that is the client's own. -/
def InStep (w : World B C) (c : C) (path : String) (ver : Version) : Prop :=
  T.IfOwn w c path fun o => o.version = ver

/-- The stored record is not the client's own. -/
def Foreign (w : World B C) (c : C) (path : String) : Prop := T.IfOwn w c path fun _ => False

/-- A loss may be reported: the lease has run out, or the record is absent or names another owner. -/
def Justified (w : World B C) (c : C) (h : Tenure) : Prop :=
  h.leaseUntil ≤ w.clock ∨ T.Foreign w c h.path

/-- The client has no handle whose renewer is up. -/
def Vacant (w : World B C) (c : C) : Prop :=
  ∀ h, T.handle (w.mem c) = some h → h.stopped = true

/-- What a step of one goroutine may do to the handle it shares with the other. -/
def HandleStep (g : Goroutine) (m m' : Mem) : Prop :=
  match g with
  | .main => ∀ h, T.handle m = some h → ∃ h', T.handle m' = some h' ∧ h.Same h'
  | .renewer => ∃ h, T.handle m = some h ∧ h.stopped = false ∧ ∃ h', T.handle m' = some h'

/-- What a client promises about each of its steps. -/
structure Guar (t : Thread C) (w w' : World B C) : Prop where
  clock : w'.clock = w.clock
  frame : ∀ d, d ≠ t.1 → w'.mem d = w.mem d
  record : ∀ key o, T.IsRecord key → (w'.store T.bucket).get key = some o →
    (w.store T.bucket).get key = some o ∨ (T.Own t.1 o ∧ (t.2 = .main → T.Vacant w t.1))
  handle : T.HandleStep t.2 (w.mem t.1) (w'.mem t.1)
  made : ∀ h, T.handle (w.mem t.1) = none → T.handle (w'.mem t.1) = some h →
    T.InStep w' t.1 h.path h.version
  lost : ∀ h h', T.handle (w.mem t.1) = some h → T.handle (w'.mem t.1) = some h' →
    h.lost = false → h'.lost = true → T.Justified w t.1 h

/-- What holds of the handles. -/
def Inv (mem : C → Mem) : Prop :=
  ∀ c h, T.handle (mem c) = some h → (mem c).called = true ∧ T.IsRecord h.path ∧ h.owner = T.owner c

/-- A handle whose renewer has not begun is in step with its record. -/
def Idle (t : Thread C) (w : World B C) : Prop :=
  t.2 = .renewer → ∀ h, T.handle (w.mem t.1) = some h → h.stopped = false →
    T.InStep w t.1 h.path h.version

/-- The contract of such clients. -/
def contract (bk : B → Backend) (flt : Faults)
    (start : Thread C → Entry → World B C → Option (BProg B Unit × World B C)) :
    Contract (bucketMachine bk flt start fun (d : ℕ) w => some (w.advance d)) where
  adm := readsBack
  inv v := T.Inv v.world.mem
  guar t v v' := T.Guar t v.world v'.world
  idle t v := T.Idle t v.world

variable {T} {bk : B → Backend} {flt : Faults}
  {start : Thread C → Entry → World B C → Option (BProg B Unit × World B C)}
  {t : Thread C} {v v' : BView B C} {w : World B C} {c : C} {path : String} {ver : Version} {d : ℤ}
  {P : Object → Prop}

lemma Own.unique {c d : C} {o : Object} (hc : T.Own c o) (hd : T.Own d o) : c = d :=
  T.owner_inj (hc.symm.trans hd)

lemma Foreign.inStep (h : T.Foreign w c path) : T.InStep w c path ver :=
  fun o ho hown => (h o ho hown).elim

/-! ## The steps of a client -/

variable (T) in
/-- A renewer only runs while its handle is up. -/
def Active (t : Thread C) (w : World B C) : Prop :=
  t.2 = .renewer → ∃ h, T.handle (w.mem t.1) = some h ∧ h.stopped = false

lemma active_main (w : World B C) : T.Active (c, .main) w := nofun

lemma Active.handleStep (h : T.Active t w) : T.HandleStep t.2 (w.mem t.1) (w.mem t.1) := by
  cases hg : t.2 with
  | main => exact fun h hh => ⟨h, hh, .refl h⟩
  | renewer =>
      obtain ⟨h', hh, hs⟩ := h hg
      exact ⟨h', hh, hs, h', hh⟩

/-- A step that leaves the handles alone. -/
lemma Guar.of_mem {w' : World B C} (ha : T.Active t w) (hclock : w'.clock = w.clock)
    (hmem : w'.mem = w.mem)
    (hrecord : ∀ key o, T.IsRecord key → (w'.store T.bucket).get key = some o →
      (w.store T.bucket).get key = some o ∨ (T.Own t.1 o ∧ (t.2 = .main → T.Vacant w t.1))) :
    T.Guar t w w' where
  clock := hclock
  frame _ _ := by rw [hmem]
  record := hrecord
  handle := by rw [hmem]; exact ha.handleStep
  made h hnone hsome := by
    rw [hmem, hnone] at hsome
    cases hsome
  lost h h' hh hh' hlost hlost' := by
    rw [hmem, hh] at hh'
    obtain rfl := Option.some.inj hh'
    exact absurd (hlost.symm.trans hlost') (by simp)

lemma Guar.quiet (ha : T.Active t w) : T.Guar t w w :=
  .of_mem ha rfl rfl fun _ _ _ => .inl

/-- A write to somewhere else, or of a record in the client's own name. -/
lemma Guar.write {body : ByteArray} {md : Metadata} {pre : List Precondition} {st : Store}
    (ha : T.Active t w)
    (hst : (w.store T.bucket).write (bk T.bucket) path body md pre = .ok st)
    (hown : T.IsRecord path → md.text T.ownerField = T.owner t.1 ∧
      (t.2 = .main → T.Vacant w t.1)) :
    T.Guar t w (w.setStore T.bucket st) := by
  obtain rfl := Store.write_ok hst
  refine .of_mem ha rfl rfl fun key o hkey ho => ?_
  rw [World.setStore_store_self] at ho
  by_cases hk : key = path
  · subst hk
    rw [Store.get_put_self] at ho
    obtain rfl := Option.some.inj ho
    exact .inr (hown hkey)
  · rw [Store.get_put_ne _ _ _ _ _ hk] at ho
    exact .inl ho

lemma Guar.delete {pre : List Precondition} {st : Store} (ha : T.Active t w)
    (hst : (w.store T.bucket).delete path pre = .ok st) :
    T.Guar t w (w.setStore T.bucket st) := by
  obtain ⟨-, rfl⟩ := Store.delete_ok hst
  refine .of_mem ha rfl rfl fun key o _ ho => .inl ?_
  rw [World.setStore_store_self] at ho
  by_cases hk : key = path
  · subst hk
    rw [Store.get_erase_self] at ho
    cases ho
  · rwa [Store.get_erase_ne _ _ hk] at ho

/-- A critical section. -/
lemma Guar.setMem {m : Mem} (hstep : T.HandleStep t.2 (w.mem t.1) m)
    (hmade : ∀ h, T.handle (w.mem t.1) = none → T.handle m = some h →
      T.InStep w t.1 h.path h.version)
    (hlost : ∀ h h', T.handle (w.mem t.1) = some h → T.handle m = some h' →
      h.lost = false → h'.lost = true → T.Justified w t.1 h) :
    T.Guar t w (w.setMem t.1 m) where
  clock := rfl
  frame _ hd := World.setMem_mem_ne w t.1 m hd
  record _ _ _ ho := .inl ho
  handle := by simpa using hstep
  made h := by rw [World.setMem_mem_self]; exact hmade h
  lost h h' := by simpa using hlost h h'

lemma Inv.setMem {m : Mem} (hi : T.Inv w.mem)
    (hm : ∀ h, T.handle m = some h → m.called = true ∧ T.IsRecord h.path ∧ h.owner = T.owner c) :
    T.Inv (w.setMem c m).mem := by
  intro d h hh
  by_cases hd : d = c
  · subst hd
    simpa using hm h (by simpa using hh)
  · rw [World.setMem_mem_ne w c m hd] at hh ⊢
    exact hi d h hh

/-! ## Interference -/

lemma interf_cases (h : (T.contract bk flt start).Interf t v v') :
    (∃ d : ℕ, v'.world = v.world.advance d) ∨ ∃ u, u ≠ t ∧ T.Guar u v.world v'.world := by
  obtain ⟨-, -, ⟨d, w, hw, -, rfl⟩ | ⟨u, hu, -, hg⟩⟩ := h
  · exact .inl ⟨d, (Option.some.inj hw).symm⟩
  · exact .inr ⟨u, hu, hg⟩

lemma rely_clock (h : (T.contract bk flt start).Rely t v v') :
    v.world.clock ≤ v'.world.clock := by
  refine Rely.of_step (R := fun v v' => v.world.clock ≤ v'.world.clock) (fun _ => le_rfl)
    le_trans (fun hs => ?_) h
  obtain ⟨d, hw⟩ | ⟨u, -, hg⟩ := interf_cases hs
  · simp [hw, World.advance]
  · exact hg.clock.ge

/-- What the other goroutine of the same client does to the handle is all that happens to it. -/
lemma interf_mem {g : Goroutine} (h : (T.contract bk flt start).Interf (c, g) v v') :
    v'.world.mem c = v.world.mem c ∨
      ∃ g', g' ≠ g ∧ T.HandleStep g' (v.world.mem c) (v'.world.mem c) := by
  obtain ⟨d, hw⟩ | ⟨⟨c', g'⟩, hu, hg⟩ := interf_cases h
  · exact .inl (by rw [hw]; rfl)
  · by_cases hc : c' = c
    · subst hc
      exact .inr ⟨g', fun hgg => hu (by rw [hgg]), hg.handle⟩
    · exact .inl (hg.frame c (Ne.symm hc))

variable (T) in
/-- A caller that has no handle yet. -/
def Applying (w : World B C) (c : C) : Prop :=
  (w.mem c).called = true ∧ T.handle (w.mem c) = none

lemma applying_rely (h : (T.contract bk flt start).Rely (c, .main) v v')
    (ha : T.Applying v.world c) : T.Applying v'.world c := by
  refine h.stable (P := fun v => T.Applying v.world c) (fun hs hP => ?_) ha
  rcases interf_mem hs with hm | ⟨g', hne, hstep⟩
  · simpa only [Applying, hm] using hP
  · obtain rfl : g' = .renewer := by cases g' <;> simp_all
    obtain ⟨h, hh, -⟩ := hstep
    exact absurd (hP.2.symm.trans hh) (by simp)

variable (T) in
/-- The renewer's handle, with the path, the version and the deadline it has cached. -/
def Running (w : World B C) (c : C) (path : String) (ver : Version) (d : ℤ) : Prop :=
  ∃ h, T.handle (w.mem c) = some h ∧ h.stopped = false ∧ h.path = path ∧ h.version = ver ∧
    h.leaseUntil = d

lemma Running.active (h : T.Running w c path ver d) : T.Active (c, .renewer) w := by
  obtain ⟨h, hh, hs, -⟩ := h
  exact fun _ => ⟨h, hh, hs⟩

lemma running_interf (hs : (T.contract bk flt start).Interf (c, .renewer) v v')
    (hr : T.Running v.world c path ver d) : T.Running v'.world c path ver d := by
  rcases interf_mem hs with hm | ⟨g', hne, hstep⟩
  · simpa only [Running, hm] using hr
  · obtain rfl : g' = .main := by cases g' <;> simp_all
    obtain ⟨h, hh, hst, hp, hv, hd⟩ := hr
    obtain ⟨h', hh', hsame⟩ := hstep h hh
    exact ⟨h', hh', hsame.stopped.trans hst, hsame.path.trans hp, hsame.version.trans hv,
      hsame.leaseUntil.trans hd⟩

lemma running_rely (h : (T.contract bk flt start).Rely (c, .renewer) v v')
    (hr : T.Running v.world c path ver d) : T.Running v'.world c path ver d :=
  h.stable (P := fun v => T.Running v.world c path ver d) running_interf hr

/-- Nobody writes a record in the renewer's client's name. -/
lemma ifOwn_rely (h : (T.contract bk flt start).Rely (c, .renewer) v v') (hrec : T.IsRecord path)
    (hr : T.Running v.world c path ver d) (hP : T.IfOwn v.world c path P) :
    T.IfOwn v'.world c path P := by
  refine (h.stable (P := fun v => T.Running v.world c path ver d ∧ T.IfOwn v.world c path P)
    (fun hs hP => ⟨running_interf hs hP.1, ?_⟩) ⟨hr, hP⟩).2
  obtain ⟨⟨h₀, hh, hst, -⟩, hP⟩ := hP
  intro o ho hown
  obtain ⟨d, hw⟩ | ⟨⟨c', g'⟩, hu, hg⟩ := interf_cases hs
  · rw [hw] at ho
    exact hP o ho hown
  · rcases hg.record _ o hrec ho with ho | ⟨hown', hvacant⟩
    · exact hP o ho hown
    · obtain rfl := hown'.unique hown
      obtain rfl : g' = .main := by cases g' <;> simp_all
      exact absurd (hst.symm.trans (hvacant rfl h₀ hh)) (by simp)

/-- A caller without a handle that has read a version back. -/
lemma inStep_rely (h : (T.contract bk flt start).Rely (c, .main) v v') (hrec : T.IsRecord path)
    (ha : T.Applying v.world c) (hs : T.InStep v.world c path ver) :
    T.InStep v'.world c path ver := by
  refine (h.stable (P := fun v => T.Applying v.world c ∧ T.InStep v.world c path ver)
    (fun hs hP => ⟨applying_rely (.single hs) hP.1, ?_⟩) ⟨ha, hs⟩).2
  obtain ⟨ha, hP⟩ := hP
  intro o ho hown
  obtain ⟨d, hw⟩ | ⟨⟨c', g'⟩, hu, hg⟩ := interf_cases hs
  · rw [hw] at ho
    exact hP o ho hown
  · rcases hg.record _ o hrec ho with ho | ⟨hown', -⟩
    · exact hP o ho hown
    · obtain rfl := hown'.unique hown
      obtain rfl : g' = .renewer := by cases g' <;> simp_all
      obtain ⟨h, hh, -⟩ := hg.handle
      exact absurd (ha.2.symm.trans hh) (by simp)

lemma idle_interf (hs : (T.contract bk flt start).Interf t v v') (hidle : T.Idle t v.world) :
    T.Idle t v'.world := by
  intro ht h' hh' hst'
  obtain ⟨c, g⟩ := t
  obtain rfl : g = .renewer := ht
  obtain ⟨d, hw⟩ | ⟨⟨c', g'⟩, hu, hg⟩ := interf_cases hs
  · rw [hw] at hh' ⊢
    exact hidle rfl h' hh' hst'
  by_cases hc : c' = c
  · subst hc
    obtain rfl : g' = .main := by cases g' <;> simp_all
    cases hh : T.handle (v.world.mem c') with
    | none => exact hg.made h' hh hh'
    | some h =>
        obtain ⟨h'', hh'', hsame⟩ := hg.handle h hh
        obtain rfl := Option.some.inj (hh''.symm.trans hh')
        have hst : h.stopped = false := hsame.stopped.symm.trans hst'
        intro o ho hown
        rw [hsame.path] at ho
        rw [hsame.version]
        rcases hg.record _ o (hs.1 c' h hh).2.1 ho with ho | ⟨-, hvacant⟩
        · exact hidle rfl h hh hst o ho hown
        · exact absurd (hst.symm.trans (hvacant rfl h hh)) (by simp)
  · rw [hg.frame c (Ne.symm hc)] at hh'
    intro o ho hown
    rcases hg.record _ o (hs.1 c h' hh').2.1 ho with ho | ⟨hown', -⟩
    · exact hidle rfl h' hh' hst' o ho hown
    · exact absurd (hown'.unique hown) hc

/-! ## Taking a record -/

/-- A caller without a handle writes a record in its own name and reads its version back. -/
lemma safe_writeBack {md : Metadata} {pre : Precondition} (hrec : T.IsRecord path)
    (ha : T.Applying v.world c) (hown : md.text T.ownerField = T.owner c) :
    (T.contract bk flt start).Safe (c, .main) (fun r v => T.Applying v.world c ∧
        ∀ ver, r = .ok ver → T.InStep v.world c path ver)
      (writeBack T.bucket path md pre) v := by
  refine safe_writeAll (fun v₁ hr₁ hi₁ r st hst _ _ => ?_) (fun v₁ hr₁ hi₁ e _ _ => ?_)
  · have ha₁ := applying_rely hr₁ ha
    have hvacant : T.Vacant v₁.world c := fun h hh => absurd (ha₁.2.symm.trans hh) (by simp)
    refine ⟨.write (active_main _) hst fun _ => ⟨hown, fun _ => hvacant⟩, hi₁, ?_⟩
    cases r with
    | error e => exact .ret fun _ hr _ => ⟨applying_rely (v := v₁.push _ _) hr ha₁, nofun⟩
    | ok u =>
        refine safe_attributes fun v₂ hr₂ hi₂ r hr _ => ⟨.quiet (active_main _), hi₂, ?_⟩
        have ha₂ := applying_rely (v := v₁.push _ _) hr₂ ha₁
        obtain ⟨o, ho, rfl⟩ | ⟨-, rfl⟩ | rfl := hr
        · refine .ret fun v₃ hr₃ _ => ⟨applying_rely (v := v₂.push _ _) hr₃ ha₂, ?_⟩
          rintro ver ⟨⟩
          refine inStep_rely (v := v₂.push _ _) hr₃ hrec ha₂ fun o' ho' _ => ?_
          exact congrArg Object.version (Option.some.inj (Eq.trans (Eq.symm ho') ho))
        · exact .ret fun _ hr _ => ⟨applying_rely (v := v₂.push _ _) hr ha₂, nofun⟩
        · exact .ret fun _ hr _ => ⟨applying_rely (v := v₂.push _ _) hr ha₂, nofun⟩
  · have ha₁ := applying_rely hr₁ ha
    exact ⟨.quiet (active_main _), hi₁,
      .ret fun _ hr _ => ⟨applying_rely (v := v₁.push _ _) hr ha₁, nofun⟩⟩

/-- The handle comes into being in step with its record. -/
lemma safe_found {α : Type} {a : α} {Q : α → BView B C → Prop} {f : Mem → Mem} {h : Tenure}
    (ha : T.Applying v.world c) (hrec : T.IsRecord h.path)
    (hstep : T.InStep v.world c h.path h.version) (howner : h.owner = T.owner c)
    (hf : ∀ m, (f m).called = m.called ∧ T.handle (f m) = some h) (hQ : ∀ v, Q a v) :
    (T.contract bk flt start).Safe (c, .main) Q
      (critical f >>= fun _ => .ret a) v := by
  refine safe_critical fun v₁ hr₁ hi₁ _ => ?_
  have ha₁ := applying_rely hr₁ ha
  have hstep₁ := inStep_rely hr₁ hrec ha hstep
  refine ⟨Guar.setMem ?_ ?_ ?_, Inv.setMem hi₁ fun h' hh' => ?_, .ret fun _ _ _ => hQ _⟩
  · exact fun _ hh => absurd (ha₁.2.symm.trans hh) (by simp)
  · intro h' _ hh'
    obtain rfl := Option.some.inj ((hf _).2.symm.trans hh')
    exact hstep₁
  · exact fun _ _ hh => absurd (ha₁.2.symm.trans hh) (by simp)
  · obtain rfl := Option.some.inj ((hf _).2.symm.trans hh')
    exact ⟨(hf _).1.trans ha₁.1, hrec, howner⟩

/-! ## What else a caller does

None of it touches a record or a handle, and a property of the caller's own memory that the others
leave alone survives it. -/

section Caller

variable {α : Type} {Q : α → BView B C → Prop} {I : Mem → Prop} {b : B} {key : String}

variable (T bk flt start) in
/-- The others leave the property of the caller's memory alone. -/
def Lasting (c : C) (I : Mem → Prop) : Prop :=
  ∀ v v', (T.contract bk flt start).Rely (c, .main) v v' → I (v.world.mem c) → I (v'.world.mem c)

lemma lasting_true : T.Lasting bk flt start c fun _ => True := fun _ _ _ _ => trivial

lemma lasting_applying :
    T.Lasting bk flt start c fun m => m.called = true ∧ T.handle m = none :=
  fun _ _ hr h => applying_rely hr h

/-- A handle whose renewer has exited. -/
lemma lasting_stopped :
    T.Lasting bk flt start c fun m => ∃ h, T.handle m = some h ∧ h.stopped = true := by
  intro v v' hr h
  refine hr.stable (P := fun v => ∃ h, T.handle (v.world.mem c) = some h ∧ h.stopped = true)
    (fun hs hP => ?_) h
  rcases interf_mem hs with hm | ⟨g', hne, hstep⟩
  · rw [hm]
    exact hP
  · obtain rfl : g' = .renewer := by cases g' <;> simp_all
    obtain ⟨h₀, hh₀, hst₀⟩ := hP
    obtain ⟨h, hh, hst, -⟩ := hstep
    obtain rfl := Option.some.inj (hh₀.symm.trans hh)
    exact absurd (hst.symm.trans hst₀) (by simp)

lemma caller_attributes {k : Except Err Attributes → BProg B α}
    (hI : T.Lasting bk flt start c I) (h : I (v.world.mem c))
    (hk : ∀ r v', T.Inv v'.world.mem → I (v'.world.mem c) →
      (T.contract bk flt start).Safe (c, .main) Q (k r) v') :
    (T.contract bk flt start).Safe (c, .main) Q (attributes b key >>= k) v :=
  safe_attributes fun v₁ hr₁ hi₁ r _ _ =>
    ⟨.quiet (active_main _), hi₁, hk r _ hi₁ (hI v v₁ hr₁ h)⟩

lemma caller_readRecord {k : Except Err (Metadata × Version) → BProg B α}
    (hI : T.Lasting bk flt start c I) (h : I (v.world.mem c))
    (hk : ∀ r v', T.Inv v'.world.mem → I (v'.world.mem c) →
      (T.contract bk flt start).Safe (c, .main) Q (k r) v') :
    (T.contract bk flt start).Safe (c, .main) Q (readRecord b key >>= k) v := by
  refine safe_attributes fun v₁ hr₁ hi₁ r _ _ => ⟨.quiet (active_main _), hi₁, ?_⟩
  cases r <;> exact hk _ _ hi₁ (hI v v₁ hr₁ h)

lemma caller_readAll {k : Except Err ByteArray → BProg B α}
    (hI : T.Lasting bk flt start c I) (h : I (v.world.mem c))
    (hk : ∀ r v', T.Inv v'.world.mem → I (v'.world.mem c) →
      (T.contract bk flt start).Safe (c, .main) Q (k r) v') :
    (T.contract bk flt start).Safe (c, .main) Q (readAll b key >>= k) v :=
  safe_readAll fun v₁ hr₁ hi₁ r _ _ => ⟨.quiet (active_main _), hi₁, hk r _ hi₁ (hI v v₁ hr₁ h)⟩

lemma caller_listPage {token : PageToken} {n : ℕ} {pref : String}
    {k : Except Err (List String × PageToken) → BProg B α}
    (hI : T.Lasting bk flt start c I) (h : I (v.world.mem c))
    (hk : ∀ r v', T.Inv v'.world.mem → I (v'.world.mem c) →
      (T.contract bk flt start).Safe (c, .main) Q (k r) v') :
    (T.contract bk flt start).Safe (c, .main) Q (listPage b token n pref >>= k) v :=
  safe_listPage fun v₁ hr₁ hi₁ r _ _ => ⟨.quiet (active_main _), hi₁, hk r _ hi₁ (hI v v₁ hr₁ h)⟩

lemma caller_now {k : ℤ → BProg B α} (hI : T.Lasting bk flt start c I) (h : I (v.world.mem c))
    (hk : ∀ r v', T.Inv v'.world.mem → I (v'.world.mem c) →
      (T.contract bk flt start).Safe (c, .main) Q (k r) v') :
    (T.contract bk flt start).Safe (c, .main) Q (now >>= k) v :=
  safe_now fun v₁ hr₁ hi₁ _ => ⟨.quiet (active_main _), hi₁, hk _ _ hi₁ (hI v v₁ hr₁ h)⟩

lemma caller_randIntN {n : ℕ} {k : ℕ → BProg B α} (hI : T.Lasting bk flt start c I)
    (h : I (v.world.mem c))
    (hk : ∀ r v', T.Inv v'.world.mem → I (v'.world.mem c) →
      (T.contract bk flt start).Safe (c, .main) Q (k r) v') :
    (T.contract bk flt start).Safe (c, .main) Q (randIntN n >>= k) v :=
  safe_randIntN fun v₁ hr₁ hi₁ r _ _ => ⟨.quiet (active_main _), hi₁, hk r _ hi₁ (hI v v₁ hr₁ h)⟩

lemma caller_delete {pre : List Precondition} {k : Except Err Unit → BProg B α}
    (hI : T.Lasting bk flt start c I) (h : I (v.world.mem c))
    (hk : ∀ r v', T.Inv v'.world.mem → I (v'.world.mem c) →
      (T.contract bk flt start).Safe (c, .main) Q (k r) v') :
    (T.contract bk flt start).Safe (c, .main) Q (delete T.bucket key pre >>= k) v :=
  safe_delete
    (fun v₁ hr₁ hi₁ r _ hst _ _ =>
      ⟨.delete (active_main _) hst, hi₁, hk r _ hi₁ (hI v v₁ hr₁ h)⟩)
    (fun v₁ hr₁ hi₁ _ _ _ => ⟨.quiet (active_main _), hi₁, hk _ _ hi₁ (hI v v₁ hr₁ h)⟩)

/-- A write to somewhere else, or of an own record when no renewer is up. -/
lemma caller_writeAll {body : ByteArray} {md : Metadata} {pre : List Precondition}
    {k : Except Err Unit → BProg B α} (hI : T.Lasting bk flt start c I) (h : I (v.world.mem c))
    (hrec : T.IsRecord key → md.text T.ownerField = T.owner c ∧
      ∀ m, I m → ∀ h, T.handle m = some h → h.stopped = true)
    (hk : ∀ r v', T.Inv v'.world.mem → I (v'.world.mem c) →
      (T.contract bk flt start).Safe (c, .main) Q (k r) v') :
    (T.contract bk flt start).Safe (c, .main) Q (writeAll T.bucket key body md pre >>= k) v := by
  refine safe_writeAll (fun v₁ hr₁ hi₁ r st hst _ _ => ?_)
    (fun v₁ hr₁ hi₁ _ _ _ => ⟨.quiet (active_main _), hi₁, hk _ _ hi₁ (hI v v₁ hr₁ h)⟩)
  have h₁ := hI v v₁ hr₁ h
  exact ⟨.write (active_main _) hst fun hkey => ⟨(hrec hkey).1, fun _ => (hrec hkey).2 _ h₁⟩, hi₁,
    hk r _ hi₁ h₁⟩

/-- A critical section of the caller that leaves the handle as it is, up to other flags. -/
lemma caller_flags {f : Mem → Mem} {k : Mem → BProg B α}
    (hcalled : ∀ m, (f m).called = m.called)
    (hf : ∀ m h, T.handle m = some h → ∃ h', T.handle (f m) = some h' ∧ h.Same h')
    (hnone : ∀ m, T.handle m = none → T.handle (f m) = none)
    (hI : T.Lasting bk flt start c I) (hIf : ∀ m, I m → I (f m)) (h : I (v.world.mem c))
    (hk : ∀ r v', T.Inv v'.world.mem → I (v'.world.mem c) →
      (T.contract bk flt start).Safe (c, .main) Q (k r) v') :
    (T.contract bk flt start).Safe (c, .main) Q (critical f >>= k) v := by
  refine safe_critical fun v₁ hr₁ hi₁ _ => ?_
  have hi : T.Inv (v₁.world.setMem c (f (v₁.world.mem c))).mem := by
    refine Inv.setMem hi₁ fun h' hh' => ?_
    cases hh : T.handle (v₁.world.mem c) with
    | none =>
        rw [hnone _ hh] at hh'
        cases hh'
    | some h =>
        obtain ⟨h'', hh'', hsame⟩ := hf _ h hh
        obtain rfl := Option.some.inj (hh''.symm.trans hh')
        obtain ⟨hc, hp, ho⟩ := hi₁ c h hh
        exact ⟨(hcalled _).trans hc, hsame.path ▸ hp, hsame.owner.trans ho⟩
  refine ⟨Guar.setMem (hf _) ?_ ?_, hi, hk _ _ hi ?_⟩
  · intro h hh hh'
    rw [hnone _ hh] at hh'
    cases hh'
  · intro h h' hh hh' hlost hlost'
    obtain ⟨h'', hh'', hsame⟩ := hf _ h hh
    obtain rfl := Option.some.inj (hh''.symm.trans hh')
    exact absurd (hlost.symm.trans (hsame.lost hlost')) (by simp)
  · rw [View.push_world, World.setMem_mem_self]
    exact hIf _ (hI v v₁ hr₁ h)

/-- Waiting for the renewer to exit. -/
lemma caller_await {p : Mem → Bool} {k : Unit → BProg B α} (hp : ∀ m, p m = true → I m)
    (hk : ∀ v', T.Inv v'.world.mem → I (v'.world.mem c) →
      (T.contract bk flt start).Safe (c, .main) Q (k ()) v') :
    (T.contract bk flt start).Safe (c, .main) Q (await p >>= k) v :=
  safe_await fun _ _ hi₁ hready _ => ⟨.quiet (active_main _), hi₁, hk _ hi₁ (hp _ hready)⟩

end Caller

lemma idle_main (w : World B C) : T.Idle (c, .main) w := nofun

/-- The caller has nothing to leave behind. -/
lemma safe_call {α : Type} {p : BProg B α} (hi : T.Inv v.world.mem)
    (h : (T.contract bk flt start).Safe (c, .main) (fun _ _ => True) p v) :
    (T.contract bk flt start).Safe (c, .main) (fun _ v => T.Idle (c, .main) v.world)
      (Functor.discard p : BProg B Unit) v :=
  Safe.discard (P := fun v => T.Idle (c, .main) v.world) hi (fun _ _ => idle_main _)
    (h.mono fun _ _ _ _ => idle_main _)

/-- A client makes its first call. -/
lemma step_call (hi : T.Inv w.mem) (hcalled : (w.mem c).called = false) :
    T.Guar (c, .main) w (w.setMem c { called := true }) ∧
      T.Inv (w.setMem c { called := true }).mem ∧
      T.Applying (w.setMem c { called := true }) c := by
  have hnone : T.handle (w.mem c) = none := by
    cases hh : T.handle (w.mem c) with
    | none => rfl
    | some h => exact absurd (hcalled.symm.trans (hi c h hh).1) (by simp)
  have hempty := T.handle_empty true
  refine ⟨Guar.setMem (fun h hh => ?_) (fun h _ hh => ?_) (fun h h' hh => ?_),
    Inv.setMem hi fun h hh => ?_, ?_⟩
  · exact absurd (hnone.symm.trans hh) (by simp)
  · exact absurd (hempty.symm.trans hh) (by simp)
  · exact absurd (hnone.symm.trans hh) (by simp)
  · exact absurd (hempty.symm.trans hh) (by simp)
  · exact ⟨by simp, by simpa using hempty⟩

/-! ## Renewing it -/

variable (T) in
/-- The renewer is one for the client's handle. -/
structure Fits (R : Renewer B) (c : C) : Prop where
  bucket : R.bucket = T.bucket
  record : T.IsRecord R.path
  own : ∀ now, (R.fields now).text T.ownerField = T.owner c
  version : ∀ m h, T.handle m = some h → R.version m = h.version
  leaseUntil : ∀ m h, T.handle m = some h → R.leaseUntil m = h.leaseUntil
  renewed : ∀ ver d m h, T.handle m = some h → (R.renewed ver d m).called = m.called ∧
    T.handle (R.renewed ver d m) = some { h with version := ver, leaseUntil := d }
  lose : ∀ m h, T.handle m = some h → (R.lose m).called = m.called ∧
    ∃ b, T.handle (R.lose m) = some { h with lost := b }
  stop : ∀ m h, T.handle m = some h → (R.stop m).called = m.called ∧
    T.handle (R.stop m) = some { h with stopped := true }

variable {R : Renewer B}

variable (T) in
/-- The renewer's handle is up and in step with its record. -/
def Tending (w : World B C) (c : C) (path : String) : Prop :=
  ∃ ver d, T.Running w c path ver d ∧ T.InStep w c path ver

lemma tending_rely (h : (T.contract bk flt start).Rely (c, .renewer) v v')
    (hrec : T.IsRecord path) (ht : T.Tending v.world c path) : T.Tending v'.world c path := by
  obtain ⟨ver, d, hrun, hstep⟩ := ht
  exact ⟨ver, d, running_rely h hrun, ifOwn_rely h hrec hrun hstep⟩

/-- A field of the handle, read by the renewer. -/
lemma safe_field {α β : Type} {f : Mem → α} {k : α → BProg B β} {Q : β → BView B C → Prop}
    (hrun : T.Running v.world c path ver d)
    (hk : ∀ v', (T.contract bk flt start).Rely (c, .renewer) v v' → T.Inv v'.world.mem → ∀ e,
      T.Running v'.world c path ver d →
      (T.contract bk flt start).Safe (c, .renewer) Q (k (f (v'.world.mem c)))
        (v'.push e v'.world)) :
    (T.contract bk flt start).Safe (c, .renewer) Q (Renewer.field f >>= k) v := by
  refine safe_critical fun v₁ hr₁ hi₁ _ => ?_
  have hrun₁ := running_rely hr₁ hrun
  simp only [Steps, id_eq, World.setMem_self]
  exact ⟨.quiet hrun₁.active, hi₁, hk v₁ hr₁ hi₁ _ hrun₁⟩

/-- A critical section of the renewer. -/
lemma safe_touch {f : Mem → Mem} {α : Type} {a : α} {Q : α → BView B C → Prop}
    (hrun : T.Running v.world c path ver d)
    (hf : ∀ m h, T.handle m = some h → (f m).called = m.called ∧
      ∃ h', T.handle (f m) = some h' ∧ h'.path = h.path ∧ h'.owner = h.owner)
    (hlost : ∀ v', (T.contract bk flt start).Rely (c, .renewer) v v' → ∀ h h',
      T.handle (v'.world.mem c) = some h → h.path = path → h.leaseUntil = d →
      T.handle (f (v'.world.mem c)) = some h' → h.lost = false → h'.lost = true →
      T.Justified v'.world c h)
    (hQ : ∀ v', (T.contract bk flt start).Rely (c, .renewer) v v' →
      T.Running v'.world c path ver d → ∀ v'', (T.contract bk flt start).Rely (c, .renewer)
        (v'.push (BEvent.called (c, .renewer) (.mem f) (v'.world.mem c))
          (v'.world.setMem c (f (v'.world.mem c)))) v'' → Q a v'') :
    (T.contract bk flt start).Safe (c, .renewer) Q (critical f >>= fun _ => .ret a) v := by
  refine safe_critical fun v₁ hr₁ hi₁ _ => ?_
  have hrun₁ := running_rely hr₁ hrun
  obtain ⟨h, hh, hst, hpath, -, hd⟩ := id hrun₁
  obtain ⟨hcalled, h', hh', hpath', howner'⟩ := hf _ h hh
  refine ⟨Guar.setMem ⟨h, hh, hst, h', hh'⟩ ?_ ?_, Inv.setMem hi₁ fun h'' hh'' => ?_,
    .ret fun v₂ hr₂ _ => hQ v₁ hr₁ hrun₁ v₂ hr₂⟩
  · exact fun _ hnone => absurd (hh.symm.trans hnone) (by simp)
  · intro h₀ h₁ hh₀ hh₁
    obtain rfl := Option.some.inj (hh.symm.trans hh₀)
    exact hlost v₁ hr₁ h h₁ hh hpath hd hh₁
  · obtain rfl := Option.some.inj (hh'.symm.trans hh'')
    obtain ⟨hc, hp, ho⟩ := hi₁ c h hh
    exact ⟨hcalled.trans hc, hpath' ▸ hp, howner'.trans ho⟩

/-- The renewer gives up for a reason. -/
lemma safe_lose {a : Unit ⊕ Unit} (hR : T.Fits R c) (hrun : T.Running v.world c R.path ver d)
    (hstep : T.InStep v.world c R.path ver)
    (hwhy : d ≤ v.world.clock ∨ T.Foreign v.world c R.path) :
    (T.contract bk flt start).Safe (c, .renewer) (fun _ v => T.Tending v.world c R.path)
      (critical R.lose >>= fun _ => .ret a) v := by
  refine safe_touch hrun (fun m h hh => ?_) (fun v₁ hr₁ h h' hh hpath hd _ _ _ => ?_)
    (fun v₁ hr₁ hrun₁ v₂ hr₂ => ?_)
  · obtain ⟨hcalled, b, hb⟩ := hR.lose m h hh
    exact ⟨hcalled, _, hb, rfl, rfl⟩
  · subst hd
    rcases hwhy with hle | hforeign
    · exact .inl (hle.trans (rely_clock hr₁))
    · exact .inr (hpath ▸ ifOwn_rely hr₁ hR.record hrun hforeign)
  · have hstep₁ := ifOwn_rely hr₁ hR.record hrun hstep
    refine tending_rely hr₂ hR.record ⟨ver, d, ?_, hstep₁⟩
    obtain ⟨h, hh, hst, hp, hv, hd⟩ := hrun₁
    obtain ⟨-, b, hb⟩ := hR.lose _ h hh
    exact ⟨{ h with lost := b }, by simpa using hb, hst, hp, hv, hd⟩

variable (T) in
/-- What the renewer knows after a swap: the version it has read back is that of its record; or
nothing has happened; or the record is no longer its own. -/
def Swapped (c : C) (path : String) (ver : Version) (d : ℤ) (r : Except Err Version)
    (v : BView B C) : Prop :=
  T.Running v.world c path ver d ∧
    match r with
    | .ok newVersion => T.InStep v.world c path newVersion
    | .error e => (e = .backend ∧ T.InStep v.world c path ver) ∨ T.Foreign v.world c path

lemma swapped_rely {r : Except Err Version} (hrec : T.IsRecord path)
    (h : (T.contract bk flt start).Rely (c, .renewer) v v') (hs : T.Swapped c path ver d r v) :
    T.Swapped c path ver d r v' := by
  obtain ⟨hrun, hs⟩ := hs
  refine ⟨running_rely h hrun, ?_⟩
  cases r with
  | ok newVersion => exact ifOwn_rely h hrec hrun hs
  | error e =>
      exact hs.imp (fun hs => ⟨hs.1, ifOwn_rely h hrec hrun hs.2⟩) (ifOwn_rely h hrec hrun)

/-- The swap of a renew, and its read-back. -/
lemma safe_swap {md : Metadata} (hflt : flt.after = false) (hrec : T.IsRecord path)
    (hown : md.text T.ownerField = T.owner c) (hrun : T.Running v.world c path ver d)
    (hstep : T.InStep v.world c path ver) :
    (T.contract bk flt start).Safe (c, .renewer) (T.Swapped c path ver d)
      (writeBack T.bucket path md (.ifMatch ver)) v := by
  refine safe_writeAll (fun v₁ hr₁ hi₁ r st hst hans _ => ?_) (fun v₁ hr₁ hi₁ e he _ => ?_)
  · have hrun₁ := running_rely hr₁ hrun
    refine ⟨.write hrun₁.active hst fun _ => ⟨hown, nofun⟩, hi₁, ?_⟩
    obtain rfl := hans.resolve_right (by simp [hflt])
    refine safe_attributes fun v₂ hr₂ hi₂ r hr hadm => ?_
    have hrun₂ := running_rely (v := v₁.push _ _) hr₂ hrun₁
    refine ⟨.quiet hrun₂.active, hi₂, ?_⟩
    obtain ⟨o, ho, rfl⟩ | ⟨hnone, rfl⟩ | rfl := hr
    · refine .ret fun _ hr _ => swapped_rely (v := v₂.push _ _) hrec hr ⟨hrun₂, fun o' ho' _ => ?_⟩
      exact congrArg Object.version (Option.some.inj (Eq.trans (Eq.symm ho') ho))
    · refine .ret fun _ hr _ => swapped_rely (v := v₂.push _ _) hrec hr ⟨hrun₂, .inr fun o' ho' _ => ?_⟩
      exact absurd (Eq.trans (Eq.symm ho') hnone) (by simp)
    · exact absurd rfl (hadm c T.bucket path)
  · have hrun₁ := running_rely hr₁ hrun
    have hstep₁ := ifOwn_rely hr₁ hrec hrun hstep
    refine ⟨.quiet hrun₁.active, hi₁, .ret fun _ hr _ =>
      swapped_rely (v := v₁.push _ _) hrec hr ⟨hrun₁, ?_⟩⟩
    rcases he with he | rfl
    · exact .inr fun o ho hown' => Store.write_ifMatch_error he o ho (hstep₁ o ho hown')
    · exact .inl ⟨rfl, hstep₁⟩

/-- `renewOnce` on a handle that is in step with its record. -/
lemma safe_renewOnce {now : ℤ} (hflt : flt.after = false) (hR : T.Fits R c)
    (hrun : T.Running v.world c R.path ver d) (hstep : T.InStep v.world c R.path ver) :
    (T.contract bk flt start).Safe (c, .renewer) (fun r v => T.Tending v.world c R.path ∧
        ∀ e, r = .error e → e = .backend ∨ T.Foreign v.world c R.path)
      (R.renewOnce now) v := by
  refine safe_field hrun fun v₁ hr₁ hi₁ e hrun₁ => ?_
  have hstep₁ := ifOwn_rely hr₁ hR.record hrun hstep
  obtain ⟨h, hh, -, -, hver, -⟩ := id hrun₁
  rw [hR.version _ h hh, hver, hR.bucket]
  refine Safe.bind (Q := T.Swapped c R.path ver d) hi₁
    (safe_swap hflt hR.record (hR.own now) hrun₁ hstep₁) ?_
  rintro r v₂ hi₂ ⟨hrun₂, hs⟩
  cases r with
  | error e =>
      refine .ret fun v₃ hr₃ _ => ?_
      have hrun₃ := running_rely hr₃ hrun₂
      rcases hs with ⟨rfl, hs⟩ | hs
      · refine ⟨⟨ver, d, hrun₃, ifOwn_rely hr₃ hR.record hrun₂ hs⟩, ?_⟩
        rintro e ⟨⟩
        exact .inl rfl
      · have hforeign := ifOwn_rely hr₃ hR.record hrun₂ hs
        exact ⟨⟨ver, d, hrun₃, Foreign.inStep hforeign⟩, fun _ _ => .inr hforeign⟩
  | ok newVersion =>
      refine safe_touch hrun₂ (fun m h hh => ?_) (fun v₃ hr₃ h h' hh _ _ hh' hl hl' => ?_)
        (fun v₃ hr₃ hrun₃ v₄ hr₄ => ⟨tending_rely hr₄ hR.record ?_, nofun⟩)
      · obtain ⟨hcalled, hm⟩ := hR.renewed newVersion (now + R.lease) m h hh
        exact ⟨hcalled, _, hm, rfl, rfl⟩
      · obtain rfl := Option.some.inj ((hR.renewed _ _ _ h hh).2.symm.trans hh')
        exact absurd (hl.symm.trans hl') (by simp)
      · have hs₃ := ifOwn_rely hr₃ hR.record hrun₂ hs
        obtain ⟨h, hh, hst, hp, -, -⟩ := hrun₃
        let h' : Tenure := { h with version := newVersion, leaseUntil := now + R.lease }
        refine ⟨newVersion, now + R.lease, ⟨h', ?_, hst, hp, rfl, rfl⟩, hs₃⟩
        rw [View.push_world, World.setMem_mem_self]
        exact (hR.renewed _ _ _ h hh).2

lemma safe_renewRound (hflt : flt.after = false) (hR : T.Fits R c)
    (ht : T.Tending v.world c R.path) :
    (T.contract bk flt start).Safe (c, .renewer) (fun _ v => T.Tending v.world c R.path)
      R.renewRound v := by
  obtain ⟨ver, d, hrun, hstep⟩ := ht
  refine safe_select fun v₁ hr₁ hi₁ _ _ _ => ?_
  have hrun₁ := running_rely hr₁ hrun
  have hstep₁ := ifOwn_rely hr₁ hR.record hrun hstep
  refine ⟨.quiet hrun₁.active, hi₁, ?_⟩
  split
  · exact .ret fun _ hr _ => tending_rely (v := v₁.push _ _) hr hR.record ⟨ver, d, hrun₁, hstep₁⟩
  · refine safe_now fun v₂ hr₂ hi₂ _ => ?_
    have hrun₂ := running_rely (v := v₁.push _ _) hr₂ hrun₁
    have hstep₂ := ifOwn_rely (v := v₁.push _ _) hr₂ hR.record hrun₁ hstep₁
    refine ⟨.quiet hrun₂.active, hi₂, ?_⟩
    refine safe_field (v := v₂.push _ _) hrun₂ fun v₃ hr₃ hi₃ e hrun₃ => ?_
    have hstep₃ := ifOwn_rely (v := v₂.push _ _) hr₃ hR.record hrun₂ hstep₂
    obtain ⟨h, hh, -, -, -, hd⟩ := id hrun₃
    rw [hR.leaseUntil _ h hh, hd]
    split
    · rename_i hle
      have hle : d ≤ v₂.world.clock := by simpa using hle
      have hclock := rely_clock (v := v₂.push _ _) hr₃
      exact safe_lose hR hrun₃ hstep₃ (.inl (hle.trans hclock))
    · refine Safe.bind hi₃ (safe_renewOnce hflt hR hrun₃ hstep₃) ?_
      rintro r v₄ hi₄ ⟨⟨ver₄, d₄, hrun₄, hstep₄⟩, hwhy⟩
      split
      · exact safe_lose hR hrun₄ hstep₄ (.inr ((hwhy _ rfl).resolve_left (by simp)))
      · exact safe_lose hR hrun₄ hstep₄ (.inr ((hwhy _ rfl).resolve_left (by simp)))
      · exact .ret fun _ hr _ => tending_rely hr hR.record ⟨ver₄, d₄, hrun₄, hstep₄⟩

/-- **The renewer reports a loss only for a reason**, if no read-back of its own fails. -/
lemma safe_renewLoop (hflt : flt.after = false) (hR : T.Fits R c) (hi : T.Inv v.world.mem)
    (ht : T.Tending v.world c R.path) (fuel : ℕ) :
    (T.contract bk flt start).Safe (c, .renewer) (fun _ v => T.Idle (c, .renewer) v.world)
      (R.renewLoop fuel) v := by
  refine Safe.bind (Q := fun _ v => T.Tending v.world c R.path) hi
    (Safe.loop (I := fun _ v => T.Tending v.world c R.path) (fun _ => safe_park) ?_ ?_ fuel () v
      hi ht) ?_
  · rintro ⟨⟩ v₁ hi₁ ht₁
    exact (safe_renewRound hflt hR ht₁).mono fun r v₂ _ h₂ => by cases r <;> exact h₂
  · exact fun _ v₁ _ ht₁ => .ret fun _ hr _ => tending_rely hr hR.record ht₁
  · rintro ⟨⟩ v₁ hi₁ ⟨ver, d, hrun, -⟩
    refine safe_touch hrun (fun m h hh => ?_) (fun v₂ hr₂ h h' hh _ _ hh' hl hl' => ?_)
      (fun v₂ hr₂ hrun₂ v₃ hr₃ => ?_)
    · obtain ⟨hcalled, hm⟩ := hR.stop m h hh
      exact ⟨hcalled, _, hm, rfl, rfl⟩
    · obtain rfl := Option.some.inj ((hR.stop _ h hh).2.symm.trans hh')
      exact absurd (hl.symm.trans hl') (by simp)
    · -- a renewer that has exited leaves nothing to be in step with
      refine hr₃.stable (P := fun v => T.Idle (c, .renewer) v.world) idle_interf ?_
      intro _ h' hh' hst'
      obtain ⟨h, hh, -⟩ := hrun₂
      rw [View.push_world, World.setMem_mem_self, (hR.stop _ h hh).2] at hh'
      obtain rfl := Option.some.inj hh'
      cases hst'

/-! ## Runs -/

/-- The obligations of a system of such clients. -/
lemma sound_of_start {w₀ : World B C} (h₀ : ∀ c, w₀.mem c = {})
    (hstart : ∀ t e (v : BView B C) p w, T.Inv v.world.mem → T.Idle t v.world →
      start t e v.world = some (p, w) → T.Guar t v.world w ∧ T.Inv w.mem ∧
        (T.contract bk flt start).Safe t (fun _ v => T.Idle t v.world) p
          (v.push (.start t e) w)) :
    (T.contract bk flt start).Sound w₀ where
  init := by
    refine ⟨fun c h hh => ?_, fun t _ h hh => ?_⟩
    · rw [h₀ c, T.handle_empty] at hh
      cases hh
    · rw [h₀ t.1, T.handle_empty] at hh
      cases hh
  env := by
    rintro v v' hi ⟨d, w, hw, -, rfl⟩
    obtain rfl := Option.some.inj hw
    exact hi
  stable _ _ _ := idle_interf
  start t e v p w hi hidle _ hp := hstart t e v p w hi hidle hp

/-- **Every loss has a reason.** -/
theorem justified {w₀ : World B C} (hs : (T.contract bk flt start).Sound w₀)
    {c : Config (bucketSig B) (World B C) (Thread C)}
    (hc : Reach (bucketMachine bk flt start fun (d : ℕ) w => some (w.advance d)) readsBack w₀ c)
    {p : World B C × BEvent B C × World B C} (hp : p ∈ c.view.steps) {d : C} {h h' : Tenure}
    (hh : T.handle (p.1.mem d) = some h) (hh' : T.handle (p.2.2.mem d) = some h')
    (hlost : h.lost = false) (hlost' : h'.lost = true) :
    h.leaseUntil ≤ p.1.clock ∨ ∀ o, (p.1.store T.bucket).get h.path = some o →
      o.metadata.text T.ownerField ≠ h.owner := by
  obtain ⟨v, hi, hv, -, ⟨a, w, hw, -, heq⟩ | ⟨t, -, -, hg⟩⟩ := hs.steps hc hp
  · obtain rfl := Option.some.inj hw
    have hw' : p.2.2 = v.world.advance a := congrArg View.world heq
    rw [hw', show (v.world.advance a).mem = v.world.mem from rfl, hv, hh] at hh'
    obtain rfl := Option.some.inj hh'
    exact absurd (hlost.symm.trans hlost') (by simp)
  · rw [← hv] at hh ⊢
    by_cases hd : d = t.1
    · subst hd
      refine (hg.lost h h' hh hh' hlost hlost').imp_right fun hforeign o ho hown => ?_
      exact hforeign o ho (hown.trans (hi _ h hh).2.2)
    · have hframe : p.2.2.mem d = v.world.mem d := hg.frame d hd
      rw [hframe, hh] at hh'
      obtain rfl := Option.some.inj hh'
      exact absurd (hlost.symm.trans hlost') (by simp)

end Tenancy

end Blobster
