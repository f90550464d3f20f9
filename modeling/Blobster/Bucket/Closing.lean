import Blobster.Bucket.Races
import Blobster.Bucket.Tenure

/-!
# Giving a record back

`Release` and `Ack` end a handle the same way: they mark it as settled, stop its renewer and wait
until that has exited, and then delete the record if it is still the handle's own.  A second call
finds the mark and returns at once.

The mark is set before the backend is asked for anything.  So a second call only tells the truth if
the first got through: if its read or its delete of the record failed, the record may still be there,
and the next call says that it is not.

* `Holding` — a handle, over what a lock's and a message's differ in; `Holding.close` — how both end;
  `Holding.once` — how a call settles the handle.
* `Holding.others` — what everyone else may do: anything but write a record in the handle's name.
* `Holding.Careful` — no call ends the handle again after one that failed, or after a `Nack`.
* **`safe_close`**, **`safe_once_tame`**, **`safe_renewLoop`** — the programs that work on a handle.
* **`Holding.sound_of_starts`** — in every careful run, a `nil` from `Release` or `Ack` means that the
  handle's record is gone.
-/

set_option linter.unusedSectionVars false

namespace Blobster

open Interleave Contract

/-! ## Handles -/

/-- A handle on a record: its renewer, the owner that it is named in the record by, and the flags by
which it is ended. -/
structure Holding (B : Type) extends Renewer B where
  ownerField : String
  owner : String
  held : Mem → Bool
  settled : Mem → Bool
  stopped : Mem → Bool
  mark : Mem → Mem
  cancel : Mem → Mem
  finish : Mem → Mem

namespace Holding

variable {B : Type} (H : Holding B)

/-- What only the first call that settles the handle does. -/
def once (p : BProg B (Except Err Unit)) : BProg B (Except Err Unit) := do
  let before ← critical H.mark
  if H.settled before then return .ok () else p

/-- How the first call ends the handle; `after` is what follows the delete of the record. -/
def giveBack (after : BProg B (Except Err Unit)) : BProg B (Except Err Unit) := do
  let _ ← critical H.cancel
  await H.stopped
  let _ ← critical H.finish
  match ← readRecord H.bucket H.path with
  | .error .notFound => return .ok ()
  | .error e => return .error e
  | .ok (fields, version) =>
      if fields.text H.ownerField ≠ H.owner then return .ok ()
      else
        match ← delete H.bucket H.path [.ifMatch version] with
        | .error .preconditionFailed => return .ok ()
        | .error .notFound => return .ok ()
        | .error e => return .error e
        | .ok _ => after

/-- The call that ends the handle. -/
def close (after : BProg B (Except Err Unit)) : BProg B (Except Err Unit) := H.once (H.giveBack after)

/-- The handle is settled, and the call has ended, as much as it was before. -/
structure Same (m m' : Mem) : Prop where
  held : H.held m' = H.held m
  settled : H.settled m' = H.settled m
  outcome : m'.outcome = m.outcome

/-- The flags are where the critical sections of the programs leave them. -/
structure Lawful : Prop where
  mark_settled : ∀ m, H.held m = true → H.settled (H.mark m) = true
  mark : ∀ m, H.held (H.mark m) = H.held m ∧ H.stopped (H.mark m) = H.stopped m ∧
    (H.mark m).outcome = m.outcome
  cancel : ∀ m, H.Same m (H.cancel m) ∧ H.stopped (H.cancel m) = H.stopped m
  finish : ∀ m, H.Same m (H.finish m) ∧ H.stopped (H.finish m) = H.stopped m
  renewed : ∀ ver d m, H.Same m (H.renewed ver d m) ∧ H.stopped (H.renewed ver d m) = H.stopped m
  lose : ∀ m, H.Same m (H.lose m) ∧ H.stopped (H.lose m) = H.stopped m
  stop : ∀ m, H.Same m (H.stop m)
  report : ∀ m o, H.held { m with outcome := o } = H.held m ∧
    H.settled { m with outcome := o } = H.settled m ∧ H.stopped { m with outcome := o } = H.stopped m

/-! ## The others -/

/-- The stored record, if there is one, names the handle's owner. -/
def Own (w : World B Unit) : Prop :=
  ∃ o, (w.store H.bucket).get H.path = some o ∧ o.metadata.text H.ownerField = H.owner

/-- What the others leave behind: any time, any content of the buckets. -/
structure Others (B : Type) where
  clock : ℤ
  store : B → Store

/-- Nobody else writes a record in the handle's name. -/
def honest (e : Others B) (w : World B Unit) : Bool :=
  match (e.store H.bucket).get H.path with
  | none => true
  | some o => decide (o.metadata.text H.ownerField ≠ H.owner) ||
      decide ((w.store H.bucket).get H.path = some o)

/-- A move of the others. -/
def others (e : Others B) (w : World B Unit) : Option (World B Unit) :=
  if H.honest e w then some { w with clock := e.clock, store := e.store } else none

lemma others_cases {e : Others B} {w w' : World B Unit} (h : H.others e w = some w') :
    w'.mem = w.mem ∧ ∀ o, (w'.store H.bucket).get H.path = some o →
      o.metadata.text H.ownerField = H.owner → (w.store H.bucket).get H.path = some o := by
  unfold others at h
  split at h
  · rename_i hhonest
    obtain rfl := Option.some.inj h
    refine ⟨rfl, fun o ho hown => ?_⟩
    have ho' : (e.store H.bucket).get H.path = some o := ho
    simpa [honest, ho', hown] using hhonest
  · cases h

/-! ## Careful runs -/

/-- The entry points that end a handle and delete its record. -/
def Closes : Entry → Prop
  | .release => True
  | .ack => True
  | _ => False

/-- The read or the delete of the record has failed. -/
def Failed (v : BView B Unit) : Prop :=
  (∃ w w', (w, BEvent.called ((), .main) (.attributes H.bucket H.path) (.error .backend), w') ∈
      v.steps) ∨
    ∃ pre w w', (w, BEvent.called ((), .main) (.delete H.bucket H.path pre) (.error .backend), w') ∈
      v.steps

/-- `Nack` has been called. -/
def Nacked (v : BView B Unit) : Prop :=
  ∃ w w', (w, (Event.start ((), .main) Entry.nack : BEvent B Unit), w') ∈ v.steps

/-- A call that ends the handle is made only if none before it failed, and `Nack` was not called. -/
def Careful (v : BView B Unit) (e : BEvent B Unit) : Prop :=
  ∀ entry, Closes entry → e = .start ((), .main) entry → ¬ H.Failed v ∧ ¬ Nacked v

variable {H} in
lemma Failed.mono {v v' : BView B Unit} (hle : View.Le v v') (h : H.Failed v) : H.Failed v' := by
  obtain ⟨w, w', hmem⟩ | ⟨pre, w, w', hmem⟩ := h
  · exact .inl ⟨w, w', hle.steps hmem⟩
  · exact .inr ⟨pre, w, w', hle.steps hmem⟩

lemma Nacked.mono {v v' : BView B Unit} (hle : View.Le v v') (h : Nacked v) : Nacked v' := by
  obtain ⟨w, w', hmem⟩ := h
  exact ⟨w, w', hle.steps hmem⟩

/-! ## The contract -/

/-- The renewer has exited, and the record is not the handle's. -/
def Retired (w : World B Unit) : Prop := H.stopped (w.mem ()) = true ∧ ¬ H.Own w

/-- A `nil` means that the handle is retired. -/
def Inv (w : World B Unit) : Prop :=
  H.held (w.mem ()) = true ∧ ∀ entry, Closes entry → (w.mem ()).outcome = some (entry, .ok ()) →
    H.settled (w.mem ()) = true ∧ H.Retired w

/-- The goroutines of a handle share its flags: only the renewer sets `stopped`, with its last step, and
only the caller does everything else. -/
def Guar (t : Thread Unit) (w w' : World B Unit) : Prop :=
  match t.2 with
  | .main => H.stopped (w'.mem ()) = H.stopped (w.mem ()) ∧
      H.held (w'.mem ()) = H.held (w.mem ()) ∧
      (H.settled (w.mem ()) = true → H.settled (w'.mem ()) = true)
  | .renewer => H.stopped (w.mem ()) = false ∧ H.Same (w.mem ()) (w'.mem ())

/-- Between two calls, a settled handle is retired unless something went wrong. -/
def Idle (t : Thread Unit) (v : BView B Unit) : Prop :=
  t.2 = .main → H.settled (v.world.mem ()) = true → H.Failed v ∨ Nacked v ∨ H.Retired v.world

variable [DecidableEq B]

/-- The contract of a handle's goroutines. -/
def contract (bk : B → Backend)
    (start : Thread Unit → Entry → World B Unit → Option (BProg B Unit × World B Unit)) :
    Contract (bucketMachine bk ⟨true, false⟩ start H.others) where
  adm := H.Careful
  inv v := H.Inv v.world
  guar t v v' := H.Guar t v.world v'.world
  idle t v := H.Idle t v

variable {H} {bk : B → Backend}
  {start : Thread Unit → Entry → World B Unit → Option (BProg B Unit × World B Unit)}
  {v v' : BView B Unit} {w : World B Unit} {α : Type}

/-! ## Interference -/

lemma Same.refl (m : Mem) : H.Same m m := ⟨rfl, rfl, rfl⟩

lemma Same.trans {m m' m'' : Mem} (h : H.Same m m') (h' : H.Same m' m'') : H.Same m m'' :=
  ⟨h'.held.trans h.held, h'.settled.trans h.settled, h'.outcome.trans h.outcome⟩

/-- What a caller sees of the others and of its renewer. -/
lemma interf_main (h : (H.contract bk start).Interf ((), .main) v v') :
    H.Same (v.world.mem ()) (v'.world.mem ()) ∧ (H.stopped (v.world.mem ()) = true →
      H.stopped (v'.world.mem ()) = true ∧ ∀ o, (v'.world.store H.bucket).get H.path = some o →
        o.metadata.text H.ownerField = H.owner → (v.world.store H.bucket).get H.path = some o) := by
  obtain ⟨-, -, ⟨e, w, hw, -, rfl⟩ | ⟨⟨⟨⟩, g⟩, hne, -, hguar⟩⟩ := h
  · obtain ⟨hmem, hown⟩ := H.others_cases hw
    rw [View.push_world, hmem]
    exact ⟨.refl _, fun hs => ⟨hs, hown⟩⟩
  · cases g with
    | main => exact absurd rfl hne
    | renewer =>
        obtain ⟨hrun, hsame⟩ : H.Guar ((), .renewer) v.world v'.world := hguar
        exact ⟨hsame, fun hs => absurd (hrun.symm.trans hs) (by simp)⟩

lemma settled_rely (h : (H.contract bk start).Rely ((), .main) v v') :
    H.Same (v.world.mem ()) (v'.world.mem ()) :=
  Rely.of_step (R := fun v v' => H.Same (v.world.mem ()) (v'.world.mem ())) (fun _ => .refl _)
    Same.trans (fun hs => (interf_main hs).1) h

variable (H) in
/-- The renewer has exited, and if the stored record is the handle's, it is this object. -/
def Only (o : Object) (w : World B Unit) : Prop :=
  H.stopped (w.mem ()) = true ∧ ∀ o', (w.store H.bucket).get H.path = some o' →
    o'.metadata.text H.ownerField = H.owner → o' = o

lemma only_rely {o : Object} (h : (H.contract bk start).Rely ((), .main) v v')
    (ho : H.Only o v.world) : H.Only o v'.world := by
  refine h.stable (P := fun v => H.Only o v.world) (fun hs hP => ?_) ho
  obtain ⟨hs', hown⟩ := (interf_main hs).2 hP.1
  exact ⟨hs', fun o' ho' hown' => hP.2 o' (hown o' ho' hown') hown'⟩

lemma stopped_rely (h : (H.contract bk start).Rely ((), .main) v v')
    (hs : H.stopped (v.world.mem ()) = true) : H.stopped (v'.world.mem ()) = true :=
  h.stable (P := fun v => H.stopped (v.world.mem ()) = true)
    (fun hi hs => ((interf_main hi).2 hs).1) hs

lemma retired_rely (h : (H.contract bk start).Rely ((), .main) v v') (hr : H.Retired v.world) :
    H.Retired v'.world := by
  refine h.stable (P := fun v => H.Retired v.world) (fun hs hP => ?_) hr
  obtain ⟨hs', hown⟩ := (interf_main hs).2 hP.1
  refine ⟨hs', ?_⟩
  rintro ⟨o, ho, howner⟩
  exact hP.2 ⟨o, hown o ho howner, howner⟩

lemma idle_interf {t : Thread Unit} (h : (H.contract bk start).Interf t v v') (hi : H.Idle t v) :
    H.Idle t v' := by
  obtain ⟨⟨⟩, g⟩ := t
  intro hmain hset
  obtain rfl : g = .main := hmain
  obtain ⟨e, w, rfl⟩ := h.push
  have hset₀ := (interf_main h).1.settled.symm.trans hset
  obtain hf | hn | hr := hi rfl hset₀
  · exact .inl (hf.mono (v.le_push e w))
  · exact .inr (.inl (hn.mono (v.le_push e w)))
  · exact .inr (.inr (retired_rely (.single h) hr))

/-! ## The steps of a caller -/

/-- A step that leaves the handle and its record alone. -/
lemma Inv.of_mem {w' : World B Unit} (hi : H.Inv w) (hmem : w'.mem = w.mem)
    (hown : H.Own w' → H.Own w) : H.Inv w' := by
  refine ⟨by rw [hmem]; exact hi.1, fun entry hc hout => ?_⟩
  rw [hmem] at hout ⊢
  obtain ⟨hset, hst, hnot⟩ := hi.2 entry hc hout
  exact ⟨hset, by rw [hmem]; exact hst, fun h => hnot (hown h)⟩

lemma Guar.quiet {w' : World B Unit} (hmem : w'.mem = w.mem) : H.Guar ((), .main) w w' := by
  simp [Guar, hmem]

/-- A critical section of a caller. -/
lemma inv_setMem {m : Mem} (hi : H.Inv w) (hheld : H.held m = H.held (w.mem ()))
    (hstopped : H.stopped m = H.stopped (w.mem ())) (hout : m.outcome = (w.mem ()).outcome)
    (hset : H.settled (w.mem ()) = true → H.settled m = true) : H.Inv (w.setMem () m) := by
  refine ⟨by rw [World.setMem_mem_self, hheld]; exact hi.1, fun entry hc h => ?_⟩
  rw [World.setMem_mem_self] at h ⊢
  obtain ⟨hset', hst, hnot⟩ := hi.2 entry hc (hout.symm.trans h)
  refine ⟨hset hset', ?_, hnot⟩
  rw [World.setMem_mem_self, hstopped]
  exact hst

lemma guar_setMem {m : Mem} (hheld : H.held m = H.held (w.mem ()))
    (hstopped : H.stopped m = H.stopped (w.mem ()))
    (hset : H.settled (w.mem ()) = true → H.settled m = true) :
    H.Guar ((), .main) w (w.setMem () m) := by
  simp only [Guar, World.setMem_mem_self]
  exact ⟨hstopped, hheld, hset⟩

lemma own_erase {key : String}
    (h : H.Own (w.setStore H.bucket ((w.store H.bucket).erase key))) : H.Own w := by
  obtain ⟨o, ho, hown⟩ := h
  rw [World.setStore_store_self] at ho
  by_cases hk : H.path = key
  · rw [← hk, Store.get_erase_self] at ho
    cases ho
  · rw [Store.get_erase_ne _ _ hk] at ho
    exact ⟨o, ho, hown⟩

section Close

variable {Q : α → BView B Unit → Prop}

/-- A critical section of a caller that keeps the flags. -/
lemma safe_flags {f : Mem → Mem} {k : Mem → BProg B α}
    (hf : ∀ m, H.Same m (f m) ∧ H.stopped (f m) = H.stopped m)
    (hk : ∀ v₁, (H.contract bk start).Rely ((), .main) v v₁ → ∀ e w, H.Inv w →
      H.Same (v₁.world.mem ()) (w.mem ()) →
      H.stopped (w.mem ()) = H.stopped (v₁.world.mem ()) → w.store = v₁.world.store →
      (H.contract bk start).Safe ((), .main) Q (k (v₁.world.mem ())) (v₁.push e w)) :
    (H.contract bk start).Safe ((), .main) Q (critical f >>= k) v := by
  refine safe_critical fun v₁ hr₁ hi₁ _ => ?_
  obtain ⟨hsame, hstopped⟩ := hf (v₁.world.mem ())
  have hi₁' : H.Inv v₁.world := hi₁
  have hi₂ : H.Inv (v₁.world.setMem () (f (v₁.world.mem ()))) :=
    inv_setMem hi₁' hsame.held hstopped hsame.outcome fun h => hsame.settled.trans h
  refine ⟨guar_setMem hsame.held hstopped fun h => hsame.settled.trans h, hi₂,
    hk v₁ hr₁ _ _ hi₂ ?_ ?_ rfl⟩
  · rw [World.setMem_mem_self]
    exact hsame
  · rw [World.setMem_mem_self]
    exact hstopped

/-- How a call may end. -/
def Ended (H : Holding B) (r : Except Err Unit) (v : BView B Unit) : Prop :=
  H.Retired v.world ∨ H.Failed v ∧ r ≠ .ok ()

lemma ended_rely {r : Except Err Unit} (h : (H.contract bk start).Rely ((), .main) v v')
    (he : H.Ended r v) : H.Ended r v' :=
  he.imp (retired_rely h) fun ⟨hf, hne⟩ => ⟨hf.mono h.le, hne⟩

lemma safe_ret {r : Except Err Unit} (he : H.Ended r v) :
    (H.contract bk start).Safe ((), .main) H.Ended (.ret r) v :=
  .ret fun _ hr _ => ended_rely hr he

/-- A delete of something that is not the handle's, or of its record. -/
lemma safe_erase {key : String} {pre : List Precondition} {k : Except Err Unit → BProg B α}
    (hok : ∀ v₁, (H.contract bk start).Rely ((), .main) v v₁ → ∀ e,
      (H.contract bk start).Safe ((), .main) Q (k (.ok ()))
        (v₁.push e (v₁.world.setStore H.bucket ((v₁.world.store H.bucket).erase key))))
    (herr : ∀ v₁, (H.contract bk start).Rely ((), .main) v v₁ → ∀ e,
      ((v₁.world.store H.bucket).delete key pre = .error e ∨ e = .backend) →
      (H.contract bk start).Safe ((), .main) Q (k (.error e))
        (v₁.push (BEvent.called ((), .main) (.delete H.bucket key pre) (.error e)) v₁.world)) :
    (H.contract bk start).Safe ((), .main) Q (delete H.bucket key pre >>= k) v := by
  refine safe_delete (fun v₁ hr₁ hi₁ r st hst hres _ => ?_) (fun v₁ hr₁ hi₁ e he _ => ?_)
  · obtain ⟨-, rfl⟩ := Store.delete_ok hst
    obtain rfl := hres.resolve_right (by simp)
    have hi₁' : H.Inv v₁.world := hi₁
    exact ⟨Guar.quiet rfl, hi₁'.of_mem rfl own_erase, hok v₁ hr₁ _⟩
  · exact ⟨Guar.quiet rfl, hi₁, herr v₁ hr₁ e he⟩

/-- The delete of the record, if the stored record of the handle is the one that was read. -/
lemma safe_deleteRecord {o : Object} {after : BProg B (Except Err Unit)} (ho : H.Only o v.world)
    (hafter : ∀ v, H.Retired v.world → (H.contract bk start).Safe ((), .main) H.Ended after v) :
    (H.contract bk start).Safe ((), .main) H.Ended (do
      match ← delete H.bucket H.path [.ifMatch o.version] with
      | .error .preconditionFailed => return .ok ()
      | .error .notFound => return .ok ()
      | .error e => return .error e
      | .ok _ => after) v := by
  refine safe_erase (fun v₁ hr₁ e => hafter _ ?_) fun v₁ hr₁ e he => ?_
  · refine ⟨(only_rely hr₁ ho).1, ?_⟩
    rintro ⟨o', ho', -⟩
    rw [View.push_world, World.setStore_store_self, Store.get_erase_self] at ho'
    cases ho'
  · obtain ⟨hst, honly⟩ := only_rely hr₁ ho
    -- if the handle's record were still there, the delete would have gone through
    have hretired : (v₁.world.store H.bucket).delete H.path [.ifMatch o.version] = .error e →
        H.Retired v₁.world := by
      refine fun hdel => ⟨hst, ?_⟩
      rintro ⟨o', ho', hown⟩
      obtain rfl := honly o' ho' hown
      rw [Store.delete_ifMatch_self ho'] at hdel
      cases hdel
    rcases he with hdel | rfl
    · split
      · exact safe_ret (.inl (hretired hdel))
      · exact safe_ret (.inl (hretired hdel))
      · exact safe_ret (.inl (hretired hdel))
      · rename_i heq
        cases heq
    · exact safe_ret (.inr ⟨.inr ⟨_, _, _, List.mem_cons_self⟩, by simp⟩)

/-- Once the handle is settled, it stays so for the rest of the call. -/
lemma safe_settled {p : BProg B α} (hp : (H.contract bk start).Safe ((), .main) Q p v)
    (hset : H.settled (v.world.mem ()) = true) :
    (H.contract bk start).Safe ((), .main)
      (fun a v => Q a v ∧ H.settled (v.world.mem ()) = true) p v := by
  refine hp.frame (P := fun v => H.settled (v.world.mem ()) = true) (fun hs h => ?_)
    (fun hs h => ?_) hset
  · exact (interf_main hs).1.settled.trans h
  · have hguar : H.Guar ((), .main) _ _ := hs.2
    exact hguar.2.2 h

/-- **The first call.**  It ends the handle, or says that it failed. -/
lemma safe_giveBack (hl : H.Lawful) {after : BProg B (Except Err Unit)}
    (hafter : ∀ v, H.Retired v.world → (H.contract bk start).Safe ((), .main) H.Ended after v) :
    (H.contract bk start).Safe ((), .main) H.Ended (H.giveBack after) v := by
  refine safe_flags hl.cancel fun v₁ _ e₁ w₁ _ _ _ _ => ?_
  refine safe_await fun v₂ _ hi₂ hst₂ _ => ⟨Guar.quiet rfl, hi₂, ?_⟩
  refine safe_flags hl.finish fun v₃ hr₃ e₃ w₃ _ _ hstop₃ _ => ?_
  have hst₃ : H.stopped (w₃.mem ()) = true :=
    hstop₃.trans (stopped_rely (v := v₂.push _ _) hr₃ hst₂)
  refine safe_attributes fun v₄ hr₄ hi₄ r hr _ => ⟨Guar.quiet rfl, hi₄, ?_⟩
  have hst₄ := stopped_rely (v := v₃.push e₃ w₃) hr₄ hst₃
  obtain ⟨o, ho, rfl⟩ | ⟨hnone, rfl⟩ | rfl := hr
  · change (H.contract bk start).Safe ((), .main) H.Ended
      (if o.metadata.text H.ownerField ≠ H.owner then _ else _) _
    split
    · rename_i hforeign
      refine safe_ret (.inl ⟨hst₄, ?_⟩)
      rintro ⟨o', ho', hown'⟩
      obtain rfl := Option.some.inj (ho'.symm.trans ho)
      exact hforeign hown'
    · exact safe_deleteRecord (o := o)
        ⟨hst₄, fun o' ho' _ => Option.some.inj (ho'.symm.trans ho)⟩ hafter
  · refine safe_ret (.inl ⟨hst₄, ?_⟩)
    rintro ⟨o', ho', -⟩
    cases hnone.symm.trans ho'
  · exact safe_ret (.inr ⟨.inl ⟨_, _, List.mem_cons_self⟩, by simp⟩)

/-- Settling the handle. -/
lemma safe_once (hl : H.Lawful) {p : BProg B (Except Err Unit)}
    {Q : Except Err Unit → BView B Unit → Prop}
    (hagain : ∀ v₁, (H.contract bk start).Rely ((), .main) v v₁ →
      H.settled (v₁.world.mem ()) = true → ∀ e w, w.store = v₁.world.store →
      H.stopped (w.mem ()) = H.stopped (v₁.world.mem ()) → H.settled (w.mem ()) = true →
      (H.contract bk start).Safe ((), .main) Q (.ret (.ok ())) (v₁.push e w))
    (hfirst : ∀ v₁ : BView B Unit, H.Inv v₁.world → H.settled (v₁.world.mem ()) = false → ∀ e w,
      (w.mem ()).outcome = (v₁.world.mem ()).outcome → H.settled (w.mem ()) = true →
      (H.contract bk start).Safe ((), .main) Q p (v₁.push e w)) :
    (H.contract bk start).Safe ((), .main) Q (H.once p) v := by
  refine safe_critical fun v₁ hr₁ hi₁ _ => ?_
  have hi₁' : H.Inv v₁.world := hi₁
  obtain ⟨hheld, hstopped, hout⟩ := hl.mark (v₁.world.mem ())
  have hset := hl.mark_settled _ hi₁'.1
  refine ⟨guar_setMem hheld hstopped fun _ => hset,
    inv_setMem hi₁' hheld hstopped hout fun _ => hset, ?_⟩
  split
  · rename_i hbefore
    refine hagain v₁ hr₁ hbefore _ _ rfl ?_ ?_
    · rw [World.setMem_mem_self]
      exact hstopped
    · rw [World.setMem_mem_self]
      exact hset
  · rename_i hbefore
    refine hfirst v₁ hi₁' (by simpa using hbefore) _ _ ?_ ?_
    · rw [World.setMem_mem_self]
      exact hout
    · rw [World.setMem_mem_self]
      exact hset

/-- **Ending a handle**, if one that has been settled before is retired. -/
lemma safe_close (hl : H.Lawful) {after : BProg B (Except Err Unit)}
    (hpre : H.settled (v.world.mem ()) = true → H.Retired v.world)
    (hafter : ∀ v, H.Retired v.world → (H.contract bk start).Safe ((), .main) H.Ended after v) :
    (H.contract bk start).Safe ((), .main)
      (fun r v => H.Ended r v ∧ H.settled (v.world.mem ()) = true) (H.close after) v := by
  refine safe_once hl (fun v₁ hr₁ hset e w hstore hstopped hset' => ?_)
    (fun v₁ _ _ e w _ hset => safe_settled (safe_giveBack hl hafter) hset)
  obtain ⟨hst, hnot⟩ := retired_rely hr₁ (hpre ((settled_rely hr₁).settled.symm.trans hset))
  refine safe_settled (v := v₁.push e w) (safe_ret (.inl ⟨hstopped.trans hst, ?_⟩)) hset'
  rintro ⟨o, ho, hown⟩
  rw [View.push_world, hstore] at ho
  exact hnot ⟨o, ho, hown⟩

/-! ## Everything else that works on a handle -/

/-- Nothing has been said about the end of the handle. -/
def Open (w : World B Unit) : Prop :=
  ∀ entry, Closes entry → (w.mem ()).outcome ≠ some (entry, .ok ())

/-- A call that leaves the flags alone. -/
def Tame (H : Holding B) : Op B → Prop
  | .mem f => ∀ m, H.Same m (f m) ∧ H.stopped (f m) = H.stopped m
  | _ => True

lemma tame_step {o : Op B} (ho : H.Tame o) {t : Thread Unit} {ch : Choice} {r : o.Res}
    {w' : World B Unit} (he : exec bk ⟨true, false⟩ t o ch w = some (r, w')) :
    H.Same (w.mem ()) (w'.mem ()) ∧ H.stopped (w'.mem ()) = H.stopped (w.mem ()) := by
  cases o with
  | mem f =>
      obtain ⟨-, rfl⟩ := exec_mem he
      rw [World.setMem_mem_self]
      exact ho _
  | _ =>
      rw [exec_memory he (by simp)]
      exact ⟨.refl _, rfl⟩

lemma Open.inv {w' : World B Unit} (ho : Open w) (hi : H.Inv w) (hs : H.Same (w.mem ()) (w'.mem ())) :
    Open w' ∧ H.Inv w' := by
  have ho' : Open w' := fun entry hc h => ho entry hc (hs.outcome.symm.trans h)
  exact ⟨ho', hs.held.trans hi.1, fun entry hc h => absurd h (ho' entry hc)⟩

/-- A caller that has settled the handle, and does not end it, may do anything. -/
lemma safe_tame {p : BProg B α} (hp : p.Within H.Tame) (ho : Open v.world) :
    (H.contract bk start).Safe ((), .main) (fun _ _ => True) p v := by
  refine (Safe.of_within (P := H.Tame) (F := fun v => Open v.world) (fun hs ho => ?_) ?_ hp ho).mono
    fun _ _ _ _ => trivial
  · intro entry hc h
    exact ho entry hc ((interf_main hs).1.outcome.symm.trans h)
  · intro o ho v ch r w hi hopen he _
    obtain ⟨hs, hst⟩ := tame_step ho he
    obtain ⟨hopen', hi'⟩ := hopen.inv hi hs
    exact ⟨⟨hst, hs.held, fun h => hs.settled.trans h⟩, hi', hopen'⟩

/-- The renewer leaves the flags alone until it exits. -/
lemma within_renewRound (hl : H.Lawful) : H.toRenewer.renewRound.Within H.Tame := by
  have hread : ∀ {β : Type} (f : Mem → β), (Renewer.field f : BProg B β).Within H.Tame := fun _ =>
    .call (fun m => ⟨.refl m, rfl⟩) fun _ => trivial
  have hlose : (do
      let _ ← critical H.lose
      return Sum.inr () : BProg B (Unit ⊕ Unit)).Within H.Tame :=
    .call (fun m => hl.lose m) fun _ => trivial
  refine .call trivial fun stop => ?_
  split
  · trivial
  · refine .call trivial fun now => (hread _).bind fun until_ => ?_
    split
    · exact hlose
    · refine Prog.Within.bind ?_ fun r => ?_
      · refine (hread _).bind fun version => ?_
        refine (within_writeBack trivial trivial).bind fun r => ?_
        split
        · trivial
        · exact .call (fun m => hl.renewed _ _ m) fun _ => trivial
      · split
        · exact hlose
        · exact hlose
        · trivial

/-- **A call that settles the handle and keeps the record.** -/
lemma safe_once_tame (hl : H.Lawful) {p : BProg B (Except Err Unit)} (hp : p.Within H.Tame) :
    (H.contract bk start).Safe ((), .main) (fun _ _ => True) (H.once p) v := by
  refine safe_once hl (fun _ _ _ _ _ _ _ _ => .ret fun _ _ _ => trivial) fun v₁ hi₁ hset e w hout _ => ?_
  refine safe_tame hp fun entry hc h => ?_
  have hset' := (hi₁.2 entry hc (hout.symm.trans h)).1
  exact absurd (hset.symm.trans hset') (by simp)

/-- What the caller gets. -/
lemma safe_outcome (hl : H.Lawful) {entry : Entry} {r : Except Err Unit}
    (hr : Closes entry → r = .ok () → H.settled (v.world.mem ()) = true ∧ H.Retired v.world)
    (hidle : H.Idle ((), .main) v) :
    (H.contract bk start).Safe ((), .main) (fun _ => H.Idle ((), .main))
      (critical (fun m => { m with outcome := some (entry, r) }) >>= fun _ => Prog.ret ()) v := by
  refine safe_critical fun v₁ hr₁ hi₁ _ => ?_
  have hi₁' : H.Inv v₁.world := hi₁
  obtain ⟨hheld, hset, hstopped⟩ := hl.report (v₁.world.mem ()) (some (entry, r))
  have hidle₁ : H.Idle ((), .main) v₁ := hr₁.stable (fun hs => idle_interf hs) hidle
  refine ⟨guar_setMem hheld hstopped fun h => hset.trans h, ⟨?_, ?_⟩, .ret fun v₂ hr₂ _ => ?_⟩
  · rw [View.push_world, World.setMem_mem_self]
    exact hheld.trans hi₁'.1
  · intro entry' hc hout
    rw [View.push_world, World.setMem_mem_self] at hout ⊢
    obtain ⟨rfl, rfl⟩ := Prod.mk.inj (Option.some.inj hout)
    obtain ⟨hset₀, hret⟩ := hr hc rfl
    obtain ⟨hst, hnot⟩ := retired_rely hr₁ hret
    refine ⟨hset.trans ((settled_rely hr₁).settled.trans hset₀), ?_, hnot⟩
    rw [World.setMem_mem_self]
    exact hstopped.trans hst
  · refine hr₂.stable (P := H.Idle ((), .main)) (fun hs => idle_interf hs) ?_
    intro _ h
    rw [View.push_world, World.setMem_mem_self] at h
    obtain hf | hn | ⟨hst, hnot⟩ := hidle₁ rfl (hset.symm.trans h)
    · exact .inl (hf.mono (v₁.le_push _ _))
    · exact .inr (.inl (hn.mono (v₁.le_push _ _)))
    · refine .inr (.inr ⟨?_, hnot⟩)
      rw [View.push_world, World.setMem_mem_self]
      exact hstopped.trans hst

/-- **The renewer.**  As long as it has not exited, nobody has been told that the handle is ended. -/
lemma safe_renewLoop (hl : H.Lawful) (fuel : ℕ) (hi : H.Inv v.world)
    (hrun : H.stopped (v.world.mem ()) = false) :
    (H.contract bk start).Safe ((), .renewer) (fun _ _ => True) (H.renewLoop fuel) v := by
  have hkeep : ∀ {v v' : BView B Unit}, (H.contract bk start).Interf ((), .renewer) v v' →
      H.stopped (v.world.mem ()) = false → H.stopped (v'.world.mem ()) = false := by
    rintro v v' ⟨-, -, ⟨e, w, hw, -, rfl⟩ | ⟨⟨⟨⟩, g⟩, hne, -, hguar⟩⟩ hst
    · rw [View.push_world, (H.others_cases hw).1]
      exact hst
    · cases g with
      | main =>
          have hmain : H.Guar ((), .main) v.world v'.world := hguar
          exact hmain.1.trans hst
      | renewer => exact absurd rfl hne
  have hopen : ∀ {w : World B Unit}, H.Inv w → H.stopped (w.mem ()) = false → Open w := by
    intro w hi hst entry hc hout
    exact absurd (hst.symm.trans (hi.2 entry hc hout).2.1) (by simp)
  have hloop : (Prog.loop park (fun _ => H.renewRound) fuel ()).Within H.Tame :=
    Prog.Within.loop (by exact ⟨trivial, fun r => r.elim⟩) (fun _ => within_renewRound hl) fuel ()
  refine Safe.bind (Q := fun _ (v : BView B Unit) => H.stopped (v.world.mem ()) = false) hi ?_
    fun _ v₁ _ hst₁ => ?_
  · refine Safe.of_within (P := H.Tame) hkeep ?_ hloop hrun
    intro o ho v ch r w hi hst he _
    obtain ⟨hs, hst'⟩ := tame_step ho he
    exact ⟨⟨hst, hs⟩, ((hopen hi hst).inv hi hs).2, hst'.trans hst⟩
  · refine safe_critical fun v₂ hr₂ hi₂ _ => ?_
    have hst₂ := hr₂.stable (P := fun v => H.stopped (v.world.mem ()) = false) hkeep hst₁
    have hs : H.Same (v₂.world.mem ()) ((v₂.world.setMem () (H.stop (v₂.world.mem ()))).mem ()) := by
      rw [World.setMem_mem_self]
      exact hl.stop _
    exact ⟨⟨hst₂, hs⟩, ((hopen hi₂ hst₂).inv hi₂ hs).2, .ret fun _ _ _ => trivial⟩

/-! ## Soundness -/

variable (H) in
/-- The programs of a handle: the calls that end it, those that settle it and keep its record, and its
renewer, which is not started again. -/
inductive Works (after : BProg B (Except Err Unit)) : Goroutine → Entry → Mem → BProg B Unit → Prop where
  | closes {entry : Entry} {m : Mem} (hc : Closes entry) :
      Works after .main entry m (report entry (H.close after))
  | keeps {m : Mem} {p : BProg B (Except Err Unit)} (hp : p.Within H.Tame) :
      Works after .main .nack m (report .nack (H.once p))
  | renews {entry : Entry} {m : Mem} (fuel : ℕ) (hrun : H.stopped m = false) :
      Works after .renewer entry m (H.renewLoop fuel)

lemma safe_report_close (hl : H.Lawful) {entry : Entry} {after : BProg B (Except Err Unit)}
    (hafter : ∀ v, H.Retired v.world → (H.contract bk start).Safe ((), .main) H.Ended after v)
    (hi : H.Inv v.world) (hpre : H.settled (v.world.mem ()) = true → H.Retired v.world) :
    (H.contract bk start).Safe ((), .main) (fun _ => H.Idle ((), .main))
      (report entry (H.close after)) v := by
  refine Safe.bind hi (safe_close hl hpre hafter) fun r v₁ _ hended => ?_
  obtain ⟨hended, hset⟩ := hended
  refine safe_outcome hl (fun _ hok => ⟨hset, ?_⟩) fun _ _ => ?_
  · cases r with
    | ok _ => exact hended.resolve_right fun h => h.2 rfl
    | error e => cases hok
  · exact hended.elim (fun h => .inr (.inr h)) fun h => .inl h.1

lemma safe_report_keep (hl : H.Lawful) {p : BProg B (Except Err Unit)} (hp : p.Within H.Tame)
    (hi : H.Inv v.world) (hn : Nacked v) :
    (H.contract bk start).Safe ((), .main) (fun _ => H.Idle ((), .main))
      (report .nack (H.once p)) v := by
  refine Safe.bind hi ((safe_once_tame hl hp).grow (P := Nacked) Nacked.mono hn) fun r v₁ _ h => ?_
  exact safe_outcome hl (fun hc => hc.elim) fun _ _ => .inr (.inl h.2)

/-- **A `nil` means that the handle is ended**, in every careful run. -/
lemma sound_of_starts (hl : H.Lawful) (after : BProg B (Except Err Unit))
    (hafter : ∀ v, H.Retired v.world → (H.contract bk start).Safe ((), .main) H.Ended after v)
    (hstart : ∀ t e w p w', start t e w = some (p, w') → w' = w ∧ H.Works after t.2 e (w.mem ()) p)
    {w₀ : World B Unit} (hheld : H.held (w₀.mem ()) = true) (hset : H.settled (w₀.mem ()) = false)
    (hout : (w₀.mem ()).outcome = none) : (H.contract bk start).Sound w₀ where
  init := by
    refine ⟨⟨hheld, fun entry _ h => absurd (hout.symm.trans h) (by simp)⟩, fun t _ h => ?_⟩
    exact absurd (hset.symm.trans h) (by simp)
  env := by
    rintro v v' hi ⟨e, w, hw, -, rfl⟩
    obtain ⟨hmem, hown⟩ := H.others_cases hw
    have hi' : H.Inv v.world := hi
    refine hi'.of_mem hmem ?_
    rintro ⟨o, ho, howner⟩
    exact ⟨o, hown o ho howner, howner⟩
  stable t v v' hs hidle := idle_interf hs hidle
  start := by
    rintro ⟨⟨⟩, g⟩ e v p w hi hidle ha hs
    obtain ⟨rfl, hworks⟩ := hstart _ _ _ _ _ hs
    generalize hm : v.world.mem () = m at hworks
    cases hworks with
    | closes hc =>
        obtain ⟨hfailed, hnacked⟩ := ha e hc rfl
        refine ⟨Guar.quiet rfl, hi, safe_report_close hl hafter hi fun h => ?_⟩
        obtain hf | hn | hret := hidle rfl h
        · exact absurd hf hfailed
        · exact absurd hn hnacked
        · exact hret
    | keeps hp =>
        exact ⟨Guar.quiet rfl, hi, safe_report_keep hl hp hi ⟨_, _, List.mem_cons_self⟩⟩
    | renews fuel hrun =>
        rw [← hm] at hrun
        have hsafe : (H.contract bk start).Safe ((), .renewer) (fun _ _ => True) (H.renewLoop fuel)
            (v.push (.start ((), .renewer) e) v.world) := safe_renewLoop hl fuel hi hrun
        refine ⟨⟨hrun, .refl _⟩, hi, hsafe.mono fun _ _ _ _ h => ?_⟩
        cases h

end Close

end Holding

end Blobster
