import Blobster.Queue.History

/-!
# The queue's contract

The contract under which the queue's clients run, for ids that are never reused.  What a client
promises about each of its steps is `Effect` and what it does to its handle (`HandleStep`); the
invariant ties the handles, the lease records and the history together.

A handle is *entitled* to its message while its lease is running.  As long as the payload is there,
that means that the stored lease record is its own and promises at least as long a lease.  Once the
payload is gone, the lease records no longer say anything — they are swept up by whoever comes
across them — and what remains true is that the handle owned the lease when the payload was last
there (`Holder`).

* `Entitled`, `Keeps` — the lease rule, and **`keeps_effect`**: no step of another client breaks it.
* `HandleOk`, `Inv` — the invariant; `Tame`, **`Inv.tame`**, `Inv.effect` — every effect keeps it.
-/

set_option linter.unusedSectionVars false

namespace Blobster

open Interleave Contract

namespace QueueSetup

variable {B C : Type} [DecidableEq B] [DecidableEq C] (s : QueueSetup B C) (bk : B → Backend)

/-- The stored lease record is the client's own and runs at least until `d`. -/
def Holds (w : World B C) (c : C) (x : String) (d : ℤ) : Prop :=
  ∃ o, s.slot w .lease x = some o ∧ s.OwnedBy c o ∧
    ∃ u, o.metadata.parseTime queueLeaseField = some u ∧ d ≤ u

/-- The client is entitled to the message until `d`. -/
structure Entitled (v : BView B C) (c : C) (x : String) (d : ℤ) : Prop where
  present : s.slot v.world .payload x ≠ none → s.Holds v.world c x d
  gone : s.slot v.world .payload x = none → s.Holder v x c

/-- Until `d`, the client is entitled to the message. -/
def Keeps (v : BView B C) (c : C) (x : String) (d : ℤ) : Prop :=
  v.world.clock < d → s.Entitled v c x d

/-- A lease record of the client's own for the id has the count `r`. -/
def OwnCount (w : World B C) (c : C) (x : String) (r : ℕ) : Prop :=
  s.slot w .payload x ≠ none → ∀ o, s.slot w .lease x = some o → s.OwnedBy c o → count o = r

/-- The payload was there and is gone. -/
def Gone (v : BView B C) (x : String) : Prop := s.Known v x ∧ s.slot v.world .payload x = none

variable {s bk} {t : Thread C} {v : BView B C} {w' : World B C} {e : BEvent B C} {c : C} {x : String}

lemma Entitled.holder {d : ℤ} (h : s.Entitled v c x d) : s.Holder v x c := by
  cases hp : s.slot v.world .payload x with
  | none => exact h.gone hp
  | some o =>
      obtain ⟨l, hl, hown, -⟩ := h.present (by simp [hp])
      exact ⟨_, lastWith_of_some hp, l, hl, hown⟩

/-- An unexpired record is not up for takeover. -/
lemma Holds.not_expired {w : World B C} {d now : ℤ} (h : s.Holds w c x d) (hd : now < d)
    {o : Object} (ho : s.slot w .lease x = some o) :
    s.OwnedBy c o ∧ queueLeaseExpired o.metadata now = false := by
  obtain ⟨o', ho', hown, u, hu, hdu⟩ := h
  obtain rfl := Option.some.inj (ho.symm.trans ho')
  exact ⟨hown, leaseExpired_eq_false hu (hd.trans_le hdu)⟩

/-- A step that leaves payload and lease of the id alone. -/
lemma holder_same (h : s.Holder v x c)
    (hp : s.slot w' .payload x = s.slot v.world .payload x)
    (hl : s.slot w' .lease x = s.slot v.world .lease x) : s.Holder (v.push e w') x c := by
  obtain ⟨w, hw, o, ho, hown⟩ := h
  cases hpay : s.slot w' .payload x with
  | none => exact ⟨w, (lastWith_push_of_none hpay).trans hw, o, ho, hown⟩
  | some p =>
      obtain rfl := Option.some.inj ((lastWith_of_some (hp.symm.trans hpay)).symm.trans hw)
      exact ⟨w', lastWith_push_of_some hpay, o, hl.trans ho, hown⟩

lemma keeps_same {d : ℤ} (hk : s.Keeps v c x d) (hclock : v.world.clock ≤ w'.clock)
    (hp : s.slot w' .payload x = s.slot v.world .payload x)
    (hl : s.slot w' .lease x = s.slot v.world .lease x) : s.Keeps (v.push e w') c x d := by
  intro hd
  have hent := hk (hclock.trans_lt hd)
  refine ⟨fun hne => ?_, fun hnone => ?_⟩
  · rw [View.push_world, hp] at hne
    obtain ⟨o, ho, h⟩ := hent.present hne
    exact ⟨o, hl.trans ho, h⟩
  · exact holder_same (hent.gone (hp ▸ hnone)) hp hl

/-- A step on the lease record that a running lease rules out. -/
lemma keeps_lease {d : ℤ} (hk : s.Keeps v c x d) (hclock : w'.clock = v.world.clock)
    (hp : s.slot w' .payload x = s.slot v.world .payload x)
    (hl : s.slot v.world .payload x ≠ none → v.world.clock < d → ¬ s.Holds v.world c x d) :
    s.Keeps (v.push e w') c x d := by
  intro hd
  rw [View.push_world, hclock] at hd
  have hent := hk hd
  refine ⟨fun hne => ?_, fun hnone => ?_⟩
  · rw [View.push_world, hp] at hne
    exact absurd (hent.present hne) (hl hne hd)
  · rw [View.push_world] at hnone
    obtain ⟨w, hw, h⟩ := hent.gone (hp ▸ hnone)
    exact ⟨w, (lastWith_push_of_none hnone).trans hw, h⟩

/-- The payload is removed under a running lease. -/
lemma keeps_remove {d : ℤ} (hk : s.Keeps v c x d) (hclock : w'.clock = v.world.clock)
    (hnone : s.slot w' .payload x = none) : s.Keeps (v.push e w') c x d := by
  intro hd
  rw [View.push_world, hclock] at hd
  refine ⟨fun hne => absurd hnone hne, fun _ => ?_⟩
  obtain ⟨w, hw, h⟩ := (hk hd).holder
  exact ⟨w, (lastWith_push_of_none hnone).trans hw, h⟩

/-- **The lease rule.**  No step of another client takes a running lease away. -/
lemma keeps_effect {d : ℤ} (heff : s.Effect t v w') (hclock : w'.clock = v.world.clock)
    (ht : t.1 ≠ c) (hk : s.Keeps v c x d) : s.Keeps (v.push e w') c x d := by
  -- an effect on another id, or on the dead record, leaves payload and lease of this one alone
  have hother : ∀ {k x'}, s.OnlySlot v.world w' k x' → x ≠ x' → s.Keeps (v.push e w') c x d :=
    fun honly hx => keeps_same hk hclock.ge (honly.of_id hx) (honly.of_id hx)
  cases heff with
  | quiet h => exact keeps_same hk hclock.ge (h _ _) (h _ _)
  | enqueue x' o _ honly _ hnew =>
      by_cases hx : x = x'
      · subst hx
        intro hd
        rw [View.push_world, hclock] at hd
        exact absurd (hk hd).holder.known hnew
      · exact hother honly hx
  | claim x' o _ _ honly _ _ _ _ hover _ =>
      by_cases hx : x = x'
      · subst hx
        refine keeps_lease hk hclock (honly.of_slot (by simp)) fun _ hd hh => ?_
        obtain ⟨o₀, ho₀, -⟩ := id hh
        exact absurd ((hh.not_expired hd ho₀).2.symm.trans (hover o₀ ho₀).1) (by simp)
      · exact hother honly hx
  | hold x' o o₀ _ _ honly _ _ _ ho₀ hexp _ _ _ =>
      by_cases hx : x = x'
      · subst hx
        refine keeps_lease hk hclock (honly.of_slot (by simp)) fun _ hd hh => ?_
        exact absurd ((hh.not_expired hd ho₀).2.symm.trans hexp) (by simp)
      · exact hother honly hx
  | rewrite x' o m _ _ honly _ _ hover _ =>
      by_cases hx : x = x'
      · subst hx
        refine keeps_lease hk hclock (honly.of_slot (by simp)) fun hne hd hh => ?_
        obtain ⟨o₀, ho₀, hown₀, -⟩ := hover hne
        exact ht (hown₀.unique (hh.not_expired hd ho₀).1)
      · exact hother honly hx
  | release x' _ honly _ hown =>
      by_cases hx : x = x'
      · subst hx
        refine keeps_lease hk hclock (honly.of_slot (by simp)) fun hne hd hh => ?_
        obtain ⟨-, m, o₀, -, -, ho₀, hown₀⟩ := hown hne
        exact ht (hown₀.unique (hh.not_expired hd ho₀).1)
      · exact hother honly hx
  | remove x' o _ honly _ hnone _ =>
      by_cases hx : x = x'
      · subst hx
        exact keeps_remove hk hclock hnone
      · exact hother honly hx
  | bury x' o d n _ _ honly _ _ _ _ =>
      exact keeps_same hk hclock.ge (honly.of_slot (by simp)) (honly.of_slot (by simp))

/-- Another client's record is never one's own. -/
lemma ownCount_effect {r : ℕ} (heff : s.Effect t v w') (ht : t.1 ≠ c) (hknown : s.Known v x)
    (hc : s.OwnCount v.world c x r) : s.OwnCount w' c x r := by
  have hother : ∀ {k x'}, s.OnlySlot v.world w' k x' → x ≠ x' → s.OwnCount w' c x r := by
    intro k x' honly hx hne o ho
    rw [honly.of_id hx] at hne ho
    exact hc hne o ho
  -- a lease record that the other client has just written
  have hforeign : ∀ {o}, s.slot w' .lease x = some o → s.OwnedBy t.1 o → s.OwnCount w' c x r := by
    intro o ho hown _ o' ho' hown'
    obtain rfl := Option.some.inj (ho.symm.trans ho')
    exact absurd (hown.unique hown') ht
  cases heff with
  | quiet h =>
      intro hne o ho
      rw [h] at hne ho
      exact hc hne o ho
  | enqueue x' o _ honly _ hnew =>
      by_cases hx : x = x'
      · exact absurd (hx ▸ hknown) hnew
      · exact hother honly hx
  | claim x' o _ _ honly ho hown _ _ _ _ =>
      by_cases hx : x = x'
      · exact hforeign (hx ▸ ho) hown
      · exact hother honly hx
  | hold x' o o₀ _ _ honly ho hown _ _ _ _ _ _ =>
      by_cases hx : x = x'
      · exact hforeign (hx ▸ ho) hown
      · exact hother honly hx
  | rewrite x' o m _ _ honly ho hown _ _ =>
      by_cases hx : x = x'
      · exact hforeign (hx ▸ ho) hown
      · exact hother honly hx
  | release x' _ honly hnone _ =>
      by_cases hx : x = x'
      · intro _ o ho
        exact absurd ((hx ▸ hnone).symm.trans ho) (by simp)
      · exact hother honly hx
  | remove x' o _ honly _ hnone _ =>
      by_cases hx : x = x'
      · exact fun hne => absurd (hx ▸ hnone) hne
      · exact hother honly hx
  | bury x' o d n _ _ honly _ _ _ _ =>
      intro hne o' ho'
      rw [honly.of_slot (by simp)] at hne ho'
      exact hc hne o' ho'

/-- A payload that is gone stays gone. -/
lemma gone_effect (heff : s.Effect t v w') (hg : s.Gone v x) : s.Gone (v.push e w') x := by
  refine ⟨hg.1.mono (View.le_push _ _ _), ?_⟩
  rw [View.push_world]
  have hother : ∀ {k x'}, s.OnlySlot v.world w' k x' → (Slot.payload ≠ k ∨ x ≠ x') →
      s.slot w' .payload x = none := by
    rintro k x' honly (hk | hx)
    · exact (honly.of_slot hk).trans hg.2
    · exact (honly.of_id hx).trans hg.2
  cases heff with
  | quiet h => exact (h _ _).trans hg.2
  | enqueue x' o _ honly _ hnew =>
      by_cases hx : x = x'
      · exact absurd (hx ▸ hg.1) hnew
      · exact hother honly (.inr hx)
  | claim x' o _ _ honly => exact hother honly (.inl (by simp))
  | hold x' o o₀ _ _ honly => exact hother honly (.inl (by simp))
  | rewrite x' o m _ _ honly => exact hother honly (.inl (by simp))
  | release x' _ honly => exact hother honly (.inl (by simp))
  | remove x' o _ honly _ hnone =>
      by_cases hx : x = x'
      · exact hx ▸ hnone
      · exact hother honly (.inr hx)
  | bury x' o d n _ _ honly => exact hother honly (.inl (by simp))

/-- A payload that is stored after a step was stored before it, or its id is new. -/
lemma payload_effect {o : Object} (heff : s.Effect t v w') (ho : s.slot w' .payload x = some o) :
    s.slot v.world .payload x = some o ∨ ¬ s.Known v x := by
  have hother : ∀ {k x'}, s.OnlySlot v.world w' k x' → (Slot.payload ≠ k ∨ x ≠ x') →
      s.slot v.world .payload x = some o := by
    rintro k x' honly (hk | hx)
    · exact (honly.of_slot hk).symm.trans ho
    · exact (honly.of_id hx).symm.trans ho
  cases heff with
  | quiet h => exact .inl ((h _ _).symm.trans ho)
  | enqueue x' o _ honly _ hnew =>
      by_cases hx : x = x'
      · exact .inr (hx ▸ hnew)
      · exact .inl (hother honly (.inr hx))
  | claim x' o _ _ honly => exact .inl (hother honly (.inl (by simp)))
  | hold x' o o₀ _ _ honly => exact .inl (hother honly (.inl (by simp)))
  | rewrite x' o m _ _ honly => exact .inl (hother honly (.inl (by simp)))
  | release x' _ honly => exact .inl (hother honly (.inl (by simp)))
  | remove x' o _ honly _ hnone =>
      by_cases hx : x = x'
      · exact absurd ((hx ▸ hnone).symm.trans ho) (by simp)
      · exact .inl (hother honly (.inr hx))
  | bury x' o d n _ _ honly => exact .inl (hother honly (.inl (by simp)))

/-- A payload that is still known to be there was there before. -/
lemma payload_before (heff : s.Effect t v w') (hknown : s.Known v x)
    (hp : s.slot w' .payload x ≠ none) : s.slot v.world .payload x ≠ none := by
  obtain ⟨o, ho⟩ := Option.ne_none_iff_exists'.mp hp
  rw [(payload_effect heff ho).resolve_right (not_not.mpr hknown)]
  simp

/-- **A payload does not get lost.**  A stored payload stays, unless a delivery of it has been
acknowledged or its dead record holds it. -/
lemma stored_effect {o : Object} (heff : s.Effect t v w')
    (ho : s.slot v.world .payload x = some o) :
    s.slot w' .payload x = some o ∨ Acked v x ∨ s.DeadHolds w' x o := by
  have hother : ∀ {k x'}, s.OnlySlot v.world w' k x' → (Slot.payload ≠ k ∨ x ≠ x') →
      s.slot w' .payload x = some o := by
    rintro k x' honly (hk | hx)
    · exact (honly.of_slot hk).trans ho
    · exact (honly.of_id hx).trans ho
  cases heff with
  | quiet h => exact .inl ((h _ _).trans ho)
  | enqueue x' o' _ honly _ hnew =>
      by_cases hx : x = x'
      · exact absurd ⟨o, committed_of_slot ho⟩ (hx ▸ hnew)
      · exact .inl (hother honly (.inr hx))
  | claim x' _ _ _ honly => exact .inl (hother honly (.inl (by simp)))
  | hold x' _ _ _ _ honly => exact .inl (hother honly (.inl (by simp)))
  | rewrite x' _ _ _ _ honly => exact .inl (hother honly (.inl (by simp)))
  | release x' _ honly => exact .inl (hother honly (.inl (by simp)))
  | remove x' o' _ honly ho' _ hdone =>
      by_cases hx : x = x'
      · subst hx
        obtain rfl := Option.some.inj (ho.symm.trans ho')
        rcases hdone with ⟨hack, -⟩ | ⟨d, n, hd, h⟩
        · exact .inr (.inl hack)
        · exact .inr (.inr ⟨d, n, (honly.of_slot (by simp)).trans hd, h⟩)
      · exact .inl (hother honly (.inr hx))
  | bury x' _ d n _ _ honly => exact .inl (hother honly (.inl (by simp)))

/-- **The count never falls.**  While the payload is there and no delivery of it has been
acknowledged, a lease record is only ever replaced by one with at least its count. -/
lemma lease_effect {o : Object} (heff : s.Effect t v w') (hack : ¬ Acked v x)
    (hp : s.slot v.world .payload x ≠ none) (ho : s.slot v.world .lease x = some o) :
    ∃ o', s.slot w' .lease x = some o' ∧ count o ≤ count o' := by
  have hother : ∀ {k x'}, s.OnlySlot v.world w' k x' → (Slot.lease ≠ k ∨ x ≠ x') →
      ∃ o', s.slot w' .lease x = some o' ∧ count o ≤ count o' := by
    rintro k x' honly (hk | hx)
    · exact ⟨o, (honly.of_slot hk).trans ho, le_rfl⟩
    · exact ⟨o, (honly.of_id hx).trans ho, le_rfl⟩
  cases heff with
  | quiet h => exact ⟨o, (h _ _).trans ho, le_rfl⟩
  | enqueue x' _ _ honly => exact hother honly (.inl (by simp))
  | claim x' o' _ _ honly ho' _ _ _ hover _ =>
      by_cases hx : x = x'
      · subst hx
        exact ⟨o', ho', by have := (hover o ho).2; omega⟩
      · exact hother honly (.inr hx)
  | hold x' o' o₀ _ _ honly ho' _ _ ho₀ _ hcount _ _ =>
      by_cases hx : x = x'
      · subst hx
        obtain rfl := Option.some.inj (ho.symm.trans ho₀)
        exact ⟨o', ho', hcount.ge⟩
      · exact hother honly (.inr hx)
  | rewrite x' o' m _ _ honly ho' _ hover _ =>
      by_cases hx : x = x'
      · subst hx
        obtain ⟨o₀, ho₀, -, hcount⟩ := hover hp
        obtain rfl := Option.some.inj (ho.symm.trans ho₀)
        exact ⟨o', ho', hcount.ge⟩
      · exact hother honly (.inr hx)
  | release x' _ honly _ hown =>
      by_cases hx : x = x'
      · exact absurd (hown (hx ▸ hp)).1 (hx ▸ hack)
      · exact hother honly (.inr hx)
  | remove x' _ _ honly => exact hother honly (.inl (by simp))
  | bury x' _ d n _ _ honly => exact hother honly (.inl (by simp))

/-- A dead record that holds the payload goes on holding it. -/
lemma dead_effect {o : Object} (heff : s.Effect t v w')
    (hunique : ∀ o', s.Committed v x o' → o' = o) (h : s.DeadHolds v.world x o) :
    s.DeadHolds w' x o := by
  have hother : ∀ {k x'}, s.OnlySlot v.world w' k x' → (Slot.dead ≠ k ∨ x ≠ x') →
      s.DeadHolds w' x o := by
    obtain ⟨d, n, hd, h⟩ := h
    rintro k x' honly (hk | hx)
    · exact ⟨d, n, (honly.of_slot hk).trans hd, h⟩
    · exact ⟨d, n, (honly.of_id hx).trans hd, h⟩
  cases heff with
  | quiet hq =>
      obtain ⟨d, n, hd, h⟩ := h
      exact ⟨d, n, (hq _ _).trans hd, h⟩
  | enqueue x' _ _ honly => exact hother honly (.inl (by simp))
  | claim x' _ _ _ honly => exact hother honly (.inl (by simp))
  | hold x' _ _ _ _ honly => exact hother honly (.inl (by simp))
  | rewrite x' _ _ _ _ honly => exact hother honly (.inl (by simp))
  | release x' _ honly => exact hother honly (.inl (by simp))
  | remove x' _ _ honly => exact hother honly (.inl (by simp))
  | bury x' o' d n _ _ honly hd ho' hbody hmd =>
      by_cases hx : x = x'
      · subst hx
        obtain rfl := hunique o' ho'
        exact ⟨d, n, hd, hbody, hmd⟩
      · exact hother honly (.inr hx)

/-! ## The invariant -/

variable (s bk) in
/-- What holds of a message handle. -/
structure HandleOk (v : BView B C) (c : C) (m : Message) : Prop where
  msgPath : m.msgPath = Slot.payload.key m.id
  leasePath : m.leasePath = Slot.lease.key m.id
  owner : m.owner = s.owner c
  payload : ∃ o, s.Committed v m.id o ∧ o.version = m.payloadVersion ∧ o.metadata = m.attrs
  issued : Store.Issued (bk s.bucket) (v.world.store s.bucket) m.version
  until_le : m.leaseUntil ≤ v.world.clock + s.lease c
  keeps : s.Keeps v c m.id m.leaseUntil ∨ closed m
  ownCount : s.OwnCount v.world c m.id m.receives
  raised : s.RaisedLast v m.id c m.receives
  pos : 1 ≤ m.receives
  cap : 0 < s.maxReceives c → m.receives ≤ s.maxReceives c

variable (s bk) in
/-- The invariant. -/
structure Inv (v : BView B C) : Prop where
  store : (v.world.store s.bucket).Ok (bk s.bucket)
  uncalled : ∀ c, (v.world.mem c).called = false → (v.world.mem c).message = none
  unique : ∀ x o o', s.Committed v x o → s.Committed v x o' → o = o'
  kept : ∀ x o, s.Committed v x o →
    s.slot v.world .payload x = some o ∨ Acked v x ∨ s.DeadHolds v.world x o
  handle : ∀ c m, (v.world.mem c).message = some m → s.HandleOk bk v c m
  counted : ∀ x, ¬ Acked v x → s.slot v.world .payload x ≠ none → ∀ c r, s.Raised v x c r →
    ∃ o, s.slot v.world .lease x = some o ∧ r ≤ count o
  raised_inj : ∀ x, ¬ Acked v x → ∀ c d r, s.Raised v x c r → s.Raised v x d r → c = d

lemma HandleOk.known {m : Message} (h : s.HandleOk bk v c m) : s.Known v m.id :=
  h.payload.imp fun _ ho => ho.1

/-- A client's own steps on the record keep its handle's lease. -/
lemma keeps_self {m : Message} (heff : s.Effect t v w') (hclock : w'.clock = v.world.clock)
    (hm : (v.world.mem t.1).message = some m) (hk : s.Keeps v t.1 m.id m.leaseUntil ∨ closed m) :
    s.Keeps (v.push e w') t.1 m.id m.leaseUntil ∨ closed m := by
  rcases hk with hk | hcl
  · cases heff with
    | quiet h => exact .inl (keeps_same hk hclock.ge (h _ _) (h _ _))
    | rewrite x o m' hm' hid honly ho hown _ hacts =>
        obtain rfl := Option.some.inj (hm.symm.trans hm')
        subst hid
        rcases hacts with hacts | ⟨-, u, hu, hle⟩
        · exact .inr (hacts.2 m hm)
        · refine .inl fun hd => ⟨fun _ => ⟨o, ho, hown, u, hu, hle⟩, fun hnone => ?_⟩
          rw [View.push_world] at hnone
          obtain ⟨w, hw, h⟩ := (hk (hclock ▸ hd)).gone
            ((honly.of_slot (by simp)).symm.trans hnone)
          exact ⟨w, (lastWith_push_of_none hnone).trans hw, h⟩
    | enqueue _ _ hacts => exact .inr (hacts.2 m hm)
    | claim _ _ hacts => exact .inr (hacts.2 m hm)
    | hold _ _ _ hacts => exact .inr (hacts.2 m hm)
    | release _ hacts => exact .inr (hacts.2 m hm)
    | remove _ _ hacts => exact .inr (hacts.2 m hm)
    | bury _ _ _ _ hacts => exact .inr (hacts.2 m hm)
  · exact .inr hcl

/-- A client's own steps keep the count of its handle. -/
lemma ownCount_self {m : Message} (heff : s.Effect t v w')
    (hm : (v.world.mem t.1).message = some m) (hknown : s.Known v m.id)
    (hc : s.OwnCount v.world t.1 m.id m.receives) : s.OwnCount w' t.1 m.id m.receives := by
  have hother : ∀ {k x'}, s.OnlySlot v.world w' k x' → m.id ≠ x' →
      s.OwnCount w' t.1 m.id m.receives := by
    intro k x' honly hx hne o ho
    rw [honly.of_id hx] at hne ho
    exact hc hne o ho
  cases heff with
  | quiet h =>
      intro hne o ho
      rw [h] at hne ho
      exact hc hne o ho
  | enqueue x' o _ honly _ hnew =>
      by_cases hx : m.id = x'
      · exact absurd (hx ▸ hknown) hnew
      · exact hother honly hx
  | claim _ _ _ hnone => exact absurd (hnone.symm.trans hm) (by simp)
  | hold _ _ _ _ hnone => exact absurd (hnone.symm.trans hm) (by simp)
  | rewrite x' o m' hm' hid honly ho _ hover _ =>
      obtain rfl := Option.some.inj (hm.symm.trans hm')
      subst hid
      intro hne o' ho' _
      rw [honly.of_slot (by simp)] at hne
      obtain rfl := Option.some.inj (ho.symm.trans ho')
      obtain ⟨o₀, ho₀, hown₀, hcount⟩ := hover hne
      exact hcount.trans (hc hne o₀ ho₀ hown₀)
  | release x' _ honly hnone _ =>
      by_cases hx : m.id = x'
      · intro _ o ho
        exact absurd ((hx ▸ hnone).symm.trans ho) (by simp)
      · exact hother honly hx
  | remove x' o _ honly _ hnone _ =>
      by_cases hx : m.id = x'
      · exact fun hne => absurd (hx ▸ hnone) hne
      · exact hother honly hx
  | bury x' o d n _ _ honly _ _ _ _ =>
      intro hne o' ho'
      rw [honly.of_slot (by simp)] at hne ho'
      exact hc hne o' ho'

variable (s) in
/-- What a step has written as the lease record of an id. -/
inductive LeaseWrite (t : Thread C) (v : BView B C) (x : String) (o : Object) : Prop where
  /-- A claim, with a count of its own. -/
  | claim (hmain : t.2 = .main) (hnone : (v.world.mem t.1).message = none)
      (hfirst : s.slot v.world .lease x = none → count o = 1)
      (hover : ∀ o₀, s.slot v.world .lease x = some o₀ → count o = count o₀ + 1)
      (hcap : 0 < s.maxReceives t.1 → count o ≤ s.maxReceives t.1)
  /-- The hold before a dead-letter move, with the count of the record it replaces. -/
  | hold (o₀ : Object) (hmain : t.2 = .main) (hnone : (v.world.mem t.1).message = none)
      (ho₀ : s.slot v.world .lease x = some o₀) (hcount : count o = count o₀)
      (hmax : 0 < s.maxReceives t.1) (hcap : s.maxReceives t.1 ≤ count o₀)
  /-- A renew or a nack on a handle for the id. -/
  | rewrite (m : Message) (hm : (v.world.mem t.1).message = some m) (hid : m.id = x)
      (hover : s.slot v.world .payload x ≠ none →
        ∃ o₀, s.slot v.world .lease x = some o₀ ∧ s.OwnedBy t.1 o₀ ∧ count o = count o₀)
      (hcount : count o = m.receives ∨
        ∃ o₀, s.slot v.world .lease x = some o₀ ∧ count o = count o₀)

/-- A lease record that was not there before a step was written by it. -/
lemma lease_changed {o : Object} (hi : s.Inv bk v) (heff : s.Effect t v w')
    (ho : s.slot w' .lease x = some o) (hne : s.slot v.world .lease x ≠ some o) :
    s.Known v x ∧ s.OwnedBy t.1 o ∧ s.LeaseWrite t v x o := by
  have hsame : ∀ {k x'}, s.OnlySlot v.world w' k x' → (Slot.lease ≠ k ∨ x ≠ x') → False := by
    rintro k x' honly (hk | hx)
    · exact hne ((honly.of_slot hk).symm.trans ho)
    · exact hne ((honly.of_id hx).symm.trans ho)
  cases heff with
  | quiet h => exact absurd ((h _ _).symm.trans ho) hne
  | enqueue x' _ _ honly => exact (hsame honly (.inl (by simp))).elim
  | claim x' o' hacts hnone honly ho' hown hknown hfirst hover hcap =>
      by_cases hx : x = x'
      · subst hx
        obtain rfl := Option.some.inj (ho.symm.trans ho')
        exact ⟨hknown, hown, .claim hacts.1 hnone hfirst (fun o₀ ho₀ => (hover o₀ ho₀).2) hcap⟩
      · exact (hsame honly (.inr hx)).elim
  | hold x' o' o₀ hacts hnone honly ho' hown hknown ho₀ _ hcount hmax hcap =>
      by_cases hx : x = x'
      · subst hx
        obtain rfl := Option.some.inj (ho.symm.trans ho')
        exact ⟨hknown, hown, .hold o₀ hacts.1 hnone ho₀ hcount hmax hcap⟩
      · exact (hsame honly (.inr hx)).elim
  | rewrite x' o' m hm hid honly ho' hown hover _ hcount =>
      by_cases hx : x = x'
      · subst hx
        obtain rfl := Option.some.inj (ho.symm.trans ho')
        exact ⟨hid ▸ (hi.handle t.1 m hm).known, hown, .rewrite m hm hid hover hcount⟩
      · exact (hsame honly (.inr hx)).elim
  | release x' _ honly hnone _ =>
      by_cases hx : x = x'
      · subst hx
        exact absurd (hnone.symm.trans ho) (by simp)
      · exact (hsame honly (.inr hx)).elim
  | remove x' _ _ honly => exact (hsame honly (.inl (by simp))).elim
  | bury x' _ _ _ _ _ honly => exact (hsame honly (.inl (by simp))).elim

/-- While the payload is there, a lease write is a claim or leaves the count as it is. -/
lemma LeaseWrite.claim_or_same {o : Object} (h : s.LeaseWrite t v x o)
    (hp : s.slot v.world .payload x ≠ none) :
    (t.2 = .main ∧ (v.world.mem t.1).message = none ∧
        (s.slot v.world .lease x = none → count o = 1) ∧
        ∀ o₀, s.slot v.world .lease x = some o₀ → count o = count o₀ + 1) ∨
      ∃ o₀, s.slot v.world .lease x = some o₀ ∧ count o = count o₀ := by
  cases h with
  | claim hmain hnone hfirst hover _ => exact .inl ⟨hmain, hnone, hfirst, hover⟩
  | hold o₀ _ _ ho₀ hcount _ _ => exact .inr ⟨o₀, ho₀, hcount⟩
  | rewrite m _ _ hover _ =>
      obtain ⟨o₀, ho₀, -, hcount⟩ := hover hp
      exact .inr ⟨o₀, ho₀, hcount⟩

/-- The dead record is written only by a client that took the lease over for it, from a payload of
the id and with the count of the takeover. -/
lemma dead_changed (heff : s.Effect t v w')
    (hne : s.slot w' .dead x ≠ s.slot v.world .dead x) :
    ∃ n o d, s.HeldAt v x t.1 n ∧ s.slot w' .dead x = some d ∧ s.Committed v x o ∧
      d.body = o.body ∧ d.metadata = o.metadata.set queueReceivesField (.int n) := by
  cases heff with
  | quiet h => exact absurd (h _ _) hne
  | enqueue x' _ _ honly => exact absurd (honly.of_slot (by simp)) hne
  | claim x' _ _ _ honly => exact absurd (honly.of_slot (by simp)) hne
  | hold x' _ _ _ _ honly => exact absurd (honly.of_slot (by simp)) hne
  | rewrite x' _ _ _ _ honly => exact absurd (honly.of_slot (by simp)) hne
  | release x' _ honly => exact absurd (honly.of_slot (by simp)) hne
  | remove x' _ _ honly => exact absurd (honly.of_slot (by simp)) hne
  | bury x' o d n _ hheld honly hd ho hbody hmd =>
      by_cases hx : x = x'
      · subst hx
        exact ⟨n, o, d, hheld, hd, ho, hbody, hmd⟩
      · exact absurd (honly.of_id hx) hne

variable (s) in
/-- What all steps have in common. -/
structure Tame (v : BView B C) (w' : World B C) : Prop where
  payload : ∀ x o, s.slot w' .payload x = some o →
    s.slot v.world .payload x = some o ∨ ¬ s.Known v x
  stored : ∀ x o, s.slot v.world .payload x = some o →
    s.slot w' .payload x = some o ∨ Acked v x ∨ s.DeadHolds w' x o
  lease : ∀ x o, ¬ Acked v x → s.slot v.world .payload x ≠ none →
    s.slot v.world .lease x = some o → ∃ o', s.slot w' .lease x = some o' ∧ count o ≤ count o'
  dead : ∀ x o, (∀ o', s.Committed v x o' → o' = o) → s.DeadHolds v.world x o → s.DeadHolds w' x o

lemma Effect.tame (heff : s.Effect t v w') : s.Tame v w' where
  payload _ _ := payload_effect heff
  stored _ _ := stored_effect heff
  lease _ _ := lease_effect heff
  dead _ _ := dead_effect heff

lemma tame_of_same (h : ∀ k x, s.slot w' k x = s.slot v.world k x) : s.Tame v w' where
  payload x o ho := .inl ((h _ _).symm.trans ho)
  stored x o ho := .inl ((h _ _).trans ho)
  lease x o _ _ ho := ⟨o, (h _ _).trans ho, le_rfl⟩
  dead x o _ hd := by
    obtain ⟨d, n, hd, h'⟩ := hd
    exact ⟨d, n, (h _ _).trans hd, h'⟩

/-- **A tame step keeps the invariant**, as far as it keeps the handles in order. -/
lemma Inv.tame (hi : s.Inv bk v) (h : s.Tame v w')
    (hstore : (w'.store s.bucket).Ok (bk s.bucket))
    (huncalled : ∀ c, (w'.mem c).called = false → (w'.mem c).message = none)
    (hhandle : ∀ c m, (w'.mem c).message = some m → s.HandleOk bk (v.push e w') c m) :
    s.Inv bk (v.push e w') := by
  have hle : v.Le (v.push e w') := View.le_push _ _ _
  have hold : ∀ {x o}, s.Known v x → s.Committed (v.push e w') x o → s.Committed v x o := by
    intro x o hknown ho
    rcases committed_push.mp ho with ho | ho
    · exact committed_of_slot ((h.payload x o ho).resolve_right (not_not.mpr hknown))
    · exact ho
  have hnewOnly : ∀ {x o}, ¬ s.Known v x → s.Committed (v.push e w') x o →
      s.slot w' .payload x = some o := by
    intro x o hnew ho
    rcases committed_push.mp ho with ho | ho
    · exact ho
    · exact absurd ⟨o, ho⟩ hnew
  refine ⟨hstore, huncalled, ?_, ?_, hhandle, ?_, ?_⟩
  · intro x o o' ho ho'
    by_cases hknown : s.Known v x
    · exact hi.unique x o o' (hold hknown ho) (hold hknown ho')
    · exact Option.some.inj ((hnewOnly hknown ho).symm.trans (hnewOnly hknown ho'))
  · intro x o ho
    by_cases hknown : s.Known v x
    · have ho := hold hknown ho
      rcases hi.kept x o ho with hp | hack | hdead
      · rcases h.stored x o hp with hp | hack | hdead
        · exact .inl hp
        · exact .inr (.inl (hack.mono hle))
        · exact .inr (.inr hdead)
      · exact .inr (.inl (hack.mono hle))
      · exact .inr (.inr (h.dead x o (fun o' ho' => hi.unique x o' o ho' ho) hdead))
    · exact .inl (hnewOnly hknown ho)
  · intro x hack hp c r hr
    have hack' : ¬ Acked v x := fun h => hack (h.mono hle)
    rcases raised_push.mp hr with hr | ⟨-, -, ⟨o, ho, -, hcount⟩, -⟩
    · obtain ⟨p, hp'⟩ := Option.ne_none_iff_exists'.mp hp
      have hpv : s.slot v.world .payload x ≠ none := by
        rw [(h.payload x p hp').resolve_right (not_not.mpr hr.known)]
        simp
      obtain ⟨o, ho, hro⟩ := hi.counted x hack' hpv c r hr
      obtain ⟨o', ho', hle'⟩ := h.lease x o hack' hpv ho
      exact ⟨o', ho', hro.trans hle'⟩
    · exact ⟨o, ho, hcount.ge⟩
  · intro x hack c d r hc hd
    have hack' : ¬ Acked v x := fun h => hack (h.mono hle)
    -- a new raise goes above every earlier one
    have hnew : ∀ {c d}, s.Raised v x c r → s.slot v.world .payload x ≠ none →
        (∀ o, s.slot v.world .lease x = some o → count o < r) → c = d := by
      intro c d hc hp hlt
      obtain ⟨o, ho, hro⟩ := hi.counted x hack' hp c r hc
      exact absurd (hlt o ho) (by omega)
    rcases raised_push.mp hc with hc | ⟨hct, hp, -, hlt⟩
    · rcases raised_push.mp hd with hd | ⟨-, hp, -, hlt⟩
      · exact hi.raised_inj x hack' c d r hc hd
      · exact hnew hc hp hlt
    · rcases raised_push.mp hd with hd | ⟨hdt, -⟩
      · exact (hnew hd hp hlt).symm
      · exact congrArg Prod.fst (Option.some.inj (hct.symm.trans hdt))

/-- A step on the objects. -/
lemma Inv.effect (hi : s.Inv bk v) (heff : s.Effect t v w')
    (hclock : w'.clock = v.world.clock) (hmem : w'.mem = v.world.mem)
    (hstore : (w'.store s.bucket).Ok (bk s.bucket))
    (hfollows : (v.world.store s.bucket).Follows (w'.store s.bucket)) :
    s.Inv bk (v.push e w') := by
  have hle : v.Le (v.push e w') := View.le_push _ _ _
  refine hi.tame heff.tame hstore (by rw [hmem]; exact hi.uncalled) fun d m hm => ?_
  rw [hmem] at hm
  have hok := hi.handle d m hm
  obtain ⟨o, ho, hov, hom⟩ := hok.payload
  have hsplit : (s.Keeps (v.push e w') d m.id m.leaseUntil ∨ closed m) ∧
      s.OwnCount w' d m.id m.receives := by
    by_cases hd : t.1 = d
    · subst hd
      exact ⟨keeps_self heff hclock hm hok.keeps, ownCount_self heff hm ⟨o, ho⟩ hok.ownCount⟩
    · exact ⟨hok.keeps.imp (keeps_effect heff hclock hd) id,
        ownCount_effect heff hd ⟨o, ho⟩ hok.ownCount⟩
  exact ⟨hok.msgPath, hok.leasePath, hok.owner, ⟨o, ho.mono hle, hov, hom⟩,
    hok.issued.follows hfollows, by rw [View.push_world, hclock]; exact hok.until_le,
    hsplit.1, hsplit.2, hok.raised.push fun _ hnone => absurd (hnone.symm.trans hm) (by simp),
    hok.pos, hok.cap⟩

/-- A step that leaves the objects alone leaves a handle in order. -/
lemma HandleOk.same {m : Message} (h : s.HandleOk bk v c m) (hclock : v.world.clock ≤ w'.clock)
    (hstore : w'.store = v.world.store) : s.HandleOk bk (v.push e w') c m := by
  have hle : v.Le (v.push e w') := View.le_push _ _ _
  have hslot : ∀ k x, s.slot w' k x = s.slot v.world k x := fun k x => by simp only [slot, hstore]
  obtain ⟨o, ho, hov, hom⟩ := h.payload
  refine ⟨h.msgPath, h.leasePath, h.owner, ⟨o, ho.mono hle, hov, hom⟩, ?_, ?_, ?_, ?_,
    h.raised.push fun _ _ => hslot _ _, h.pos, h.cap⟩
  · rw [View.push_world, hstore]
    exact h.issued
  · have := h.until_le
    rw [View.push_world]
    omega
  · exact h.keeps.imp (fun hk => keeps_same hk hclock (hslot _ _) (hslot _ _)) id
  · intro hne o' ho'
    rw [View.push_world, hslot] at hne ho'
    exact h.ownCount hne o' ho'

lemma Inv.quiet (hi : s.Inv bk v) : s.Inv bk (v.push e v.world) :=
  hi.tame (tame_of_same fun _ _ => rfl) hi.store hi.uncalled
    fun c m hm => (hi.handle c m hm).same le_rfl rfl

lemma Inv.advance (hi : s.Inv bk v) (d : ℕ) : s.Inv bk (v.push e (v.world.advance d)) :=
  hi.tame (tame_of_same fun _ _ => rfl) hi.store hi.uncalled
    fun c m hm => (hi.handle c m hm).same (by simp [World.advance]) rfl

lemma Inv.setMem {m : Mem} (hi : s.Inv bk v) (hcalled : m.called = false → m.message = none)
    (hm : ∀ h, m.message = some h → s.HandleOk bk v c h) :
    s.Inv bk (v.push e (v.world.setMem c m)) := by
  refine hi.tame (tame_of_same fun _ _ => rfl) hi.store (fun d => ?_) fun d h hd => ?_
  · by_cases hd : d = c
    · subst hd
      simpa using hcalled
    · simpa [World.setMem_mem_ne v.world c m hd] using hi.uncalled d
  · refine HandleOk.same ?_ le_rfl rfl
    by_cases hdc : d = c
    · subst hdc
      exact hm h (by simpa using hd)
    · exact hi.handle d h (by simpa [World.setMem_mem_ne v.world c m hdc] using hd)

/-- Raising the flags of a handle keeps it in order. -/
lemma HandleOk.of_flags {m m' : Message} (h : s.HandleOk bk v c m) (hs : m.SameClaim m')
    (hcl : closed m → closed m') : s.HandleOk bk v c m' where
  msgPath := by rw [hs.msgPath, hs.id]; exact h.msgPath
  leasePath := by rw [hs.leasePath, hs.id]; exact h.leasePath
  owner := hs.owner.trans h.owner
  payload := by rw [hs.id, hs.payloadVersion, hs.attrs]; exact h.payload
  issued := hs.version ▸ h.issued
  until_le := hs.leaseUntil ▸ h.until_le
  keeps := by rw [hs.id, hs.leaseUntil]; exact h.keeps.imp id hcl
  ownCount := by rw [hs.id, hs.receives]; exact h.ownCount
  raised := by rw [hs.id, hs.receives]; exact h.raised
  pos := hs.receives ▸ h.pos
  cap := hs.receives ▸ h.cap

/-- A critical section that changes only the flags of the handle. -/
lemma Inv.onMessage {f : Message → Message} (hi : s.Inv bk v)
    (hf : ∀ m, (v.world.mem c).message = some m → s.HandleOk bk v c (f m)) :
    s.Inv bk (v.push e (v.world.setMem c ((v.world.mem c).onMessage f))) := by
  refine hi.setMem (fun h => ?_) (fun m hm => ?_)
  · simp [Mem.onMessage, hi.uncalled c h]
  · obtain ⟨m₀, hm₀, rfl⟩ := Option.map_eq_some_iff.mp hm
    exact hf m₀ hm₀

end QueueSetup

end Blobster
