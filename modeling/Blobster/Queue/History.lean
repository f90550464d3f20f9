import Blobster.Queue.Handle

/-!
# What happens to a message

The vocabulary of the queue's delivery guarantees, as properties of the run so far.

A message id has three objects (`Slot`): its payload, its lease record and, once it has been moved
aside, its dead record.  From the history of a run one can read off which payload was ever committed
under an id (`Committed`), whether one of its deliveries was acknowledged (`Acked`), who held its
lease when the payload was last there (`Holder`), and which receive raised its receive count to
which value (`Raised`).

* `neverReused` — the assumption that a payload is only ever committed under an id that never had
  one.
* **`Effect`** — everything one step of a client can do to the objects of a queue whose ids are not
  reused, with the facts that justify it.  Every guarantee is derived from this list.
* **`safe_tryReceive`** — a receive under any contract, around its `tryClaim`.
-/

set_option linter.unusedSectionVars false

namespace Blobster

open Interleave Contract

/-- The objects of a message id. -/
inductive Slot where
  | payload
  | lease
  | dead
deriving DecidableEq, Repr

/-- The key of an object of a message id. -/
def Slot.key : Slot → String → String
  | .payload, id => queueMsgPrefix ++ id
  | .lease, id => queueLeasePrefix ++ id
  | .dead, id => queueDeadPrefix ++ id

lemma Slot.key_inj {k k' : Slot} {x x' : String} (h : k.key x = k'.key x') : k = k' ∧ x = x' := by
  have h' := congrArg String.toList h
  cases k <;> cases k' <;>
    simp [Slot.key, queueMsgPrefix, queueLeasePrefix, queueDeadPrefix] at h' ⊢ <;>
    exact String.toList_injective h'

namespace QueueSetup

variable {B C : Type} [DecidableEq B] [DecidableEq C] (s : QueueSetup B C)

/-- The stored object of a message id. -/
def slot (w : World B C) (k : Slot) (x : String) : Option Object :=
  (w.store s.bucket).get (k.key x)

section Slots

variable (w : World B C) (bk : Backend) {k k' : Slot} {x x' : String} (body : ByteArray)
  (md : Metadata)

lemma slot_put_self :
    s.slot (w.setStore s.bucket ((w.store s.bucket).put bk (k.key x) body md)) k x =
      some ⟨body, md, bk.version (w.store s.bucket).next body, (w.store s.bucket).next⟩ := by
  simp [slot]

lemma slot_put_ne (h : (k', x') ≠ (k, x)) :
    s.slot (w.setStore s.bucket ((w.store s.bucket).put bk (k.key x) body md)) k' x' =
      s.slot w k' x' := by
  have hne : k'.key x' ≠ k.key x := fun hk => h (Prod.ext_iff.mpr (Slot.key_inj hk))
  simp [slot, Store.get_put_ne _ _ _ _ _ hne]

lemma slot_erase_self :
    s.slot (w.setStore s.bucket ((w.store s.bucket).erase (k.key x))) k x = none := by
  simp [slot]

lemma slot_erase_ne (h : (k', x') ≠ (k, x)) :
    s.slot (w.setStore s.bucket ((w.store s.bucket).erase (k.key x))) k' x' = s.slot w k' x' := by
  have hne : k'.key x' ≠ k.key x := fun hk => h (Prod.ext_iff.mpr (Slot.key_inj hk))
  simp [slot, Store.get_erase_ne _ _ hne]

end Slots

/-- The record names the client as its owner. -/
def OwnedBy (c : C) (o : Object) : Prop := o.metadata.text queueOwnerField = s.owner c

/-- The receive count of a lease record. -/
def count (o : Object) : ℕ := queueParseReceives o.metadata

variable {s} in
lemma OwnedBy.unique {c d : C} {o : Object} (hc : s.OwnedBy c o) (hd : s.OwnedBy d o) : c = d :=
  s.owner_inj (hc.symm.trans hd)

/-- A state from which a run may begin: the queue is empty and nobody has called anything yet. -/
structure Initial (w : World B C) : Prop where
  store : w.store s.bucket = {}
  mem : ∀ c, w.mem c = {}

variable {s} in
lemma Initial.slot {w : World B C} {x : String} (h : s.Initial w) (k : Slot) : s.slot w k x = none := by
  simp [QueueSetup.slot, h.store]

/-! ## Reading the history -/

/-- The payload `o` has been stored under the id. -/
def Committed (v : BView B C) (x : String) (o : Object) : Prop :=
  ∃ w ∈ v.worlds, s.slot w .payload x = some o

/-- Some payload has been stored under the id. -/
def Known (v : BView B C) (x : String) : Prop := ∃ o, s.Committed v x o

/-- `Ack` was called on a message delivered for the id. -/
def Acked (v : BView B C) (x : String) : Prop :=
  ∃ p ∈ v.steps, ∃ t m, p.2.1 = Event.start t Entry.ack ∧ (p.1.mem t.1).message = some m ∧ m.id = x

instance (v : BView B C) (x : String) : Decidable (Acked v x) :=
  decidable_of_iff (v.steps.any fun p => match p.2.1 with
      | .start t .ack => (p.1.mem t.1).message.any fun m => decide (m.id = x)
      | _ => false) <| by
    rw [List.any_eq_true]
    refine exists_congr fun p => and_congr_right fun _ => ?_
    split
    · rename_i t heq
      simp only [heq, Option.any_eq_true, decide_eq_true_eq]
      constructor
      · rintro ⟨m, hm⟩
        exact ⟨t, m, rfl, hm⟩
      · rintro ⟨t', m, heq', hm⟩
        cases heq'
        exact ⟨m, hm⟩
    · rename_i hne
      simp only [Bool.false_eq_true, false_iff]
      rintro ⟨t, m, heq, -⟩
      exact hne t heq

/-- The dead record holds the payload: its bytes, and its attributes with the receive count merged
in. -/
def DeadHolds (w : World B C) (x : String) (o : Object) : Prop :=
  ∃ d n, s.slot w .dead x = some d ∧ d.body = o.body ∧
    d.metadata = o.metadata.set queueReceivesField (.int n)

/-- The latest world in which the payload was stored. -/
def lastWith (v : BView B C) (x : String) : Option (World B C) :=
  v.worlds.find? fun w => (s.slot w .payload x).isSome

/-- The client owned the lease when the payload was last there. -/
def Holder (v : BView B C) (x : String) (c : C) : Prop :=
  ∃ w, s.lastWith v x = some w ∧ ∃ o, s.slot w .lease x = some o ∧ s.OwnedBy c o

/-- A step of the client raised the receive count of the id to `r`, while the payload was there. -/
def Raised (v : BView B C) (x : String) (c : C) (r : ℕ) : Prop :=
  ∃ p ∈ v.steps, p.2.1.thread = some (c, .main) ∧ s.slot p.1 .payload x ≠ none ∧
    (∃ o, s.slot p.2.2 .lease x = some o ∧ s.OwnedBy c o ∧ count o = r) ∧
    ∀ o, s.slot p.1 .lease x = some o → count o < r

/-- A step with which the client raises the receive count of the id to `r`, while the payload is
there. -/
def IsRaise (x : String) (c : C) (r : ℕ) (p : World B C × BEvent B C × World B C) : Prop :=
  p.2.1.thread = some (c, .main) ∧ s.slot p.1 .payload x ≠ none ∧
    (∃ o, s.slot p.2.2 .lease x = some o ∧ s.OwnedBy c o ∧ count o = r) ∧
    ∀ o, s.slot p.1 .lease x = some o → count o < r

/-- The client raised the receive count of the id to `r`, and as long as it has had no handle, it has
not written the lease since. -/
def RaisedLast (v : BView B C) (x : String) (c : C) (r : ℕ) : Prop :=
  ∃ later p earlier, v.steps = later ++ p :: earlier ∧ s.IsRaise x c r p ∧
    ∀ q ∈ later, q.2.1.thread = some (c, .main) → (q.1.mem c).message = none →
      s.slot q.2.2 .lease x = s.slot q.1 .lease x

/-- A step with which a client takes the lease over for a dead-letter move, at a record whose count
`n` has reached its limit, while the payload is there. -/
def IsTakeover (x : String) (c : C) (n : ℕ) (p : World B C × BEvent B C × World B C) : Prop :=
  p.2.1.thread = some (c, .main) ∧ (p.1.mem c).message = none ∧
    s.slot p.1 .payload x ≠ none ∧ 0 < s.maxReceives c ∧
    ∃ o₀ o, s.slot p.1 .lease x = some o₀ ∧ (count o₀ = n ∧ s.maxReceives c ≤ n) ∧
      s.slot p.2.2 .lease x = some o ∧ o ≠ o₀

/-- The client has taken the lease over for a dead-letter move, at the count `n`. -/
def HeldAt (v : BView B C) (x : String) (c : C) (n : ℕ) : Prop := ∃ p ∈ v.steps, s.IsTakeover x c n p

/-- The client has taken the lease over for a dead-letter move. -/
def Held (v : BView B C) (x : String) (c : C) : Prop := ∃ n, s.HeldAt v x c n

/-- The lease was deleted while the payload was there. -/
def Released (v : BView B C) (x : String) : Prop :=
  ∃ p ∈ v.steps, s.slot p.1 .payload x ≠ none ∧ s.slot p.1 .lease x ≠ none ∧
    s.slot p.2.2 .lease x = none

/-- The assumption on runs: a payload is committed only under an id that never had one. -/
def neverReused (v : BView B C) (e : BEvent B C) : Prop :=
  ∀ t x body md pre r, e = BEvent.called t (.write s.bucket (Slot.payload.key x) body md pre) r →
    s.slot v.world .payload x = none → ¬ s.Known v x

/-- Whether a step keeps to it. -/
def isFirstUse (v : BView B C) : BEvent B C → Bool
  | .call _ (.write b key _ _ _) _ =>
      match cutPrefix key queueMsgPrefix with
      | none => true
      | some x => decide (b ≠ s.bucket) || (s.slot v.world .payload x).isSome ||
          !(v.worlds.any fun w => (s.slot w .payload x).isSome)
  | _ => true

section Monotone

variable {s} {v v' : BView B C} {x : String} {o : Object} {c : C} {r : ℕ}

lemma Committed.mono (h : s.Committed v x o) (hv : v.Le v') : s.Committed v' x o :=
  h.imp fun _ hw => ⟨hv.worlds hw.1, hw.2⟩

lemma Known.mono (h : s.Known v x) (hv : v.Le v') : s.Known v' x :=
  h.imp fun _ ho => ho.mono hv

lemma Acked.mono (h : Acked v x) (hv : v.Le v') : Acked v' x :=
  h.imp fun _ hp => ⟨hv.steps hp.1, hp.2⟩

lemma Raised.mono (h : s.Raised v x c r) (hv : v.Le v') : s.Raised v' x c r :=
  h.imp fun _ hp => ⟨hv.steps hp.1, hp.2⟩

lemma HeldAt.mono {n : ℕ} (h : s.HeldAt v x c n) (hv : v.Le v') : s.HeldAt v' x c n :=
  h.imp fun _ hp => ⟨hv.steps hp.1, hp.2⟩

lemma Held.mono (h : s.Held v x c) (hv : v.Le v') : s.Held v' x c :=
  h.imp fun _ hn => hn.mono hv

lemma Released.mono (h : s.Released v x) (hv : v.Le v') : s.Released v' x :=
  h.imp fun _ hp => ⟨hv.steps hp.1, hp.2⟩

lemma RaisedLast.raised (h : s.RaisedLast v x c r) : s.Raised v x c r := by
  obtain ⟨later, p, earlier, heq, hp, -⟩ := h
  exact ⟨p, by simp [heq], hp⟩

/-- A step that is not a lease write of the client before it has a handle. -/
lemma RaisedLast.push {e : BEvent B C} {w : World B C} (h : s.RaisedLast v x c r)
    (hq : e.thread = some (c, .main) → (v.world.mem c).message = none →
      s.slot w .lease x = s.slot v.world .lease x) : s.RaisedLast (v.push e w) x c r := by
  obtain ⟨later, p, earlier, heq, hp, hlater⟩ := h
  refine ⟨(v.world, e, w) :: later, p, earlier, by rw [View.push_steps, heq]; rfl, hp, ?_⟩
  intro q hmem
  rcases List.mem_cons.mp hmem with rfl | hmem
  · exact hq
  · exact hlater q hmem

lemma committed_of_slot (h : s.slot v.world .payload x = some o) : s.Committed v x o :=
  ⟨_, v.world_mem_worlds, h⟩

/-- What a step adds to the payloads that were ever stored. -/
lemma committed_push {e : BEvent B C} {w : World B C} :
    s.Committed (v.push e w) x o ↔ s.slot w .payload x = some o ∨ s.Committed v x o := by
  simp [Committed]

lemma lastWith_push_of_some {e : BEvent B C} {w : World B C}
    (h : s.slot w .payload x = some o) : s.lastWith (v.push e w) x = some w := by
  simp [lastWith, h]

lemma lastWith_push_of_none {e : BEvent B C} {w : World B C}
    (h : s.slot w .payload x = none) : s.lastWith (v.push e w) x = s.lastWith v x := by
  simp [lastWith, h]

lemma lastWith_of_some (h : s.slot v.world .payload x = some o) :
    s.lastWith v x = some v.world := by
  simp [lastWith, View.worlds, h]

lemma Holder.unique {d : C} (hc : s.Holder v x c) (hd : s.Holder v x d) : c = d := by
  obtain ⟨w, hw, o, ho, hown⟩ := hc
  obtain ⟨w', hw', o', ho', hown'⟩ := hd
  obtain rfl := Option.some.inj (hw.symm.trans hw')
  obtain rfl := Option.some.inj (ho.symm.trans ho')
  exact hown.unique hown'

lemma Raised.known (h : s.Raised v x c r) : s.Known v x := by
  obtain ⟨p, hp, -, hne, -⟩ := h
  obtain ⟨o, ho⟩ := Option.ne_none_iff_exists'.mp hne
  exact ⟨o, p.1, (v.mem_worlds_of_mem_steps hp).1, ho⟩

/-- What a step adds to the raises. -/
lemma raised_push {e : BEvent B C} {w : World B C} :
    s.Raised (v.push e w) x c r ↔ s.Raised v x c r ∨
      (e.thread = some (c, .main) ∧ s.slot v.world .payload x ≠ none ∧
        (∃ o, s.slot w .lease x = some o ∧ s.OwnedBy c o ∧ count o = r) ∧
        ∀ o, s.slot v.world .lease x = some o → count o < r) := by
  simp only [Raised, View.push_steps, List.mem_cons, exists_eq_or_imp]
  exact or_comm

/-- What a step adds to the takeovers for a dead-letter move. -/
lemma heldAt_push {e : BEvent B C} {w : World B C} {n : ℕ} :
    s.HeldAt (v.push e w) x c n ↔ s.HeldAt v x c n ∨ s.IsTakeover x c n (v.world, e, w) := by
  simp only [HeldAt, View.push_steps, List.mem_cons, exists_eq_or_imp]
  exact or_comm

/-- What a step adds to the leases given up under their payload. -/
lemma released_push {e : BEvent B C} {w : World B C} :
    s.Released (v.push e w) x ↔ s.Released v x ∨ (s.slot v.world .payload x ≠ none ∧
      s.slot v.world .lease x ≠ none ∧ s.slot w .lease x = none) := by
  simp only [Released, View.push_steps, List.mem_cons, exists_eq_or_imp]
  exact or_comm

lemma HeldAt.known {n : ℕ} (h : s.HeldAt v x c n) : s.Known v x := by
  obtain ⟨p, hp, -, -, hne, -⟩ := h
  obtain ⟨o, ho⟩ := Option.ne_none_iff_exists'.mp hne
  exact ⟨o, p.1, (v.mem_worlds_of_mem_steps hp).1, ho⟩

lemma Released.known (h : s.Released v x) : s.Known v x := by
  obtain ⟨p, hp, hne, -⟩ := h
  obtain ⟨o, ho⟩ := Option.ne_none_iff_exists'.mp hne
  exact ⟨o, p.1, (v.mem_worlds_of_mem_steps hp).1, ho⟩

lemma Holder.known (h : s.Holder v x c) : s.Known v x := by
  obtain ⟨w, hw, -⟩ := h
  unfold lastWith at hw
  have hsome := List.find?_some hw
  obtain ⟨o, ho⟩ := Option.isSome_iff_exists.mp hsome
  exact ⟨o, w, List.mem_of_find?_eq_some hw, ho⟩

lemma cutPrefix_append (pref x : String) : cutPrefix (pref ++ x) pref = some x := by
  simp [cutPrefix]

lemma eq_append_of_cutPrefix {key pref id : String} (h : cutPrefix key pref = some id) :
    key = pref ++ id := by
  unfold cutPrefix at h
  split at h
  · rename_i hpre
    obtain ⟨l, hl⟩ := List.isPrefixOf_iff_prefix.mp hpre
    obtain rfl := Option.some.inj h
    apply String.toList_injective
    simp [← hl]
  · cases h

lemma neverReused_of_isFirstUse {e : BEvent B C} (h : s.isFirstUse v e = true) :
    s.neverReused v e := by
  rintro t x body md pre r rfl hnone ⟨o, w, hw, ho⟩
  have hcut : cutPrefix (Slot.payload.key x) queueMsgPrefix = some x := cutPrefix_append _ _
  simp only [isFirstUse, hcut, hnone, Option.isSome_none, ne_eq, not_true_eq_false, decide_false,
    Bool.or_self, Bool.false_or, Bool.not_eq_true', List.any_eq_false] at h
  exact absurd (h w hw) (by simp [ho])

end Monotone

/-! ## What a step can do -/

/-- Nothing but the one object changes. -/
def OnlySlot (w w' : World B C) (k : Slot) (x : String) : Prop :=
  ∀ k' x', (k', x') ≠ (k, x) → s.slot w' k' x' = s.slot w k' x'

variable {s} in
lemma OnlySlot.of_slot {w w' : World B C} {k j : Slot} {x y : String}
    (h : s.OnlySlot w w' k x) (hk : j ≠ k) : s.slot w' j y = s.slot w j y :=
  h j y fun heq => hk (Prod.ext_iff.mp heq).1

variable {s} in
lemma OnlySlot.of_id {w w' : World B C} {k k' : Slot} {x x' : String}
    (h : s.OnlySlot w w' k x) (hx : x' ≠ x) : s.slot w' k' x' = s.slot w k' x' :=
  h k' x' fun heq => hx (Prod.ext_iff.mp heq).2

variable {s} in
lemma only_put {x : String} {k : Slot} {body : ByteArray} {md : Metadata} (w : World B C)
    (b : Backend) :
    s.OnlySlot w (w.setStore s.bucket ((w.store s.bucket).put b (k.key x) body md)) k x :=
  fun _ _ h => s.slot_put_ne w b body md h

variable {s} in
lemma only_erase {x : String} {k : Slot} (w : World B C) :
    s.OnlySlot w (w.setStore s.bucket ((w.store s.bucket).erase (k.key x))) k x :=
  fun _ _ h => s.slot_erase_ne w h

/-- **What one step of a client does to the objects of the queue.** -/
inductive Effect (t : Thread C) (v : BView B C) (w' : World B C) : Prop where
  | quiet (h : ∀ k x, s.slot w' k x = s.slot v.world k x)
  /-- A payload under a new id. -/
  | enqueue (x : String) (o : Object) (hacts : MainActs t v.world)
      (honly : s.OnlySlot v.world w' .payload x) (ho : s.slot w' .payload x = some o)
      (hnew : ¬ s.Known v x)
  /-- A claim: the lease record is created, or taken over after its deadline with the count raised
  by one. -/
  | claim (x : String) (o : Object) (hacts : MainActs t v.world)
      (hnone : (v.world.mem t.1).message = none)
      (honly : s.OnlySlot v.world w' .lease x) (ho : s.slot w' .lease x = some o)
      (hown : s.OwnedBy t.1 o) (hknown : s.Known v x)
      (hfirst : s.slot v.world .lease x = none → count o = 1)
      (hover : ∀ o₀, s.slot v.world .lease x = some o₀ →
        queueLeaseExpired o₀.metadata v.world.clock = true ∧ count o = count o₀ + 1)
      (hcap : 0 < s.maxReceives t.1 → count o ≤ s.maxReceives t.1)
  /-- The hold before a dead-letter move: a takeover that leaves the count at the limit. -/
  | hold (x : String) (o o₀ : Object) (hacts : MainActs t v.world)
      (hnone : (v.world.mem t.1).message = none)
      (honly : s.OnlySlot v.world w' .lease x) (ho : s.slot w' .lease x = some o)
      (hown : s.OwnedBy t.1 o) (hknown : s.Known v x) (ho₀ : s.slot v.world .lease x = some o₀)
      (hexp : queueLeaseExpired o₀.metadata v.world.clock = true) (hcount : count o = count o₀)
      (hmax : 0 < s.maxReceives t.1) (hcap : s.maxReceives t.1 ≤ count o₀)
  /-- A renew or a nack: while the payload is there, the record it replaces is its own, and the
  count stays. -/
  | rewrite (x : String) (o : Object) (m : Message) (hm : (v.world.mem t.1).message = some m)
      (hid : m.id = x) (honly : s.OnlySlot v.world w' .lease x) (ho : s.slot w' .lease x = some o)
      (hown : s.OwnedBy t.1 o)
      (hover : s.slot v.world .payload x ≠ none →
        ∃ o₀, s.slot v.world .lease x = some o₀ ∧ s.OwnedBy t.1 o₀ ∧ count o = count o₀)
      (hacts : MainActs t v.world ∨ (t.2 = .renewer ∧
        ∃ u, o.metadata.parseTime queueLeaseField = some u ∧ m.leaseUntil ≤ u))
      (hcount : count o = m.receives ∨
        ∃ o₀, s.slot v.world .lease x = some o₀ ∧ count o = count o₀)
  /-- The lease record is deleted: while the payload is there, only by an `Ack` of its owner. -/
  | release (x : String) (hacts : MainActs t v.world)
      (honly : s.OnlySlot v.world w' .lease x) (hnone : s.slot w' .lease x = none)
      (hown : s.slot v.world .payload x ≠ none → Acked v x ∧
        ∃ m o₀, (v.world.mem t.1).message = some m ∧ m.id = x ∧
          s.slot v.world .lease x = some o₀ ∧ s.OwnedBy t.1 o₀)
  /-- The payload is deleted: after an `Ack` that has deleted the lease, or once the dead record holds
  it. -/
  | remove (x : String) (o : Object) (hacts : MainActs t v.world)
      (honly : s.OnlySlot v.world w' .payload x) (ho : s.slot v.world .payload x = some o)
      (hnone : s.slot w' .payload x = none)
      (hdone : (Acked v x ∧ s.Released v x) ∨ s.DeadHolds v.world x o)
  /-- The dead record is written, with the payload of the id, by the client that took the lease over
  for it. -/
  | bury (x : String) (o d : Object) (n : ℕ) (hacts : MainActs t v.world)
      (hheld : s.HeldAt v x t.1 n)
      (honly : s.OnlySlot v.world w' .dead x) (hd : s.slot w' .dead x = some d)
      (ho : s.Committed v x o) (hbody : d.body = o.body)
      (hmd : d.metadata = o.metadata.set queueReceivesField (.int n))

variable {s} in
/-- An object that appears is written. -/
lemma step_write {bk : B → Backend} {flt : Faults} {E : Type}
    {env : E → World B C → Option (World B C)} {k : Slot} {x : String} {o : Object} {e : BEvent B C}
    {c c' : Config (bucketSig B) (World B C) (Thread C)} (henv : ClockOnly env)
    (hs : Step (bucketMachine bk flt s.start env) c e c')
    (ho : s.slot c'.view.world k x = some o) (hne : s.slot c.view.world k x ≠ some o) :
    ∃ t body md pre r, e = BEvent.called t (.write s.bucket (k.key x) body md pre) r ∧
      o.metadata = md ∧ (c.view.world.store s.bucket).Accepts (k.key x) pre := by
  cases hs with
  | @env a w he =>
      have hstore := (henv a _ w he).1
      exact absurd (by simpa only [slot, View.push_world, hstore] using ho) hne
  | @start t _ _ w _ he =>
      have hstore : w.store = c.view.world.store := start_store he
      exact absurd (by simpa only [slot, View.push_world, hstore] using ho) hne
  | @call t op _ ch r w _ he =>
      have he' : exec bk flt t op ch c.view.world = some (r, w) := he
      obtain ⟨body, md, pre, rfl, ⟨o', ho', -, hmd⟩, hacc⟩ | ⟨pre, -, hnone⟩ :=
        exec_get he' s.bucket (k.key x) fun heq => hne (heq.symm.trans ho)
      · obtain rfl := Option.some.inj (ho'.symm.trans ho)
        exact ⟨t, body, md, pre, r, rfl, hmd, hacc⟩
      · exact absurd (hnone.symm.trans ho) (by simp)

/-! ## The frame of a receive

What `getLease` and the loop over the candidates do is the same under any contract that respects the
handles. -/

section Receive

variable {s} {bk : B → Backend} {flt : Faults} {E : Type} {env : E → World B C → Option (World B C)}
  {K : Contract (bucketMachine bk flt s.start env)} {v : BView B C} {c : C} {x : String}

/-- A record read by the caller. -/
lemma safe_getLease {α : Type} {Q : α → BView B C → Prop}
    {k : Except Err (Metadata × Version) → BProg B α} (H : Handles K)
    (h : ∀ v', K.Rely (c, .main) v v' → K.inv v' → ∀ r e,
      ((∃ o, s.slot v'.world .lease x = some o ∧ r = .ok (o.metadata, o.version)) ∨
        r = .error .notFound ∨ r = .error .backend) →
      K.Safe (c, .main) Q (k r) (v'.push e v'.world)) :
    K.Safe (c, .main) Q ((s.queue c).getLease (Slot.lease.key x) >>= k) v := by
  refine safe_attributes fun v₁ hr₁ hi₁ r hr _ => H.steps_quiet hi₁ (active_main _) fun _ => ?_
  obtain ⟨o, ho, rfl⟩ | ⟨-, rfl⟩ | rfl := hr
  · exact h v₁ hr₁ hi₁ _ _ (.inl ⟨o, ho, rfl⟩)
  · exact h v₁ hr₁ hi₁ _ _ (.inr (.inl rfl))
  · exact h v₁ hr₁ hi₁ _ _ (.inr (.inr rfl))

/-- The candidates are ids that have had a payload. -/
lemma safe_tryCandidates
    (hclaim : ∀ {v x}, K.inv v → Mine (c, .main) v.world → s.Known v x →
      K.Safe (c, .main) (fun res v => res = .ok none → Mine (c, .main) v.world)
        ((s.queue c).tryClaim x (s.owner c)) v) :
    ∀ {keys : List String} {v : BView B C}, K.inv v → Mine (c, .main) v.world →
      (∀ key ∈ keys, ∀ id, cutPrefix key queueMsgPrefix = some id → s.Known v id) →
      K.Safe (c, .main) (fun _ _ => True) ((s.queue c).tryCandidates (s.owner c) keys) v
  | [], v, hi, hm, hknown => .ret fun _ _ _ => trivial
  | key :: keys, v, hi, hm, hknown => by
      have htail : ∀ key' ∈ keys, ∀ id, cutPrefix key' queueMsgPrefix = some id → s.Known v id :=
        fun key' hk => hknown key' (List.mem_cons_of_mem _ hk)
      unfold Queue.tryCandidates
      split
      · exact safe_tryCandidates hclaim hi hm htail
      · rename_i id hid
        split
        · exact safe_tryCandidates hclaim hi hm htail
        · -- what is known of the other candidates stays known while this one is tried
          refine Safe.bind (Q := fun res v' => (res = .ok none → Mine (c, .main) v'.world) ∧
            ∀ key' ∈ keys, ∀ id, cutPrefix key' queueMsgPrefix = some id → s.Known v' id) hi ?_ ?_
          · exact (hclaim hi hm (hknown key List.mem_cons_self id hid)).grow
              (fun hle h key' hk id hid => (h key' hk id hid).mono hle) htail
          · rintro res v₁ hi₁ ⟨hm₁, hknown₁⟩
            split
            · exact .ret fun _ _ _ => trivial
            · exact .ret fun _ _ _ => trivial
            · exact safe_tryCandidates hclaim hi₁ (hm₁ rfl) hknown₁

/-- **`TryReceive`**, around a `tryClaim` that is safe for every id that has had a payload. -/
lemma safe_tryReceive (H : Handles K) (hl : (bk s.bucket).ListsStored)
    (hclaim : ∀ {v x}, K.inv v → Mine (c, .main) v.world → s.Known v x →
      K.Safe (c, .main) (fun res v => res = .ok none → Mine (c, .main) v.world)
        ((s.queue c).tryClaim x (s.owner c)) v) (hm : Mine (c, .main) v.world) :
    K.Safe (c, .main) (fun _ _ => True) ((s.queue c).tryReceive (s.owner c)) v := by
  refine safe_listPage fun v₁ hr₁ hi₁ r hr _ => H.steps_quiet hi₁ (active_main _) fun _ => ?_
  have hm₁ := mine_rely H hr₁ hm
  obtain ⟨keys, next, hlist, rfl⟩ | rfl := hr
  · simp only
    split
    · exact .ret fun _ _ _ => trivial
    · refine safe_randIntN fun v₂ hr₂ hi₂ i _ _ => H.steps_quiet hi₂ (active_main _) fun hi₂' => ?_
      have hm₂ := mine_rely (v := v₁.push _ _) H hr₂ hm₁
      refine safe_tryCandidates hclaim hi₂' hm₂ ?_
      intro key hkey id hid
      obtain rfl := eq_append_of_cutPrefix hid
      obtain ⟨o, ho⟩ := Option.ne_none_iff_exists'.mp
        (hl _ _ _ _ _ _ hlist _ (List.mem_rotate.mp hkey))
      have hknown : s.Known v₁ id := ⟨o, committed_of_slot ho⟩
      exact ((hknown.mono (View.le_push _ _ _)).mono hr₂.le).mono (View.le_push _ _ _)
  · exact .ret fun _ _ _ => trivial

end Receive

end QueueSetup

end Blobster
