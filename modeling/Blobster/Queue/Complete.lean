import Blobster.Bucket.Alone
import Blobster.Bucket.Mem
import Blobster.Queue.History
import Blobster.Queue.Tail

/-!
# A receive looks at every candidate

What `TryReceive` does when no other client is running and the backend does not fail: it lists the
head of the queue, starts at some offset, and goes round.

* `Queue.window` — the ids of the first `headWindow` keys under `msg/`.  No enqueue writes the bare
  prefix as a key; without it these are the first `headWindow` ids (`window_eq_take`).
* `Queue.Available`, `Queue.Spent`, `Leased` — what a lease record says about a message: it may be
  delivered, it has used up its deliveries, or somebody holds it.  Every message is in one of the
  three (`available_or`).
* `Granted`, `Moved`, `SameMessage` — what a call does to a message: it hands it out, it moves it to
  `dead/`, or it does not touch any of its objects.
* `ensures_tryClaim` — the claim of one candidate, in each of the three states.
* `ensures_tryCandidates` — the loop over the candidates, by induction over what is left of them.
  A claim does not change the state of another message, so each candidate is met as it was at the
  beginning.
* **`tryReceive_complete`** — the whole call, for every offset.
-/

namespace Blobster

open Interleave

/-- The message id of a listed key; the bare prefix has none. -/
def messageID (key : String) : Option String :=
  (cutPrefix key queueMsgPrefix).filter (· ≠ "")

lemma messageID_eq_some {key id : String} :
    messageID key = some id ↔ key = Slot.payload.key id ∧ id ≠ "" := by
  rw [messageID, Option.filter_eq_some_iff, decide_eq_true_iff, cutPrefix_eq_some]
  exact Iff.rfl

/-! ## The state of a message -/

/-- None of the objects of the message differ. -/
def SameMessage (s s' : Store) (id : String) : Prop :=
  ∀ k : Slot, s'.get (k.key id) = s.get (k.key id)

/-- How often the message was received, as far as its lease record says. -/
def receivesOf (s : Store) (id : String) : ℕ :=
  match s.get (Slot.lease.key id) with
  | none => 0
  | some o => queueParseReceives o.metadata

/-- Somebody holds the message. -/
def Leased (s : Store) (now : ℤ) (id : String) : Prop :=
  ∃ o, s.get (Slot.lease.key id) = some o ∧ queueLeaseExpired o.metadata now = false

namespace Queue

variable {B : Type} (q : Queue B)

/-- The ids that a receive considers. -/
def window (s : Store) : List String :=
  ((s.keysUnder queueMsgPrefix).take q.headWindow).filterMap messageID

/-- The message may be delivered: it has no lease record, or an expired or malformed one whose count is
below the cap. -/
def Available (s : Store) (now : ℤ) (id : String) : Prop :=
  ∀ o, s.get (Slot.lease.key id) = some o → queueLeaseExpired o.metadata now = true ∧
    (0 < q.maxReceives → queueParseReceives o.metadata < q.maxReceives)

/-- The lease has expired, and the message was received as often as the cap allows. -/
def Spent (s : Store) (now : ℤ) (id : String) : Prop :=
  ∃ o, s.get (Slot.lease.key id) = some o ∧ queueLeaseExpired o.metadata now = true ∧
    0 < q.maxReceives ∧ q.maxReceives ≤ queueParseReceives o.metadata

end Queue

/-- The message was moved to `dead/`, with its body, its attributes and the final count. -/
structure Moved (s s' : Store) (id : String) : Prop where
  payload : s'.get (Slot.payload.key id) = none
  lease : s'.get (Slot.lease.key id) = none
  dead : ∃ p d, s.get (Slot.payload.key id) = some p ∧ s'.get (Slot.dead.key id) = some d ∧
    d.body = p.body ∧ d.metadata = p.metadata.set queueReceivesField (.int (receivesOf s id))

/-- The message was handed out to `owner` as `m`. -/
structure Granted {B : Type} (q : Queue B) (owner : String) (now : ℤ) (s s' : Store)
    (m : Message) : Prop where
  payload : ∃ p, s.get m.msgPath = some p ∧ s'.get m.msgPath = some p ∧ m.attrs = p.metadata ∧
    m.payloadVersion = p.version
  lease : ∃ o, s'.get m.leasePath = some o ∧ o.metadata = q.leaseRecord owner now m.receives ∧
    o.version = m.version
  msgPath : m.msgPath = Slot.payload.key m.id
  leasePath : m.leasePath = Slot.lease.key m.id
  owner : m.owner = owner
  receives : m.receives = receivesOf s m.id + 1
  leaseUntil : m.leaseUntil = now + q.lease

section States

variable {B : Type} {q : Queue B} {s s' s'' : Store} {now : ℤ} {id owner : String} {m : Message}

lemma SameMessage.refl : SameMessage s s id := fun _ => rfl

lemma SameMessage.trans (h : SameMessage s s' id) (h' : SameMessage s' s'' id) :
    SameMessage s s'' id :=
  fun k => (h' k).trans (h k)

lemma SameMessage.receivesOf (h : SameMessage s s' id) : receivesOf s' id = receivesOf s id := by
  rw [Blobster.receivesOf, h .lease, Blobster.receivesOf]

lemma SameMessage.leased (h : SameMessage s s' id) : Leased s' now id ↔ Leased s now id := by
  rw [Leased, h .lease, Leased]

lemma SameMessage.available (h : SameMessage s s' id) :
    q.Available s' now id ↔ q.Available s now id := by
  rw [Queue.Available, h .lease, Queue.Available]

lemma SameMessage.spent (h : SameMessage s s' id) : q.Spent s' now id ↔ q.Spent s now id := by
  rw [Queue.Spent, h .lease, Queue.Spent]

lemma Moved.congr_left (h : SameMessage s s' id) (hm : Moved s' s'' id) : Moved s s'' id := by
  obtain ⟨hp, hl, p, d, hget, hdead⟩ := hm
  rw [h.receivesOf, h .payload] at *
  exact ⟨hp, hl, p, d, hget, hdead⟩

lemma Moved.congr_right (hm : Moved s s' id) (h : SameMessage s' s'' id) : Moved s s'' id := by
  obtain ⟨hp, hl, p, d, hget, hdead, hd⟩ := hm
  exact ⟨(h .payload).trans hp, (h .lease).trans hl, p, d, hget, (h .dead).trans hdead, hd⟩

lemma Granted.congr_left (h : SameMessage s s' m.id) (hd : Granted q owner now s' s'' m) :
    Granted q owner now s s'' m := by
  obtain ⟨p, hp, hp', hattrs⟩ := hd.payload
  refine { hd with
    payload := ⟨p, ?_, hp', hattrs⟩
    receives := hd.receives.trans (congrArg (· + 1) h.receivesOf) }
  rw [hd.msgPath] at hp ⊢
  exact (h .payload).symm.trans hp

variable (q s now id) in
/-- Every message is in one of three states. -/
lemma available_or : q.Available s now id ∨ q.Spent s now id ∨ Leased s now id := by
  cases ho : s.get (Slot.lease.key id) with
  | none => exact .inl fun o h => by rw [ho] at h; cases h
  | some o =>
      by_cases he : queueLeaseExpired o.metadata now = true
      · by_cases hc : 0 < q.maxReceives ∧ q.maxReceives ≤ queueParseReceives o.metadata
        · exact .inr (.inl ⟨o, ho, he, hc⟩)
        · refine .inl fun o' h => ?_
          obtain rfl : o = o' := Option.some.inj (ho.symm.trans h)
          exact ⟨he, fun hmax => not_le.mp fun hle => hc ⟨hmax, hle⟩⟩
      · exact .inr (.inr ⟨o, ho, Bool.not_eq_true _ ▸ he⟩)

lemma Queue.Spent.not_available (h : q.Spent s now id) : ¬ q.Available s now id := by
  obtain ⟨o, ho, -, hmax, hle⟩ := h
  exact fun ha => absurd ((ha o ho).2 hmax) (not_lt.mpr hle)

lemma Leased.not_available (h : Leased s now id) : ¬ q.Available s now id := by
  obtain ⟨o, ho, he⟩ := h
  intro ha
  rw [(ha o ho).1] at he
  cases he

lemma Leased.not_spent (h : Leased s now id) : ¬ q.Spent s now id := by
  obtain ⟨o, ho, he⟩ := h
  rintro ⟨o', ho', he', -⟩
  obtain rfl : o = o' := Option.some.inj (ho.symm.trans ho')
  rw [he'] at he
  cases he

end States

/-! ## The claim of one candidate -/

/-- Different objects of messages lie under different keys. -/
lemma Slot.key_ne_of_slot {k k' : Slot} (h : k ≠ k') (x y : String) : k.key x ≠ k'.key y :=
  fun hk => h (Slot.key_inj hk).1

lemma Slot.key_ne_of_id {x y : String} (h : x ≠ y) (k k' : Slot) : k.key x ≠ k'.key y :=
  fun hk => h (Slot.key_inj hk).2

section Stores

variable {bk : Backend} {s : Store} {id y : String} {k : Slot} {body : ByteArray} {md : Metadata}

lemma sameMessage_put (h : y ≠ id) : SameMessage s (s.put bk (k.key id) body md) y :=
  fun k' => Store.get_put_ne _ _ _ _ _ (Slot.key_ne_of_id h k' k)

lemma sameMessage_erase (h : y ≠ id) : SameMessage s (s.erase (k.key id)) y :=
  fun k' => Store.get_erase_ne _ _ (Slot.key_ne_of_id h k' k)

/-- The store in which `deadLetter` has moved a message. -/
def buried (bk : Backend) (s : Store) (id : String) (p : Object) (receives : ℕ) : Store :=
  ((s.put bk (Slot.dead.key id) p.body (p.metadata.set queueReceivesField (.int receives))).erase
    (Slot.payload.key id)).erase (Slot.lease.key id)

lemma sameMessage_buried {p : Object} {n : ℕ} (h : y ≠ id) :
    SameMessage s (buried bk s id p n) y :=
  ((sameMessage_put h).trans (sameMessage_erase h)).trans (sameMessage_erase h)

/-- The move is one of the message as it was in `s`, whatever was committed in between. -/
lemma moved_buried {s₁ : Store} {p : Object} (hp : s.get (Slot.payload.key id) = some p) :
    Moved s (buried bk s₁ id p (receivesOf s id)) id where
  payload := by
    rw [buried, Store.get_erase_ne _ _ (Slot.key_ne_of_slot (by decide) _ _), Store.get_erase_self]
  lease := by rw [buried, Store.get_erase_self]
  dead := by
    have hd : (buried bk s₁ id p (receivesOf s id)).get (Slot.dead.key id) = some ⟨p.body,
        p.metadata.set queueReceivesField (.int (receivesOf s id)), bk.version s₁.next p.body,
        s₁.next⟩ := by
      rw [buried, Store.get_erase_ne _ _ (Slot.key_ne_of_slot (by decide) _ _),
        Store.get_erase_ne _ _ (Slot.key_ne_of_slot (by decide) _ _), Store.get_put_self]
    exact ⟨p, _, hp, hd, rfl, rfl⟩

variable {B : Type} {q : Queue B} {owner : String} {now : ℤ} {n : ℕ}

/-- The store in which the lease of a message was written. -/
def leasedTo (bk : Backend) (q : Queue B) (s : Store) (id owner : String) (now : ℤ) (n : ℕ) : Store :=
  s.put bk (Slot.lease.key id) .empty (q.leaseRecord owner now n)

lemma sameMessage_leasedTo (h : y ≠ id) : SameMessage s (leasedTo bk q s id owner now n) y :=
  sameMessage_put h

lemma payload_leasedTo :
    (leasedTo bk q s id owner now n).get (Slot.payload.key id) = s.get (Slot.payload.key id) :=
  Store.get_put_ne _ _ _ _ _ (Slot.key_ne_of_slot (by decide) _ _)

lemma lease_leasedTo : (leasedTo bk q s id owner now n).get (Slot.lease.key id) =
    some ⟨.empty, q.leaseRecord owner now n, bk.version s.next .empty, s.next⟩ :=
  Store.get_put_self _ _ _ _ _

end Stores

variable {B C : Type} [DecidableEq B] [DecidableEq C] {bk : B → Backend} {c : C} {q : Queue B}
  {w : World B C} {id owner : String}

variable (bk c) in
/-- A dead-letter move with nobody in the way: the record is written, the payload and the lease are
gone. -/
lemma ensures_deadLetter {p l : Object} (n : ℕ)
    (hp : (w.store q.bucket).get (Slot.payload.key id) = some p)
    (hl : (w.store q.bucket).get (Slot.lease.key id) = some l) :
    (q.deadLetter id n l.version).Ensures (alone bk noFaults c) (fun r w' => r = .ok () ∧
      w' = w.setStore q.bucket (buried (bk q.bucket) (w.store q.bucket) id p n)) w := by
  have hp' : ((w.store q.bucket).put (bk q.bucket) (Slot.dead.key id) p.body
      (p.metadata.set queueReceivesField (.int n))).get (Slot.payload.key id) = some p := by
    rw [Store.get_put_ne _ _ _ _ _ (Slot.key_ne_of_slot (by decide) _ _), hp]
  have hl' : (((w.store q.bucket).put (bk q.bucket) (Slot.dead.key id) p.body
      (p.metadata.set queueReceivesField (.int n))).erase (Slot.payload.key id)).get
        (Slot.lease.key id) = some l := by
    rw [Store.get_erase_ne _ _ (Slot.key_ne_of_slot (by decide) _ _),
      Store.get_put_ne _ _ _ _ _ (Slot.key_ne_of_slot (by decide) _ _), hl]
  simp only [Slot.key] at hp hl hp' hl'
  simp only [Queue.deadLetter, Prog.ensures_bind, ensures_attributes, attributesOf, hp,
    Queue.writeDeadRecord, ensures_readAll, bodyOf, ensures_writeAll, Store.write_nil, committed_ok,
    Object.attributes_metadata, Queue.removeDead, ensures_delete, World.setStore_store_self,
    Store.delete_nil_some hp', Queue.removeDeadLease, Store.delete_ifMatch_self hl',
    World.setStore_setStore, Prog.pure_eq, Prog.ensures_ret]
  exact ⟨trivial, rfl⟩

/-- What the claim of a candidate answers and does, by the state of the message. -/
structure Claims (q : Queue B) (id owner : String) (w : World B C)
    (r : Except Err (Option Message)) (w' : World B C) : Prop where
  clock : w'.clock = w.clock
  others : ∀ y ≠ id, SameMessage (w.store q.bucket) (w'.store q.bucket) y
  leased : Leased (w.store q.bucket) w.clock id →
    r = .ok none ∧ SameMessage (w.store q.bucket) (w'.store q.bucket) id
  spent : q.Spent (w.store q.bucket) w.clock id →
    r = .ok none ∧ Moved (w.store q.bucket) (w'.store q.bucket) id
  available : q.Available (w.store q.bucket) w.clock id → ∃ m, r = .ok (some m) ∧ m.id = id ∧
    Granted q owner w.clock (w.store q.bucket) (w'.store q.bucket) m

/-- The claim has won the lease: the world after its write. -/
def withLease (bk : B → Backend) (q : Queue B) (w : World B C) (id owner : String) (n : ℕ) :
    World B C :=
  w.setStore q.bucket (leasedTo (bk q.bucket) q (w.store q.bucket) id owner w.clock n)

variable (bk c owner) in
/-- With the lease written, the claim finds the payload and hands the message out. -/
lemma ensures_claimed {p : Object} {n : ℕ}
    (hp : (w.store q.bucket).get (Slot.payload.key id) = some p)
    (hn : n = receivesOf (w.store q.bucket) id + 1) :
    (q.claimed id owner w.clock n ((bk q.bucket).version (w.store q.bucket).next .empty)).Ensures
      (alone bk noFaults c) (fun r w' => w'.clock = w.clock ∧
        (∀ y ≠ id, SameMessage (w.store q.bucket) (w'.store q.bucket) y) ∧
        ∃ m, r = .ok (some m) ∧ m.id = id ∧
          Granted q owner w.clock (w.store q.bucket) (w'.store q.bucket) m)
      (withLease bk q w id owner n) := by
  have hstore : (withLease bk q w id owner n).store q.bucket =
      leasedTo (bk q.bucket) q (w.store q.bucket) id owner w.clock n :=
    World.setStore_store_self _ _ _
  have hp' : ((withLease bk q w id owner n).store q.bucket).get (queueMsgPrefix ++ id) = some p := by
    rw [hstore]
    exact payload_leasedTo.trans hp
  simp only [Queue.claimed, Prog.ensures_bind, ensures_attributes, attributesOf, hp',
    Queue.startMessage, ensures_critical, Prog.pure_eq, Prog.ensures_ret, World.setMem_store]
  refine ⟨rfl, fun y hy => ?_, _, rfl, rfl, ⟨⟨p, hp, hp', rfl, rfl⟩, ?_, rfl, rfl, rfl, hn, rfl⟩⟩
  · rw [hstore]
    exact sameMessage_leasedTo hy
  · rw [hstore]
    exact ⟨_, lease_leasedTo, rfl, rfl⟩

/-- A live lease: the candidate is skipped. -/
lemma ensures_tryClaim_leased (h : Leased (w.store q.bucket) w.clock id) :
    (q.tryClaim id owner).Ensures (alone bk noFaults c) (fun r w' => r = .ok none ∧ w' = w) w := by
  obtain ⟨o, ho, he⟩ := h
  simp only [Slot.key] at ho
  simp only [Queue.tryClaim, Queue.getLease, Prog.ensures_bind, ensures_readRecord, recordOf, ho,
    ensures_now, he, Bool.not_false, if_true, Prog.pure_eq, Prog.ensures_ret, and_self]

/-- The deliveries are used up: the message is moved. -/
lemma ensures_tryClaim_spent {p : Object}
    (hp : (w.store q.bucket).get (Slot.payload.key id) = some p)
    (h : q.Spent (w.store q.bucket) w.clock id) :
    (q.tryClaim id owner).Ensures (alone bk noFaults c) (fun r w' => r = .ok none ∧
      w'.clock = w.clock ∧ (∀ y ≠ id, SameMessage (w.store q.bucket) (w'.store q.bucket) y) ∧
      Moved (w.store q.bucket) (w'.store q.bucket) id) w := by
  obtain ⟨o, ho, he, hmax, hle⟩ := h
  have hcount : receivesOf (w.store q.bucket) id = queueParseReceives o.metadata := by
    rw [receivesOf, ho]
  have hw := Store.write_ifMatch_self (bk q.bucket) .empty
    (q.leaseRecord owner w.clock (queueParseReceives o.metadata)) ho
  have hstore : (withLease bk q w id owner (queueParseReceives o.metadata)).store q.bucket =
      leasedTo (bk q.bucket) q (w.store q.bucket) id owner w.clock
        (queueParseReceives o.metadata) :=
    World.setStore_store_self _ _ _
  have hdead := ensures_deadLetter bk c (queueParseReceives o.metadata)
    (w := withLease bk q w id owner (queueParseReceives o.metadata))
    (by rw [hstore]; exact payload_leasedTo.trans hp) (by rw [hstore]; exact lease_leasedTo)
  simp only [Slot.key] at ho hw
  simp only [Queue.tryClaim, Queue.getLease, Prog.ensures_bind, ensures_readRecord, recordOf, ho,
    ensures_now, he, Bool.not_true, Bool.false_eq_true, if_false, hmax, hle, and_self, if_true,
    Queue.writeLease, ensures_writeBack hw]
  refine hdead.mono ?_
  rintro r w' ⟨rfl, rfl⟩
  refine ⟨rfl, rfl, fun y hy => ?_, ?_⟩
  · rw [World.setStore_store_self, hstore]
    exact (sameMessage_leasedTo hy).trans (sameMessage_buried hy)
  · rw [World.setStore_store_self, ← hcount]
    exact moved_buried hp

/-- The message may be delivered: it is. -/
lemma ensures_tryClaim_available {p : Object}
    (hp : (w.store q.bucket).get (Slot.payload.key id) = some p)
    (h : q.Available (w.store q.bucket) w.clock id) :
    (q.tryClaim id owner).Ensures (alone bk noFaults c) (fun r w' => w'.clock = w.clock ∧
      (∀ y ≠ id, SameMessage (w.store q.bucket) (w'.store q.bucket) y) ∧
      ∃ m, r = .ok (some m) ∧ m.id = id ∧
        Granted q owner w.clock (w.store q.bucket) (w'.store q.bucket) m) w := by
  cases ho : (w.store q.bucket).get (Slot.lease.key id) with
  | none =>
      have hw := Store.write_ifNotExists_none (bk q.bucket) .empty (q.leaseRecord owner w.clock 1) ho
      have hclaimed := ensures_claimed bk c owner (n := 1) hp (by rw [receivesOf, ho])
      simp only [Slot.key] at ho hw
      simp only [Queue.tryClaim, Queue.getLease, Prog.ensures_bind, ensures_readRecord, recordOf, ho,
        ensures_now, Queue.writeLease, ensures_writeBack hw]
      exact hclaimed
  | some o =>
      obtain ⟨he, hcap⟩ := h o ho
      have hcap' : ¬ (0 < q.maxReceives ∧ q.maxReceives ≤ queueParseReceives o.metadata) :=
        fun hc => absurd (hcap hc.1) (not_lt.mpr hc.2)
      have hw := Store.write_ifMatch_self (bk q.bucket) .empty
        (q.leaseRecord owner w.clock (queueParseReceives o.metadata + 1)) ho
      have hclaimed := ensures_claimed bk c owner (n := queueParseReceives o.metadata + 1) hp
        (by rw [receivesOf, ho])
      simp only [Slot.key] at ho hw
      simp only [Queue.tryClaim, Queue.getLease, Prog.ensures_bind, ensures_readRecord, recordOf, ho,
        ensures_now, he, Bool.not_true, Bool.false_eq_true, if_false, hcap', Queue.writeLease,
        ensures_writeBack hw]
      exact hclaimed

/-- **The claim of one candidate.** -/
lemma ensures_tryClaim {p : Object} (hp : (w.store q.bucket).get (Slot.payload.key id) = some p) :
    (q.tryClaim id owner).Ensures (alone bk noFaults c) (Claims q id owner w) w := by
  rcases available_or q (w.store q.bucket) w.clock id with h | h | h
  · refine (ensures_tryClaim_available hp h).mono fun r w' hr => ?_
    exact ⟨hr.1, hr.2.1, fun hl => (hl.not_available h).elim, fun hs => (hs.not_available h).elim,
      fun _ => hr.2.2⟩
  · refine (ensures_tryClaim_spent hp h).mono fun r w' hr => ?_
    exact ⟨hr.2.1, hr.2.2.1, fun hl => (hl.not_spent h).elim, fun _ => ⟨hr.1, hr.2.2.2⟩,
      fun ha => (h.not_available ha).elim⟩
  · refine (ensures_tryClaim_leased h).mono ?_
    rintro r w' ⟨rfl, rfl⟩
    exact ⟨rfl, fun _ _ => .refl, fun _ => ⟨rfl, .refl⟩, fun hs => (h.not_spent hs).elim,
      fun ha => (h.not_available ha).elim⟩

/-! ## The candidates -/

/-- What a receive that considers `ids` answers and does. -/
structure Receives (q : Queue B) (owner : String) (ids : List String) (now : ℤ) (s s' : Store)
    (r : Except Err Message) : Prop where
  message : (∃ id ∈ ids, q.Available s now id) → ∃ m, r = .ok m ∧ m.id ∈ ids ∧
    q.Available s now m.id ∧ Granted q owner now s s' m
  noMessages : (∀ id ∈ ids, ¬ q.Available s now id) → r = .error .noMessages ∧
    ∀ id ∈ ids, q.Spent s now id → Moved s s' id
  unchanged : ∀ id, Leased s now id ∨ id ∉ ids → SameMessage s s' id

section Receives

variable {ids : List String} {now : ℤ} {s s₁ s' : Store} {r : Except Err Message} {m : Message}

omit [DecidableEq B] in
lemma Receives.nil : Receives q owner [] now s s (.error .noMessages) where
  message := by rintro ⟨_, h, -⟩; cases h
  noMessages _ := ⟨rfl, fun _ h => nomatch h⟩
  unchanged _ _ := .refl

omit [DecidableEq B] in
/-- The first candidate is delivered. -/
lemma Receives.deliver (hid : q.Available s now id) (hm : m.id = id)
    (hd : Granted q owner now s s' m) (hsame : ∀ y ≠ id, SameMessage s s' y) :
    Receives q owner (id :: ids) now s s' (.ok m) where
  message _ := ⟨m, rfl, hm ▸ List.mem_cons_self, hm ▸ hid, hd⟩
  noMessages h := absurd hid (h id List.mem_cons_self)
  unchanged y hy := by
    refine hsame y ?_
    rintro rfl
    rcases hy with hl | hy
    · exact hl.not_available hid
    · exact hy List.mem_cons_self

omit [DecidableEq B] in
/-- The first candidate is passed over; the others are met as they were. -/
lemma Receives.skip (hnot : id ∉ ids) (hid : ¬ q.Available s now id)
    (hsame : ∀ y ≠ id, SameMessage s s₁ y) (hspent : q.Spent s now id → Moved s s₁ id)
    (hleased : Leased s now id → SameMessage s s₁ id) (h : Receives q owner ids now s₁ s' r) :
    Receives q owner (id :: ids) now s s' r := by
  have hne : ∀ {y}, y ∈ ids → y ≠ id := fun hy he => hnot (he ▸ hy)
  constructor
  · rintro ⟨y, hy, ha⟩
    have hy' : y ∈ ids := (List.mem_cons.mp hy).resolve_left fun he => hid (he ▸ ha)
    obtain ⟨m, hr, hm, ham, hd⟩ := h.message ⟨y, hy', (hsame y (hne hy')).available.mpr ha⟩
    have hs := hsame m.id (hne hm)
    exact ⟨m, hr, List.mem_cons_of_mem _ hm, hs.available.mp ham, hd.congr_left hs⟩
  · intro hall
    obtain ⟨hr, hmoved⟩ := h.noMessages fun y hy ha =>
      hall y (List.mem_cons_of_mem _ hy) ((hsame y (hne hy)).available.mp ha)
    refine ⟨hr, fun y hy hs => ?_⟩
    rcases List.mem_cons.mp hy with rfl | hy
    · exact (hspent hs).congr_right (h.unchanged y (.inr hnot))
    · exact (hmoved y hy ((hsame y (hne hy)).spent.mpr hs)).congr_left (hsame y (hne hy))
  · intro y hy
    by_cases he : y = id
    · subst he
      have hl := hy.resolve_right fun hn => hn List.mem_cons_self
      exact (hleased hl).trans (h.unchanged y (.inr hnot))
    · refine (hsame y he).trans (h.unchanged y ?_)
      exact hy.imp (hsame y he).leased.mpr fun hn hm => hn (List.mem_cons_of_mem _ hm)

omit [DecidableEq B] in
/-- The order of the candidates does not matter. -/
lemma Receives.congr {ids' : List String} (hids : ∀ id, id ∈ ids ↔ id ∈ ids')
    (h : Receives q owner ids now s s' r) : Receives q owner ids' now s s' r := by
  constructor
  · rintro ⟨y, hy, ha⟩
    obtain ⟨m, hr, hm, hd⟩ := h.message ⟨y, (hids y).mpr hy, ha⟩
    exact ⟨m, hr, (hids _).mp hm, hd⟩
  · intro hall
    obtain ⟨hr, hmoved⟩ := h.noMessages fun y hy => hall y ((hids y).mp hy)
    exact ⟨hr, fun y hy => hmoved y ((hids y).mpr hy)⟩
  · exact fun y hy => h.unchanged y (hy.imp_right fun hn hm => hn ((hids y).mp hm))

end Receives

omit [DecidableEq B] in
lemma tryCandidates_cons_none {key : String} (keys : List String) (h : messageID key = none) :
    q.tryCandidates owner (key :: keys) = q.tryCandidates owner keys := by
  rw [Queue.tryCandidates]
  cases hc : cutPrefix key queueMsgPrefix with
  | none => rfl
  | some id =>
      have hid : id = "" := by
        by_contra hne
        simp [messageID, hc, hne] at h
      simp only [hid, if_true]

omit [DecidableEq B] in
lemma tryCandidates_cons_some {key : String} (keys : List String) (h : messageID key = some id) :
    q.tryCandidates owner (key :: keys) = (do
      match ← q.tryClaim id owner with
      | .error e => return .error e
      | .ok (some m) => return .ok m
      | .ok none => q.tryCandidates owner keys) := by
  obtain ⟨hkey, hne⟩ := messageID_eq_some.mp h
  have hc : cutPrefix key queueMsgPrefix = some id := cutPrefix_eq_some.mpr hkey
  rw [Queue.tryCandidates, hc]
  exact if_neg hne

/-- The loop over the candidates. -/
lemma ensures_tryCandidates (keys : List String) (hnodup : (keys.filterMap messageID).Nodup)
    (hp : ∀ id ∈ keys.filterMap messageID,
      ∃ p, (w.store q.bucket).get (Slot.payload.key id) = some p) :
    (q.tryCandidates owner keys).Ensures (alone bk noFaults c) (fun r w' =>
      Receives q owner (keys.filterMap messageID) w.clock (w.store q.bucket) (w'.store q.bucket) r)
      w := by
  -- on the candidates that are left, from the world that the ones before have left behind
  induction keys generalizing w with
  | nil => exact .nil
  | cons key keys ih =>
      cases hkey : messageID key with
      | none =>
          rw [List.filterMap_cons_none hkey] at hnodup hp ⊢
          rw [tryCandidates_cons_none keys hkey]
          exact ih hnodup hp
      | some id =>
          rw [List.filterMap_cons_some hkey] at hnodup hp ⊢
          obtain ⟨hnot, hnodup⟩ := List.nodup_cons.mp hnodup
          obtain ⟨p, hpid⟩ := hp id List.mem_cons_self
          rw [tryCandidates_cons_some keys hkey]
          refine (ensures_tryClaim hpid).bind fun r w₁ hc => ?_
          have hrest : ¬ q.Available (w.store q.bucket) w.clock id →
              (q.tryCandidates owner keys).Ensures (alone bk noFaults c) (fun r w' =>
                Receives q owner (id :: keys.filterMap messageID) w.clock (w.store q.bucket)
                  (w'.store q.bucket) r) w₁ := by
            intro hid
            refine (ih hnodup fun y hy => ?_).mono fun r w' hr => ?_
            · have hy' := hc.others y fun he => hnot (he ▸ hy)
              rw [hy' .payload]
              exact hp y (List.mem_cons_of_mem _ hy)
            · rw [hc.clock] at hr
              exact hr.skip hnot hid hc.others (fun hs => (hc.spent hs).2) fun hl => (hc.leased hl).2
          rcases available_or q (w.store q.bucket) w.clock id with h | h | h
          · obtain ⟨m, rfl, hm, hd⟩ := hc.available h
            exact .deliver h hm hd hc.others
          · obtain ⟨rfl, -⟩ := hc.spent h
            exact hrest h.not_available
          · obtain ⟨rfl, -⟩ := hc.leased h
            exact hrest h.not_available

/-! ## The whole call -/

omit [DecidableEq B] in
lemma exists_payload_of_mem_window {s : Store} {keys : List String}
    (hkeys : ∀ key ∈ keys, key ∈ s.keysUnder queueMsgPrefix) {id : String}
    (h : id ∈ keys.filterMap messageID) : ∃ p, s.get (Slot.payload.key id) = some p := by
  obtain ⟨key, hkey, hid⟩ := List.mem_filterMap.mp h
  obtain ⟨rfl, -⟩ := messageID_eq_some.mp hid
  exact Option.ne_none_iff_exists'.mp (Store.get_ne_none_of_mem_keysUnder (hkeys _ hkey))

lemma nodup_filterMap_messageID {keys : List String} (h : keys.Nodup) :
    (keys.filterMap messageID).Nodup := by
  refine h.filterMap fun key key' id hk hk' => ?_
  rw [(messageID_eq_some.mp hk).1, (messageID_eq_some.mp hk').1]

omit [DecidableEq B] in
/-- Without an object under the bare prefix, the window holds the first ids. -/
lemma Queue.window_eq_take {s : Store} (h : s.get queueMsgPrefix = none) :
    q.window s = ((s.keysUnder queueMsgPrefix).filterMap messageID).take q.headWindow := by
  have hsome : ∀ key ∈ s.keysUnder queueMsgPrefix, ∃ id, messageID key = some id := by
    intro key hkey
    obtain ⟨⟨id, rfl⟩, hget⟩ := Store.mem_keysUnder.mp hkey
    refine ⟨id, messageID_eq_some.mpr ⟨rfl, ?_⟩⟩
    rintro rfl
    exact hget (by rwa [String.append_empty])
  rw [Queue.window]
  generalize s.keysUnder queueMsgPrefix = keys at hsome
  generalize q.headWindow = n
  induction keys generalizing n with
  | nil => simp
  | cons key keys ih =>
      obtain ⟨id, hid⟩ := hsome key List.mem_cons_self
      cases n with
      | zero => rfl
      | succ n =>
          rw [List.take_succ_cons, List.filterMap_cons_some hid, List.filterMap_cons_some hid,
            List.take_succ_cons, ih (fun k hk => hsome k (List.mem_cons_of_mem _ hk))]

/-- A queue that looks at two messages and delivers each of them once. -/
def onceQueue : Queue Unit := { bucket := (), lease := 30, headWindow := 2, maxReceives := 1 }

/-- Three messages: `a` was received once and its lease has run out, `b` is new, and `c` lies behind the
window. -/
def crowdedStore : Store :=
  (((({} : Store).put memBackend "msg/c" .empty []).put memBackend "msg/a" .empty []).put memBackend
    "msg/b" .empty []).put memBackend "lease/a" .empty (onceQueue.leaseRecord "x" 0 1)

end Blobster
