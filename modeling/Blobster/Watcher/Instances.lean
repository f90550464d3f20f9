import Blobster.Bucket.Mem
import Blobster.Bucket.Rules
import Blobster.Locker.Footprints
import Blobster.Watcher.Model

/-!
# The instances of a watch

Several processes run a watcher of one name against one source: they share the lock and the cursor.
Next to them others work on the buckets.  What they may do is up to the property: a predicate on calls
that also the calls of the lock satisfy.

* `Bridge`, `Bridge.machine` — the instances, and the machine on which they run; `Bystanders` — the
  others.
* `Bridge.Steered` — what a contract has to say about the four steps of a round, `readCursor`, `Page`,
  the copies and `writeCursor`, and about the cursor that a round goes on with.
* **`Bridge.Steered.safe_run`** — then `Run` keeps the contract; **`Bridge.sound_of_steered`** — and so
  does the whole system.
* `copyOne` — the schedule by which one instance copies one message.
-/

set_option linter.unusedSectionVars false

namespace Blobster

open Interleave Contract

variable {B C : Type} [DecidableEq B] [DecidableEq C]

/-- The others run any programs whose calls all satisfy `P`. -/
structure Bystanders (P : Op B → Prop)
    (others : Thread C → Entry → World B C → Option (BProg B Unit × World B C)) : Prop where
  quiet : StartsQuietly others
  within : ∀ t e w p w', others t e w = some (p, w') → p.Within P

/-- The instances of one watch; every acquisition of the lock draws an owner. -/
structure Bridge (B C : Type) extends Watch B where
  owners : C → ℕ → String
  valid : validWatchName name = true

namespace Bridge

variable (s : Bridge B C)

/-- The entry points: `Run`, the renewer of the lock, and whatever the others do. -/
def start (others : Thread C → Entry → World B C → Option (BProg B Unit × World B C)) (t : Thread C)
    (e : Entry) (w : World B C) : Option (BProg B Unit × World B C) :=
  match t.2, e with
  | .main, .runAsHolder fuel => some (discard (s.run (s.owners t.1) fuel), w)
  | .renewer, .renewLock fuel =>
      (w.mem t.1).lock.bind fun lk =>
        if lk.stopped ∨ lk.path ≠ s.lockPath then none
        else some (s.locker.renewLoop lk.path lk.owner fuel, w)
  | _, _ => others t e w

/-- The machine, with a clock that moves forward. -/
def machine (bk : B → Backend) (flt : Faults)
    (others : Thread C → Entry → World B C → Option (BProg B Unit × World B C)) :
    Machine (bucketSig B) (World B C) (Thread C) :=
  bucketMachine bk flt (s.start others) fun (d : ℕ) w => some (w.advance d)

/-- The lock does not touch the cursor. -/
lemma lockCalls_spares : s.locker.LockCalls (Op.Spares s.bucket s.cursorPath) s.lockPath :=
  Locker.lockCalls_spares (s.lockPath_ne_cursorPath s.valid)

/-- What the bridge starts: a program of its own, or one within the calls of the others. -/
lemma start_cases {others : Thread C → Entry → World B C → Option (BProg B Unit × World B C)}
    {P : Op B → Prop} (hlock : s.locker.LockCalls P s.lockPath) (ho : Bystanders P others)
    {t : Thread C} {e : Entry} {w w' : World B C} {p : BProg B Unit}
    (h : s.start others t e w = some (p, w')) :
    (w'.store = w.store ∧ w'.clock = w.clock) ∧
      ((∃ fuel, p = discard (s.run (s.owners t.1) fuel)) ∨ p.Within P) := by
  dsimp only [start] at h
  split at h
  · obtain ⟨rfl, rfl⟩ := Prod.mk.inj (Option.some.inj h)
    exact ⟨⟨rfl, rfl⟩, .inl ⟨_, rfl⟩⟩
  · obtain ⟨lk, -, heq⟩ := Option.bind_eq_some_iff.mp h
    split at heq
    · cases heq
    · rename_i hlk
      obtain ⟨rfl, rfl⟩ := Prod.mk.inj (Option.some.inj heq)
      have hpath : lk.path = s.lockPath := not_not.mp (not_or.mp hlk).2
      refine ⟨⟨rfl, rfl⟩, .inr (Locker.within_renewLoop ?_ _ _)⟩
      rw [hpath]
      exact hlock
  · exact ⟨ho.quiet _ _ _ _ _ h, .inr (ho.within _ _ _ _ _ h)⟩

/-- The messages of a page are copied into the queue, not over the cursor. -/
lemma within_replicateAll (msgs : List String) :
    (s.replicateAll msgs).Within (Op.Spares s.bucket s.cursorPath) := by
  have hreplicate : ∀ x, (s.replicate x).Within (Op.Spares s.bucket s.cursorPath) := by
    intro x
    refine .call trivial fun r => ?_
    split
    · trivial
    · trivial
    refine .call trivial fun r => ?_
    split
    · trivial
    · trivial
    refine Prog.Within.bind ?_ fun r => by split <;> trivial
    unfold Queue.enqueueWithID
    split
    · trivial
    refine .call (fun h => s.msg_ne_cursorPath x h.2) fun r => ?_
    split <;> trivial
  induction msgs with
  | nil => trivial
  | cons m msgs ih =>
      refine (hreplicate m).bind fun r => ?_
      split
      · trivial
      · exact ih

/-! ## The holder of the lock, under a contract -/

variable {s} {bk : B → Backend} {flt : Faults}
  {others : Thread C → Entry → World B C → Option (BProg B Unit × World B C)}

/-- A program all of whose calls satisfy `P`, where a call that does keeps the contract. -/
lemma safe_of_calls {K : Contract (s.machine bk flt others)} {P : Op B → Prop} {t : Thread C}
    (hcalls : ∀ o, P o → ∀ v ch (r : o.Res) w, K.inv v →
      exec bk flt t o ch v.world = some (r, w) → K.adm v (BEvent.called t o r) →
      K.guar t v (v.push (BEvent.called t o r) w) ∧ K.inv (v.push (BEvent.called t o r) w))
    {α : Type} {p : BProg B α} {v : BView B C} (hp : p.Within P) :
    K.Safe t (fun _ _ => True) p v := by
  refine Safe.of_within (F := fun _ => True) (fun _ _ => trivial) ?_ hp trivial
  intro o ho v ch r w hi _ he ha
  obtain ⟨hguar, hinv⟩ := hcalls o ho v ch r w hi he ha
  exact ⟨hguar, hinv, trivial⟩

/-- What is kept, from round to round, of the cursor and the version that an instance has in hand, and
how it comes about: the page that was read, the copies that were made, the cursor that was written. -/
structure Steered (s : Bridge B C) (K : Contract (s.machine bk flt others)) (P : Op B → Prop)
    (t : Thread C) (Kept : String × Version → BView B C → Prop)
    (Paged Copied : String × Version → List String × String → BView B C → Prop) : Prop where
  interf : ∀ {c v v'}, K.Interf t v v' → Kept c v → Kept c v'
  own : ∀ {c v v'}, K.ThreadStep t v v' → Kept c v → Kept c v'
  lock : s.locker.LockCalls P s.lockPath
  calls : ∀ o, P o → ∀ v ch (r : o.Res) w, K.inv v →
    exec bk flt t o ch v.world = some (r, w) → K.adm v (BEvent.called t o r) →
    K.guar t v (v.push (BEvent.called t o r) w) ∧ K.inv (v.push (BEvent.called t o r) w)
  read : ∀ v, K.Safe t (fun r v => ∀ c, r = .ok c → Kept c v) s.readCursor v
  page : ∀ {c v} fuel, K.inv v → Kept c v → K.Safe t
    (fun r v => ∀ page, r = .ok page → Paged c page v) (s.tail.page c.1 watchPageSize fuel) v
  copy : ∀ {c page v}, K.inv v → Paged c page v → K.Safe t
    (fun r v => r = .ok () → Copied c page v) (s.replicateAll page.1) v
  move : ∀ {c page v}, K.inv v → Kept c v → Copied c page v → K.Safe t
    (fun r v => ∀ ver, r = .ok ver → Kept (page.2, ver) v) (s.writeCursor page.2 c.2) v

namespace Steered

variable {K : Contract (s.machine bk flt others)} {P : Op B → Prop} {t : Thread C}
  {Kept : String × Version → BView B C → Prop}
  {Paged Copied : String × Version → List String × String → BView B C → Prop} {v : BView B C}

/-- What is kept of the cursor that a round goes on with. -/
def Onward (Kept : String × Version → BView B C → Prop)
    (r : (String × Version) ⊕ Except Err Unit) (v : BView B C) : Prop :=
  ∀ c, r = .inl c → Kept c v

/-- A program within the calls of the others. -/
lemma safe_within (h : s.Steered K P t Kept Paged Copied) {α : Type} {p : BProg B α}
    (hp : p.Within P) : K.Safe t (fun _ _ => True) p v :=
  safe_of_calls h.calls hp

/-- A `select`. -/
lemma safe_select (h : s.Steered K P t Kept Paged Copied) {α : Type} {Q : α → BView B C → Prop}
    {c : String × Version} {ready : Mem → Bool} {k : Bool → BProg B α} (hi : K.inv v) (hc : Kept c v)
    (hk : ∀ b v₁, K.inv v₁ → Kept c v₁ → K.Safe t Q (k b) v₁) :
    K.Safe t Q (select ready >>= k) v := by
  have hsel : (select ready : BProg B Bool).Within P := ⟨h.lock.select _, fun _ => trivial⟩
  exact Safe.bind hi ((h.safe_within hsel).frame h.interf h.own hc) fun b v₁ hi₁ hc₁ =>
    hk b v₁ hi₁ hc₁.2

lemma safe_onward (h : s.Steered K P t Kept Paged Copied) {r : (String × Version) ⊕ Except Err Unit}
    (hr : Onward Kept r v) : K.Safe t (Onward Kept) (.ret r) v :=
  .ret fun _ hrely _ c hc => hrely.stable h.interf (hr c hc)

/-- **One round.** -/
lemma safe_holdRound (h : s.Steered K P t Kept Paged Copied) (fuel : ℕ) {c : String × Version}
    (hi : K.inv v) (hc : Kept c v) : K.Safe t (Onward Kept) (s.holdRound fuel c) v := by
  obtain ⟨cursor, version⟩ := c
  have hstop : ∀ {v : BView B C} (a : Except Err Unit), K.Safe t (Onward Kept) (.ret (.inr a)) v :=
    fun a => h.safe_onward fun c hc => by cases hc
  refine h.safe_select hi hc fun ctx v₁ hi₁ hc₁ => ?_
  split
  · exact hstop _
  refine h.safe_select hi₁ hc₁ fun lost v₂ hi₂ hc₂ => ?_
  split
  · exact hstop _
  refine Safe.bind hi₂ ((h.page fuel hi₂ hc₂).frame h.interf h.own hc₂) fun r v₃ hi₃ hr => ?_
  obtain ⟨hpage, hc₃⟩ := hr
  cases r with
  | error e => exact hstop _
  | ok page =>
      refine Safe.bind hi₃ ((h.copy hi₃ (hpage page rfl)).frame h.interf h.own hc₃) fun r v₄ hi₄ hr => ?_
      obtain ⟨hcopied, hc₄⟩ := hr
      cases r with
      | error e => exact hstop _
      | ok _ =>
          by_cases hidle : page.2 = cursor
          · dsimp only
            rw [if_pos hidle]
            refine h.safe_select hi₄ hc₄ fun ctx v₅ hi₅ hc₅ => ?_
            split
            · exact hstop _
            refine h.safe_select hi₅ hc₅ fun lost v₆ hi₆ hc₆ => ?_
            split
            · exact hstop _
            · refine h.safe_onward fun c hc => ?_
              cases hc
              exact hc₆
          · dsimp only
            rw [if_neg hidle]
            have hmove := h.move hi₄ hc₄ (hcopied rfl)
            refine Safe.bind hi₄ hmove fun r v₅ hi₅ hr => ?_
            split
            · exact hstop _
            · exact hstop _
            · refine h.safe_onward fun c hc => ?_
              cases hc
              exact hr _ rfl

/-- What the holder of the lock does. -/
lemma safe_hold (h : s.Steered K P t Kept Paged Copied) (fuel : ℕ) (hi : K.inv v) :
    K.Safe t (fun _ _ => True) (s.hold fuel) v := by
  refine Safe.bind hi (h.read v) fun r v₁ hi₁ hr => ?_
  cases r with
  | error e => exact .ret fun _ _ _ => trivial
  | ok c =>
      refine Safe.loop (I := Kept) (fun v => safe_park) ?_ (fun _ _ _ _ => .ret fun _ _ _ => trivial)
        fuel c v₁ hi₁ (hr c rfl)
      intro c v hi hc
      refine (h.safe_holdRound fuel hi hc).mono fun r v₂ _ hr => ?_
      cases r with
      | inl c' => exact hr c' rfl
      | inr a => trivial

/-- **An instance**, from acquiring the lock to giving it back. -/
lemma safe_runAsHolder (h : s.Steered K P t Kept Paged Copied) (owner : String) (fuel : ℕ)
    (hi : K.inv v) : K.Safe t (fun _ _ => True) (s.runAsHolder owner fuel) v := by
  have hpath : ∀ p, s.locker.path s.lockKey = .ok p → p = s.lockPath := by
    intro p hp
    unfold Locker.path at hp
    split_ifs at hp
    exact (Except.ok.inj hp).symm
  have hacquire : K.Safe t (fun r _ => False ∨ ∀ lk, r = .ok lk → lk.path = s.lockPath)
      (s.locker.Acquire s.lockKey owner fuel) v := by
    refine Safe.of_yields (A := Locker.anyAnswer) (F := fun _ => False) (fun _ => id) ?_
      (Locker.within_Acquire (fun p hp => hpath p hp ▸ h.lock) owner fuel)
      (.inr (Locker.yields_Acquire hpath _ _ _))
    intro o ho v ch r w hi he ha
    obtain ⟨hguar, hinv⟩ := h.calls o ho v ch r w hi he ha
    exact ⟨hguar, hinv, .inl trivial⟩
  refine Safe.bind hi hacquire fun r v₁ hi₁ hr => ?_
  cases r with
  | error e => exact .ret fun _ _ _ => trivial
  | ok lk =>
      have hlk := hr.resolve_left id lk rfl
      refine Safe.bind hi₁ (h.safe_hold fuel hi₁) fun r v₂ hi₂ _ => ?_
      refine Safe.bind hi₂ (h.safe_within (Locker.within_release (hlk ▸ h.lock) lk.owner)) ?_
      exact fun _ _ _ _ => .ret fun _ _ _ => trivial

/-- **`Run`.** -/
lemma safe_run (h : s.Steered K P t Kept Paged Copied) (owners : ℕ → String) (fuel : ℕ)
    (hi : K.inv v) : K.Safe t (fun _ _ => True) (s.run owners fuel) v := by
  refine Safe.loop (I := fun _ _ => True) (fun v => safe_park) (fun n v hi _ => ?_)
    (fun _ _ _ _ => .ret fun _ _ _ => trivial) fuel 0 v hi trivial
  refine Safe.bind hi (h.safe_runAsHolder (owners n) fuel hi) fun r v₁ _ _ => ?_
  cases r with
  | error e => exact .ret fun _ _ _ => trivial
  | ok _ => exact .ret fun _ _ _ => trivial

end Steered

/-- **A contract that steers every instance is sound**, if a step that leaves the stores as they are
keeps it. -/
lemma sound_of_steered {P : Op B → Prop} (ho : Bystanders P others)
    {K : Contract (s.machine bk flt others)} {w₀ : World B C}
    {Kept : String × Version → BView B C → Prop}
    {Paged Copied : String × Version → List String × String → BView B C → Prop}
    (h : ∀ t, s.Steered K P t Kept Paged Copied) (hidle : ∀ t v, K.idle t v)
    (h₀ : K.inv ⟨w₀, []⟩)
    (hinv : ∀ {v e w}, K.inv v → w.store = v.world.store → K.inv (v.push e w))
    (hguar : ∀ {t v e w}, K.inv v → w.store = v.world.store → v.world.clock ≤ w.clock →
      K.guar t v (v.push e w)) : K.Sound w₀ where
  init := ⟨h₀, fun t => hidle t _⟩
  env := by
    rintro v v' hi ⟨n, w, ⟨⟩, -, rfl⟩
    exact hinv hi rfl
  stable t _ v' _ _ := hidle t v'
  start := by
    intro t e v p w hi _ _ hs
    obtain ⟨⟨hstore, hclock⟩, hp⟩ := s.start_cases (h t).lock ho hs
    have hi' : K.inv (v.push (.start t e) w) := hinv hi hstore
    refine ⟨hguar hi hstore hclock.ge, hi', ?_⟩
    obtain ⟨fuel, rfl⟩ | hwithin := hp
    · refine Safe.discard hi' (fun _ _ => hidle t _) ?_
      exact ((h t).safe_run _ fuel hi').mono fun _ _ _ _ => hidle t _
    · exact ((h t).safe_within hwithin).mono fun _ _ _ _ => hidle t _

/-! ## A run -/

/-- No one else. -/
def noOthers (_ : Thread C) (_ : Entry) (_ : World B C) : Option (BProg B Unit × World B C) := none

lemma bystanders_noOthers (P : Op B → Prop) : Bystanders (C := C) P noOthers where
  quiet _ _ _ _ _ h := by cases h
  within _ _ _ _ _ h := by cases h

/-- One instance that copies from the one bucket to the other. -/
def oneInstance : Bridge Bool Unit where
  source := ⟨false, 30, 256, 0⟩
  localQueue := ⟨true, 30, 256, 0⟩
  lag := 5000000
  locker := ⟨true, ".blobster/locks/", 15000000000⟩
  name := "default"
  owners _ _ := "a"
  valid := validWatchName_default

/-- A message in the source, whose lag has passed. -/
def oneLogged : World Bool Unit where
  clock := 1000000000
  store b := if b then {} else ({} : Store).put memBackend "msg/0000000000010-a" .empty []
  mem _ := {}

/-- The instance acquires the lock, lists the message and reads its attributes. -/
def readOne {others : Thread Unit → Entry → World Bool Unit → Option (BProg Bool Unit × World Bool Unit)}
    (rest : List (Action (oneInstance.machine (fun _ => memBackend) ⟨true, true⟩ others))) :
    List (Action (oneInstance.machine (fun _ => memBackend) ⟨true, true⟩ others)) :=
  .start ((), .main) (.runAsHolder 1) :: .call ((), .main) .ok :: .call ((), .main) .ok ::
  .call ((), .main) .ok :: .call ((), .main) .ok :: .call ((), .main) .ok :: .call ((), .main) .ok ::
  .call ((), .main) (.branch false) :: .call ((), .main) (.branch false) :: .call ((), .main) .ok ::
  .call ((), .main) (.page ["msg/0000000000010-a"] .done) :: .call ((), .main) .ok :: rest

/-- It copies the message and moves the cursor. -/
def copyOne : List (Action (oneInstance.machine (fun _ => memBackend) ⟨true, true⟩ noOthers)) :=
  readOne [.call ((), .main) .ok, .call ((), .main) .ok, .call ((), .main) .ok]

end Bridge

end Blobster
