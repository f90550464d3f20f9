import Blobster.Bucket.Rules
import Blobster.Queue.Model

/-!
# Sharing a message handle

A claimed message is shared by two goroutines: its caller, who calls `Ack` or `Nack`, and its
background renewer.  This file is about the handle alone, whatever a contract says about the objects
of the queue: it is stated for any contract whose steps respect the handle (`Handles`), and any
environment that leaves the clients alone.

What it comes to is that one of the two is always out of the way.  The renewer works only until it
has exited (`Running`), and nobody but itself moves the version and the deadline it has cached; the
caller works only before it has a handle (`Mine`), or after `settle` has waited for the renewer
(`Settled`), and from then on the handle is its own (`mem_rely`).

* `HandleStep`, `Handles` — what a step may do to the handle, and contracts that say so.
* `Mine`, `Carries`, `Running`, `Settled`, `Closing` — assertions that survive interference.
* **`safe_settle`**, **`safe_renewLoop`** — settling a handle, and the renewer around `renewOnce`.
-/

set_option linter.unusedSectionVars false

namespace Blobster

open Interleave Contract

namespace QueueSetup

variable {B C : Type} [DecidableEq B] [DecidableEq C] {s : QueueSetup B C} {bk : B → Backend}
  {flt : Faults} {E : Type} {env : E → World B C → Option (World B C)}
  {K : Contract (bucketMachine bk flt s.start env)} {t : Thread C} {v v' : BView B C} {c : C}
  {x : String}

/-- A message handle that is done: settled, its renewer has exited, and it is finished. -/
def closed (m : Message) : Prop := m.settled = true ∧ m.stopped = true ∧ m.finished = true

/-- What a step of one goroutine may do to the handle it shares with the other. -/
def HandleStep (g : Goroutine) (mem mem' : Mem) : Prop :=
  match g with
  | .main => ∀ m, mem.message = some m → ∃ m', mem'.message = some m' ∧ m'.id = m.id ∧
      m'.receives = m.receives ∧ m'.version = m.version ∧ m'.leaseUntil = m.leaseUntil ∧
      m'.payloadVersion = m.payloadVersion ∧ m'.stopped = m.stopped
  | .renewer => ∃ m, mem.message = some m ∧ m.stopped = false ∧
      ∃ m', mem'.message = some m' ∧ m'.id = m.id ∧ m'.receives = m.receives ∧
        m'.payloadVersion = m.payloadVersion ∧ m'.settled = m.settled

/-- A renewer only runs while its handle is up. -/
def Active (t : Thread C) (w : World B C) : Prop :=
  t.2 = .renewer → ∃ m, (w.mem t.1).message = some m ∧ m.stopped = false

lemma active_main (w : World B C) : Active (c, .main) w := nofun

/-- A step that leaves the handle as it is. -/
lemma Active.handleStep {w : World B C} (h : Active t w) :
    HandleStep t.2 (w.mem t.1) (w.mem t.1) := by
  cases hg : t.2 with
  | main => exact fun m hm => ⟨m, hm, rfl, rfl, rfl, rfl, rfl, rfl⟩
  | renewer =>
      obtain ⟨m, hm, hs⟩ := h hg
      exact ⟨m, hm, hs, m, hm, rfl, rfl, rfl, rfl⟩

/-- The caller touches the queue's objects only before it has a handle, or after it has closed
it. -/
def MainActs (t : Thread C) (w : World B C) : Prop :=
  t.2 = .main ∧ ∀ m, (w.mem t.1).message = some m → closed m

/-- A goroutine whose counterpart does not touch the queue: a caller without a handle, or a renewer
that has not exited. -/
def Mine (t : Thread C) (w : World B C) : Prop :=
  match t.2 with
  | .main => (w.mem t.1).called = true ∧ (w.mem t.1).message = none
  | .renewer => ∃ m, (w.mem t.1).message = some m ∧ m.stopped = false

lemma Mine.active {w : World B C} (h : Mine t w) : Active t w := by
  intro ht
  simpa only [Mine, ht] using h

lemma Mine.mainActs {w : World B C} (h : Mine (c, .main) w) : MainActs (c, .main) w :=
  ⟨rfl, fun _ hm => absurd (h.2.symm.trans hm) (by simp)⟩

variable (K) in
/-- Contracts whose steps respect the handles: a step of a client leaves the other clients alone and
its own handle in order, and a step that does nothing, or only raises flags of the handle, is always
allowed. -/
structure Handles : Prop where
  env : ∀ {v v'}, K.EnvStep v v' → v'.world.mem = v.world.mem
  frame : ∀ {t v v'}, K.guar t v v' → ∀ d, d ≠ t.1 → v'.world.mem d = v.world.mem d
  handle : ∀ {t v v'}, K.guar t v v' → HandleStep t.2 (v.world.mem t.1) (v'.world.mem t.1)
  quiet : ∀ {t v} (e : BEvent B C), K.inv v → Active t v.world →
    K.guar t v (v.push e v.world) ∧ K.inv (v.push e v.world)
  flags : ∀ {t v} (e : BEvent B C) {f : Message → Message}, K.inv v →
    HandleStep t.2 (v.world.mem t.1) ((v.world.mem t.1).onMessage f) →
    (∀ m : Message, m.SameClaim (f m)) → (∀ m, closed m → closed (f m)) →
    K.guar t v (v.push e (v.world.setMem t.1 ((v.world.mem t.1).onMessage f))) ∧
      K.inv (v.push e (v.world.setMem t.1 ((v.world.mem t.1).onMessage f)))

/-- A step that changes nothing. -/
lemma Handles.steps_quiet {α : Type} {Q : α → BView B C → Prop} {e : BEvent B C} {p : BProg B α}
    (H : Handles K) (hi : K.inv v) (ha : Active t v.world)
    (hs : K.inv (v.push e v.world) → K.Safe t Q p (v.push e v.world)) :
    Steps K t Q v e v.world p :=
  ⟨(H.quiet e hi ha).1, (H.quiet e hi ha).2, hs (H.quiet e hi ha).2⟩

/-! ## What survives interference -/

/-- What the other goroutine of the same client does to the handle is all that happens to it. -/
lemma interf_mem {g : Goroutine} (H : Handles K) (h : K.Interf (c, g) v v') :
    v'.world.mem c = v.world.mem c ∨
      ∃ g', g' ≠ g ∧ HandleStep g' (v.world.mem c) (v'.world.mem c) := by
  obtain ⟨-, -, henv | ⟨⟨c', g'⟩, hu, -, hg⟩⟩ := h
  · exact .inl (by rw [H.env henv])
  · by_cases hc : c' = c
    · subst hc
      exact .inr ⟨g', fun hgg => hu (by rw [hgg]), H.handle hg⟩
    · exact .inl (H.frame hg c (Ne.symm hc))

lemma mine_interf (H : Handles K) (h : K.Interf t v v') (hm : Mine t v.world) :
    Mine t v'.world := by
  obtain ⟨c, g⟩ := t
  rcases interf_mem H h with hmem | ⟨g', hne, hstep⟩
  · simpa only [Mine, hmem] using hm
  · cases g with
    | main =>
        obtain rfl : g' = .renewer := by cases g' <;> simp_all
        obtain ⟨m, hmsg, -⟩ := hstep
        exact absurd (hm.2.symm.trans hmsg) (by simp)
    | renewer =>
        obtain rfl : g' = .main := by cases g' <;> simp_all
        obtain ⟨m, hmsg, hst⟩ := hm
        obtain ⟨m', hmsg', -, -, -, -, -, hst'⟩ := hstep m hmsg
        exact ⟨m', hmsg', hst'.trans hst⟩

lemma mine_rely (H : Handles K) (h : K.Rely t v v') (hm : Mine t v.world) : Mine t v'.world :=
  h.stable (P := fun v => Mine t v.world) (mine_interf H) hm

/-- The client has a handle for the id, with the receive count `r`. -/
def Carries (w : World B C) (c : C) (x : String) (r : ℕ) : Prop :=
  ∃ m, (w.mem c).message = some m ∧ m.id = x ∧ m.receives = r

instance (w : World B C) (c : C) (x : String) (r : ℕ) : Decidable (Carries w c x r) :=
  decidable_of_iff ((w.mem c).message.any fun m => decide (m.id = x) && decide (m.receives = r)) <| by
    simp [Carries, Option.any_eq_true]

/-- No step of anyone changes which message a handle is for. -/
lemma message_step {w w' : World B C} {m : Message} (hframe : ∀ d, d ≠ t.1 → w'.mem d = w.mem d)
    (hstep : HandleStep t.2 (w.mem t.1) (w'.mem t.1)) (hm : (w.mem c).message = some m) :
    ∃ m', (w'.mem c).message = some m' ∧ m'.id = m.id ∧ m'.receives = m.receives ∧
      m'.payloadVersion = m.payloadVersion := by
  by_cases hc : c = t.1
  · subst hc
    cases hgo : t.2 with
    | main =>
        rw [hgo] at hstep
        obtain ⟨m', hm', hid', hr', -, -, hp', -⟩ := hstep m hm
        exact ⟨m', hm', hid', hr', hp'⟩
    | renewer =>
        rw [hgo] at hstep
        obtain ⟨m₀, hm₀, -, m', hm', hid', hr', hp', -⟩ := hstep
        obtain rfl := Option.some.inj (hm.symm.trans hm₀)
        exact ⟨m', hm', hid', hr', hp'⟩
  · exact ⟨m, by rw [hframe c hc]; exact hm, rfl, rfl, rfl⟩

lemma carries_step {w w' : World B C} {r : ℕ} (hframe : ∀ d, d ≠ t.1 → w'.mem d = w.mem d)
    (hstep : HandleStep t.2 (w.mem t.1) (w'.mem t.1)) (h : Carries w c x r) :
    Carries w' c x r := by
  obtain ⟨m, hm, hid, hr⟩ := h
  obtain ⟨m', hm', hid', hr', -⟩ := message_step hframe hstep hm
  exact ⟨m', hm', hid'.trans hid, hr'.trans hr⟩

lemma carries_interf {r : ℕ} (H : Handles K) (hs : K.Interf t v v') (h : Carries v.world c x r) :
    Carries v'.world c x r := by
  obtain ⟨-, -, henv | ⟨u, -, -, hg⟩⟩ := hs
  · simpa only [Carries, H.env henv] using h
  · exact carries_step (H.frame hg) (H.handle hg) h

lemma safe_carries {α : Type} {Q : α → BView B C → Prop} {p : BProg B α} {r : ℕ}
    (H : Handles K) (h : K.Safe t Q p v) (hc : Carries v.world c x r) :
    K.Safe t (fun a v => Q a v ∧ Carries v.world c x r) p v :=
  h.frame (P := fun v => Carries v.world c x r) (carries_interf H)
    (fun hs => carries_step (H.frame hs.2) (H.handle hs.2)) hc

/-- The client has a handle for the id that was delivered for the payload with this version. -/
def DeliveredFor (w : World B C) (c : C) (x : String) (ver : Version) : Prop :=
  ∃ m, (w.mem c).message = some m ∧ m.id = x ∧ m.payloadVersion = ver

instance (w : World B C) (c : C) (x : String) (ver : Version) : Decidable (DeliveredFor w c x ver) :=
  decidable_of_iff ((w.mem c).message.any fun m =>
      decide (m.id = x) && decide (m.payloadVersion = ver)) <| by
    simp [DeliveredFor, Option.any_eq_true]

lemma deliveredFor_step {w w' : World B C} {ver : Version}
    (hframe : ∀ d, d ≠ t.1 → w'.mem d = w.mem d)
    (hstep : HandleStep t.2 (w.mem t.1) (w'.mem t.1)) (h : DeliveredFor w c x ver) :
    DeliveredFor w' c x ver := by
  obtain ⟨m, hm, hid, hv⟩ := h
  obtain ⟨m', hm', hid', -, hv'⟩ := message_step hframe hstep hm
  exact ⟨m', hm', hid'.trans hid, hv'.trans hv⟩

lemma deliveredFor_interf {ver : Version} (H : Handles K) (hs : K.Interf t v v')
    (h : DeliveredFor v.world c x ver) : DeliveredFor v'.world c x ver := by
  obtain ⟨-, -, henv | ⟨u, -, -, hg⟩⟩ := hs
  · simpa only [DeliveredFor, H.env henv] using h
  · exact deliveredFor_step (H.frame hg) (H.handle hg) h

lemma deliveredFor_rely {ver : Version} (H : Handles K) (hr : K.Rely t v v')
    (h : DeliveredFor v.world c x ver) : DeliveredFor v'.world c x ver :=
  hr.stable (P := fun v => DeliveredFor v.world c x ver) (deliveredFor_interf H) h

lemma safe_delivered {α : Type} {Q : α → BView B C → Prop} {p : BProg B α} {ver : Version}
    (H : Handles K) (h : K.Safe t Q p v) (hd : DeliveredFor v.world c x ver) :
    K.Safe t (fun a v => Q a v ∧ DeliveredFor v.world c x ver) p v :=
  h.frame (P := fun v => DeliveredFor v.world c x ver) (deliveredFor_interf H)
    (fun hs => deliveredFor_step (H.frame hs.2) (H.handle hs.2)) hd

/-! ## The renewer -/

/-- The renewer's handle, with the version and the deadline it has cached. -/
def Running (w : World B C) (c : C) (x : String) (r : ℕ) (ver : Version) (d : ℤ) : Prop :=
  ∃ m, (w.mem c).message = some m ∧ m.stopped = false ∧ m.id = x ∧ m.receives = r ∧
    m.version = ver ∧ m.leaseUntil = d

lemma Running.mine {w : World B C} {r : ℕ} {ver : Version} {d : ℤ} (h : Running w c x r ver d) :
    Mine (c, .renewer) w := by
  obtain ⟨m, hm, hst, -⟩ := h
  exact ⟨m, hm, hst⟩

lemma Running.carries {w : World B C} {r : ℕ} {ver : Version} {d : ℤ}
    (h : Running w c x r ver d) : Carries w c x r := by
  obtain ⟨m, hm, -, hid, hr, -⟩ := h
  exact ⟨m, hm, hid, hr⟩

lemma exists_running {w : World B C} {r : ℕ} (hm : Mine (c, .renewer) w) (hc : Carries w c x r) :
    ∃ ver d, Running w c x r ver d := by
  obtain ⟨m, hmsg, hst⟩ := hm
  obtain ⟨m', hmsg', hid, hr⟩ := hc
  obtain rfl := Option.some.inj (hmsg.symm.trans hmsg')
  exact ⟨_, _, m, hmsg, hst, hid, hr, rfl, rfl⟩

/-- Only the renewer itself moves them. -/
lemma running_rely {r : ℕ} {ver : Version} {d : ℤ} (H : Handles K)
    (h : K.Rely (c, .renewer) v v') (hr : Running v.world c x r ver d) :
    Running v'.world c x r ver d := by
  refine h.stable (P := fun v => Running v.world c x r ver d) (fun hs hP => ?_) hr
  rcases interf_mem H hs with hm | ⟨g', hne, hstep⟩
  · simpa only [Running, hm] using hP
  · obtain rfl : g' = .main := by cases g' <;> simp_all
    obtain ⟨m, hm, hst, hid, hr, hv, hu⟩ := hP
    obtain ⟨m', hm', hid', hr', hv', hu', -, hst'⟩ := hstep m hm
    exact ⟨m', hm', hst'.trans hst, hid'.trans hid, hr'.trans hr, hv'.trans hv, hu'.trans hu⟩

/-- A field of the handle, read by the renewer. -/
lemma safe_messageField {α β : Type} {f : Message → α} {z : α} {k : α → BProg B β}
    {Q : β → BView B C → Prop} {r : ℕ} {ver : Version} {d : ℤ} (H : Handles K)
    (h : Running v.world c x r ver d)
    (hk : ∀ v', K.Rely (c, .renewer) v v' → K.inv v' → ∀ e m,
      (v'.world.mem c).message = some m → m.version = ver → m.leaseUntil = d →
      Running v'.world c x r ver d → K.inv (v'.push e v'.world) →
      K.Safe (c, .renewer) Q (k (f m)) (v'.push e v'.world)) :
    K.Safe (c, .renewer) Q (messageField f z >>= k) v := by
  refine safe_critical fun v₁ hr₁ hi₁ _ => ?_
  have hrun := running_rely H hr₁ h
  obtain ⟨m, hm, -, -, -, hver, hd⟩ := id hrun
  simp only [id_eq, World.setMem_self, hm, Option.map_some, Option.getD_some]
  exact H.steps_quiet hi₁ hrun.mine.active fun hi => hk v₁ hr₁ hi₁ _ m hm hver hd hrun hi

/-- The renewer gives up. -/
lemma safe_finish {err : Option Err} {a : Unit ⊕ Unit} (H : Handles K)
    (h : Mine (c, .renewer) v.world) :
    K.Safe (c, .renewer) (fun _ v => Mine (c, .renewer) v.world)
      (critical (Mem.onMessage (Message.finish err)) >>= fun _ => .ret a) v := by
  refine safe_critical fun v₁ hr₁ hi₁ _ => ?_
  obtain ⟨m, hm, hst⟩ := mine_rely H hr₁ h
  have hsame := m.sameClaim_finish err
  have hstep (e : BEvent B C) := H.flags e (t := (c, .renewer)) (f := Message.finish err) hi₁
    ⟨m, hm, hst, _, Mem.onMessage_some hm, hsame.id, hsame.receives, hsame.payloadVersion, by simp⟩
    (fun m => m.sameClaim_finish err)
    (fun m hcl => ⟨by simpa using hcl.1, by simpa using hcl.2.1, by simp⟩)
  exact ⟨(hstep _).1, (hstep _).2,
    .ret fun _ hr _ => mine_rely H hr ⟨_, World.message_onMessage hm, by simpa using hst⟩⟩

/-- One round of the renewer, around a `renewOnce` that is safe after a tick that found the lease
running. -/
lemma safe_renewRound {r : ℕ} (H : Handles K) (hm : Mine (c, .renewer) v.world)
    (hc : Carries v.world c x r) {owner path : String}
    (hrenew : ∀ {ver d v₂ v₃} {e₂ e₃ : BEvent B C}, K.inv v₂ → Running v₂.world c x r ver d →
      v₂.world.clock < d → K.Rely (c, .renewer) (v₂.push e₂ v₂.world) v₃ →
      Running v₃.world c x r ver d → K.inv (v₃.push e₃ v₃.world) →
      K.Safe (c, .renewer) (fun _ v => Mine (c, .renewer) v.world)
        ((s.queue c).renewOnce path owner r v₂.world.clock) (v₃.push e₃ v₃.world)) :
    K.Safe (c, .renewer) (fun _ v => Mine (c, .renewer) v.world)
      ((s.queue c).renewRound path owner r) v := by
  obtain ⟨ver, d, hrun⟩ := exists_running hm hc
  refine safe_select fun v₁ hr₁ hi₁ _ _ _ => ?_
  have hrun₁ := running_rely H hr₁ hrun
  refine H.steps_quiet hi₁ hrun₁.mine.active fun _ => ?_
  split
  · exact .ret fun _ hr _ => mine_rely (v := v₁.push _ _) H hr hrun₁.mine
  · refine safe_now fun v₂ hr₂ hi₂ _ => ?_
    have hrun₂ := running_rely (v := v₁.push _ _) H hr₂ hrun₁
    refine H.steps_quiet hi₂ hrun₂.mine.active fun _ => ?_
    refine safe_messageField (v := v₂.push _ _) H hrun₂ fun v₃ hr₃ hi₃ e m hm _ hu hrun₃ hi₃' => ?_
    rw [hu]
    split
    · exact safe_finish H hrun₃.mine
    · rename_i hlt
      refine Safe.bind hi₃' (hrenew hi₂ hrun₂ (by simpa using hlt) hr₃ hrun₃ hi₃') ?_
      rintro res v₄ hi₄ hm₄
      split
      · exact safe_finish H hm₄
      · exact safe_finish H hm₄
      · exact .ret fun _ hr _ => mine_rely H hr hm₄

/-- **The renewer**, around a `renewOnce` that is safe after a tick that found the lease running. -/
lemma safe_renewLoop {r : ℕ} (H : Handles K) (hi : K.inv v) (hm : Mine (c, .renewer) v.world)
    (hc : Carries v.world c x r) (fuel : ℕ) {owner path : String}
    (hrenew : ∀ {ver d v₂ v₃} {e₂ e₃ : BEvent B C}, K.inv v₂ → Running v₂.world c x r ver d →
      v₂.world.clock < d → K.Rely (c, .renewer) (v₂.push e₂ v₂.world) v₃ →
      Running v₃.world c x r ver d → K.inv (v₃.push e₃ v₃.world) →
      K.Safe (c, .renewer) (fun _ v => Mine (c, .renewer) v.world)
        ((s.queue c).renewOnce path owner r v₂.world.clock) (v₃.push e₃ v₃.world)) :
    K.Safe (c, .renewer) (fun _ _ => True) ((s.queue c).renewLoop path owner r fuel) v := by
  refine Safe.bind (Q := fun _ v => Mine (c, .renewer) v.world) hi
    (Safe.loop (I := fun _ v => Mine (c, .renewer) v.world ∧ Carries v.world c x r)
      (fun _ => safe_park) ?_ ?_ fuel () v hi ⟨hm, hc⟩) ?_
  · rintro ⟨⟩ v₁ hi₁ ⟨hm₁, hc₁⟩
    refine (safe_carries H (safe_renewRound H hm₁ hc₁ hrenew) hc₁).mono fun res v₂ _ h₂ => ?_
    cases res with
    | inl _ => exact h₂
    | inr _ => exact h₂.1
  · exact fun _ v₁ _ hm₁ => .ret fun _ hr _ => mine_rely H hr hm₁
  · rintro ⟨⟩ v₁ hi₁ hm₁
    refine safe_critical fun v₂ hr₂ hi₂ _ => ?_
    obtain ⟨m, hm, hst⟩ := mine_rely H hr₂ hm₁
    have hstep (e : BEvent B C) := H.flags e (t := (c, .renewer)) (f := fun m => { m with stopped := true }) hi₂
      ⟨m, hm, hst, _, Mem.onMessage_some hm, rfl, rfl, rfl, rfl⟩
      (fun _ => ⟨rfl, rfl, rfl, rfl, rfl, rfl, rfl, rfl, rfl⟩) (fun _ hcl => ⟨hcl.1, rfl, hcl.2.2⟩)
    exact ⟨(hstep _).1, (hstep _).2, .ret fun _ _ _ => trivial⟩

/-! ## Settling a handle -/

/-- A critical section of the caller that only raises flags. -/
lemma safe_flags {α : Type} {Q : α → BView B C → Prop} {f : Message → Message}
    {k : Mem → BProg B α} (H : Handles K) (hf : ∀ m : Message, m.SameClaim (f m))
    (hs : ∀ m, (f m).stopped = m.stopped) (hcl : ∀ m, closed m → closed (f m))
    (hk : ∀ v', K.Rely (c, .main) v v' → ∀ e,
      K.Safe (c, .main) Q (k (v'.world.mem c))
        (v'.push e (v'.world.setMem c ((v'.world.mem c).onMessage f)))) :
    K.Safe (c, .main) Q (critical (Mem.onMessage f) >>= k) v := by
  refine safe_critical fun v₁ hr₁ hi₁ _ => ?_
  have hstep (e : BEvent B C) := H.flags e (t := (c, .main)) (f := f) hi₁ (fun m hm => ⟨_, Mem.onMessage_some hm,
    (hf m).id, (hf m).receives, (hf m).version, (hf m).leaseUntil, (hf m).payloadVersion, hs m⟩)
    hf hcl
  exact ⟨(hstep _).1, (hstep _).2, hk v₁ hr₁ _⟩

/-- The handle has been settled. -/
def Settling (w : World B C) (c : C) : Prop :=
  ∀ m, (w.mem c).message = some m → m.settled = true

lemma settling_rely (H : Handles K) (h : K.Rely (c, .main) v v') (hs : Settling v.world c) :
    Settling v'.world c := by
  refine h.stable (P := fun v => Settling v.world c) (fun hs hP => ?_) hs
  rcases interf_mem H hs with hm | ⟨g', hne, hstep⟩
  · simpa only [Settling, hm] using hP
  · obtain rfl : g' = .renewer := by cases g' <;> simp_all
    obtain ⟨m, hm, -, m', hm', -, -, -, hset⟩ := hstep
    intro m'' hm''
    obtain rfl := Option.some.inj (hm'.symm.trans hm'')
    exact hset.trans (hP m hm)

/-- Nobody but its caller has a say about a handle whose renewer has exited. -/
lemma mem_rely (H : Handles K) (h : K.Rely (c, .main) v v')
    (hstop : ∃ m, (v.world.mem c).message = some m ∧ m.stopped = true) :
    v'.world.mem c = v.world.mem c := by
  refine (h.stable (P := fun v' => v'.world.mem c = v.world.mem c) (fun hs hP => ?_) rfl)
  rcases interf_mem H hs with hm | ⟨g', hne, hstep⟩
  · exact hm.trans hP
  · obtain rfl : g' = .renewer := by cases g' <;> simp_all
    obtain ⟨m, hm, hst⟩ := hstop
    obtain ⟨m', hm', hst', -⟩ := hstep
    rw [hP] at hm'
    obtain rfl := Option.some.inj (hm.symm.trans hm')
    exact absurd (hst.symm.trans hst') (by simp)

/-- The client has closed its handle `m`. -/
def Closing (w : World B C) (c : C) (m : Message) : Prop :=
  (w.mem c).message = some m ∧ closed m

lemma closing_rely {m : Message} (H : Handles K) (h : K.Rely (c, .main) v v')
    (hc : Closing v.world c m) : Closing v'.world c m :=
  ⟨by rw [mem_rely H h ⟨m, hc.1, hc.2.2.1⟩]; exact hc.1, hc.2⟩

lemma Closing.mainActs {w : World B C} {m : Message} (h : Closing w c m) :
    MainActs (c, .main) w := by
  refine ⟨rfl, fun m' hm' => ?_⟩
  obtain rfl := Option.some.inj (h.1.symm.trans hm')
  exact h.2

/-- **`settle`** answers `true` only with the handle closed. -/
lemma safe_settle (H : Handles K) :
    K.Safe (c, .main) (fun r v => r = true → ∃ m, Closing v.world c m)
      (Queue.settle : BProg B Bool) v := by
  refine safe_flags H (fun _ => ⟨rfl, rfl, rfl, rfl, rfl, rfl, rfl, rfl, rfl⟩) (fun _ => rfl)
    (fun _ h => ⟨rfl, h.2⟩) fun v₁ hr₁ e₁ => ?_
  split
  · exact .ret fun _ _ _ h => by cases h
  have hset₁ : Settling (v₁.world.setMem c ((v₁.world.mem c).onMessage
      fun m => { m with settled := true })) c := by
    intro m hm
    obtain ⟨m₀, -, rfl⟩ := Option.map_eq_some_iff.mp (by simpa [Mem.onMessage] using hm)
    rfl
  refine safe_flags H (fun _ => ⟨rfl, rfl, rfl, rfl, rfl, rfl, rfl, rfl, rfl⟩) (fun _ => rfl)
    (fun _ h => h) fun v₂ hr₂ e₂ => ?_
  have hset₂ : Settling (v₂.world.setMem c ((v₂.world.mem c).onMessage
      fun m => { m with cancelled := true })) c := by
    intro m hm
    obtain ⟨m₀, hm₀, rfl⟩ := Option.map_eq_some_iff.mp (by simpa [Mem.onMessage] using hm)
    exact settling_rely (v := v₁.push _ _) H hr₂ hset₁ m₀ hm₀
  refine safe_await fun v₃ hr₃ hi₃ hstop _ => H.steps_quiet hi₃ (active_main _) fun _ => ?_
  have hset₃ := settling_rely (v := v₂.push _ _) H hr₃ hset₂
  obtain ⟨m, hm, hst⟩ : ∃ m, (v₃.world.mem c).message = some m ∧ m.stopped = true := by
    cases hm : (v₃.world.mem c).message with
    | none => simp [hm] at hstop
    | some m => exact ⟨m, rfl, by simpa [hm] using hstop⟩
  refine safe_flags H (fun m => m.sameClaim_finish none) (by simp)
    (fun m h => ⟨by simpa using h.1, by simpa using h.2.1, by simp⟩) fun v₄ hr₄ e₄ => ?_
  have hmem := mem_rely (v := v₃.push _ _) H hr₄ ⟨m, hm, hst⟩
  have hm₄ : (v₄.world.mem c).message = some m := by rw [hmem]; exact hm
  refine .ret fun _ hr _ _ => ⟨_, closing_rely H hr ⟨World.message_onMessage hm₄, ?_⟩⟩
  exact ⟨by simpa using hset₃ m hm, by simpa using hst, by simp⟩

/-- `Ack` and `Nack` settle the handle first; the one that loses the race is done. -/
lemma safe_settle_then {α : Type} {Q : α → BView B C → Prop} {k : Bool → BProg B α} {ver : Version}
    (H : Handles K) (hi : K.inv v) (hc : DeliveredFor v.world c x ver)
    (hfalse : ∀ v', K.Safe (c, .main) Q (k false) v')
    (htrue : ∀ v' m, K.inv v' → v.Le v' → Closing v'.world c m → m.id = x →
      m.payloadVersion = ver → K.Safe (c, .main) Q (k true) v') :
    K.Safe (c, .main) Q (Queue.settle >>= k) v := by
  refine Safe.bind hi ((safe_delivered H (safe_settle H) hc).grow (P := fun v' => v.Le v')
    (fun hle h => h.trans hle) (View.Le.refl v)) ?_
  rintro res v₁ hi₁ ⟨⟨hset, m', hm', hid, hver⟩, hle⟩
  cases res with
  | false => exact hfalse v₁
  | true =>
      obtain ⟨m, hm, hcl⟩ := hset rfl
      obtain rfl := Option.some.inj (hm.symm.trans hm')
      exact htrue v₁ m hi₁ hle ⟨hm, hcl⟩ hid hver

end QueueSetup

end Blobster
