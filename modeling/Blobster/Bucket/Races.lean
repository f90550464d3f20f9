import Blobster.Bucket.Lease
import Blobster.Bucket.Rules

/-!
# Races and what they are reported as

`TryAcquire` and `TryReceive` are chains of reads and conditional writes.  Each of them can be answered
by "not found" or "precondition failed" because of what another client did in between, and the caller
should be told that the lock is held or that there is no message, not that the backend failed.

On a backend that never fails, an answer is decided by what is stored, and only one of them needs a
look at the history: whether the version token can be read back right after a create.  It cannot if
the record has been deleted meanwhile.

* `report` — the call of a client that keeps how it ended; `Benign` — how it may end.
* `Answer last o r` — what a call can answer after the thread's step `last`.
* `SparesCreated` — nobody deletes a record whose creator has not read it back.
* **`sound_of_starts`** — if every entry point that reports yields a benign result from such answers,
  every report of every run is benign.
-/

set_option linter.unusedSectionVars false

namespace Blobster

open Interleave Contract

/-- The caller of an entry point gets its result. -/
def report {B α : Type} (e : Entry) (p : BProg B (Except Err α)) : BProg B Unit := do
  let r ← p
  let _ ← critical fun mem => { mem with outcome := some (e, r.map fun _ => ()) }

variable {B C : Type} [DecidableEq B] [DecidableEq C]

/-! ## Benign results -/

/-- The context of the client's call was done. -/
def Cancelled (v : BView B C) (c : C) : Prop :=
  ∃ w ready w', (w, BEvent.called (c, .main) (.select ready) true, w') ∈ v.steps

/-- How an entry point may end on a backend that never fails: it gets what it asks for, or is told that
there is nothing to get; the blocking calls only give up with their context. -/
def Benign (v : BView B C) (c : C) : Entry → Except Err Unit → Prop
  | .tryAcquire, r => r = .ok () ∨ r = .error .lockHeld
  | .acquire _, r => Cancelled v c ∨ r = .ok ()
  | .tryReceive, r => r = .ok () ∨ r = .error .noMessages
  | .receive _, r => Cancelled v c ∨ r = .ok ()
  | _, _ => True

/-- Everyone who got a result got a benign one. -/
def NoFalseAlarm (v : BView B C) : Prop :=
  ∀ c e r, (v.world.mem c).outcome = some (e, r) → Benign v c e r

lemma Cancelled.mono {v v' : BView B C} {c : C} (hle : View.Le v v') (h : Cancelled v c) :
    Cancelled v' c := by
  obtain ⟨w, ready, w', hmem⟩ := h
  exact ⟨w, ready, w', hle.steps hmem⟩

lemma Benign.mono {v v' : BView B C} {c : C} {e : Entry} {r : Except Err Unit} (hle : View.Le v v')
    (h : Benign v c e r) : Benign v' c e r := by
  cases e with
  | acquire fuel => exact h.imp_left (Cancelled.mono hle)
  | receive fuel => exact h.imp_left (Cancelled.mono hle)
  | _ => exact h

lemma NoFalseAlarm.push {v : BView B C} (h : NoFalseAlarm v) {e : BEvent B C} {w : World B C}
    (hmem : ∀ d, (w.mem d).outcome = (v.world.mem d).outcome ∨ (w.mem d).outcome = none) :
    NoFalseAlarm (v.push e w) := by
  intro d entry r hout
  rcases hmem d with heq | hnone
  · exact (h d entry r (heq.symm.trans hout)).mono (v.le_push e w)
  · exact absurd (hnone.symm.trans hout) (by simp)

/-! ## Answers -/

/-- The step created the object under the key. -/
def Created (b : B) (key : String) (last : Option (BEvent B C)) : Prop :=
  ∃ t body md, last = some (BEvent.called t (.write b key body md [.ifNotExists]) (.ok ()))

/-- What a list of preconditions can be refused with. -/
inductive RefusedWith : List Precondition → Err → Prop where
  | failed {pre : List Precondition} (h : pre ≠ []) : RefusedWith pre .preconditionFailed
  | invalid {pre : List Precondition} (h : 1 < pre.length) : RefusedWith pre .invalidOption

lemma not_refused_nil {e : Err} : ¬ RefusedWith [] e := by
  rintro (h | h)
  · exact h rfl
  · simp at h

lemma RefusedWith.singleton {p : Precondition} {e : Err} (h : RefusedWith [p] e) : e = .preconditionFailed := by
  cases h with
  | failed => rfl
  | invalid h => simp at h

/-- What a call may answer if the backend never fails and the thread's step before was `last`. -/
def Answer (last : Option (BEvent B C)) : (o : Op B) → o.Res → Prop
  | .attributes b key, r => (∃ attrs, r = .ok attrs) ∨ r = .error .notFound ∧ ¬ Created b key last
  | .read _ _, r => (∃ body, r = .ok body) ∨ r = .error .notFound
  | .write _ _ _ _ pre, r => r = .ok () ∨ ∃ e, r = .error e ∧ RefusedWith pre e
  | .delete _ _ pre, r => r = .ok () ∨ r = .error .notFound ∨ ∃ e, r = .error e ∧ RefusedWith pre e
  | .listPage _ _ _ _, r => ∃ page, r = .ok page
  | _, _ => True

/-- What it may answer while the context is not done. -/
def Uncancelled (last : Option (BEvent B C)) : (o : Op B) → o.Res → Prop
  | .select _, r => r = false
  | o, r => Answer last o r

lemma uncancelled_answer (last : Option (BEvent B C)) (o : Op B) (r : o.Res)
    (h : Uncancelled last o r) : Answer last o r := by
  cases o with
  | select ready => trivial
  | _ => exact h

/-- A parked thread returns nothing. -/
lemma yields_park {A : Option (BEvent B C) → (o : Op B) → o.Res → Prop} {t : Thread C} {α : Type}
    {Q : α → Prop} (last : Option (BEvent B C)) : (park : BProg B α).Yields A t Q last :=
  fun r _ => Empty.elim r

/-- Nobody deletes a record whose creator has not read it back. -/
def SparesCreated (v : BView B C) (e : BEvent B C) : Prop :=
  ∀ t b key pre, e = BEvent.called t (.delete b key pre) (.ok ()) →
    ∀ u, u ≠ t → ¬ Created b key (v.lastOf u)

/-- A record is there until its creator has read it back. -/
def CreatedStays (v : BView B C) : Prop :=
  ∀ t b key, Created b key (v.lastOf t) → (v.world.store b).get key ≠ none

/-- A backend that never fails. -/
def faultless : Faults := ⟨false, false⟩

section Faultless

variable {bk : B → Backend} {t : Thread C} {ch : Choice} {v : BView B C} {w w' : World B C} {b : B}
  {o : Op B} {r : o.Res}

lemma execRead_faultless {α : Type} {r x : Except Err α}
    (h : execRead faultless w r ch = some (x, w')) : x = r := by
  cases ch <;> simp [execRead, faultless] at h
  exact h.1.symm

lemma execCommit_faultless {s? : Except Err Store} {r : Except Err Unit}
    (h : execCommit faultless w b s? ch = some (r, w')) : r = s?.map fun _ => () := by
  obtain ⟨s, rfl, -, rfl | hflt⟩ | ⟨-, ⟨e, rfl, rfl⟩ | rfl⟩ := execCommit_cases h
  · rfl
  · cases hflt
  · rfl
  · cases ch <;> cases s? <;> simp [execCommit, faultless] at h
    obtain ⟨rfl, -⟩ := h
    rfl

lemma compilePreconditions_error {pre : List Precondition} {e : Err}
    (h : compilePreconditions pre = .error e) : e = .invalidOption ∧ 1 < pre.length := by
  have hcases : compilePreconditions pre = .error .invalidOption ∨
      compilePreconditions pre = .ok (pre.foldl Precondition.apply {}) := ite_eq_or_eq _ _ _
  rw [h] at hcases
  obtain rfl := Except.error.inj (hcases.resolve_right (by simp))
  refine ⟨rfl, ?_⟩
  rcases pre with _ | ⟨p, _ | ⟨p', pre⟩⟩
  · cases h
  · cases p with
    | ifNotExists => cases h
    | ifMatch ver =>
        rw [compilePreconditions_ifMatch] at h
        cases h
    | ifNotMatch ver =>
        by_cases hv : ver = "" <;> simp [compilePreconditions, Precondition.apply, hv] at h
  · simp

lemma refused_of_not_pass {pre : List Precondition} {p : Preconditions} {current : Option Version}
    (hp : compilePreconditions pre = .ok p) (h : ¬ conditionsPass p current = true) :
    RefusedWith pre .preconditionFailed := by
  refine .failed ?_
  rintro rfl
  rw [compilePreconditions_nil, Except.ok.injEq] at hp
  subst hp
  exact h rfl

/-- **What is stored decides the answer.** -/
lemma answer_of_exec (hp : CreatedStays v) (he : exec bk faultless t o ch v.world = some (r, w)) :
    Answer (v.lastOf t) o r := by
  cases o with
  | attributes b key =>
      obtain rfl := execRead_faultless he
      cases hget : (v.world.store b).get key with
      | none => exact .inr ⟨rfl, fun hc => hp t b key hc hget⟩
      | some obj => exact .inl ⟨_, rfl⟩
  | read b key =>
      obtain rfl := execRead_faultless he
      cases hget : (v.world.store b).get key with
      | none => exact .inr rfl
      | some obj => exact .inl ⟨_, rfl⟩
  | write b key body md pre =>
      obtain rfl := execCommit_faultless he
      unfold Store.write
      split
      · rename_i e hpre
        obtain ⟨rfl, hlen⟩ := compilePreconditions_error hpre
        exact .inr ⟨_, rfl, .invalid hlen⟩
      · rename_i p hpre
        split
        · exact .inl rfl
        · rename_i hpass
          exact .inr ⟨_, rfl, refused_of_not_pass hpre hpass⟩
  | delete b key pre =>
      obtain rfl := execCommit_faultless he
      unfold Store.delete
      split
      · rename_i e hpre
        obtain ⟨rfl, hlen⟩ := compilePreconditions_error hpre
        exact .inr (.inr ⟨_, rfl, .invalid hlen⟩)
      · rename_i p hpre
        split
        · exact .inr (.inl rfl)
        · split
          · exact .inl rfl
          · rename_i hpass
            exact .inr (.inr ⟨_, rfl, refused_of_not_pass hpre hpass⟩)
  | listPage b token pageSize pref =>
      obtain ⟨-, ⟨keys, next, -, rfl⟩ | rfl⟩ := exec_listPage he
      · exact ⟨_, rfl⟩
      · cases ch <;> simp [exec, faultless, Prod.ext_iff] at he
  | _ => trivial

/-- Sparing deletes keep a record there until its creator has read it back. -/
lemma CreatedStays.call (hp : CreatedStays v) (he : exec bk faultless t o ch v.world = some (r, w))
    (ha : SparesCreated v (BEvent.called t o r)) : CreatedStays (v.push (BEvent.called t o r) w) := by
  intro u b key hc
  rw [View.push_world]
  by_cases hu : u = t
  · subst hu
    rw [View.lastOf_push_self rfl] at hc
    obtain ⟨t', body, md, heq⟩ := hc
    cases heq
    obtain ⟨st, hst, rfl, -⟩ | ⟨-, ⟨e, -, herr⟩ | herr⟩ := exec_write he
    · rw [World.setStore_store_self, Store.write_ok hst, Store.get_put_self]
      simp
    · cases herr
    · cases herr
  · rw [View.lastOf_push_of_ne (by simpa [Event.thread] using Ne.symm hu)] at hc
    intro hnone
    have hne : (w.store b).get key ≠ (v.world.store b).get key := fun h =>
      hp u b key hc (h.symm.trans hnone)
    obtain ⟨body, md, pre, -, ⟨obj, hobj, -⟩, -⟩ | ⟨pre, rfl, -⟩ := exec_get he b key hne
    · exact absurd (hnone.symm.trans hobj) (by simp)
    · -- the delete took effect, so it said so
      obtain ⟨st, -, -, rfl | hflt⟩ | ⟨rfl, -⟩ := exec_delete he
      · exact ha t b key pre rfl u hu hc
      · cases hflt
      · exact hne rfl

end Faultless

/-! ## Records -/

section Records

variable {b : B} {path : String} {fields : Metadata} {t : Thread C} {last : Option (BEvent B C)}

lemma yields_readRecord :
    (readRecord b path).Yields Answer t (fun r => ∀ e, r = .error e → e = .notFound) last := by
  rintro r (⟨attrs, rfl⟩ | ⟨rfl, -⟩)
  · exact fun e he => by cases he
  · exact fun e he => (Except.error.inj he).symm

/-- A record that was just created is there, so the version can be read back. -/
lemma yields_writeBack_create :
    (writeBack b path fields .ifNotExists).Yields Answer t
      (fun r => ∀ e, r = .error e → e = .preconditionFailed) last := by
  rintro r (rfl | ⟨e, rfl, he⟩)
  · rintro r (⟨attrs, rfl⟩ | ⟨rfl, hnot⟩)
    · exact fun e he => by cases he
    · exact absurd ⟨_, _, _, rfl⟩ hnot
  · obtain rfl := he.singleton
    exact fun e he => (Except.error.inj he).symm

/-- One that was replaced may be gone by then. -/
lemma yields_writeBack (pre : Precondition) :
    (writeBack b path fields pre).Yields Answer t
      (fun r => ∀ e, r = .error e → e = .preconditionFailed ∨ e = .notFound) last := by
  rintro r (rfl | ⟨e, rfl, he⟩)
  · rintro r (⟨attrs, rfl⟩ | ⟨rfl, -⟩)
    · exact fun e he => by cases he
    · exact fun e he => .inr (Except.error.inj he).symm
  · obtain rfl := he.singleton
    exact fun e he => .inl (Except.error.inj he).symm

end Records

/-- The call of a client that has not made one yet. -/
lemma called_cases {c : C} {p q : BProg B Unit} {w w' : World B C}
    (h : (if (w.mem c).called then none else some (q, w.setMem c { called := true })) = some (p, w')) :
    q = p ∧ w' = w.setMem c { called := true } := by
  split at h
  · cases h
  · obtain ⟨rfl, rfl⟩ := Prod.mk.inj (Option.some.inj h)
    exact ⟨rfl, rfl⟩

/-! ## The contract -/

/-- The calls that leave the result alone. -/
def Quiet : Op B → Prop
  | .mem f => ∀ mem, (f mem).outcome = mem.outcome
  | _ => True

section Races

variable {bk : B → Backend} {E : Type}
  {start : Thread C → Entry → World B C → Option (BProg B Unit × World B C)}
  {env : E → World B C → Option (World B C)} {t : Thread C} {c : C} {v : BView B C} {α : Type}

variable (bk start env) in
/-- Everyone spares what has just been created, and every report is benign. -/
def racesContract : Contract (bucketMachine bk faultless start env) where
  adm := SparesCreated
  inv v := CreatedStays v ∧ NoFalseAlarm v
  guar _ _ _ := True
  idle _ _ := True

/-- A quiet call keeps the contract and is answered as expected. -/
lemma quiet_step {o : Op B} {r : o.Res} {ch : Choice} {w : World B C} (ho : Quiet o)
    (hi : (racesContract bk start env).inv v) (he : exec bk faultless t o ch v.world = some (r, w))
    (ha : SparesCreated v (BEvent.called t o r)) :
    (racesContract bk start env).inv (v.push (BEvent.called t o r) w) ∧ Answer (v.lastOf t) o r := by
  refine ⟨⟨hi.1.call he ha, hi.2.push fun d => .inl ?_⟩, answer_of_exec hi.1 he⟩
  by_cases hmem : ∃ f, o = .mem f
  · obtain ⟨f, rfl⟩ := hmem
    obtain ⟨-, rfl⟩ := exec_mem he
    by_cases hd : d = t.1
    · subst hd
      rw [World.setMem_mem_self, ho]
    · rw [World.setMem_mem_ne _ _ _ hd]
  · rw [exec_memory he fun f hf => hmem ⟨f, hf⟩]

/-- A program that makes quiet calls only. -/
lemma safe_quiet {p : BProg B α} (hp : p.Within Quiet) :
    (racesContract bk start env).Safe t (fun _ _ => True) p v := by
  refine Safe.of_within (P := Quiet) (F := fun _ => True) (fun _ _ => trivial) ?_ hp trivial
  intro o ho v ch r w hi _ he ha
  exact ⟨trivial, (quiet_step ho hi he ha).1, trivial⟩

/-- The report of a benign result. -/
lemma safe_outcome {e : Entry} {r : Except Err Unit} {F : BView B C → Prop}
    (hF : ∀ {v v'}, View.Le v v' → F v → F v') (hv : F v) (hr : ∀ v, F v → Benign v c e r) :
    (racesContract bk start env).Safe (c, .main) (fun _ _ => True)
      (critical (fun mem => { mem with outcome := some (e, r) }) >>= fun _ => Prog.ret ()) v := by
  refine safe_critical fun v₁ hr₁ hi₁ ha₁ => ?_
  have he : exec bk faultless (c, .main) (.mem fun mem => { mem with outcome := some (e, r) }) .ok
      v₁.world = some (v₁.world.mem c, _) := rfl
  refine ⟨trivial, ⟨hi₁.1.call he ha₁, ?_⟩, .ret fun _ _ _ => trivial⟩
  intro d e' r' hout
  rw [View.push_world] at hout
  by_cases hd : d = c
  · subst hd
    rw [World.setMem_mem_self] at hout
    cases hout
    exact hr _ (hF (hr₁.le.trans (v₁.le_push _ _)) hv)
  · rw [World.setMem_mem_ne _ _ _ hd] at hout
    exact (hi₁.2 d e' r' hout).mono (v₁.le_push _ _)

/-- **A call that reports its result**, if the result is benign whenever the answers are `Answer`. -/
lemma safe_report {e : Entry} {p : BProg B (Except Err α)} (hi : (racesContract bk start env).inv v)
    (hw : p.Within Quiet)
    (hy : ∀ last, p.Yields Answer (c, .main)
      (fun r => ∀ v : BView B C, Benign v c e (r.map fun _ => ())) last) :
    (racesContract bk start env).Safe (c, .main) (fun _ _ => True) (report e p) v := by
  have hp : (racesContract bk start env).Safe (c, .main)
      (fun r _ => False ∨ ∀ v : BView B C, Benign v c e (r.map fun _ => ())) p v := by
    refine Safe.of_yields (P := Quiet) (F := fun _ => False) (fun _ => id) ?_ hw (.inr (hy _))
    intro o ho v ch r w hi he ha
    obtain ⟨hinv, hans⟩ := quiet_step ho hi he ha
    exact ⟨trivial, hinv, .inl hans⟩
  refine Safe.bind hi hp fun r v₁ hi₁ hr => ?_
  exact safe_outcome (F := fun _ => True) (fun _ => id) trivial fun v _ => hr.resolve_left id v

/-- The same of a call that gives up once its context is done. -/
lemma safe_report_blocking {e : Entry} {p : BProg B (Except Err α)}
    (hi : (racesContract bk start env).inv v) (hw : p.Within Quiet)
    (hy : ∀ last, p.Yields Uncancelled (c, .main) (fun r => r.map (fun _ => ()) = .ok ()) last)
    (hbenign : ∀ (v : BView B C) r, Cancelled v c ∨ r = .ok () → Benign v c e r) :
    (racesContract bk start env).Safe (c, .main) (fun _ _ => True) (report e p) v := by
  have hp : (racesContract bk start env).Safe (c, .main)
      (fun r v => Cancelled v c ∨ r.map (fun _ => ()) = .ok ()) p v := by
    refine Safe.of_yields (P := Quiet) (fun h => Cancelled.mono h) ?_ hw (.inr (hy _))
    intro o ho v ch r w hi he ha
    obtain ⟨hinv, hans⟩ := quiet_step ho hi he ha
    refine ⟨trivial, hinv, ?_⟩
    cases o with
    | select ready =>
        cases r with
        | false => exact .inl rfl
        | true => exact .inr ⟨_, ready, _, List.mem_cons_self⟩
    | _ => exact .inl hans
  refine Safe.bind hi hp fun r v₁ hi₁ hr => ?_
  refine safe_outcome (F := fun v => Cancelled v c ∨ r.map (fun _ => ()) = .ok ()) ?_ hr
    fun v h => hbenign v _ h
  exact fun hle h => h.imp_left (Cancelled.mono hle)

/-- **Soundness**, from the entry points. -/
lemma sound_of_starts (henv : ClockOnly env) {w₀ : World B C} (h₀ : ∀ c, (w₀.mem c).outcome = none)
    (hstart : ∀ t e (v : BView B C) p w, start t e v.world = some (p, w) →
      (w = v.world ∨ w = v.world.setMem t.1 { called := true }) ∧
        ∀ v₁, (racesContract bk start env).inv v₁ →
          (racesContract bk start env).Safe t (fun _ _ => True) p v₁) :
    (racesContract bk start env).Sound w₀ where
  init := ⟨⟨fun t b key ⟨_, _, _, h⟩ => (by cases h), fun c e r h =>
    absurd ((h₀ c).symm.trans h) (by simp)⟩, fun _ => trivial⟩
  env := by
    rintro v v' ⟨hp, hn⟩ ⟨e, w, hw, -, rfl⟩
    obtain ⟨hst, hmem⟩ := henv e _ w hw
    refine ⟨fun t b key hc => ?_, hn.push fun d => .inl (by rw [hmem])⟩
    rw [View.lastOf_push_of_ne (by simp [Event.thread])] at hc
    rw [View.push_world, hst]
    exact hp t b key hc
  stable _ _ _ _ _ := trivial
  start := by
    intro t e v p w hi _ _ hs
    obtain ⟨hw, hsafe⟩ := hstart t e v p w hs
    have hinv : (racesContract bk start env).inv (v.push (.start t e) w) := by
      refine ⟨fun u b key hc => ?_, hi.2.push fun d => ?_⟩
      · by_cases hu : u = t
        · subst hu
          rw [View.lastOf_push_self rfl] at hc
          obtain ⟨_, _, _, h⟩ := hc
          cases h
        · rw [View.lastOf_push_of_ne (by simpa [Event.thread] using Ne.symm hu)] at hc
          rcases hw with rfl | rfl
          · exact hi.1 u b key hc
          · exact hi.1 u b key hc
      · rcases hw with rfl | rfl
        · exact .inl rfl
        · by_cases hd : d = t.1
          · subst hd
            exact .inr (by rw [World.setMem_mem_self])
          · exact .inl (by rw [World.setMem_mem_ne _ _ _ hd])
    exact ⟨trivial, hinv, hsafe _ hinv⟩

end Races

end Blobster
