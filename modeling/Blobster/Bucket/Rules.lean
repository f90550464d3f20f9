import Blobster.Bucket.World

/-!
# One proof rule per call

The rules of `Interleave.Contract.Safe` at the calls of a client, one for each atomic step: what has
to be shown of a program that begins with the call, for every way the call can be answered.  They
are the only place where a safety proof meets `exec`; from here on a source function is executed
symbolically by applying the rule of its next line.

Each rule quantifies over the view `v'` in which the call takes effect, which is the caller's view
`v` after any interference of the others.
-/

set_option linter.unusedSectionVars false

namespace Blobster

open Interleave Contract

variable {B C : Type} [DecidableEq B] [DecidableEq C] {bk : B → Backend} {flt : Faults} {E : Type}
  {start : Thread C → Entry → World B C → Option (BProg B Unit × World B C)}
  {env : E → World B C → Option (World B C)} {K : Contract (bucketMachine bk flt start env)}
  {t : Thread C} {α : Type} {Q : α → BView B C → Prop} {v : BView B C}

variable (K) in
/-- The step `e` of the thread `t` to the world `w` keeps the contract, and the rest of the program
is safe after it. -/
def Steps (t : Thread C) (Q : α → BView B C → Prop) (v : BView B C) (e : BEvent B C)
    (w : World B C) (p : BProg B α) : Prop :=
  K.guar t v (v.push e w) ∧ K.inv (v.push e w) ∧ K.Safe t Q p (v.push e w)

/-- `Attributes` answers for the object that is stored, says that there is none, or fails. -/
lemma safe_attributes {b : B} {key : String} {k : Except Err Attributes → BProg B α}
    (h : ∀ v', K.Rely t v v' → K.inv v' → ∀ r,
      ((∃ o, (v'.world.store b).get key = some o ∧ r = .ok o.attributes) ∨
        ((v'.world.store b).get key = none ∧ r = .error .notFound) ∨ r = .error .backend) →
      K.adm v' (BEvent.called t (.attributes b key) r) →
      Steps K t Q v' (BEvent.called t (.attributes b key) r) v'.world (k r)) :
    K.Safe t Q (attributes b key >>= k) v := by
  intro v' hr hi ch r w he ha
  have he' : exec bk flt t (.attributes b key) ch v'.world = some (r, w) := he
  obtain ⟨rfl, hcase⟩ := exec_attributes he'
  exact h v' hr hi r hcase ha

/-- `ReadAll`, likewise. -/
lemma safe_readAll {b : B} {key : String} {k : Except Err ByteArray → BProg B α}
    (h : ∀ v', K.Rely t v v' → K.inv v' → ∀ r,
      ((∃ o, (v'.world.store b).get key = some o ∧ r = .ok o.body) ∨
        ((v'.world.store b).get key = none ∧ r = .error .notFound) ∨ r = .error .backend) →
      K.adm v' (BEvent.called t (.read b key) r) →
      Steps K t Q v' (BEvent.called t (.read b key) r) v'.world (k r)) :
    K.Safe t Q (readAll b key >>= k) v := by
  intro v' hr hi ch r w he ha
  have he' : exec bk flt t (.read b key) ch v'.world = some (r, w) := he
  obtain ⟨rfl, hcase⟩ := exec_read he'
  exact h v' hr hi r hcase ha

/-- A write commits, whatever it then answers, or it does not and reports an error. -/
lemma safe_writeAll {b : B} {key : String} {body : ByteArray} {md : Metadata}
    {pre : List Precondition} {k : Except Err Unit → BProg B α}
    (hok : ∀ v', K.Rely t v v' → K.inv v' → ∀ r st,
      (v'.world.store b).write (bk b) key body md pre = .ok st → (r = .ok () ∨ flt.after = true) →
      K.adm v' (BEvent.called t (.write b key body md pre) r) →
      Steps K t Q v' (BEvent.called t (.write b key body md pre) r) (v'.world.setStore b st) (k r))
    (herr : ∀ v', K.Rely t v v' → K.inv v' → ∀ e,
      ((v'.world.store b).write (bk b) key body md pre = .error e ∨ e = .backend) →
      K.adm v' (BEvent.called t (.write b key body md pre) (.error e)) →
      Steps K t Q v' (BEvent.called t (.write b key body md pre) (.error e)) v'.world
        (k (.error e))) :
    K.Safe t Q (writeAll b key body md pre >>= k) v := by
  intro v' hr hi ch r w he ha
  have he' : exec bk flt t (.write b key body md pre) ch v'.world = some (r, w) := he
  obtain ⟨st, hst, rfl, hans⟩ | ⟨rfl, ⟨e, hst, rfl⟩ | rfl⟩ := exec_write he'
  · exact hok v' hr hi r st hst hans ha
  · exact herr v' hr hi e (.inl hst) ha
  · exact herr v' hr hi .backend (.inr rfl) ha

/-- A write whose answer the rest of the program is safe after, whatever it is. -/
lemma safe_writeAll_last {b : B} {key : String} {body : ByteArray} {md : Metadata}
    {pre : List Precondition} {k : Except Err Unit → BProg B α}
    (hk : ∀ r v', K.Safe t Q (k r) v')
    (hok : ∀ v', K.Rely t v v' → K.inv v' → ∀ r st,
      (v'.world.store b).write (bk b) key body md pre = .ok st →
      K.adm v' (BEvent.called t (.write b key body md pre) r) → ∀ e : BEvent B C,
      K.guar t v' (v'.push e (v'.world.setStore b st)) ∧
        K.inv (v'.push e (v'.world.setStore b st)))
    (herr : ∀ v', K.Rely t v v' → K.inv v' → ∀ e : BEvent B C,
      K.guar t v' (v'.push e v'.world) ∧ K.inv (v'.push e v'.world)) :
    K.Safe t Q (writeAll b key body md pre >>= k) v :=
  safe_writeAll
    (fun v' hr hi r st hst _ ha =>
      ⟨(hok v' hr hi r st hst ha _).1, (hok v' hr hi r st hst ha _).2, hk _ _⟩)
    (fun v' hr hi _ _ _ => ⟨(herr v' hr hi _).1, (herr v' hr hi _).2, hk _ _⟩)

/-- A delete, likewise. -/
lemma safe_delete {b : B} {key : String} {pre : List Precondition}
    {k : Except Err Unit → BProg B α}
    (hok : ∀ v', K.Rely t v v' → K.inv v' → ∀ r st,
      (v'.world.store b).delete key pre = .ok st → (r = .ok () ∨ flt.after = true) →
      K.adm v' (BEvent.called t (.delete b key pre) r) →
      Steps K t Q v' (BEvent.called t (.delete b key pre) r) (v'.world.setStore b st) (k r))
    (herr : ∀ v', K.Rely t v v' → K.inv v' → ∀ e,
      ((v'.world.store b).delete key pre = .error e ∨ e = .backend) →
      K.adm v' (BEvent.called t (.delete b key pre) (.error e)) →
      Steps K t Q v' (BEvent.called t (.delete b key pre) (.error e)) v'.world (k (.error e))) :
    K.Safe t Q (delete b key pre >>= k) v := by
  intro v' hr hi ch r w he ha
  have he' : exec bk flt t (.delete b key pre) ch v'.world = some (r, w) := he
  obtain ⟨st, hst, rfl, hans⟩ | ⟨rfl, ⟨e, hst, rfl⟩ | rfl⟩ := exec_delete he'
  · exact hok v' hr hi r st hst hans ha
  · exact herr v' hr hi e (.inl hst) ha
  · exact herr v' hr hi .backend (.inr rfl) ha

/-- A delete whose answer the rest of the program is safe after, whatever it is. -/
lemma safe_delete_last {b : B} {key : String} {pre : List Precondition}
    {k : Except Err Unit → BProg B α} (hk : ∀ r v', K.Safe t Q (k r) v')
    (hok : ∀ v', K.Rely t v v' → K.inv v' → ∀ st, (v'.world.store b).delete key pre = .ok st →
      ∀ e : BEvent B C, K.guar t v' (v'.push e (v'.world.setStore b st)) ∧
        K.inv (v'.push e (v'.world.setStore b st)))
    (herr : ∀ v', K.Rely t v v' → K.inv v' → ∀ e : BEvent B C,
      K.guar t v' (v'.push e v'.world) ∧ K.inv (v'.push e v'.world)) :
    K.Safe t Q (delete b key pre >>= k) v :=
  safe_delete
    (fun v' hr hi _ st hst _ _ => ⟨(hok v' hr hi st hst _).1, (hok v' hr hi st hst _).2, hk _ _⟩)
    (fun v' hr hi _ _ _ => ⟨(herr v' hr hi _).1, (herr v' hr hi _).2, hk _ _⟩)

/-- A listing is one the backend may return, or it fails. -/
lemma safe_listPage {b : B} {token : PageToken} {pageSize : ℕ} {pref : String}
    {k : Except Err (List String × PageToken) → BProg B α}
    (h : ∀ v', K.Rely t v v' → K.inv v' → ∀ r,
      ((∃ keys next, (bk b).lists (v'.world.store b) token pageSize pref keys next = true ∧
        r = .ok (keys, next)) ∨ r = .error .backend) →
      K.adm v' (BEvent.called t (.listPage b token pageSize pref) r) →
      Steps K t Q v' (BEvent.called t (.listPage b token pageSize pref) r) v'.world (k r)) :
    K.Safe t Q (listPage b token pageSize pref >>= k) v := by
  intro v' hr hi ch r w he ha
  have he' : exec bk flt t (.listPage b token pageSize pref) ch v'.world = some (r, w) := he
  obtain ⟨rfl, hcase⟩ := exec_listPage he'
  exact h v' hr hi r hcase ha

/-- The clock is read. -/
lemma safe_now {k : ℤ → BProg B α}
    (h : ∀ v', K.Rely t v v' → K.inv v' → K.adm v' (BEvent.called t .now v'.world.clock) →
      Steps K t Q v' (BEvent.called t .now v'.world.clock) v'.world (k v'.world.clock)) :
    K.Safe t Q (now >>= k) v := by
  intro v' hr hi ch r w he ha
  have he' : exec bk flt t .now ch v'.world = some (r, w) := he
  obtain ⟨rfl, rfl⟩ := exec_now he'
  exact h v' hr hi ha

/-- A random number below `n`. -/
lemma safe_randIntN {n : ℕ} {k : ℕ → BProg B α}
    (h : ∀ v', K.Rely t v v' → K.inv v' → ∀ i < n, K.adm v' (BEvent.called t (.randIntN n) i) →
      Steps K t Q v' (BEvent.called t (.randIntN n) i) v'.world (k i)) :
    K.Safe t Q (randIntN n >>= k) v := by
  intro v' hr hi ch r w he ha
  have he' : exec bk flt t (.randIntN n) ch v'.world = some (r, w) := he
  obtain ⟨rfl, hlt⟩ := exec_randIntN he'
  exact h v' hr hi r hlt ha

/-- A critical section. -/
lemma safe_critical {f : Mem → Mem} {k : Mem → BProg B α}
    (h : ∀ v', K.Rely t v v' → K.inv v' →
      K.adm v' (BEvent.called t (.mem f) (v'.world.mem t.1)) →
      Steps K t Q v' (BEvent.called t (.mem f) (v'.world.mem t.1))
        (v'.world.setMem t.1 (f (v'.world.mem t.1))) (k (v'.world.mem t.1))) :
    K.Safe t Q (critical f >>= k) v := by
  intro v' hr hi ch r w he ha
  have he' : exec bk flt t (.mem f) ch v'.world = some (r, w) := he
  obtain ⟨rfl, rfl⟩ := exec_mem he'
  exact h v' hr hi ha

/-- A receive from a channel that has been closed. -/
lemma safe_await {p : Mem → Bool} {k : Unit → BProg B α}
    (h : ∀ v', K.Rely t v v' → K.inv v' → p (v'.world.mem t.1) = true →
      K.adm v' (BEvent.called t (.await p) ()) →
      Steps K t Q v' (BEvent.called t (.await p) ()) v'.world (k ())) :
    K.Safe t Q (await p >>= k) v := by
  intro v' hr hi ch r w he ha
  have he' : exec bk flt t (.await p) ch v'.world = some (r, w) := he
  obtain ⟨rfl, hp⟩ := exec_await he'
  exact h v' hr hi hp ha

/-- A `select`: the channel's branch only once it is closed. -/
lemma safe_select {ready : Mem → Bool} {k : Bool → BProg B α}
    (h : ∀ v', K.Rely t v v' → K.inv v' → ∀ r, (r = true → ready (v'.world.mem t.1) = true) →
      K.adm v' (BEvent.called t (.select ready) r) →
      Steps K t Q v' (BEvent.called t (.select ready) r) v'.world (k r)) :
    K.Safe t Q (select ready >>= k) v := by
  intro v' hr hi ch r w he ha
  have he' : exec bk flt t (.select ready) ch v'.world = some (r, w) := he
  obtain ⟨rfl, hcase⟩ := exec_select he'
  exact h v' hr hi r hcase ha

/-- A parked thread does nothing. -/
lemma safe_park : K.Safe t Q (park : BProg B α) v :=
  fun _ _ _ _ r _ _ _ => Empty.elim r

end Blobster
