import Blobster.Bucket.Lease
import Blobster.Bucket.Rules
import Blobster.Locker.Model

/-!
# What the programs of a lock call

The programs of a lock touch one object, its record.  Everyone who keeps something else in the same
bucket relies on that.

* `Op.Spares b key` — the call leaves the object under the key alone; `exec_spares` — so does its step.
* `Locker.LockCalls P path` — the calls on the record at `path`, and those that touch no bucket and no
  result of a call, satisfy `P`; `Locker.within_Acquire`, `Locker.within_renewLoop`,
  `Locker.within_release` — then so does every call of the programs.
* `Locker.lockCalls_spares` — in particular they spare every other object.
* `Locker.yields_Acquire` — the handle that `Acquire` returns is for the record it was asked for.
-/

set_option linter.unusedSectionVars false

namespace Blobster

open Interleave

variable {B C : Type}

/-- The call leaves the object under the key alone. -/
def Op.Spares (b : B) (key : String) : Op B → Prop
  | .write b' key' _ _ _ => ¬ (b' = b ∧ key' = key)
  | .delete b' key' _ => ¬ (b' = b ∧ key' = key)
  | _ => True

lemma exec_spares [DecidableEq B] [DecidableEq C] {bk : B → Backend} {flt : Faults} {t : Thread C}
    {o : Op B} {ch : Choice} {w w' : World B C} {r : o.Res} {b : B} {key : String}
    (ho : o.Spares b key) (h : exec bk flt t o ch w = some (r, w')) :
    (w'.store b).get key = (w.store b).get key := by
  by_contra hne
  obtain ⟨body, md, pre, rfl, -, -⟩ | ⟨pre, rfl, -⟩ := exec_get h b key hne
  · exact ho ⟨rfl, rfl⟩
  · exact ho ⟨rfl, rfl⟩

/-- A write of another object. -/
lemma get_setStore_write [DecidableEq B] [DecidableEq C] {bk : Backend} {w : World B C} {b b' : B}
    {key key' : String} {body : ByteArray} {md : Metadata} {pre : List Precondition} {st : Store}
    (hst : (w.store b').write bk key' body md pre = .ok st) (hne : ¬ (b' = b ∧ key' = key)) :
    ((w.setStore b' st).store b).get key = (w.store b).get key := by
  obtain rfl := Store.write_ok hst
  by_cases hb : b = b'
  · subst hb
    rw [World.setStore_store_self]
    exact Store.get_put_ne _ _ _ _ _ fun hk => hne ⟨rfl, hk.symm⟩
  · rw [World.setStore_store_ne w b' _ hb]

namespace Locker

/-- The calls of a lock with its record at `path` satisfy `P`. -/
structure LockCalls (l : Locker B) (P : Op B → Prop) (path : String) : Prop where
  attributes : P (.attributes l.bucket path)
  write : ∀ body md pre, P (.write l.bucket path body md pre)
  delete : ∀ pre, P (.delete l.bucket path pre)
  now : P .now
  mem : ∀ f, (∀ m, (f m).outcome = m.outcome) → P (.mem f)
  await : ∀ p, P (.await p)
  select : ∀ ready, P (.select ready)
  park : P .park

variable {l : Locker B} {P : Op B → Prop} {path : String}

lemma lockCalls_spares {b : B} {key : String} (h : path ≠ key) : l.LockCalls (Op.Spares b key) path where
  attributes := trivial
  write _ _ _ hsame := h hsame.2
  delete _ hsame := h hsame.2
  now := trivial
  mem _ _ := trivial
  await _ := trivial
  select _ := trivial
  park := trivial

lemma within_tryAcquire (hP : l.LockCalls P path) (key owner : String) :
    (l.tryAcquire key path owner).Within P := by
  have hwrite : ∀ fields pre, (writeBack l.bucket path fields pre).Within P := fun _ _ =>
    within_writeBack (hP.write _ _ _) hP.attributes
  have hstart : ∀ ver until_, (start key path owner ver until_ : BProg B _).Within P := fun _ _ =>
    ⟨hP.mem _ fun _ => rfl, fun _ => trivial⟩
  refine (within_readRecord hP.attributes).bind fun record => .call hP.now fun now => ?_
  split
  · refine (hwrite _ _).bind fun res => ?_
    split
    · trivial
    · trivial
    · exact hstart _ _
  · trivial
  · split
    · trivial
    · refine (hwrite _ _).bind fun res => ?_
      split
      · trivial
      · trivial
      · trivial
      · exact hstart _ _

lemma within_Acquire {key : String} (hpath : ∀ path, l.path key = .ok path → l.LockCalls P path)
    (owner : String) (fuel : ℕ) : (l.Acquire key owner fuel).Within P := by
  unfold Acquire
  split
  · trivial
  · rename_i path hp
    have hP := hpath path hp
    refine Prog.Within.loop (by exact ⟨hP.park, fun r => r.elim⟩) (fun _ => ?_) fuel _
    refine (within_tryAcquire hP key owner).bind fun res => ?_
    split
    · trivial
    · refine .call (hP.select _) fun done => ?_
      split <;> trivial
    · trivial

lemma within_renewLoop (hP : l.LockCalls P path) (owner : String) (fuel : ℕ) :
    (l.renewLoop path owner fuel).Within P := by
  have hmem : ∀ {α : Type} (f : Mem → Mem) (g : Mem → α), (∀ m, (f m).outcome = m.outcome) →
      (critical f >>= fun m => .ret (g m) : BProg B α).Within P := fun _ _ hf =>
    ⟨hP.mem _ hf, fun _ => trivial⟩
  refine Prog.Within.bind (Prog.Within.loop (by exact ⟨hP.park, fun r => r.elim⟩) (fun _ => ?_) fuel _)
    fun _ => hmem _ _ fun _ => rfl
  refine .call (hP.select _) fun stop => ?_
  split
  · trivial
  · refine .call hP.now fun now => (hmem _ _ fun _ => rfl).bind fun until_ => ?_
    split
    · exact hmem _ _ fun _ => rfl
    · refine Prog.Within.bind ((hmem _ _ fun _ => rfl).bind fun ver => ?_) fun r => ?_
      · refine (within_writeBack (hP.write _ _ _) hP.attributes).bind fun r => ?_
        split
        · trivial
        · exact hmem _ _ fun _ => rfl
      · split
        · exact hmem _ _ fun _ => rfl
        · exact hmem _ _ fun _ => rfl
        · trivial

lemma within_release (hP : l.LockCalls P path) (owner : String) :
    (l.release path owner).Within P := by
  refine .call (hP.mem _ fun _ => rfl) fun before => ?_
  split
  · trivial
  · refine .call (hP.mem _ fun _ => rfl) fun _ => .call (hP.await _) fun _ =>
      .call (hP.mem _ fun _ => rfl) fun _ => ?_
    refine (within_readRecord hP.attributes).bind fun record => ?_
    split
    · trivial
    · trivial
    · split
      · trivial
      · refine .call (hP.delete _) fun res => ?_
        split <;> trivial

/-! ## The handle of an acquisition -/

/-- Any answer. -/
def anyAnswer (_ : Option (BEvent B C)) (o : Op B) (_ : o.Res) : Prop := True

variable {t : Thread C}

lemma yields_any {α : Type} (p : BProg B α) (last : Option (BEvent B C)) :
    p.Yields anyAnswer t (fun _ => True) last := by
  induction p generalizing last with
  | ret a => trivial
  | call o k ih => exact fun r _ => ih r _

lemma yields_tryAcquire_path (key owner : String) (last : Option (BEvent B C)) :
    (l.tryAcquire key path owner).Yields anyAnswer t (fun r => ∀ lk, r = .ok lk → lk.path = path)
      last := by
  have hstart : ∀ ver until_ last, (start key path owner ver until_ : BProg B (Except Err Lock)).Yields
      anyAnswer t (fun r => ∀ lk, r = .ok lk → lk.path = path) last := by
    rintro ver until_ last m - lk ⟨⟩
    rfl
  have herror : ∀ e lk, (.error e : Except Err Lock) = .ok lk → lk.path = path := fun e lk h => by
    cases h
  refine (yields_any _ _).bind fun record _ last => Prog.Yields.call fun now _ => ?_
  split
  · refine (yields_any _ _).bind fun res _ last => ?_
    split
    · exact herror _
    · exact herror _
    · exact hstart _ _ _
  · exact herror _
  · split
    · exact herror _
    · refine (yields_any _ _).bind fun res _ last => ?_
      split
      · exact herror _
      · exact herror _
      · exact herror _
      · exact hstart _ _ _

/-- **The handle is for the record that was asked for.** -/
lemma yields_Acquire {key : String} (hpath : ∀ p, l.path key = .ok p → p = path) (owner : String)
    (fuel : ℕ) (last : Option (BEvent B C)) :
    (l.Acquire key owner fuel).Yields anyAnswer t (fun r => ∀ lk, r = .ok lk → lk.path = path)
      last := by
  have herror : ∀ e lk, (.error e : Except Err Lock) = .ok lk → lk.path = path := fun e lk h => by
    cases h
  unfold Acquire
  split
  · exact herror _
  · rename_i p hp
    obtain rfl := hpath p hp
    refine Prog.Yields.loop (fun last => by exact fun r _ => r.elim) (fun _ last => ?_) fuel () last
    refine (yields_tryAcquire_path key owner last).bind fun res hres last => ?_
    split
    · rintro a ⟨⟩
      exact hres
    · refine Prog.Yields.call fun done _ => ?_
      split
      · rintro a ⟨⟩
        exact herror _
      · rintro a h
        cases h
    · rintro a ⟨⟩
      exact herror _

end Locker

end Blobster
