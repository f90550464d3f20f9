import Blobster.Bucket.Lease
import Blobster.Interleave.Alone

/-!
# A call that runs alone

The steps of one client while no other is running.

* `alone` — how the bucket calls of a client's main goroutine are executed.
* `play_attributes`, … — the steps of a run under given choices.
* `ensures_attributes`, … — one rule per step for programs that run alone on a backend that does not
  fail.
-/

set_option linter.unusedSectionVars false

namespace Blobster

open Interleave

variable {B C : Type} [DecidableEq B] [DecidableEq C]

/-- The steps of the client `c`. -/
def alone (bk : B → Backend) (flt : Faults) (c : C) : Exec (bucketSig B) (World B C) Choice :=
  fun o ch w => exec bk flt (c, .main) o ch w

/-- A backend that does not fail. -/
def noFaults : Faults := ⟨false, false⟩

/-- What `Attributes` answers. -/
def attributesOf (w : World B C) (b : B) (key : String) : Except Err Attributes :=
  match (w.store b).get key with
  | some o => .ok o.attributes
  | none => .error .notFound

/-! ## Given choices -/

section Play

variable {bk : B → Backend} {flt : Faults} {c : C} {w : World B C} {b : B} {key : String}
  {ch : ℕ → Choice}

lemma play_attributes (h : ch 0 = .ok) :
    (attributes b key).play (alone bk flt c) ch w =
      some (attributesOf w b key, w, fun i => ch (i + 1)) := by
  change ((exec bk flt (c, .main) (.attributes b key) (ch 0) w).bind _) = _
  rw [h]
  rfl

lemma play_attributes_fail (hf : flt.before = true) (h : ch 0 = .failBefore) :
    (attributes b key).play (alone bk flt c) ch w =
      some (.error .backend, w, fun i => ch (i + 1)) := by
  change ((exec bk flt (c, .main) (.attributes b key) (ch 0) w).bind _) = _
  rw [h]
  simp only [exec, execRead, hf, if_true]
  rfl

lemma play_now : (now : BProg B ℤ).play (alone bk flt c) ch w =
    some (w.clock, w, fun i => ch (i + 1)) := rfl

lemma play_critical (f : Mem → Mem) :
    (critical f : BProg B Mem).play (alone bk flt c) ch w =
      some (w.mem c, w.setMem c (f (w.mem c)), fun i => ch (i + 1)) := rfl

lemma play_write {body : ByteArray} {md : Metadata} {pre : List Precondition} {s : Store}
    (hs : (w.store b).write (bk b) key body md pre = .ok s) (h : ch 0 = .ok) :
    (writeAll b key body md pre).play (alone bk flt c) ch w =
      some (.ok (), w.setStore b s, fun i => ch (i + 1)) := by
  change ((exec bk flt (c, .main) (.write b key body md pre) (ch 0) w).bind _) = _
  rw [h]
  simp only [exec, execCommit, hs]
  rfl

lemma play_write_fail {body : ByteArray} {md : Metadata} {pre : List Precondition}
    (hf : flt.before = true) (h : ch 0 = .failBefore) :
    (writeAll b key body md pre).play (alone bk flt c) ch w =
      some (.error .backend, w, fun i => ch (i + 1)) := by
  change ((exec bk flt (c, .main) (.write b key body md pre) (ch 0) w).bind _) = _
  rw [h]
  simp only [exec, execCommit, hf, if_true]
  rfl

/-- What the read of a record answers. -/
def recordOf (w : World B C) (b : B) (path : String) : Except Err (Metadata × Version) :=
  match (w.store b).get path with
  | some o => .ok (o.metadata, o.version)
  | none => .error .notFound

lemma play_readRecord (h : ch 0 = .ok) :
    (readRecord b key).play (alone bk flt c) ch w =
      some (recordOf w b key, w, fun i => ch (i + 1)) := by
  rw [readRecord, Prog.play_bind, play_attributes h]
  unfold attributesOf recordOf
  cases (w.store b).get key <;> rfl

lemma play_readRecord_fail (hf : flt.before = true) (h : ch 0 = .failBefore) :
    (readRecord b key).play (alone bk flt c) ch w =
      some (.error .backend, w, fun i => ch (i + 1)) := by
  rw [readRecord, Prog.play_bind, play_attributes_fail hf h]
  rfl

section WriteBack

variable {md : Metadata} {pre : Precondition} {s : Store}

lemma play_writeBack_fail (hf : flt.before = true) (h : ch 0 = .failBefore) :
    (writeBack b key md pre).play (alone bk flt c) ch w =
      some (.error .backend, w, fun i => ch (i + 1)) := by
  rw [writeBack, Prog.play_bind, play_write_fail hf h]
  rfl

variable (flt c ch) in
lemma play_writeBack (hs : (w.store b).write (bk b) key .empty md [pre] = .ok s) (h : ch 0 = .ok)
    (h' : ch 1 = .ok) :
    ∃ v, (writeBack b key md pre).play (alone bk flt c) ch w =
      some (.ok v, w.setStore b s, fun i => ch (i + 2)) := by
  have hget : ((w.setStore b s).store b).get key =
      some ⟨.empty, md, (bk b).version (w.store b).next .empty, (w.store b).next⟩ := by
    rw [World.setStore_store_self, Store.write_ok hs, Store.get_put_self]
  rw [writeBack, Prog.play_bind, play_write hs h]
  refine ⟨(bk b).version (w.store b).next .empty, ?_⟩
  refine (Prog.play_bind (attributes b key) _ _ _).trans ?_
  rw [play_attributes h', attributesOf, hget]
  rfl

/-- The version cannot be read back: the record is written, and the call reports an error. -/
lemma play_writeBack_unread (hs : (w.store b).write (bk b) key .empty md [pre] = .ok s)
    (hf : flt.before = true) (h : ch 0 = .ok) (h' : ch 1 = .failBefore) :
    (writeBack b key md pre).play (alone bk flt c) ch w =
      some (.error .backend, w.setStore b s, fun i => ch (i + 2)) := by
  rw [writeBack, Prog.play_bind, play_write hs h]
  refine (Prog.play_bind (attributes b key) _ _ _).trans ?_
  rw [play_attributes_fail hf h']
  rfl

end WriteBack

end Play

/-! ## A backend that does not fail -/

section Ensures

variable {bk : B → Backend} {c : C} {w : World B C} {b : B} {key : String}

/-- A call with one answer. -/
lemma ensures_perform {o : Op B} {Q : o.Res → World B C → Prop} {x : Choice} {r : o.Res}
    {w' : World B C} (h : alone bk noFaults c o x w = some (r, w'))
    (hone : ∀ x r₁ w₁, alone bk noFaults c o x w = some (r₁, w₁) → r₁ = r ∧ w₁ = w') :
    (Prog.perform (S := bucketSig B) o).Ensures (alone bk noFaults c) Q w ↔ Q r w' := by
  refine ⟨fun hq => hq.2 x r w' h, fun hq => ⟨⟨x, _, h⟩, fun x r₁ w₁ hx => ?_⟩⟩
  obtain ⟨rfl, rfl⟩ := hone x r₁ w₁ hx
  exact hq

lemma execRead_noFaults {α : Type} {r x : Except Err α} {ch : Choice} {w' : World B C}
    (h : execRead noFaults w r ch = some (x, w')) : x = r ∧ w' = w := by
  cases ch <;> simp only [execRead, noFaults, Option.some.injEq, Prod.mk.injEq, Bool.false_eq_true,
    if_false, reduceCtorEq] at h
  exact ⟨h.1.symm, h.2.symm⟩

/-- What a commit answers and leaves. -/
def committed (w : World B C) (b : B) : Except Err Store → Except Err Unit × World B C
  | .ok s => (.ok (), w.setStore b s)
  | .error e => (.error e, w)

@[simp] lemma committed_ok (s : Store) :
    committed w b (.ok s) = (.ok (), w.setStore b s) := rfl

lemma execCommit_ok (flt : Faults) (s? : Except Err Store) :
    execCommit flt w b s? .ok = some (committed w b s?) := by
  cases s? <;> rfl

lemma execCommit_noFaults {s? : Except Err Store} {x : Except Err Unit} {ch : Choice}
    {w' : World B C} (h : execCommit noFaults w b s? ch = some (x, w')) :
    (x, w') = committed w b s? := by
  cases ch <;> cases s? <;> simp only [execCommit, noFaults, Option.some.injEq, Bool.false_eq_true,
    if_false, reduceCtorEq] at h <;> exact h.symm

lemma ensures_attributes {Q : Except Err Attributes → World B C → Prop} :
    (attributes b key).Ensures (alone bk noFaults c) Q w ↔ Q (attributesOf w b key) w :=
  ensures_perform (o := .attributes b key) (x := .ok) rfl fun _ _ _ h => execRead_noFaults h

/-- What `ReadAll` answers. -/
def bodyOf (w : World B C) (b : B) (key : String) : Except Err ByteArray :=
  match (w.store b).get key with
  | some o => .ok o.body
  | none => .error .notFound

lemma ensures_readAll {Q : Except Err ByteArray → World B C → Prop} :
    (readAll b key).Ensures (alone bk noFaults c) Q w ↔ Q (bodyOf w b key) w :=
  ensures_perform (o := .read b key) (x := .ok) rfl fun _ _ _ h => execRead_noFaults h

lemma ensures_writeAll {Q : Except Err Unit → World B C → Prop} {body : ByteArray} {md : Metadata}
    {pre : List Precondition} :
    (writeAll b key body md pre).Ensures (alone bk noFaults c) Q w ↔
      Q (committed w b ((w.store b).write (bk b) key body md pre)).1
        (committed w b ((w.store b).write (bk b) key body md pre)).2 :=
  ensures_perform (o := .write b key body md pre) (x := .ok) (execCommit_ok noFaults _)
    fun _ _ _ h => Prod.mk.inj (execCommit_noFaults h)

lemma ensures_delete {Q : Except Err Unit → World B C → Prop} {pre : List Precondition} :
    (delete b key pre).Ensures (alone bk noFaults c) Q w ↔
      Q (committed w b ((w.store b).delete key pre)).1
        (committed w b ((w.store b).delete key pre)).2 :=
  ensures_perform (o := .delete b key pre) (x := .ok) (execCommit_ok noFaults _)
    fun _ _ _ h => Prod.mk.inj (execCommit_noFaults h)

lemma ensures_now {Q : ℤ → World B C → Prop} :
    (now : BProg B ℤ).Ensures (alone bk noFaults c) Q w ↔ Q w.clock w :=
  ensures_perform (o := .now) (x := .ok) rfl fun _ _ _ h => by cases h; exact ⟨rfl, rfl⟩

lemma ensures_critical {Q : Mem → World B C → Prop} (f : Mem → Mem) :
    (critical f : BProg B Mem).Ensures (alone bk noFaults c) Q w ↔
      Q (w.mem c) (w.setMem c (f (w.mem c))) :=
  ensures_perform (o := .mem f) (x := .ok) rfl fun _ _ _ h => by cases h; exact ⟨rfl, rfl⟩

lemma ensures_randIntN {Q : ℕ → World B C → Prop} {n : ℕ} (hn : 0 < n) (h : ∀ i < n, Q i w) :
    (randIntN n : BProg B ℕ).Ensures (alone bk noFaults c) Q w := by
  refine ⟨⟨.pick 0, _, if_pos hn⟩, fun x r w' hx => ?_⟩
  obtain ⟨rfl, hr⟩ := exec_randIntN hx
  exact h r hr

/-- A listing: one of the pages that the backend may return, and there is one. -/
lemma ensures_listPage {Q : Except Err (List String × PageToken) → World B C → Prop}
    {token : PageToken} {pageSize : ℕ} {pref : String}
    (hsome : ∃ keys next, (bk b).lists (w.store b) token pageSize pref keys next = true)
    (h : ∀ keys next, (bk b).lists (w.store b) token pageSize pref keys next = true →
      Q (.ok (keys, next)) w) :
    (listPage b token pageSize pref).Ensures (alone bk noFaults c) Q w := by
  obtain ⟨keys, next, hl⟩ := hsome
  refine ⟨⟨.page keys next, _, exec_listPage_of noFaults (c, .main) hl⟩, fun x r w' hx => ?_⟩
  simp only [alone, exec] at hx
  split at hx
  · split at hx
    · rename_i hk
      cases hx
      exact h _ _ hk
    · cases hx
  · cases hx
  · cases hx

lemma ensures_readRecord {Q : Except Err (Metadata × Version) → World B C → Prop} :
    (readRecord b key).Ensures (alone bk noFaults c) Q w ↔ Q (recordOf w b key) w := by
  rw [readRecord, Prog.ensures_bind, ensures_attributes]
  unfold attributesOf recordOf
  cases (w.store b).get key <;> exact Iff.rfl

/-- A record that is written reads back as the commit that wrote it. -/
lemma ensures_writeBack {Q : Except Err Version → World B C → Prop} {md : Metadata}
    {pre : Precondition} {s : Store} (hs : (w.store b).write (bk b) key .empty md [pre] = .ok s) :
    (writeBack b key md pre).Ensures (alone bk noFaults c) Q w ↔
      Q (.ok ((bk b).version (w.store b).next .empty)) (w.setStore b s) := by
  have hget : ((w.setStore b s).store b).get key =
      some ⟨.empty, md, (bk b).version (w.store b).next .empty, (w.store b).next⟩ := by
    rw [World.setStore_store_self, Store.write_ok hs, Store.get_put_self]
  rw [writeBack, Prog.ensures_bind, ensures_writeAll, hs]
  refine (Prog.ensures_bind (p := attributes b key)).trans ?_
  rw [committed_ok, ensures_attributes, attributesOf, hget]
  exact Iff.rfl

end Ensures

end Blobster
