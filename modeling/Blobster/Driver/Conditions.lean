import Blobster.Driver.Tokens

/-!
# Which precondition lists are honoured

`CompilePreconditions` folds the list into a record in which a later entry overwrites an earlier one
of its kind and an empty version string is "not set"; `conditionsPass` then reads the record.  A call
with a list of conditions can therefore take effect although a listed condition did not hold.

* `Precondition.Held`, `AllHeld` — what the entries of a list say of the key's state.
* `Sound` — the lists that lose nothing when they are compiled.
* **`honoured_iff_sound`** — in every state of a bucket, every write and delete that takes effect
  met all its listed conditions, if and only if the list is sound.
-/

namespace Blobster

/-- The condition holds of a key whose object, if there is one, has the version. -/
def Precondition.Held (current : Option Version) : Precondition → Prop
  | .ifNotExists => current = none
  | .ifMatch v => current = some v
  | .ifNotMatch v => current ≠ some v

instance (current : Option Version) (c : Precondition) : Decidable (c.Held current) := by
  cases c <;> unfold Precondition.Held <;> infer_instance

/-- Every listed condition holds. -/
def AllHeld (pre : List Precondition) (current : Option Version) : Prop :=
  ∀ c ∈ pre, c.Held current

instance (pre : List Precondition) (current : Option Version) : Decidable (AllHeld pre current) :=
  List.decidableBAll _ _

/-- `IfNotExists` is never overwritten. -/
lemma foldl_apply_ifNotExists (pre : List Precondition) (p : Preconditions) :
    (pre.foldl Precondition.apply p).ifNotExists = true ↔
      p.ifNotExists = true ∨ Precondition.ifNotExists ∈ pre := by
  induction pre generalizing p with
  | nil => simp
  | cons c pre ih =>
      rw [List.foldl_cons, ih]
      cases c <;> simp [Precondition.apply]

lemma ifNotExists_mem_iff {pre : List Precondition} {p : Preconditions}
    (h : compilePreconditions pre = .ok p) :
    Precondition.ifNotExists ∈ pre ↔ p.ifNotExists = true := by
  rw [← (compilePreconditions_eq_ok_iff.mp h).1, foldl_apply_ifNotExists]
  simp

namespace MemDriver

/-! ## The versions a key can have -/

/-- The strings that the counter prints. -/
def IsToken (v : Version) : Prop := ∃ n : UInt64, v = formatUint n

lemma IsToken.ne_empty {v : Version} (h : IsToken v) : v ≠ "" := by
  obtain ⟨n, rfl⟩ := h
  exact Nat.repr_ne_empty

/-- Every stored version is a token. -/
lemma run_isToken (pf : Platform) {s : System}
    (h : ∀ key v, s.state.version key = some v → IsToken v) (calls : List Call) :
    ∀ key v, (s.run pf calls).state.version key = some v → IsToken v := by
  induction calls generalizing s with
  | nil => exact h
  | cons c calls ih =>
      refine ih fun key v hv => ?_
      have heff := step_effect pf s c
      generalize (s.step pf c).state = st' at heff hv
      cases heff with
      | none => exact h key v hv
      | erased key' ht =>
          by_cases hk : key = key'
          · subst hk
            simp [State.version] at hv
          · rw [State.version, State.get_erase_ne _ _ hk] at hv
            exact h key v hv
      | committed key' make ht hmake =>
          by_cases hk : key = key'
          · subst hk
            simp only [State.version, State.get_commit_self, Option.map_some, hmake,
              Option.some.injEq] at hv
            exact ⟨_, hv.symm⟩
          · rw [State.version, State.get_commit_ne _ _ _ hk] at hv
            exact h key v hv

section Attained

variable (pf : Platform) (b : Bucket) (key : String) (st : State)

/-- A write of nothing with default options is valid. -/
lemma validWriteAll_empty : b.ValidWriteAll pf key .empty {} 0 st := by
  have hopts : ∃ prepared, prepareWriteAllOptions pf {} .empty = .ok prepared ∧
      prepared.clone pf = .ok prepared ∧ prepared.beforeWrite = none ∧
      prepared.contentMD5 = pf.md5 .empty := by
    simp [prepareWriteAllOptions, WriterOptions.clone, normalizeMetadata, Except.map, pure,
      Except.pure]
  obtain ⟨prepared, hprep, hclone, hhook, hmd5⟩ := hopts
  unfold Bucket.ValidWriteAll
  simp only [Bucket.writeAll, hprep, newWriter_ok compilePreconditions_nil hclone hhook, Writer.write,
    Bool.false_eq_true, if_false, ByteArray.empty_append]
  rw [Writer.Valid.close ⟨rfl, fun _ => hmd5.symm⟩]
  rfl

/-- A write takes effect if the compiled conditions pass. -/
lemma writeAll_ne_of_pass {pre : List Precondition} {p : Preconditions}
    (hp : compilePreconditions pre = .ok p)
    (hpass : conditionsPass p (st.version (b.objectKey key)) = true) :
    (b.writeAll pf none key .empty {} pre 0 st).2 ≠ st := by
  obtain ⟨attrs, -, heq⟩ := (validWriteAll_empty pf b key st).writeAll
  rw [heq, hp]
  simp only [if_pos hpass]
  exact State.commit_ne _ _ _

/-- Writes of one key, over and over. -/
lemma run_replicate (s : System) (n : ℕ) :
    ∃ s', s.run pf (List.replicate (n + 1) (.writeAll b none key .empty {} [] 0)) = s' ∧
      s'.state.nextVersion = s.state.nextVersion + UInt64.ofNat (n + 1) ∧
      s'.state.version (b.objectKey key) = some (formatUint s'.state.nextVersion) := by
  obtain ⟨attrs, hattrs, heq⟩ := (validWriteAll_empty pf b key s.state).writeAll
  have hstep : (s.step pf (.writeAll b none key .empty {} [] 0)).state =
      s.state.commit (b.objectKey key) fun version => ⟨.empty, attrs version⟩ := by
    simp [System.step, heq, conditionsPass]
  induction n generalizing s attrs with
  | zero =>
      refine ⟨_, rfl, ?_⟩
      simp only [List.replicate, System.run_cons, System.run_nil, hstep]
      simp [State.version, hattrs]
  | succ n ih =>
      rw [List.replicate_succ, System.run_cons]
      set s₁ := s.step pf (.writeAll b none key .empty {} [] 0) with hs₁
      obtain ⟨attrs', hattrs', heq'⟩ := (validWriteAll_empty pf b key s₁.state).writeAll
      obtain ⟨s', hrun, hnext, hver⟩ := ih s₁ attrs' hattrs' heq' (by
        simp [System.step, heq', conditionsPass])
      refine ⟨s', hrun, ?_, hver⟩
      rw [hnext, hstep, State.nextVersion_commit, UInt64.ofNat_add (n + 1) 1, UInt64.add_assoc,
        UInt64.add_comm 1]
      rfl

/-- The counter takes every value, zero too when it wraps around. -/
lemma exists_ofNat_succ (n : UInt64) : ∃ k : ℕ, UInt64.ofNat (k + 1) = n := by
  refine ⟨n.toNat + (2 ^ 64 - 1), UInt64.toNat_inj.mp ?_⟩
  have hlt := n.toNat_lt
  rw [UInt64.toNat_ofNat']
  omega

/-- Every token is the version of the key in some state. -/
lemma exists_run_version {v : Version} (hv : IsToken v) :
    ∃ calls, (System.run pf {} calls).state.version (b.objectKey key) = some v := by
  obtain ⟨n, rfl⟩ := hv
  obtain ⟨k, rfl⟩ := exists_ofNat_succ n
  obtain ⟨s', hrun, hnext, hver⟩ := run_replicate pf b key {} k
  rw [← hrun] at hver hnext
  refine ⟨_, hver.trans ?_⟩
  rw [hnext]
  simp

end Attained

/-! ## Sound lists -/

/-- The list loses nothing when it is compiled.  Either the token that it requires is one that no
object ever has; or every `IfMatch` names the token that the compiled record requires, and every
`IfNotMatch` of a token is the one the record forbids or is implied by the condition it has. -/
def Sound (pre : List Precondition) : Prop :=
  ∀ p, compilePreconditions pre = .ok p →
    (p.ifMatch ≠ "" ∧ ¬ IsToken p.ifMatch) ∨
    ((∀ v, .ifMatch v ∈ pre → v = p.ifMatch ∧ v ≠ "") ∧
      ∀ u, .ifNotMatch u ∈ pre → IsToken u →
        u = p.ifNotMatch ∨ p.ifNotExists = true ∨ (p.ifMatch ≠ "" ∧ u ≠ p.ifMatch))

/-- A sound list whose record passes holds. -/
lemma Sound.allHeld {pre : List Precondition} (h : Sound pre) {p : Preconditions}
    (hp : compilePreconditions pre = .ok p) {current : Option Version}
    (hcur : ∀ v, current = some v → IsToken v) (hpass : conditionsPass p current = true) :
    AllHeld pre current := by
  have hexcl := (compilePreconditions_eq_ok_iff.mp hp).2
  rcases h p hp with ⟨hne, hnot⟩ | ⟨hmatch, hnotMatch⟩
  · -- the record requires a token that no object has
    have hn : p.ifNotExists = false := by
      by_contra hn
      exact hne (hexcl.1 (by simpa using hn)).1
    simp only [conditionsPass, hn, Bool.false_eq_true, if_false, if_pos hne, beq_iff_eq] at hpass
    exact absurd (hcur _ hpass) hnot
  · intro c hc
    by_cases hn : p.ifNotExists = true
    · simp only [conditionsPass, hn, if_true, Option.isNone_iff_eq_none] at hpass
      subst hpass
      cases c with
      | ifNotExists => rfl
      | ifMatch v =>
          obtain ⟨hv, hne⟩ := hmatch v hc
          exact absurd (hv.trans (hexcl.1 hn).1) hne
      | ifNotMatch u => exact Option.some_ne_none u ∘ Eq.symm
    · have hnotExists : Precondition.ifNotExists ∉ pre := fun hmem =>
        hn ((ifNotExists_mem_iff hp).mp hmem)
      cases c with
      | ifNotExists => exact absurd hc hnotExists
      | ifMatch v =>
          obtain ⟨rfl, hne⟩ := hmatch v hc
          simpa [conditionsPass, hn, hne, Precondition.Held] using hpass
      | ifNotMatch u =>
          intro hu
          have htok := hcur u hu
          rcases hnotMatch u hc htok with rfl | hn' | ⟨hne, hu'⟩
          · have hm : p.ifMatch = "" := by
              by_contra hm
              exact htok.ne_empty (hexcl.2 hm)
            simp [conditionsPass, hn, hm, htok.ne_empty, hu] at hpass
          · exact hn hn'
          · simp [conditionsPass, hn, hne, hu, hu'] at hpass

/-- If every passing state holds, the list is sound. -/
lemma sound_of_allHeld {pre : List Precondition}
    (h : ∀ p, compilePreconditions pre = .ok p → ∀ current : Option Version,
      (∀ v, current = some v → IsToken v) → conditionsPass p current = true → AllHeld pre current) :
    Sound pre := by
  intro p hp
  have hexcl := (compilePreconditions_eq_ok_iff.mp hp).2
  by_cases hm : p.ifMatch = ""
  · right
    have hnone := h p hp none (fun _ hv => nomatch hv) (by simp [conditionsPass, hm])
    refine ⟨fun v hv => absurd (hnone _ hv) (by simp [Precondition.Held]), fun u hu htok => ?_⟩
    by_cases hn : p.ifNotExists = true
    · exact Or.inr (Or.inl hn)
    · left
      by_contra hne
      have hsome := h p hp (some u) (fun v hv => Option.some.inj hv ▸ htok)
        (by simp [conditionsPass, hn, hm, hne])
      exact hsome _ hu rfl
  · by_cases htok : IsToken p.ifMatch
    · right
      have hn : ¬ p.ifNotExists = true := fun hn => hm (hexcl.1 hn).1
      have hsome := h p hp (some p.ifMatch) (fun v hv => Option.some.inj hv ▸ htok)
        (by simp [conditionsPass, hn, hm])
      refine ⟨fun v hv => ?_, fun u hu _ => Or.inr (Or.inr ⟨hm, fun heq => ?_⟩)⟩
      · have hv' := Option.some.inj (hsome _ hv)
        exact ⟨hv'.symm, hv' ▸ hm⟩
      · exact hsome _ hu (congrArg some heq.symm)
    · exact Or.inl ⟨hm, htok⟩

/-- **Every listed precondition is honoured exactly for the sound lists**: in every state that calls
can bring about, every `WriteAll`, every writer that is closed and every `Delete` with the list that
takes effect met all the conditions of the list. -/
theorem honoured_iff_sound (pf : Platform) (pre : List Precondition) :
    (∀ (calls : List Call) (b : Bucket) (key : String),
      let st := (System.run pf {} calls).state
      let current := st.version (b.objectKey key)
      (∀ ctx p opts now, (b.writeAll pf ctx key p opts pre now st).2 ≠ st → AllHeld pre current) ∧
      (∀ opts w, b.newWriter pf key opts pre = .ok w → ∀ buf ctx now,
        (({ w with buf := buf } : Writer).close pf ctx now st).2.2 ≠ st → AllHeld pre current) ∧
      (∀ ctx, (b.delete ctx key pre st).2 ≠ st → AllHeld pre current)) ↔
    Sound pre := by
  constructor
  · intro h
    refine sound_of_allHeld fun p hp current hcur hpass => ?_
    cases current with
    | none => exact (h [] {} "").1 none .empty {} 0 (writeAll_ne_of_pass pf _ _ _ hp hpass)
    | some v =>
        obtain ⟨calls, hv⟩ := exists_run_version pf {} "" (hcur v rfl)
        have hheld := (h calls {} "").1 none .empty {} 0
          (writeAll_ne_of_pass pf _ _ _ hp (by rw [hv]; exact hpass))
        rwa [hv] at hheld
  · intro h calls b key
    have htok := run_isToken pf (s := {}) (fun key v hv => by simp [State.version] at hv) calls
      (b.objectKey key)
    refine ⟨fun ctx p opts now hne => ?_, fun opts w hw buf ctx now hne => ?_, fun ctx hne => ?_⟩
    · obtain ⟨compiled, hc, hpass⟩ := writeAll_passed hne
      exact h.allHeld hc htok hpass
    · obtain ⟨hc, rfl, rfl, -⟩ := newWriter_names pf b hw
      have hpass := close_passed hne
      exact h.allHeld hc htok hpass
    · obtain ⟨compiled, hc, hpass⟩ := delete_passed hne
      exact h.allHeld hc htok hpass

/-- A list with an empty `IfMatch`, and one whose second `IfMatch` overwrites the first, overwrite
and delete an object of another version. -/
theorem honoured_overwritten :
    let st := (System.run plain {} [.writeAll {} none "k" ⟨#[1]⟩ {} [] 0]).state
    st.version "k" = some "1" ∧
    ((Bucket.writeAll plain {} none "k" ⟨#[2]⟩ {} [.ifMatch ""] 1 st).2 ≠ st ∧
      ¬ AllHeld [.ifMatch ""] (st.version "k")) ∧
    ((Bucket.delete {} none "k" [.ifMatch "9", .ifMatch "1"] st).2 ≠ st ∧
      ¬ AllHeld [.ifMatch "9", .ifMatch "1"] (st.version "k")) := by
  decide +kernel

end MemDriver

end Blobster
