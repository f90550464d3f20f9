import Blobster.Driver.Mem

/-!
# Version tokens of the mem driver

The lock and the queue compare and swap on version tokens, so a token must stand for one commit and
for no other: not for a commit to another key, not for one through another view, not for one after a
delete.

* `commits` — the log of what a run committed.  `Logged` ties it to the state: the counter is its
  length, its tokens are the decimals from one on, and every stored object is in it.
* `Spent` — a token that was handed out and is stored no longer.  It stays so (`Spent.step`), which
  is why a compare-and-swap against it cannot succeed again.
* **`cas_without_aba`** — no token twice, a conditional call takes effect exactly on the commit that
  produced its token, and at most one conditional call per token takes effect.
* **`writeAll_simulates`**, **`delete_simulates`** — the driver's commits are those of
  `Blobster.Store` with `memBackend`.
-/

namespace Blobster.MemDriver

variable (pf : Platform)

/-! ## The log of commits -/

namespace System

/-- What a call commits: the object it leaves under the key it names, if it draws a token. -/
def committed (s : System) (c : Call) : Option (String × Object) :=
  if (s.step pf c).state.nextVersion = s.state.nextVersion then none
  else (s.target c).bind fun key => ((s.step pf c).state.get key).map fun o => (key, o)

/-- The commits of a run, in order. -/
def commits (s : System) : List Call → List (String × Object)
  | [] => []
  | c :: calls => (s.committed pf c).toList ++ (s.step pf c).commits calls

/-- The token that a conditional write or delete expects. -/
def expected (s : System) : Call → Option Version
  | .close i _ _ => (s.writers[i]?).bind fun w => token w.preconditions
  | .writeAll _ _ _ _ _ pre _ => (compilePreconditions pre).toOption.bind token
  | .delete _ _ _ pre => (compilePreconditions pre).toOption.bind token
  | _ => none
where
  /-- An empty version string is no condition. -/
  token (p : Preconditions) : Option Version := if p.ifMatch = "" then none else some p.ifMatch

/-- How many calls of a run expect the token and take effect. -/
def wins (version : Version) (s : System) : List Call → ℕ
  | [] => 0
  | c :: calls =>
      (if s.expected c = some version ∧ (s.step pf c).state ≠ s.state then 1 else 0) +
        (s.step pf c).wins version calls

end System

lemma add_one_ne_self (n : UInt64) : n + 1 ≠ n := by
  intro h
  have := congrArg UInt64.toNat h
  simp only [UInt64.toNat_add, UInt64.toNat_one] at this
  have := n.toNat_lt
  omega

/-- A call that leaves the counter alone commits nothing. -/
lemma committed_of_eq {s : System} {c : Call}
    (h : (s.step pf c).state.nextVersion = s.state.nextVersion) : s.committed pf c = none :=
  if_pos h

/-- A call that commits logs the object it commits. -/
lemma committed_of_commit {s : System} {c : Call} {key : String} {make : Version → Object}
    (ht : s.target c = some key) (h : (s.step pf c).state = s.state.commit key make) :
    s.committed pf c = some (key, make (formatUint (s.state.nextVersion + 1))) := by
  have hne : (s.step pf c).state.nextVersion ≠ s.state.nextVersion := by
    rw [h]
    exact add_one_ne_self _
  rw [System.committed, if_neg hne, ht, h]
  simp

/-- What ties the state to the log of the commits so far. -/
structure Logged (log : List (String × Object)) (st : State) : Prop where
  count : st.nextVersion.toNat = log.length
  tokens : log.map (fun c => c.2.attrs.version) = (List.range log.length).map fun i => Nat.repr (i + 1)
  stored : ∀ key o, st.get key = some o → (key, o) ∈ log

namespace Logged

variable {log : List (String × Object)} {st : State}

/-- No token is handed out twice. -/
lemma nodup (h : Logged log st) : (log.map fun c => c.2.attrs.version).Nodup := by
  rw [h.tokens]
  exact List.nodup_range.map fun i j hij => Nat.succ_injective (Nat.repr_injective hij)

/-- A token identifies its commit. -/
lemma eq_of_version (h : Logged log st) {c c' : String × Object} (hc : c ∈ log) (hc' : c' ∈ log)
    (hv : c.2.attrs.version = c'.2.attrs.version) : c = c' :=
  List.inj_on_of_nodup_map h.nodup hc hc' hv

/-- The next token was not handed out before. -/
lemma fresh (h : Logged log st) (hlen : log.length + 1 < 2 ^ 64) {c : String × Object}
    (hc : c ∈ log) : c.2.attrs.version ≠ formatUint (st.nextVersion + 1) := by
  have hmem : c.2.attrs.version ∈ log.map fun c => c.2.attrs.version := List.mem_map_of_mem hc
  rw [h.tokens] at hmem
  obtain ⟨i, hi, hv⟩ := List.mem_map.mp hmem
  rw [List.mem_range] at hi
  rw [← hv]
  intro heq
  have hn := Nat.repr_injective heq
  simp only [UInt64.toNat_add, UInt64.toNat_one, h.count] at hn
  omega

lemma empty : Logged [] {} where
  count := rfl
  tokens := rfl
  stored key o h := by simp at h

/-- The log after an effect. -/
lemma step {s : System} (h : Logged log s.state) (hlen : log.length + 1 < 2 ^ 64) (c : Call) :
    Logged (log ++ (s.committed pf c).toList) (s.step pf c).state := by
  have heff := step_effect pf s c
  generalize hst : (s.step pf c).state = st' at heff
  cases heff with
  | none =>
      rw [committed_of_eq pf (by rw [hst])]
      simpa using h
  | erased key ht =>
      rw [committed_of_eq pf (by rw [hst, State.nextVersion_erase])]
      refine ⟨by simpa using h.count, by simpa using h.tokens, fun key' o ho => ?_⟩
      by_cases hk : key' = key
      · subst hk
        simp at ho
      · rw [State.get_erase_ne _ _ hk] at ho
        simpa using h.stored key' o ho
  | committed key make ht hv =>
      rw [committed_of_commit pf ht hst]
      have hcount : (s.state.nextVersion + 1).toNat = log.length + 1 := by
        rw [UInt64.toNat_add, UInt64.toNat_one, h.count]
        omega
      refine ⟨by simpa using hcount, ?_, fun key' o ho => ?_⟩
      · simp [List.range_succ, h.tokens, hv, formatUint, hcount]
      · by_cases hk : key' = key
        · subst hk
          simp only [State.get_commit_self, Option.some.injEq] at ho
          simp [ho]
        · rw [State.get_commit_ne _ _ _ hk] at ho
          simp [h.stored key' o ho]

/-- The log after a run. -/
lemma run {s : System} (h : Logged log s.state) (calls : List Call)
    (hlen : log.length + calls.length < 2 ^ 64) :
    Logged (log ++ s.commits pf calls) (s.run pf calls).state := by
  induction calls generalizing s log with
  | nil => simpa [System.commits] using h
  | cons c calls ih =>
      have hc : (s.committed pf c).toList.length ≤ 1 := by
        cases s.committed pf c <;> simp
      have h' := ih (h.step pf (by simp at hlen; omega) c) (by simp at hlen ⊢; omega)
      simpa [System.commits, List.append_assoc] using h'

end Logged

/-! ## Spent tokens -/

/-- The token was handed out, and no stored object bears it. -/
structure Spent (log : List (String × Object)) (st : State) (version : Version) : Prop where
  issued : ∃ c ∈ log, c.2.attrs.version = version
  gone : ∀ key o, st.get key = some o → o.attrs.version ≠ version

/-- A token that an effect takes from its key is spent. -/
lemma Logged.spent {log : List (String × Object)} {st : State} (h : Logged log st) {key : String}
    {o : Object} (ho : st.get key = some o) {log' : List (String × Object)} {st' : State}
    (hlog : ∀ c ∈ log, c ∈ log') (hother : ∀ key', key' ≠ key → st'.get key' = st.get key')
    (hkey : ∀ o', st'.get key = some o' → o'.attrs.version ≠ o.attrs.version) :
    Spent log' st' o.attrs.version := by
  refine ⟨⟨_, hlog _ (h.stored key o ho), rfl⟩, fun key' o' ho' => ?_⟩
  by_cases hk : key' = key
  · subst hk
    exact hkey o' ho'
  · rw [hother key' hk] at ho'
    intro hv
    have heq := h.eq_of_version (h.stored _ _ ho') (h.stored _ _ ho) hv
    exact hk (Prod.mk.inj heq).1

/-- A spent token stays spent. -/
lemma Spent.step {log : List (String × Object)} {s : System} {version : Version}
    (hsp : Spent log s.state version) (h : Logged log s.state) (hlen : log.length + 1 < 2 ^ 64)
    (c : Call) :
    Spent (log ++ (s.committed pf c).toList) (s.step pf c).state version := by
  obtain ⟨⟨d, hd, hdv⟩, hgone⟩ := hsp
  refine ⟨⟨d, List.mem_append_left _ hd, hdv⟩, ?_⟩
  have heff := step_effect pf s c
  generalize (s.step pf c).state = st' at heff
  intro key' o ho
  cases heff with
  | none => exact hgone key' o ho
  | erased key ht =>
      by_cases hk : key' = key
      · subst hk
        simp at ho
      · rw [State.get_erase_ne _ _ hk] at ho
        exact hgone key' o ho
  | committed key make ht hv =>
      by_cases hk : key' = key
      · subst hk
        simp only [State.get_commit_self, Option.some.injEq] at ho
        rw [← ho, hv, ← hdv]
        exact (h.fresh hlen hd).symm
      · rw [State.get_commit_ne _ _ _ hk] at ho
        exact hgone key' o ho

/-! ## Conditional calls -/

section Conditional

variable {pf} {st : State}

/-- A write that takes effect passed its conditions. -/
lemma close_passed {w : Writer} {ctx : Option Err} {now : ℤ} (h : (w.close pf ctx now st).2.2 ≠ st) :
    conditionsPass w.preconditions (st.version (w.bucket.objectKey w.key)) = true := by
  unfold Writer.close at h
  split at h
  · exact absurd rfl h
  · cases ctx with
    | some e => exact absurd rfl h
    | none =>
        dsimp only at h
        split at h
        · exact absurd rfl h
        · split at h
          · assumption
          · exact absurd rfl h

lemma writeAll_passed {b : Bucket} {ctx : Option Err} {key : String} {p : ByteArray}
    {opts : WriterOptions} {pre : List Precondition} {now : ℤ}
    (h : (b.writeAll pf ctx key p opts pre now st).2 ≠ st) :
    ∃ compiled, compilePreconditions pre = .ok compiled ∧
      conditionsPass compiled (st.version (b.objectKey key)) = true := by
  unfold Bucket.writeAll at h
  split at h
  · exact absurd rfl h
  · split at h
    · exact absurd rfl h
    · rename_i writer hw
      obtain ⟨hp, hb, hk, -⟩ := newWriter_names pf b hw
      obtain ⟨hb', hk', hp'⟩ := write_names writer ctx p
      split at h
      · exact absurd rfl h
      · rename_i w' heq
        rw [heq] at hb' hk' hp'
        have hpass := close_passed h
        rw [hb', hk', hb, hk, hp'] at hpass
        exact ⟨_, hp, hpass⟩

lemma delete_passed {b : Bucket} {ctx : Option Err} {key : String} {pre : List Precondition}
    (h : (b.delete ctx key pre st).2 ≠ st) :
    ∃ compiled, compilePreconditions pre = .ok compiled ∧
      conditionsPass compiled (st.version (b.objectKey key)) = true := by
  unfold Bucket.delete at h
  split at h
  · exact absurd rfl h
  · split at h
    · exact absurd rfl h
    · rename_i compiled hp
      split at h
      · exact absurd rfl h
      · rename_i current hget
        split at h
        · rename_i hpass
          exact ⟨compiled, hp, by simpa [State.version, hget] using hpass⟩
        · exact absurd rfl h

/-- Conditions with a token pass only on the object that bears it. -/
lemma version_of_passed {pre : List Precondition} {p : Preconditions} {version : Version}
    (hc : compilePreconditions pre = .ok p) (hv : System.expected.token p = some version)
    {current : Option Version} (h : conditionsPass p current = true) : current = some version := by
  unfold System.expected.token at hv
  split at hv
  · cases hv
  · rename_i hne
    obtain rfl := Option.some.inj hv
    have hexcl := (compilePreconditions_eq_ok_iff.mp hc).2
    have hn : p.ifNotExists = false := by
      by_contra hn
      exact hne (hexcl.1 (by simpa using hn)).1
    simpa [conditionsPass, hn, hne] using h

/-- A call that expects a token takes effect only on the object that bears it. -/
lemma expected_stored {s : System} {c : Call} {version : Version}
    (hexp : s.expected c = some version) (h : (s.step pf c).state ≠ s.state) :
    ∃ key o, s.target c = some key ∧ s.state.get key = some o ∧ o.attrs.version = version := by
  suffices hkey : ∃ key, s.target c = some key ∧ s.state.version key = some version by
    obtain ⟨key, ht, hkey⟩ := hkey
    obtain ⟨o, ho, hv⟩ := Option.map_eq_some_iff.mp hkey
    exact ⟨key, o, ht, ho, hv⟩
  cases c with
  | close i ctx now =>
      cases hw : s.writers[i]? with
      | none => simp [System.expected, hw] at hexp
      | some w =>
          simp only [System.expected, hw, Option.bind_some] at hexp
          simp only [System.step, hw] at h
          obtain ⟨pre, hpre⟩ := w.compiled
          exact ⟨_, by simp [System.target, hw], version_of_passed hpre hexp (close_passed h)⟩
  | writeAll b ctx key p opts pre now =>
      obtain ⟨compiled, hpre, hpass⟩ := writeAll_passed h
      simp only [System.expected, hpre, Except.toOption, Option.bind_some] at hexp
      exact ⟨_, rfl, version_of_passed hpre hexp hpass⟩
  | delete b ctx key pre =>
      obtain ⟨compiled, hpre, hpass⟩ := delete_passed h
      simp only [System.expected, hpre, Except.toOption, Option.bind_some] at hexp
      exact ⟨_, rfl, version_of_passed hpre hexp hpass⟩
  | newWriter => cases hexp
  | write => cases hexp
  | closeWithError => cases hexp
  | copy => cases hexp
  | updateMetadata => cases hexp

/-- A token that a conditional call expects is spent when the call takes effect. -/
lemma Logged.spent_of_win {log : List (String × Object)} {s : System} (h : Logged log s.state)
    (hlen : log.length + 1 < 2 ^ 64) {c : Call} {version : Version}
    (hexp : s.expected c = some version) (hne : (s.step pf c).state ≠ s.state) :
    Spent (log ++ (s.committed pf c).toList) (s.step pf c).state version := by
  obtain ⟨key, o, ht, ho, rfl⟩ := expected_stored hexp hne
  have heff := step_effect pf s c
  have hlog : ∀ d ∈ log, d ∈ log ++ (s.committed pf c).toList := fun d => List.mem_append_left _
  generalize (s.step pf c).state = st' at heff hne
  cases heff with
  | none => exact absurd rfl hne
  | erased key' ht' =>
      obtain rfl := Option.some.inj (ht.symm.trans ht')
      exact h.spent ho hlog (fun _ hk => State.get_erase_ne _ _ hk) (by simp)
  | committed key' make ht' hv =>
      obtain rfl := Option.some.inj (ht.symm.trans ht')
      refine h.spent ho hlog (fun _ hk => State.get_commit_ne _ _ _ hk) fun o' ho' => ?_
      simp only [State.get_commit_self, Option.some.injEq] at ho'
      rw [← ho', hv]
      exact (h.fresh hlen (h.stored _ _ ho)).symm

end Conditional

section Wins

variable {log : List (String × Object)}

/-- Nobody wins with a spent token. -/
lemma Spent.wins {s : System} {version : Version} (hsp : Spent log s.state version)
    (h : Logged log s.state) (calls : List Call) (hlen : log.length + calls.length < 2 ^ 64) :
    s.wins pf version calls = 0 := by
  induction calls generalizing s log with
  | nil => rfl
  | cons c calls ih =>
      have hone : log.length + 1 < 2 ^ 64 := by simp at hlen; omega
      have hc : (s.committed pf c).toList.length ≤ 1 := by cases s.committed pf c <;> simp
      have hlose : ¬ (s.expected c = some version ∧ (s.step pf c).state ≠ s.state) := by
        rintro ⟨hexp, hne⟩
        obtain ⟨key, o, -, ho, hv⟩ := expected_stored hexp hne
        exact hsp.gone key o ho hv
      rw [System.wins, if_neg hlose, ih (hsp.step pf h hone c) (h.step pf hone c)
        (by simp at hlen ⊢; omega)]

/-- At most one conditional call per token wins. -/
lemma Logged.wins_le_one {s : System} (h : Logged log s.state) (version : Version)
    (calls : List Call) (hlen : log.length + calls.length < 2 ^ 64) :
    s.wins pf version calls ≤ 1 := by
  induction calls generalizing s log with
  | nil => exact Nat.zero_le _
  | cons c calls ih =>
      have hone : log.length + 1 < 2 ^ 64 := by simp at hlen; omega
      have hc : (s.committed pf c).toList.length ≤ 1 := by cases s.committed pf c <;> simp
      have hrest : (log ++ (s.committed pf c).toList).length + calls.length < 2 ^ 64 := by
        simp at hlen ⊢
        omega
      rw [System.wins]
      split
      · rename_i hwin
        rw [(h.spent_of_win hone hwin.1 hwin.2).wins pf (h.step pf hone c) calls hrest]
      · rw [Nat.zero_add]
        exact ih (h.step pf hone c) hrest

end Wins

/-! ## Valid calls -/

/-- Nothing but a condition can keep the writer from committing: it is open, and its bytes have the
digest its options ask for. -/
def Writer.Valid (w : Writer) : Prop :=
  w.closed = false ∧ (w.opts.contentMD5.size > 0 → pf.md5 w.buf = w.opts.contentMD5)

/-- Nothing but a condition can keep the write from committing: without one it does. -/
def Bucket.ValidWriteAll (b : Bucket) (key : String) (p : ByteArray) (opts : WriterOptions)
    (now : ℤ) (st : State) : Prop :=
  (b.writeAll pf none key p opts [] now st).1 = .ok ()

section Valid

variable {pf} {st : State} {b : Bucket} {key : String}

/-- A valid writer commits if its conditions pass. -/
lemma Writer.Valid.close {w : Writer} (hw : w.Valid pf) (now : ℤ) :
    w.close pf none now st =
      if conditionsPass w.preconditions (st.version (w.bucket.objectKey w.key)) then
        (.ok (), { w with closed := true }, st.commit (w.bucket.objectKey w.key) fun version =>
          ⟨w.buf, w.attrs pf now version⟩)
      else (.error .preconditionFailed, { w with closed := true }, st) := by
  obtain ⟨hopen, hmd5⟩ := hw
  have hmd5 : ¬ (w.opts.contentMD5.size > 0 ∧ pf.md5 w.buf ≠ w.opts.contentMD5) :=
    fun h => h.2 (hmd5 h.1)
  simp only [Writer.close, hopen, if_neg hmd5, Bool.false_eq_true, if_false]

/-- `NewWriter` compiles the conditions first. -/
lemma newWriter_error {opts : WriterOptions} {pre : List Precondition} {e : Err}
    (h : compilePreconditions pre = .error e) : b.newWriter pf key opts pre = .error e := by
  unfold Bucket.newWriter
  split
  · rename_i e' h'
    rw [h'] at h
    rw [Except.error.inj h]
  · rename_i h'
    rw [h'] at h
    cases h

lemma newWriter_ok {opts cloned : WriterOptions} {pre : List Precondition} {p : Preconditions}
    (h : compilePreconditions pre = .ok p) (hopts : opts.clone pf = .ok cloned)
    (hhook : cloned.beforeWrite = none) :
    b.newWriter pf key opts pre = .ok ⟨b, key, cloned, p, ⟨pre, h⟩, .empty, false⟩ := by
  unfold Bucket.newWriter
  split
  · rename_i h'
    rw [h'] at h
    cases h
  · rename_i p' h'
    obtain rfl := Except.ok.inj (h'.symm.trans h)
    simp only [hopts, hhook]

/-- A valid write compiles its conditions and commits if they pass. -/
lemma Bucket.ValidWriteAll.writeAll {p : ByteArray} {opts : WriterOptions} {now : ℤ}
    (h : b.ValidWriteAll pf key p opts now st) :
    ∃ attrs : Version → ObjectAttrs, (∀ version, (attrs version).version = version) ∧
      ∀ pre, b.writeAll pf none key p opts pre now st =
        match compilePreconditions pre with
        | .error e => (.error e, st)
        | .ok compiled =>
            if conditionsPass compiled (st.version (b.objectKey key)) then
              (.ok (), st.commit (b.objectKey key) fun version => ⟨p, attrs version⟩)
            else (.error .preconditionFailed, st) := by
  unfold Bucket.ValidWriteAll Bucket.writeAll at h
  cases hopts : prepareWriteAllOptions pf opts p with
  | error e => simp [hopts] at h
  | ok prepared =>
      cases hclone : prepared.clone pf with
      | error e => simp [hopts, Bucket.newWriter, hclone] at h
      | ok cloned =>
          cases hhook : cloned.beforeWrite with
          | some e => simp [hopts, Bucket.newWriter, hclone, hhook] at h
          | none =>
              -- the write without a condition shows that the digest is the one asked for
              have hmd5 : cloned.contentMD5.size > 0 → pf.md5 p = cloned.contentMD5 := by
                intro hsize
                by_contra hne
                rw [hopts] at h
                simp only [newWriter_ok compilePreconditions_nil hclone hhook, Writer.write, Writer.close,
                  ByteArray.empty_append, Bool.false_eq_true, if_false] at h
                rw [if_pos ⟨hsize, hne⟩] at h
                cases h
              refine ⟨(⟨b, key, cloned, {}, ⟨[], rfl⟩, p, false⟩ : Writer).attrs pf now,
                fun _ => rfl, fun pre => ?_⟩
              simp only [Bucket.writeAll, hopts]
              cases hpre : compilePreconditions pre with
              | error e => simp only [newWriter_error hpre]
              | ok compiled =>
                  simp only [newWriter_ok hpre hclone hhook, Writer.write, ByteArray.empty_append,
                    Bool.false_eq_true, if_false]
                  rw [Writer.Valid.close ⟨rfl, hmd5⟩]
                  split <;> rfl

/-- A valid conditional write takes effect on the object that bears its token, and on no other. -/
lemma writeAll_ifMatch {p : ByteArray} {opts : WriterOptions} {now : ℤ}
    (h : b.ValidWriteAll pf key p opts now st) {version : Version} (hv : version ≠ "") :
    (b.writeAll pf none key p opts [.ifMatch version] now st).2 ≠ st ↔
      st.version (b.objectKey key) = some version := by
  obtain ⟨attrs, -, heq⟩ := h.writeAll
  rw [heq, compilePreconditions_ifMatch]
  dsimp only
  rw [conditionsPass_ifMatch hv]
  by_cases hcur : st.version (b.objectKey key) = some version
  · simp [hcur, State.commit_ne]
  · simp [hcur]

lemma close_ifMatch {w : Writer} (hw : w.Valid pf) {version : Version} (hv : version ≠ "")
    (hp : w.preconditions = { ifMatch := version }) (now : ℤ) :
    (w.close pf none now st).2.2 ≠ st ↔
      st.version (w.bucket.objectKey w.key) = some version := by
  have hpass : conditionsPass w.preconditions (st.version (w.bucket.objectKey w.key)) =
      (st.version (w.bucket.objectKey w.key) == some version) := by
    rw [hp, conditionsPass_ifMatch hv]
  rw [hw.close, hpass]
  by_cases hcur : st.version (w.bucket.objectKey w.key) = some version
  · simp [hcur, State.commit_ne]
  · simp [hcur]

lemma delete_ifMatch {version : Version} (hv : version ≠ "") :
    (b.delete none key [.ifMatch version] st).2 ≠ st ↔
      st.version (b.objectKey key) = some version := by
  unfold Bucket.delete State.version
  rw [compilePreconditions_ifMatch]
  cases hget : st.get (b.objectKey key) with
  | none => simp
  | some o =>
      dsimp only
      rw [conditionsPass_ifMatch hv, Option.map_some]
      by_cases hcur : o.attrs.version = version
      · simp only [hcur, beq_self_eq_true, if_true, iff_true]
        intro heq
        have hgone := State.get_erase_self st (b.objectKey key)
        rw [heq, hget] at hgone
        cases hgone
      · simp [hcur]

end Valid

/-! ## Compare and swap -/

/-- The key holds the object of the commit that produced the token. -/
def HoldsCommit (log : List (String × Object)) (st : State) (key : String) (version : Version) :
    Prop :=
  ∃ o, (key, o) ∈ log ∧ o.attrs.version = version ∧ st.get key = some o

lemma Logged.holdsCommit_iff {log : List (String × Object)} {st : State} (h : Logged log st)
    {key : String} {version : Version} :
    HoldsCommit log st key version ↔ st.version key = some version := by
  constructor
  · rintro ⟨o, -, hv, ho⟩
    simp [State.version, ho, hv]
  · intro hv
    obtain ⟨o, ho, hv⟩ := Option.map_eq_some_iff.mp hv
    exact ⟨o, h.stored key o ho, hv, ho⟩

/-- **Compare-and-swap without ABA.**  In a run of fewer than `2 ^ 64` calls through any views, no two
commits produce the same token; a valid write or delete with `IfMatch` takes effect exactly when its
key holds the commit that produced the token; and of all conditional calls that expect one token, at
most one takes effect. -/
theorem cas_without_aba (calls : List Call) (hlen : calls.length < 2 ^ 64) :
    ((System.commits pf {} calls).map fun c => c.2.attrs.version).Nodup ∧
    (∀ (b : Bucket) (key : String) (version : Version), version ≠ "" →
      let st := (System.run pf {} calls).state
      let current := HoldsCommit (System.commits pf {} calls) st (b.objectKey key) version
      (∀ p opts now, b.ValidWriteAll pf key p opts now st →
        ((b.writeAll pf none key p opts [.ifMatch version] now st).2 ≠ st ↔ current)) ∧
      (∀ (w : Writer) now, w.Valid pf → w.bucket = b → w.key = key →
        w.preconditions = { ifMatch := version } →
        ((w.close pf none now st).2.2 ≠ st ↔ current)) ∧
      ((b.delete none key [.ifMatch version] st).2 ≠ st ↔ current)) ∧
    ∀ version, System.wins pf version {} calls ≤ 1 := by
  have h : Logged (System.commits pf {} calls) (System.run pf {} calls).state := by
    simpa using Logged.empty.run pf (s := {}) calls (by simpa using hlen)
  refine ⟨h.nodup, fun b key version hv => ⟨?_, ?_, ?_⟩, fun version => ?_⟩
  · intro p opts now hvalid
    rw [writeAll_ifMatch hvalid hv, h.holdsCommit_iff]
  · rintro w now hw rfl rfl hp
    rw [close_ifMatch hw hv hp, h.holdsCommit_iff]
  · rw [delete_ifMatch hv, h.holdsCommit_iff]
  · exact Logged.empty.wins_le_one pf version calls (by simpa using hlen)

/-- A platform for runs: no content is sniffed, digests are the content itself. -/
def plain : Platform := ⟨id, fun _ => "", id⟩

/-- Two writers race for the first token of a key, through different views of it, and a delete and a
new write follow. -/
def raced : List Call :=
  [.writeAll ⟨""⟩ none "a/k" ⟨#[1]⟩ {} [.ifNotExists] 0,
    .newWriter ⟨""⟩ "a/k" {} [.ifMatch "1"], .newWriter (Bucket.sub ⟨""⟩ "a/") "k" {} [.ifMatch "1"],
    .write 0 none ⟨#[2]⟩, .close 1 none 1, .close 0 none 2,
    .delete ⟨""⟩ none "a/k" [.ifMatch "2"], .writeAll ⟨"a/"⟩ none "k" ⟨#[1]⟩ {} [] 3,
    .updateMetadata ⟨""⟩ none "a/k" [("x", "y")] 4, .copy ⟨"a/"⟩ none none "l" "k" 5]

/-- In that run exactly one of the two writers wins, and five tokens are produced. -/
theorem cas_without_aba_raced :
    raced.length < 2 ^ 64 ∧ System.wins plain "1" {} raced = 1 ∧
      ((System.commits plain {} raced).map fun c => c.2.attrs.version) = ["1", "2", "3", "4", "5"] ∧
      ((System.commits plain {} raced).map fun c => c.2.attrs.version).Nodup ∧
      System.wins plain "1" {} raced ≤ 1 :=
  have h := cas_without_aba plain raced (by decide)
  ⟨by decide, by decide +kernel, by decide +kernel, h.1, h.2.2 "1"⟩

/-! ## The driver and the bucket model -/

/-- The objects of the two models agree: same bodies, same tokens, as many commits. -/
structure Simulates (st : State) (s : Store) : Prop where
  count : st.nextVersion.toNat = s.next
  get : ∀ key, (st.get key).map (fun o => (o.data, o.attrs.version)) =
    (s.get key).map fun o => (o.body, o.version)

namespace Simulates

variable {pf} {st : State} {s : Store}

lemma version (h : Simulates st s) (key : String) :
    st.version key = (s.get key).map Blobster.Object.version := by
  have hkey := congrArg (Option.map Prod.snd) (h.get key)
  simpa [State.version, Option.map_map, Function.comp_def] using hkey

lemma erase (h : Simulates st s) (key : String) : Simulates (st.erase key) (s.erase key) where
  count := h.count
  get key' := by
    by_cases hk : key' = key
    · subst hk
      simp
    · rw [State.get_erase_ne _ _ hk, Store.get_erase_ne _ _ hk]
      exact h.get key'

lemma commit (h : Simulates st s) (hlen : s.next + 1 < 2 ^ 64) (key : String) (p : ByteArray)
    (attrs : Version → ObjectAttrs) (hv : ∀ version, (attrs version).version = version)
    (md : Metadata) :
    Simulates (st.commit key fun version => ⟨p, attrs version⟩) (s.put memBackend key p md) := by
  have hcount : (st.nextVersion + 1).toNat = s.next + 1 := by
    rw [UInt64.toNat_add, UInt64.toNat_one, h.count]
    omega
  refine ⟨hcount, fun key' => ?_⟩
  by_cases hk : key' = key
  · subst hk
    simp [hv, formatUint, hcount, memBackend]
  · rw [State.get_commit_ne _ _ _ hk, Store.get_put_ne _ _ _ _ _ hk]
    exact h.get key'

end Simulates

/-- **A valid `WriteAll` is the store's conditional commit.** -/
theorem writeAll_simulates {st : State} {s : Store} (h : Simulates st s)
    (hlen : s.next + 1 < 2 ^ 64) {b : Bucket} {key : String} {p : ByteArray} {opts : WriterOptions}
    {now : ℤ} (hvalid : b.ValidWriteAll pf key p opts now st) (pre : List Precondition)
    (md : Metadata) :
    match s.write memBackend (b.objectKey key) p md pre with
    | .error e => b.writeAll pf none key p opts pre now st = (.error e, st)
    | .ok s' => ∃ st', b.writeAll pf none key p opts pre now st = (.ok (), st') ∧
        Simulates st' s' := by
  obtain ⟨attrs, hv, heq⟩ := hvalid.writeAll
  rw [heq, Store.write, ← h.version]
  cases compilePreconditions pre with
  | error e => rfl
  | ok compiled =>
      by_cases hpass : conditionsPass compiled (st.version (b.objectKey key))
      · simp only [if_pos hpass]
        exact ⟨_, rfl, h.commit hlen _ _ attrs hv md⟩
      · simp only [if_neg hpass]

/-- **`Delete` is the store's conditional delete.** -/
theorem delete_simulates {st : State} {s : Store} (h : Simulates st s) (b : Bucket) (key : String)
    (pre : List Precondition) :
    match s.delete (b.objectKey key) pre with
    | .error e => b.delete none key pre st = (.error e, st)
    | .ok s' => ∃ st', b.delete none key pre st = (.ok (), st') ∧ Simulates st' s' := by
  have hkey := h.version (b.objectKey key)
  unfold Store.delete Bucket.delete
  cases compilePreconditions pre with
  | error e => rfl
  | ok compiled =>
      cases hget : st.get (b.objectKey key) with
      | none =>
          have hnone : s.get (b.objectKey key) = none := by
            simpa [State.version, hget] using hkey.symm
          simp only [hnone]
      | some o =>
          obtain ⟨o', ho', hv⟩ : ∃ o', s.get (b.objectKey key) = some o' ∧
              o'.version = o.attrs.version := by
            simpa [State.version, hget, eq_comm, Option.map_eq_some_iff] using hkey
          by_cases hpass : conditionsPass compiled (some o.attrs.version)
          · simp only [ho', hv, if_pos hpass]
            exact ⟨_, rfl, h.erase _⟩
          · simp only [ho', hv, if_neg hpass]

end Blobster.MemDriver
