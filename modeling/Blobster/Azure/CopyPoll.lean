import Blobster.Bucket.Store

/-!
# Polling a copy on Azure

`copyBlob` and `pollCopyStatus` (`azureblob/crosscopy.go`).  Copy Blob is asynchronous: the request
starts the copy, and the driver then polls the properties of the destination until the copy has ended.
An answer says how the last copy to the destination stands, and which copy that was; another client may
have started one in the meantime.

The loop looks at the status only.  What it reports is the outcome of whatever copy the destination shows
when it is polled, **`foreign_success`**; **`reports_own_copy_iff`** says exactly when this is the outcome
of its own.

* `Poll` — one poll: the answer, and what the context does until the next one.
* `pollRound`, `pollState`, `Returns` — the loop, as the state after any number of polls.
* `streak` — the errors in a row; `Waiting` — a poll after which there is another one, by the answers
  alone, and `polling_iff`.
* `ReportsOwnCopy` — the verdict that a caller relies on; `copyBlob_own` — what `copyBlob` makes of it.
-/

namespace Blobster.Azure

/-! ## The source -/

/-- `blob.CopyStatusType`, and `missing` for a `nil` that reads as the empty text. -/
inductive CopyStatus where
  | pending | success | aborted | failed | missing
deriving DecidableEq, Repr

/-- The text of a status. -/
def CopyStatus.text : CopyStatus → String
  | .pending => "pending"
  | .success => "success"
  | .aborted => "aborted"
  | .failed => "failed"
  | .missing => ""

/-- An error of the SDK: a response with a code and a status, or no response at all. -/
inductive ServiceError where
  | response (code : String) (status : ℕ)
  | transport
deriving DecidableEq, Repr

/-- `mapError`. -/
def mapError : ServiceError → Err
  | .response code status =>
      if code = "BlobNotFound" ∨ code = "ContainerNotFound" then .notFound
      else if code = "ConditionNotMet" ∨ code = "BlobAlreadyExists" then .preconditionFailed
      else if status = 404 then .notFound
      else if status = 412 ∨ status = 409 then .preconditionFailed
      else .backend
  | .transport => .backend

/-- What the properties of a blob say about copies to it: the last one and how it stands. -/
structure CopyProperties where
  copyID : String
  copyStatus : CopyStatus
deriving DecidableEq, Repr

/-- One poll: the answer of `GetProperties`, whether the context is done right after it, and whether
it ends the wait for the next one. -/
structure Poll where
  answer : Except ServiceError CopyProperties
  done : Bool := false
  interrupted : Bool := false

/-- The errors that `copyBlob` returns. -/
inductive CopyErr where
  | before (e : Err)
  | service (e : Err)
  | context
  | status (text : String)
deriving DecidableEq, Repr

/-- How many errors in a row end the polling. -/
def maxPollErrors : ℕ := 3

/-- One round of the loop with `pollErrors` as it is before: `inl` is what it goes on with, `inr` is
what it returns. -/
def pollRound (copyID : String) (pollErrors : ℕ) (p : Poll) : ℕ ⊕ Except CopyErr Unit :=
  match p.answer with
  | .error err =>
      if p.done then .inr (.error .context)
      else if pollErrors + 1 ≥ maxPollErrors then .inr (.error (.service (mapError err)))
      else if p.interrupted then .inr (.error .context)
      else .inl (pollErrors + 1)
  | .ok props =>
      match props.copyStatus with
      | .success => .inr (.ok ())
      | .pending => if p.interrupted then .inr (.error .context) else .inl 0
      | status =>
          .inr (.error (.status
            ("blobster azure: copy " ++ copyID ++ ": status \"" ++ status.text ++ "\"")))

/-- `pollCopyStatus` after `n` polls: `pollErrors` while it polls, or what it has returned. -/
def pollState (copyID : String) (polls : ℕ → Poll) : ℕ → ℕ ⊕ Except CopyErr Unit
  | 0 => .inl 0
  | n + 1 =>
      match pollState copyID polls n with
      | .inl pollErrors => pollRound copyID pollErrors (polls n)
      | .inr r => .inr r

/-- `pollCopyStatus` is still polling after `n` polls. -/
def Polling (copyID : String) (polls : ℕ → Poll) (n : ℕ) : Prop :=
  ∃ pollErrors, pollState copyID polls n = .inl pollErrors

/-- `pollCopyStatus` returns on poll `n`. -/
def Returns (copyID : String) (polls : ℕ → Poll) (n : ℕ) (r : Except CopyErr Unit) : Prop :=
  Polling copyID polls n ∧ pollState copyID polls (n + 1) = .inr r

/-- `clientCopier.copyBlob` after `n` polls, with the error of `BeforeCopy` and the answer of
`StartCopyFromURL`. -/
def copyBlob (before : Option Err) (start : Except ServiceError CopyProperties) (polls : ℕ → Poll)
    (n : ℕ) : ℕ ⊕ Except CopyErr Unit :=
  match before with
  | some e => .inr (.error (.before e))
  | none =>
      match start with
      | .error err => .inr (.error (.service (mapError err)))
      | .ok resp =>
          if resp.copyStatus = .success then .inr (.ok ())
          else pollState resp.copyID polls n

/-! ## What the answers make of the loop -/

/-- The poll was answered with an error. -/
def Poll.Errored (p : Poll) : Prop := ∃ err, p.answer = .error err

/-- The poll was answered with this status of this copy. -/
def Poll.Shows (p : Poll) (copyID : String) (status : CopyStatus) : Prop :=
  p.answer = .ok ⟨copyID, status⟩

instance (p : Poll) : Decidable p.Errored :=
  match h : p.answer with
  | .error err => .isTrue ⟨err, h⟩
  | .ok _ => .isFalse fun ⟨_, h'⟩ => by rw [h] at h'; cases h'

/-- The errors in a row up to poll `n`. -/
def streak (polls : ℕ → Poll) : ℕ → ℕ
  | 0 => 0
  | n + 1 => if (polls n).Errored then streak polls n + 1 else 0

/-- Three errors in a row, the last of them on poll `n`. -/
def ThreeErrors (polls : ℕ → Poll) (n : ℕ) : Prop :=
  2 ≤ n ∧ (polls (n - 2)).Errored ∧ (polls (n - 1)).Errored ∧ (polls n).Errored

/-- A poll that leaves the outcome open: it was answered with an error, but not the third in a row, or
with a pending copy, and the context goes on. -/
def Waiting (polls : ℕ → Poll) (n : ℕ) : Prop :=
  ((polls n).Errored ∧ ¬ ThreeErrors polls n ∧ (polls n).done = false ∨
    ∃ id, (polls n).Shows id .pending) ∧ (polls n).interrupted = false

variable {copyID : String} {polls : ℕ → Poll} {n : ℕ}

lemma threeErrors_iff : ThreeErrors polls n ↔ maxPollErrors ≤ streak polls (n + 1) := by
  match n with
  | 0 => by_cases h : (polls 0).Errored <;> simp [ThreeErrors, streak, maxPollErrors, h]
  | 1 =>
      by_cases h : (polls 0).Errored <;> by_cases h' : (polls 1).Errored <;>
        simp [ThreeErrors, streak, maxPollErrors, h, h']
  | k + 2 =>
      by_cases h₀ : (polls k).Errored <;> by_cases h₁ : (polls (k + 1)).Errored <;>
        by_cases h₂ : (polls (k + 2)).Errored <;>
        simp [ThreeErrors, streak, maxPollErrors, h₀, h₁, h₂]

lemma Poll.Shows.not_errored {p : Poll} {id : String} {status : CopyStatus}
    (h : p.Shows id status) : ¬ p.Errored := by
  rintro ⟨err, herr⟩
  rw [Poll.Shows] at h
  rw [h] at herr
  cases herr

/-- When a round goes on, and with which count. -/
lemma pollRound_eq_inl {p : Poll} {k k' : ℕ} : pollRound copyID k p = .inl k' ↔
    (p.Errored ∧ k + 1 < maxPollErrors ∧ p.done = false ∧ k' = k + 1 ∨
      (∃ id, p.Shows id .pending) ∧ k' = 0) ∧ p.interrupted = false := by
  rcases p with ⟨answer, done, interrupted⟩
  cases answer with
  | error err =>
      simp only [pollRound, Poll.Errored, Poll.Shows, Except.error.injEq, exists_eq', true_and,
        reduceCtorEq, exists_false, false_and, or_false]
      have hcount : k + 1 ≥ maxPollErrors ↔ ¬ k + 1 < maxPollErrors := not_lt.symm
      by_cases hk : k + 1 < maxPollErrors <;> cases done <;> cases interrupted <;>
        simp [hcount, hk, eq_comm]
  | ok props =>
      rcases props with ⟨id, status⟩
      cases status <;> cases interrupted <;> simp [pollRound, Poll.Errored, Poll.Shows, eq_comm]

/-- When a round returns `nil`. -/
lemma pollRound_eq_nil {p : Poll} {k : ℕ} :
    pollRound copyID k p = .inr (.ok ()) ↔ ∃ id, p.Shows id .success := by
  rcases p with ⟨answer, done, interrupted⟩
  cases answer with
  | error err =>
      simp only [pollRound, Poll.Shows, reduceCtorEq, exists_false, iff_false]
      split_ifs <;> simp
  | ok props =>
      rcases props with ⟨id, status⟩
      cases status <;> cases interrupted <;> simp [pollRound, Poll.Shows]

/-- When a round returns an error of the service. -/
lemma pollRound_eq_service {p : Poll} {k : ℕ} {e : Err}
    (h : pollRound copyID k p = .inr (.error (.service e))) :
    (∃ err, p.answer = .error err ∧ e = mapError err) ∧ maxPollErrors ≤ k + 1 := by
  rcases p with ⟨answer, done, interrupted⟩
  cases answer with
  | error err =>
      simp only [pollRound] at h
      split_ifs at h with hdone hk
      · cases h
      · cases h
        exact ⟨⟨err, rfl, rfl⟩, hk⟩
      · cases h
  | ok props =>
      rcases props with ⟨id, status⟩
      cases status <;> cases interrupted <;> simp [pollRound] at h

/-- The count of the loop is the number of errors in a row. -/
lemma pollState_count {k : ℕ} (h : pollState copyID polls n = .inl k) : k = streak polls n := by
  induction n generalizing k with
  | zero => exact (Sum.inl.inj h).symm
  | succ n ih =>
      rw [pollState] at h
      cases hn : pollState copyID polls n with
      | inr r => simp [hn] at h
      | inl j =>
          simp only [hn] at h
          rcases pollRound_eq_inl.mp h with ⟨⟨herr, -, -, rfl⟩ | ⟨⟨id, hid⟩, rfl⟩, -⟩
          · rw [streak, if_pos herr, ih hn]
          · rw [streak, if_neg hid.not_errored]

lemma polling_succ : Polling copyID polls (n + 1) ↔ Polling copyID polls n ∧ Waiting polls n := by
  constructor
  · rintro ⟨k', hk'⟩
    rw [pollState] at hk'
    cases hn : pollState copyID polls n with
    | inr r => simp [hn] at hk'
    | inl k =>
        simp only [hn] at hk'
        obtain ⟨hround, hint⟩ := pollRound_eq_inl.mp hk'
        refine ⟨⟨k, hn⟩, ?_, hint⟩
        rcases hround with ⟨herr, hk, hdone, -⟩ | ⟨hid, -⟩
        · refine .inl ⟨herr, ?_, hdone⟩
          rw [threeErrors_iff, streak, if_pos herr, ← pollState_count hn]
          omega
        · exact .inr hid
  · rintro ⟨⟨k, hk⟩, hwait, hint⟩
    rw [Polling, pollState, hk]
    rcases hwait with ⟨herr, hthree, hdone⟩ | hid
    · rw [threeErrors_iff, streak, if_pos herr, ← pollState_count hk, not_le] at hthree
      exact ⟨k + 1, pollRound_eq_inl.mpr ⟨.inl ⟨herr, hthree, hdone, rfl⟩, hint⟩⟩
    · exact ⟨0, pollRound_eq_inl.mpr ⟨.inr ⟨hid, rfl⟩, hint⟩⟩

/-- **The loop polls on exactly as long as every poll leaves the outcome open.** -/
lemma polling_iff : Polling copyID polls n ↔ ∀ i < n, Waiting polls i := by
  induction n with
  | zero => exact ⟨fun _ i hi => absurd hi (Nat.not_lt_zero i), fun _ => ⟨0, rfl⟩⟩
  | succ n ih => rw [polling_succ, ih, Nat.forall_lt_succ_right]

lemma returns_iff {r : Except CopyErr Unit} : Returns copyID polls n r ↔
    (∀ i < n, Waiting polls i) ∧ pollRound copyID (streak polls n) (polls n) = .inr r := by
  rw [Returns, polling_iff]
  refine and_congr_right fun hwait => ?_
  obtain ⟨k, hk⟩ := polling_iff.mpr hwait
  rw [pollState, hk, ← pollState_count hk]

lemma returns_nil_iff : Returns copyID polls n (.ok ()) ↔
    (∀ i < n, Waiting polls i) ∧ ∃ id, (polls n).Shows id .success := by
  rw [returns_iff, pollRound_eq_nil]

/-! ## The verdict -/

/-- `pollCopyStatus` reports the outcome of its own copy: it returns `nil` only when an answer has shown
the success of that copy; it returns an error of the service only on the third error in a row; and it polls
on as long as the answers leave the outcome open. -/
structure ReportsOwnCopy (copyID : String) (polls : ℕ → Poll) : Prop where
  success : ∀ n, Returns copyID polls n (.ok ()) → ∃ i ≤ n, (polls i).Shows copyID .success
  service : ∀ n e, Returns copyID polls n (.error (.service e)) →
    ThreeErrors polls n ∧ ∃ err, (polls n).answer = .error err ∧ e = mapError err
  polls_on : ∀ n, (∀ i < n, Waiting polls i) → Polling copyID polls n

/-- Errors of the service are returned on the third in a row, whatever copy the answers show. -/
lemma threeErrors_of_returns {e : Err} (h : Returns copyID polls n (.error (.service e))) :
    ThreeErrors polls n ∧ ∃ err, (polls n).answer = .error err ∧ e = mapError err := by
  obtain ⟨hwait, hround⟩ := returns_iff.mp h
  obtain ⟨⟨err, herr, he⟩, hk⟩ := pollRound_eq_service hround
  refine ⟨?_, err, herr, he⟩
  rw [threeErrors_iff, streak, if_pos ⟨err, herr⟩]
  exact hk

/-- **Exactly when no poll is answered with the success of another copy.**  A poll is made as long as
those before it leave the outcome open. -/
theorem reports_own_copy_iff (copyID : String) (polls : ℕ → Poll) :
    ReportsOwnCopy copyID polls ↔
      ∀ n, (∀ i < n, Waiting polls i) → ∀ id, (polls n).Shows id .success → id = copyID := by
  constructor
  · intro hown n hwait id hid
    obtain ⟨i, hi, hshows⟩ := hown.success n (returns_nil_iff.mpr ⟨hwait, id, hid⟩)
    -- No poll before this one shows a success, or it would have been the last.
    rcases hi.lt_or_eq with hlt | rfl
    · rcases (hwait i hlt).1 with ⟨herr, -, -⟩ | ⟨id', hpending⟩
      · exact absurd herr hshows.not_errored
      · cases hpending.symm.trans hshows
    · cases hid.symm.trans hshows
      rfl
  · intro hcond
    refine ⟨fun n hnil => ?_, fun n e => threeErrors_of_returns, fun n => polling_iff.mpr⟩
    obtain ⟨hwait, id, hid⟩ := returns_nil_iff.mp hnil
    exact ⟨n, le_rfl, hcond n hwait id hid ▸ hid⟩

/-- The copy is pending; it then fails, and another client copies to the destination. -/
def overtaken : ℕ → Poll
  | 0 => { answer := .ok ⟨"copy-1", .pending⟩ }
  | 1 => { answer := .ok ⟨"copy-1", .pending⟩ }
  | _ => { answer := .ok ⟨"copy-2", .success⟩ }

/-- **The success of another copy is reported as that of its own**: `nil`, although no answer at all shows
the success of the copy. -/
theorem foreign_success :
    Returns "copy-1" overtaken 2 (.ok ()) ∧ ∀ n, ¬ (overtaken n).Shows "copy-1" .success := by
  refine ⟨⟨⟨0, rfl⟩, rfl⟩, fun n => ?_⟩
  match n with
  | 0 | 1 => simp [overtaken, Poll.Shows]
  | n + 2 => simp [overtaken, Poll.Shows]

/-- What the loop has returned it returned on one of its polls. -/
lemma exists_returns {r : Except CopyErr Unit} (h : pollState copyID polls n = .inr r) :
    ∃ m < n, Returns copyID polls m r := by
  induction n with
  | zero => cases h
  | succ n ih =>
      cases hn : pollState copyID polls n with
      | inl k => exact ⟨n, n.lt_succ_self, ⟨k, hn⟩, h⟩
      | inr r' =>
          have hr : r' = r := by
            rw [pollState, hn] at h
            exact Sum.inr.inj h
          obtain ⟨m, hm, hret⟩ := ih (hr ▸ hn)
          exact ⟨m, hm.trans n.lt_succ_self, hret⟩

/-- Under this condition `copyBlob` returns `nil` only for the success of the copy it has started. -/
theorem copyBlob_own {before : Option Err} {start : Except ServiceError CopyProperties}
    (hown : ∀ props, start = .ok props → ReportsOwnCopy props.copyID polls)
    (hnil : copyBlob before start polls n = .inr (.ok ())) :
    ∃ props, start = .ok props ∧
      (props.copyStatus = .success ∨ ∃ i < n, (polls i).Shows props.copyID .success) := by
  cases before with
  | some e => cases hnil
  | none =>
      cases start with
      | error err => cases hnil
      | ok props =>
          refine ⟨props, rfl, ?_⟩
          by_cases hsuccess : props.copyStatus = .success
          · exact .inl hsuccess
          · simp only [copyBlob, hsuccess, if_false] at hnil
            obtain ⟨m, hm, hret⟩ := exists_returns hnil
            obtain ⟨i, hi, hshows⟩ := (hown props rfl).success m hret
            exact .inr ⟨i, hi.trans_lt hm, hshows⟩

end Blobster.Azure
