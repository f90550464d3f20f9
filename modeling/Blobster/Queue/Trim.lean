import Blobster.Queue.Tail

/-!
# Retention

`Queue.Trim` (`queue.go`): one bounded pass over the keyspace that removes the entries whose ids are
stamped before the horizon, first the messages with their leases, then the leases that are left
over.  The pass takes no lease; its deletes are unconditional.

* `removeEntry`, `sweepObjects`, `sweepRound`, `trimSweep` — `trimSweep`, its loop body, the loop
  over one page and the two deletes inside it.
* `IsOld` — what a pass looks for: an id that is stamped before its horizon.
* `trim` — `Trim`, with the retention of the queue as an argument.
-/

namespace Blobster

open Interleave

/-- How many entries a pass removes at most. -/
def defaultTrimBatch : ℕ := 256

/-- How many keys a sweep asks the backend for at a time. -/
def trimListPageSize : ℕ := 1000

/-- The id is stamped before the horizon. -/
def IsOld (horizon : ℤ) (x : String) : Prop := ∃ ts, queueIDTime x = some ts ∧ ts < horizon

/-- Ids that are old sort before those that are not. -/
lemma IsOld.lt {h ts : ℤ} {x y : String} (hx : IsOld h x) (hy : queueIDTime y = some ts)
    (hts : ¬ ts < h) : x < y := by
  obtain ⟨tx, htx, hlt⟩ := hx
  by_contra hle
  have := queueIDTime_mono hy htx (not_lt.mp hle)
  omega

instance (horizon : ℤ) (x : String) : Decidable (IsOld horizon x) :=
  decidable_of_iff ((queueIDTime x).any (· < horizon) = true) (by simp [IsOld, Option.any_eq_true])

namespace Queue

variable {B : Type} (q : Queue B)

/-- `errors.Is(err, ErrNotFound)`: a delete of what is not there has nothing to do. -/
def deleteIfPresent (key : String) : BProg B (Option Err) := do
  match ← delete q.bucket key [] with
  | .ok _ | .error .notFound => return none
  | .error e => return some e

/-- The removal of one entry: its object, then the lease that belongs to it. -/
def removeEntry (key id : String) (pairedLease : Bool) : BProg B (Option Err) := do
  match ← q.deleteIfPresent key with
  | some e => return some e
  | none => if pairedLease then q.deleteIfPresent (queueLeasePrefix ++ id) else return none

/-- The loop of `trimSweep` over the objects of one page: `inl` is what it goes on with, the entries
removed and the rest of the budget; `inr` is what it returns. -/
def sweepObjects (pref : String) (horizon : ℤ) (pairedLease : Bool) :
    List String → ℕ → ℕ → BProg B ((ℕ × ℕ) ⊕ (ℕ × Option Err))
  | [], removed, budget => return .inl (removed, budget)
  | key :: keys, removed, budget =>
      match cutPrefix key pref with
      | none => sweepObjects pref horizon pairedLease keys removed budget
      | some id =>
          if id = "" then sweepObjects pref horizon pairedLease keys removed budget
          else
            match queueIDTime id with
            | none => sweepObjects pref horizon pairedLease keys removed budget
            | some ts =>
                if ¬ ts < horizon then return .inr (removed, none)
                else do
                  match ← q.removeEntry key id pairedLease with
                  | some e => return .inr (removed, some e)
                  | none =>
                      if budget - 1 = 0 then return .inr (removed + 1, none)
                      else sweepObjects pref horizon pairedLease keys (removed + 1) (budget - 1)

/-- One round of `trimSweep`: where the listing resumes, the entries removed, the rest of the
budget. -/
def sweepRound (pref : String) (horizon : ℤ) (pairedLease : Bool) (s : PageToken × ℕ × ℕ) :
    BProg B ((PageToken × ℕ × ℕ) ⊕ (ℕ × Option Err)) := do
  let (token, removed, budget) := s
  if budget = 0 then return .inr (removed, none)
  else
    match ← listPage q.bucket token trimListPageSize pref with
    | .error e => return .inr (removed, some e)
    | .ok (objs, next) =>
        match ← q.sweepObjects pref horizon pairedLease objs removed budget with
        | .inr out => return .inr out
        | .inl (removed, budget) =>
            if next = .done then return .inr (removed, none)
            else return .inl (next, removed, budget)

/-- `trimSweep`: how many entries it removed, and the error that ended it. -/
def trimSweep (pref : String) (horizon : ℤ) (budget : ℕ) (pairedLease : Bool) (fuel : ℕ) :
    BProg B (ℕ × Option Err) :=
  Prog.loop park (q.sweepRound pref horizon pairedLease) fuel (.first, 0, budget)

/-- `Trim`: the messages, then the leases that are left over. -/
def trim (retention : ℤ) (fuel : ℕ) : BProg B (ℕ × Option Err) := do
  if retention ≤ 0 then return (0, some .invalidOption)
  else
    let horizon := (← now) - retention
    let (removed, err) ← q.trimSweep queueMsgPrefix horizon defaultTrimBatch true fuel
    if err ≠ none ∨ defaultTrimBatch ≤ removed then return (removed, err)
    else
      let (swept, err) ←
        q.trimSweep queueLeasePrefix horizon (defaultTrimBatch - removed) false fuel
      return (removed + swept, err)

end Queue

end Blobster
