import Blobster.Bucket.World
import Blobster.Interleave.Footprint

/-!
# Lease records

The lock and the queue keep their leases the same way: one object with an empty body whose user
metadata names an owner and an absolute deadline.  It is read with one `Attributes` call, and
written with one conditional `WriteAll` followed by another `Attributes` call, because the write
path does not return the new version token.

`locker.go` and `queue.go` each have their own copy of these functions; they are instances of the
definitions here.
-/

namespace Blobster

open Interleave

/-- The deadline in the field is at or before `now`; a missing or unparseable one is expired, so
that a malformed record can always be recovered. -/
def leaseExpired (field : String) (fields : Metadata) (now : ℤ) : Bool :=
  match fields.parseTime field with
  | none => true
  | some until_ => !decide (now < until_)

section Programs

variable {B : Type}

/-- A record's fields and version. -/
def readRecord (b : B) (path : String) : BProg B (Except Err (Metadata × Version)) := do
  match ← attributes b path with
  | .error e => return .error e
  | .ok attrs => return .ok (attrs.metadata, attrs.version)

/-- The conditional write of a record, then the read of the version it produced. -/
def writeBack (b : B) (path : String) (fields : Metadata) (pre : Precondition) :
    BProg B (Except Err Version) := do
  match ← writeAll b path .empty fields [pre] with
  | .error e => return .error e
  | .ok _ =>
      match ← attributes b path with
      | .error e => return .error e
      | .ok attrs => return .ok attrs.version

lemma within_readRecord {P : Op B → Prop} {b : B} {path : String} (ha : P (.attributes b path)) :
    (readRecord b path).Within P := by
  refine ⟨ha, fun r => ?_⟩
  cases r <;> trivial

lemma within_writeBack {P : Op B → Prop} {b : B} {path : String} {fields : Metadata}
    {pre : Precondition} (hw : P (.write b path .empty fields [pre])) (ha : P (.attributes b path)) :
    (writeBack b path fields pre).Within P := by
  refine ⟨hw, fun r => ?_⟩
  cases r with
  | error e => trivial
  | ok u =>
      refine ⟨ha, fun r => ?_⟩
      cases r <;> trivial

end Programs

/-- An expired record stays expired. -/
lemma leaseExpired_mono {field : String} {fields : Metadata} {now now' : ℤ} (h : now ≤ now')
    (he : leaseExpired field fields now = true) : leaseExpired field fields now' = true := by
  unfold leaseExpired at he ⊢
  split at he
  · rfl
  · simp only [Bool.not_eq_true', decide_eq_false_iff_not] at he ⊢
    omega

/-- A record that runs until `u` has not expired before. -/
lemma leaseExpired_eq_false {field : String} {fields : Metadata} {now u : ℤ}
    (hu : fields.parseTime field = some u) (h : now < u) :
    leaseExpired field fields now = false := by
  simp [leaseExpired, hu, h]

end Blobster
