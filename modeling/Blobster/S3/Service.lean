import Blobster.Driver.Options

/-!
# Errors and conditional requests of the s3 driver

What the driver makes of the answers of the SDK (`s3/s3.go`).  A conditional request whose condition
fails is answered with 412, and one that meets a concurrent operation on its key with 409; `mapError`
has one error for both.

* `ServiceError`, `mapError` — errors.
* `etagVersion`, `etagHeader` — an ETag without its quotes, and with them.
* `PutConditions`, `applyWriteConditions` — the conditional headers of a `PutObject`;
  **`hold_applyWriteConditions`** — they ask what the preconditions ask.
-/

namespace Blobster.S3

/-- What `mapError` can see of an error of the SDK: the code of an API error, whether it is one of the two
typed errors, and the status of the response. -/
structure ServiceError where
  code : Option String := none
  notFound : Bool := false
  noSuchKey : Bool := false
  status : Option ℕ := none
deriving DecidableEq, Repr

/-- `mapError`. -/
def mapError (err : ServiceError) : Err :=
  if err.code = some "NoSuchKey" ∨ err.code = some "NotFound" ∨ err.code = some "NoSuchBucket" then
    .notFound
  else if err.code = some "PreconditionFailed" ∨
      err.code = some "ConditionalRequestConflict" then .preconditionFailed
  else if err.notFound then .notFound
  else if err.noSuchKey then .notFound
  else if err.status = some 404 then .notFound
  else if err.status = some 412 ∨ err.status = some 409 then .preconditionFailed
  else .backend

/-- `etagVersion`: the ETag without the quotes around it. -/
def etagVersion (etag : Option String) : Blobster.Version :=
  let trimmed := (etag.getD "").toList.dropWhile (· == '"')
  String.ofList (trimmed.reverse.dropWhile (· == '"')).reverse

/-- `etagHeader`. -/
def etagHeader (version : Blobster.Version) : String :=
  if version = "" then version
  else if version.toList.head? = some '"' then version
  else "\"" ++ version ++ "\""

example : etagVersion (some "\"abc\"") = "abc" ∧ etagHeader "abc" = "\"abc\"" := by decide

/-- The answer to a conditional request whose condition fails. -/
def preconditionFailed : ServiceError :=
  { code := some "PreconditionFailed", status := some 412 }

/-- The answer to a conditional request that meets a concurrent operation on its key. -/
def conditionalRequestConflict : ServiceError :=
  { code := some "ConditionalRequestConflict", status := some 409 }

/-- The answer to a request that was not looked at. -/
def slowDown : ServiceError := { code := some "SlowDown", status := some 503 }

/-! ## Conditional writes -/

/-- The conditional headers of a `PutObjectInput`. -/
structure PutConditions where
  ifNoneMatch : Option String := none
  ifMatch : Option String := none
deriving DecidableEq, Repr

/-- `applyWriteConditions`. -/
def applyWriteConditions (preconditions : Preconditions) : PutConditions :=
  if preconditions.ifNotExists then { ifNoneMatch := some "*" }
  else if preconditions.ifMatch ≠ "" then { ifMatch := some (etagHeader preconditions.ifMatch) }
  else if preconditions.ifNotMatch ≠ "" then
    { ifNoneMatch := some (etagHeader preconditions.ifNotMatch) }
  else {}

/-- The ETag of an object: its version in quotes. -/
def etag (version : Blobster.Version) : String := "\"" ++ version ++ "\""

/-- What S3 makes of the headers when the object has the version, or does not exist. -/
def PutConditions.hold (c : PutConditions) (current : Option Blobster.Version) : Bool :=
  (match c.ifNoneMatch with
    | none => true
    | some tag => if tag = "*" then current.isNone else current.map etag != some tag) &&
  match c.ifMatch with
    | none => true
    | some tag => current.map etag == some tag

/-- The request is a conditional one. -/
def PutConditions.isSet (c : PutConditions) : Bool := c.ifNoneMatch.isSome || c.ifMatch.isSome

lemma etag_injective : Function.Injective etag := by
  intro v v' h
  have hlist := congrArg String.toList h
  simp only [etag, String.toList_append, List.append_cancel_right_eq, List.append_cancel_left_eq]
    at hlist
  exact String.toList_inj.mp hlist

lemma etag_ne_star (version : Blobster.Version) : etag version ≠ "*" := by
  intro h
  have hlist := congrArg (fun s => s.toList.head?) h
  simp [etag] at hlist

/-- A version token that is an ETag without its quotes. -/
def Unquoted (version : Blobster.Version) : Prop := version.toList.head? ≠ some '"'

instance (version : Blobster.Version) : Decidable (Unquoted version) :=
  inferInstanceAs (Decidable (_ ≠ _))

lemma etagHeader_eq {version : Blobster.Version} (hne : version ≠ "") (h : Unquoted version) :
    etagHeader version = etag version := by
  rw [etagHeader, if_neg hne, if_neg h, etag]

/-- Comparing ETags is comparing versions. -/
lemma map_etag_beq (current : Option Blobster.Version) (version : Blobster.Version) :
    (current.map etag == some (etag version)) = (current == some version) := by
  rw [Bool.eq_iff_iff, beq_iff_eq, beq_iff_eq]
  cases current with
  | none => simp
  | some v => simpa using etag_injective.eq_iff

/-- **The headers ask what the preconditions ask.** -/
lemma hold_applyWriteConditions {p : Preconditions} (hmatch : Unquoted p.ifMatch)
    (hnot : Unquoted p.ifNotMatch) (current : Option Blobster.Version) :
    (applyWriteConditions p).hold current = conditionsPass p current := by
  unfold applyWriteConditions conditionsPass
  by_cases hex : p.ifNotExists = true
  · simp [hex, PutConditions.hold]
  by_cases hm : p.ifMatch = ""
  · by_cases hn : p.ifNotMatch = ""
    · simp [hex, hm, hn, PutConditions.hold]
    · simp [hex, hm, hn, PutConditions.hold, etagHeader_eq hn hnot, etag_ne_star, bne, map_etag_beq]
  · simp [hex, hm, PutConditions.hold, etagHeader_eq hm hmatch, map_etag_beq]

end Blobster.S3
