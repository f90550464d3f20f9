import Mathlib.Data.List.AList
import Mathlib.Data.List.Sort
import Mathlib.Data.String.Basic
import Mathlib.Order.Basic

/-!
# The bucket: objects, preconditions, versions

The part of the `Bucket` interface that the lock, the queue and the watcher stand on
(`blobster.go`, with `mem/mem.go` as the reference driver).

* `Err` — the sentinel errors, and `backend` for every other error a call can return.
* `Metadata` — user metadata.  A value that the program formats itself (a deadline, a count) is kept
  as what it prints (instants and durations are integers, in nanoseconds), so that formatting and parsing are inverse by construction, as they are for
  RFC 3339 with nanoseconds and for decimals.
* `Precondition`, `compilePreconditions`, `conditionsPass` — conditional writes, with the source's
  reading of the empty version string as "not set".
* `Store` — the committed objects.  `Store.write` and `Store.delete` are the atomic commits; every
  commit is numbered, and the `Backend` turns the number and the body into the version token.
* `Backend.Fresh` — no two commits share a token.  This is the assumption the compare-and-swap
  arguments rest on; `Store.Ok` is what it means for a store to have been built by such a backend.
* `Store.Follows` — one content of a bucket is later than another; **`Store.Ok.get_of_issued`** — a
  token issued before identifies an object that was there before.
-/

namespace Blobster

/-- Byte strings are compared as core compares them, whichever libraries are imported. -/
instance decidableEqByteArray : DecidableEq ByteArray := ByteArray.instDecidableEq

/-- The errors that a call can return.  `backend` stands for any error that is none of the
sentinels: a transport failure, a throttled or cancelled request. -/
inductive Err where
  | notFound | preconditionFailed | unsupported | invalidOption
  | lockHeld | lockLost | invalidLockKey
  | noMessages | messageLost | invalidMessageID
  | backend
deriving DecidableEq, Repr

/-- An object's version token.  The empty string is no version. -/
abbrev Version := String

/-- A metadata value: text, an instant formatted as RFC 3339, or a formatted integer. -/
inductive Value where
  | text (s : String)
  | time (t : ℤ)
  | int (n : ℤ)
deriving DecidableEq, Repr

/-- User metadata, with lower-case keys, each at most once. -/
abbrev Metadata := List (String × Value)

/-- `md[key]` for a field that holds text; a missing field reads as the empty string. -/
def Metadata.text (md : Metadata) (key : String) : String :=
  match md.lookup key with
  | some (.text s) => s
  | _ => ""

/-- `time.Parse(time.RFC3339Nano, md[key])`; `none` for a missing or unparseable field. -/
def Metadata.parseTime (md : Metadata) (key : String) : Option ℤ :=
  match md.lookup key with
  | some (.time t) => some t
  | _ => none

/-- `strconv.Atoi(md[key])`; `none` for a missing or malformed field. -/
def Metadata.atoi (md : Metadata) (key : String) : Option ℤ :=
  match md.lookup key with
  | some (.int n) => some n
  | _ => none

/-- `md[key] = value`. -/
def Metadata.set (md : Metadata) (key : String) (value : Value) : Metadata :=
  (key, value) :: md.filter fun kv => kv.1 ≠ key

/-! ## Preconditions -/

/-- A condition on the stored object under which a write or a delete may commit. -/
inductive Precondition where
  | ifNotExists
  | ifMatch (version : Version)
  | ifNotMatch (version : Version)
deriving DecidableEq, Repr

/-- The compiled conditions.  An empty version string means that the condition is not set. -/
structure Preconditions where
  ifNotExists : Bool := false
  ifMatch : Version := ""
  ifNotMatch : Version := ""
deriving DecidableEq, Repr

/-- One condition written over the ones before it. -/
def Precondition.apply (p : Preconditions) : Precondition → Preconditions
  | .ifNotExists => { p with ifNotExists := true }
  | .ifMatch v => { p with ifMatch := v }
  | .ifNotMatch v => { p with ifNotMatch := v }

/-- `CompilePreconditions`: fold the list, then reject more than one condition. -/
def compilePreconditions (pre : List Precondition) : Except Err Preconditions :=
  let out := pre.foldl Precondition.apply {}
  let n := (if out.ifNotExists then 1 else 0) + (if out.ifMatch ≠ "" then 1 else 0) +
    (if out.ifNotMatch ≠ "" then 1 else 0)
  if n > 1 then .error .invalidOption else .ok out

/-- `conditionsPass`, with `none` for an object that does not exist. -/
def conditionsPass (p : Preconditions) (current : Option Version) : Bool :=
  if p.ifNotExists then current.isNone
  else if p.ifMatch ≠ "" then current == some p.ifMatch
  else if p.ifNotMatch ≠ "" then current != some p.ifNotMatch
  else true

@[simp] lemma compilePreconditions_nil : compilePreconditions [] = .ok {} := rfl

@[simp] lemma compilePreconditions_ifNotExists :
    compilePreconditions [.ifNotExists] = .ok { ifNotExists := true } := rfl

lemma compilePreconditions_ifMatch (v : Version) :
    compilePreconditions [.ifMatch v] = .ok { ifMatch := v } := by
  by_cases hv : v = "" <;> simp [compilePreconditions, Precondition.apply, hv]

/-- At most one condition is set. -/
def Preconditions.Exclusive (p : Preconditions) : Prop :=
  (p.ifNotExists = true → p.ifMatch = "" ∧ p.ifNotMatch = "") ∧ (p.ifMatch ≠ "" → p.ifNotMatch = "")

/-- What compiles is the fold of the list, with at most one condition set. -/
lemma compilePreconditions_eq_ok_iff {pre : List Precondition} {p : Preconditions} :
    compilePreconditions pre = .ok p ↔
      pre.foldl Precondition.apply {} = p ∧ p.Exclusive := by
  unfold compilePreconditions Preconditions.Exclusive
  generalize pre.foldl Precondition.apply {} = out
  by_cases hn : out.ifNotExists <;> by_cases hm : out.ifMatch = "" <;>
    by_cases hu : out.ifNotMatch = "" <;> simp [hn, hm, hu] <;> rintro rfl <;> simp_all

@[simp] lemma conditionsPass_ifNotExists (current : Option Version) :
    conditionsPass { ifNotExists := true } current = current.isNone := rfl

lemma conditionsPass_ifMatch {v : Version} (hv : v ≠ "") (current : Option Version) :
    conditionsPass { ifMatch := v } current = (current == some v) := by
  simp [conditionsPass, hv]

/-! ## Objects and stores -/

/-- A committed object.  `seq` is the number of the commit that wrote it. -/
structure Object where
  body : ByteArray
  metadata : Metadata
  version : Version
  seq : ℕ
deriving DecidableEq

/-- What `Attributes` reports of an object. -/
structure Attributes where
  metadata : Metadata
  version : Version
deriving DecidableEq

/-- The attributes of a stored object. -/
def Object.attributes (o : Object) : Attributes := ⟨o.metadata, o.version⟩

@[simp] lemma Object.attributes_metadata (o : Object) : o.attributes.metadata = o.metadata := rfl

@[simp] lemma Object.attributes_version (o : Object) : o.attributes.version = o.version := rfl

/-- The objects of one bucket and the number of commits so far. -/
structure Store where
  objects : AList (fun _ : String => Object) := ∅
  next : ℕ := 0

/-- `strings.TrimPrefix`. -/
def trimPrefix (s pref : String) : String :=
  if pref.toList.isPrefixOf s.toList then String.ofList (s.toList.drop pref.toList.length) else s

lemma trimPrefix_append (pref x : String) : trimPrefix (pref ++ x) pref = x := by
  simp [trimPrefix]

lemma append_lt_append_left (pref : String) {x y : String} : pref ++ x < pref ++ y ↔ x < y := by
  simp only [String.lt_iff_toList_lt, String.toList_append]
  induction pref.toList with
  | nil => rfl
  | cons c pref ih => simpa [List.cons_lt_cons_iff] using ih

lemma append_le_append_left (pref : String) {x y : String} : pref ++ x ≤ pref ++ y ↔ x ≤ y := by
  rw [← not_lt, append_lt_append_left, not_lt]

lemma replicate_lt_replicate (c : Char) {i j : ℕ} (h : i < j) :
    String.ofList (List.replicate i c) < String.ofList (List.replicate j c) := by
  obtain ⟨k, rfl⟩ := Nat.exists_eq_add_of_lt h
  have hlt : List.replicate i c ++ [] < List.replicate i c ++ List.replicate (k + 1) c :=
    List.append_left_lt (List.nil_lt_cons _ _)
  rw [List.append_nil] at hlt
  rw [String.lt_iff_toList_lt]
  rwa [String.toList_ofList, String.toList_ofList, Nat.add_assoc, List.replicate_add]

/-- Where a listing resumes.  Callers only pass tokens on: `at` is the position token of the mem and
file drivers, `after` the continuation token of a service that resumes behind a key, and `done` the
empty token that ends the listing. -/
inductive PageToken where
  | first
  | at (position : ℕ)
  | after (key : String)
  | done
deriving DecidableEq, Repr

/-- The pages that a listing goes through, one call after the other. -/
inductive Pages (list : PageToken → Option (List String × PageToken)) :
    PageToken → List (List String) → Prop where
  | last {token : PageToken} {page : List String} (h : list token = some (page, .done)) :
      Pages list token [page]
  | more {token next : PageToken} {page : List String} {pages : List (List String)}
      (h : list token = some (page, next)) (hnext : next ≠ .done) (hp : Pages list next pages) :
      Pages list token (page :: pages)

/-- What distinguishes one backend from another here: the version token of the `n`-th commit, and
which listings it may return. -/
structure Backend where
  version : ℕ → ByteArray → Version
  lists : Store → PageToken → ℕ → String → List String → PageToken → Bool

/-- Every commit gets a token of its own, never the empty string. -/
structure Backend.Fresh (bk : Backend) : Prop where
  inj : ∀ {n m : ℕ} {b b' : ByteArray}, bk.version n b = bk.version m b' → n = m
  ne_empty : ∀ (n : ℕ) (b : ByteArray), bk.version n b ≠ ""

/-- The object stored under a key. -/
def Store.get (s : Store) (key : String) : Option Object := s.objects.lookup key

/-- A listing returns only what is stored. -/
def Backend.ListsStored (bk : Backend) : Prop :=
  ∀ s token pageSize pref keys next, bk.lists s token pageSize pref keys next = true →
    ∀ key ∈ keys, s.get key ≠ none

namespace Store

/-- Commit an object. -/
def put (s : Store) (bk : Backend) (key : String) (body : ByteArray) (md : Metadata) : Store :=
  { objects := s.objects.insert key ⟨body, md, bk.version s.next body, s.next⟩
    next := s.next + 1 }

/-- Remove an object. -/
def erase (s : Store) (key : String) : Store := { s with objects := s.objects.erase key }

/-- The conditional commit of `WriteAll` and of a writer's `Close`. -/
def write (s : Store) (bk : Backend) (key : String) (body : ByteArray) (md : Metadata)
    (pre : List Precondition) : Except Err Store :=
  match compilePreconditions pre with
  | .error e => .error e
  | .ok p =>
      if conditionsPass p ((s.get key).map Object.version) then .ok (s.put bk key body md)
      else .error .preconditionFailed

/-- A write or delete of the key under the preconditions would be let through. -/
def Accepts (s : Store) (key : String) (pre : List Precondition) : Prop :=
  ∃ p, compilePreconditions pre = .ok p ∧ conditionsPass p ((s.get key).map Object.version) = true

/-- The conditional delete. -/
def delete (s : Store) (key : String) (pre : List Precondition) : Except Err Store :=
  match compilePreconditions pre with
  | .error e => .error e
  | .ok p =>
      match s.get key with
      | none => .error .notFound
      | some o =>
          if conditionsPass p (some o.version) then .ok (s.erase key)
          else .error .preconditionFailed

/-- The keys under a prefix, in lexical order. -/
def keysUnder (s : Store) (pref : String) : List String :=
  (s.objects.keys.filter fun k => pref.toList.isPrefixOf k.toList).insertionSort (· ≤ ·)

section Lemmas

variable (s : Store) (bk : Backend) (key : String) (body : ByteArray) (md : Metadata)

@[simp] lemma get_put_self :
    (s.put bk key body md).get key = some ⟨body, md, bk.version s.next body, s.next⟩ := by
  simp [get, put]

lemma get_put_ne {key' : String} (h : key' ≠ key) :
    (s.put bk key body md).get key' = s.get key' := by
  simp [get, put, AList.lookup_insert_ne h]

@[simp] lemma next_put : (s.put bk key body md).next = s.next + 1 := rfl

@[simp] lemma get_erase_self : (s.erase key).get key = none := by
  simp [get, erase]

lemma get_erase_ne {key' : String} (h : key' ≠ key) : (s.erase key).get key' = s.get key' := by
  simp [get, erase, AList.lookup_erase_ne h]

@[simp] lemma next_erase : (s.erase key).next = s.next := rfl

@[simp] lemma get_empty : ({} : Store).get key = none := by
  simp [get]

end Lemmas

variable {s s' : Store} {bk : Backend} {key : String} {body : ByteArray} {md : Metadata}

/-- A write commits exactly the object it was given. -/
lemma write_ok {pre : List Precondition} (h : s.write bk key body md pre = .ok s') :
    s' = s.put bk key body md := by
  simp only [write] at h
  split at h
  · cases h
  · split at h
    · exact (Except.ok.inj h).symm
    · cases h

lemma write_accepts {pre : List Precondition} (h : s.write bk key body md pre = .ok s') :
    s.Accepts key pre := by
  simp only [write] at h
  split at h
  · cases h
  · rename_i p hp
    split at h
    · rename_i hpass
      exact ⟨p, hp, hpass⟩
    · cases h

/-- A create commits only where nothing is stored. -/
lemma write_ifNotExists_ok (h : s.write bk key body md [.ifNotExists] = .ok s') :
    s.get key = none ∧ s' = s.put bk key body md := by
  refine ⟨?_, write_ok h⟩
  cases hg : s.get key with
  | none => rfl
  | some o => simp [write, hg] at h

/-- A create is refused only where something is stored. -/
lemma write_ifNotExists_error {e : Err} (h : s.write bk key body md [.ifNotExists] = .error e) :
    e = .preconditionFailed ∧ ∃ o, s.get key = some o := by
  cases hg : s.get key with
  | none => simp [write, hg] at h
  | some o =>
      simp only [write, compilePreconditions_ifNotExists, hg, Option.map_some,
        conditionsPass_ifNotExists, Option.isNone_some, Bool.false_eq_true, if_false] at h
      exact ⟨(Except.error.inj h).symm, o, rfl⟩

/-- A compare-and-swap commits only over the object with the expected version. -/
lemma write_ifMatch_ok {v : Version} (hv : v ≠ "")
    (h : s.write bk key body md [.ifMatch v] = .ok s') :
    ∃ o, s.get key = some o ∧ o.version = v ∧ s' = s.put bk key body md := by
  have hs := write_ok h
  simp only [write, compilePreconditions_ifMatch, conditionsPass_ifMatch hv] at h
  split at h
  · rename_i hm
    obtain ⟨o, ho, hov⟩ := Option.map_eq_some_iff.mp (beq_iff_eq.mp hm)
    exact ⟨o, ho, hov, hs⟩
  · cases h

/-- A compare-and-swap is refused only where no object has the expected version. -/
lemma write_ifMatch_error {v : Version} {e : Err}
    (h : s.write bk key body md [.ifMatch v] = .error e) :
    ∀ o, s.get key = some o → o.version ≠ v := by
  rintro o ho rfl
  simp [write, compilePreconditions_ifMatch, conditionsPass, ho] at h

/-- A delete removes exactly its key, and only an object that is there. -/
lemma delete_ok {pre : List Precondition} (h : s.delete key pre = .ok s') :
    (∃ o, s.get key = some o) ∧ s' = s.erase key := by
  simp only [delete] at h
  split at h
  · cases h
  · split at h
    · cases h
    · rename_i o ho
      split at h
      · exact ⟨⟨o, ho⟩, (Except.ok.inj h).symm⟩
      · cases h

/-- A conditional delete removes only the object with the expected version. -/
lemma delete_ifMatch_ok {v : Version} (hv : v ≠ "") (h : s.delete key [.ifMatch v] = .ok s') :
    ∃ o, s.get key = some o ∧ o.version = v ∧ s' = s.erase key := by
  have hs := (delete_ok h).2
  simp only [delete, compilePreconditions_ifMatch] at h
  split at h
  · cases h
  · rename_i o ho
    split at h
    · rename_i hc
      rw [conditionsPass_ifMatch hv, beq_iff_eq, Option.some.injEq] at hc
      exact ⟨o, ho, hc, hs⟩
    · cases h

/-- An unconditional delete fails only on a missing object. -/
lemma delete_nil_error {e : Err} (h : s.delete key [] = .error e) :
    e = .notFound ∧ s.get key = none := by
  simp only [delete, compilePreconditions_nil] at h
  split at h
  · rename_i hn
    exact ⟨(Except.error.inj h).symm, hn⟩
  · simp [conditionsPass] at h

/-- A write without a condition goes through. -/
lemma write_nil (s : Store) (bk : Backend) (key : String) (body : ByteArray) (md : Metadata) :
    s.write bk key body md [] = .ok (s.put bk key body md) := rfl

/-- A create goes through where nothing is stored. -/
lemma write_ifNotExists_none (bk : Backend) (body : ByteArray) (md : Metadata)
    (h : s.get key = none) : s.write bk key body md [.ifNotExists] = .ok (s.put bk key body md) := by
  simp [write, h]

/-- A compare-and-swap on the version that is stored goes through. -/
lemma write_ifMatch_self (bk : Backend) (body : ByteArray) (md : Metadata) {o : Object}
    (h : s.get key = some o) :
    s.write bk key body md [.ifMatch o.version] = .ok (s.put bk key body md) := by
  simp [write, compilePreconditions_ifMatch, conditionsPass, h]

/-- An unconditional delete of what is stored goes through. -/
lemma delete_nil_some {o : Object} (h : s.get key = some o) :
    s.delete key [] = .ok (s.erase key) := by
  simp [delete, conditionsPass, h]

/-- A conditional delete on the version that is stored goes through. -/
lemma delete_ifMatch_self {o : Object} (h : s.get key = some o) :
    s.delete key [.ifMatch o.version] = .ok (s.erase key) := by
  simp [delete, compilePreconditions_ifMatch, conditionsPass, h]

/-- Every stored object is a commit of this backend that has already happened. -/
def Ok (bk : Backend) (s : Store) : Prop :=
  ∀ key o, s.get key = some o → o.version = bk.version o.seq o.body ∧ o.seq < s.next

lemma Ok.empty (bk : Backend) : Ok bk {} := by
  intro key o h
  simp at h

lemma Ok.put (h : Ok bk s) : Ok bk (s.put bk key body md) := by
  intro key' o ho
  by_cases hk : key' = key
  · subst hk
    rw [get_put_self, Option.some.injEq] at ho
    subst ho
    exact ⟨rfl, Nat.lt_succ_self _⟩
  · rw [get_put_ne s bk key body md hk] at ho
    exact ⟨(h key' o ho).1, Nat.lt_succ_of_lt (h key' o ho).2⟩

lemma Ok.erase (h : Ok bk s) : Ok bk (s.erase key) := by
  intro key' o ho
  by_cases hk : key' = key
  · subst hk
    simp at ho
  · rw [get_erase_ne s key hk] at ho
    exact h key' o ho

lemma Ok.version_ne (hb : bk.Fresh) (h : Ok bk s) {o : Object} (ho : s.get key = some o) :
    o.version ≠ "" := by
  rw [(h key o ho).1]
  exact hb.ne_empty _ _

/-! ## Stores over time -/

/-- `s'` is a later content of the same bucket: what it holds was already there, or was committed
since. -/
structure Follows (s s' : Store) : Prop where
  next_le : s.next ≤ s'.next
  get_or_new : ∀ {key o}, s'.get key = some o → s.get key = some o ∨ s.next ≤ o.seq

lemma Follows.refl (s : Store) : s.Follows s := ⟨le_rfl, .inl⟩

lemma Follows.trans {s₁ s₂ s₃ : Store} (h : s₁.Follows s₂) (h' : s₂.Follows s₃) :
    s₁.Follows s₃ := by
  refine ⟨h.next_le.trans h'.next_le, fun ho => ?_⟩
  rcases h'.get_or_new ho with ho' | hn
  · exact h.get_or_new ho'
  · exact .inr (h.next_le.trans hn)

lemma Follows.put : s.Follows (s.put bk key body md) := by
  refine ⟨Nat.le_succ _, fun {key' o} ho => ?_⟩
  by_cases hk : key' = key
  · subst hk
    rw [get_put_self, Option.some.injEq] at ho
    subst ho
    exact .inr le_rfl
  · rw [get_put_ne s bk key body md hk] at ho
    exact .inl ho

lemma Follows.erase : s.Follows (s.erase key) := by
  refine ⟨le_rfl, fun {key' o} ho => ?_⟩
  by_cases hk : key' = key
  · subst hk
    simp at ho
  · rw [get_erase_ne s key hk] at ho
    exact .inl ho

/-- The token of a commit that has already happened. -/
def Issued (bk : Backend) (s : Store) (v : Version) : Prop :=
  ∃ n body, v = bk.version n body ∧ n < s.next

lemma Issued.ne_empty (hb : bk.Fresh) {v : Version} (h : Issued bk s v) : v ≠ "" := by
  obtain ⟨n, b, rfl, -⟩ := h
  exact hb.ne_empty n b

lemma Issued.follows {v : Version} (h : Issued bk s v) (hs : s.Follows s') : Issued bk s' v := by
  obtain ⟨n, b, hv, hn⟩ := h
  exact ⟨n, b, hv, hn.trans_le hs.next_le⟩

lemma Ok.issued (h : Ok bk s) {o : Object} (ho : s.get key = some o) : Issued bk s o.version :=
  ⟨o.seq, o.body, (h key o ho).1, (h key o ho).2⟩

/-- **What a compare-and-swap compares.**  An object that carries a token issued by the time of `s`
was already stored in `s`. -/
lemma Ok.get_of_issued (hb : bk.Fresh) (hs : s.Follows s') (h : Ok bk s') {v : Version}
    (hv : Issued bk s v) {o : Object} (ho : s'.get key = some o) (hov : o.version = v) :
    s.get key = some o := by
  rcases hs.get_or_new ho with ho' | hn
  · exact ho'
  · obtain ⟨n, b, rfl, hlt⟩ := hv
    have := hb.inj ((h key o ho).1.symm.trans hov)
    omega

end Store

end Blobster
