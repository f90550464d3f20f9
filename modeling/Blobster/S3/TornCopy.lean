import Blobster.Interleave.Transition
import Blobster.S3.CrossCopy

/-!
# Cross-region copy on S3: what arrives

The client of `Blobster.S3.CrossCopy` against an S3 whose requests act atomically on the source version
of the moment, with other clients that overwrite the source key.

The single path is one request.  The multipart path reads the source once for its headers and once for
every part, and nothing ties these requests to one version: `UploadPartCopy` is sent without
`CopySourceIfMatch`.  An overwrite between two parts is assembled into an object that never existed,
**`torn_copy`**.  **`never_torn`** says that this is the only way.

* `Object`, `Upload` — objects and multipart uploads; `Upload.assemble` is what
  `CompleteMultipartUpload` makes of a list.
* `World`, `World.step` — the system.
* `Undisturbed` — no overwrite between the `HeadObject` of a multipart copy and its last part.
* `World.Inv` — what the upload holds, for every phase of the client.
-/

namespace Blobster.S3

open Interleave

/-! ## Objects and uploads -/

/-- The headers and the metadata of an object, empty where it has none. -/
structure Mirrored where
  cacheControl : String := ""
  contentDisposition : String := ""
  contentEncoding : String := ""
  contentLanguage : String := ""
  contentType : String := ""
  metadata : List (String × String) := []
deriving DecidableEq

/-- An object. -/
structure Object where
  bytes : List UInt8
  info : Mirrored
deriving DecidableEq

/-- A version of the source: its size is an `int64`. -/
structure Version extends Object where
  length_lt : (bytes.length : ℤ) < 2 ^ 63
deriving DecidableEq

/-- A header in an answer: absent when it is empty. -/
def present (header : String) : Option String := if header = "" then none else some header

/-- The answer of `HeadObject`. -/
def Object.head (o : Object) : HeadObjectOutput where
  contentLength := some o.bytes.length
  cacheControl := present o.info.cacheControl
  contentDisposition := present o.info.contentDisposition
  contentEncoding := present o.info.contentEncoding
  contentLanguage := present o.info.contentLanguage
  contentType := present o.info.contentType
  metadata := o.info.metadata

/-- What an upload is created with. -/
def CreateMultipartUploadInput.info (i : CreateMultipartUploadInput) : Mirrored where
  cacheControl := i.cacheControl.getD ""
  contentDisposition := i.contentDisposition.getD ""
  contentEncoding := i.contentEncoding.getD ""
  contentLanguage := i.contentLanguage.getD ""
  contentType := i.contentType.getD ""
  metadata := i.metadata

lemma mirrorHeader_present (header : String) :
    (mirrorHeader none (present header)).getD "" = header := by
  by_cases h : header = "" <;> simp [mirrorHeader, present, h]

/-- `applyHeadMetadata` mirrors everything it reads. -/
lemma applyHeadMetadata_head (o : Object) : (applyHeadMetadata {} o.head).info = o.info := by
  obtain ⟨bytes, ⟨cc, cd, ce, cl, ct, metadata⟩⟩ := o
  cases metadata <;>
    simp [applyHeadMetadata, CreateMultipartUploadInput.info, Object.head, mirrorHeader_present]

/-- A part of an upload. -/
structure UploadedPart where
  number : ℤ
  eTag : String
  bytes : List UInt8
deriving DecidableEq

/-- A multipart upload that is not completed. -/
structure Upload where
  info : Mirrored
  parts : List UploadedPart
deriving DecidableEq

/-- `UploadPartCopy`: S3 numbers parts from 1 to 10000, and the range has to lie within the source. -/
def Object.copyRange (o : Object) (r : PartRequest) : Option (List UInt8) :=
  if 1 ≤ r.number ∧ r.number ≤ 10000 ∧ 0 ≤ r.first ∧ r.first ≤ r.last ∧ r.last < o.bytes.length then
    some (slice o.bytes r)
  else none

namespace Upload

/-- A part replaces the one of the same number. -/
def put (u : Upload) (p : UploadedPart) : Upload :=
  { u with parts := p :: u.parts.filter fun q => q.number ≠ p.number }

/-- The part that an entry of a completed list names. -/
def lookup (u : Upload) : Option CompletedPart → Option (List UInt8)
  | none => none
  | some cp =>
      (u.parts.find? fun p => p.number = cp.partNumber ∧ p.eTag = cp.eTag).map UploadedPart.bytes

/-- The parts that a list names, one after the other. -/
def gather (u : Upload) : List (Option CompletedPart) → Option (List UInt8)
  | [] => some []
  | p :: ps => (u.lookup p).bind fun bytes => (u.gather ps).map (bytes ++ ·)

/-- `CompleteMultipartUpload`: at least one part, in ascending order, each as it was uploaded. -/
def assemble (u : Upload) (parts : List (Option CompletedPart)) : Option (List UInt8) :=
  if parts ≠ [] ∧ (parts.filterMap (Option.map CompletedPart.partNumber)).Pairwise (· < ·) then
    u.gather parts
  else none

lemma lookup_put_self (u : Upload) (p : UploadedPart) :
    (u.put p).lookup (some ⟨p.eTag, p.number⟩) = some p.bytes := by
  simp [put, lookup]

lemma lookup_put_of_ne (u : Upload) {p : UploadedPart} {cp : CompletedPart}
    (h : cp.partNumber ≠ p.number) : (u.put p).lookup (some cp) = u.lookup (some cp) := by
  have hp : ¬ (p.number = cp.partNumber ∧ p.eTag = cp.eTag) := fun hp => h hp.1.symm
  rw [put, lookup, lookup, List.find?_cons_of_neg (by simpa using hp), List.find?_filter]
  congr 2
  funext q
  by_cases hq : q.number = cp.partNumber
  · simp [hq, h]
  · simp [hq]

lemma gather_map {u : Upload} {τ : Type} {f : τ → Option CompletedPart} {bytes : τ → List UInt8} :
    ∀ {l : List τ}, (∀ x ∈ l, u.lookup (f x) = some (bytes x)) →
      u.gather (l.map f) = some (l.map bytes).flatten
  | [], _ => rfl
  | x :: l, h => by
      rw [List.map_cons, gather, h x List.mem_cons_self,
        gather_map fun y hy => h y (List.mem_cons_of_mem _ hy)]
      rfl

end Upload

/-! ## The system -/

/-- The source key, the destination key, the upload of the copy, and the client. -/
structure World where
  source : Option Version
  dest : Option Object := none
  upload : Option Upload := none
  client : Phase := .head
deriving DecidableEq

/-- A step: another client puts or deletes the source, a request of the copy succeeds or fails, a
goroutine starts, or `g.Wait()` returns. -/
inductive Call where
  | overwrite (source : Option Version)
  | head
  | copy
  | create
  | spawn
  | part (i : ℕ) (eTag : String)
  | wait
  | complete
  | abort
  | fail
  | failPart (i : ℕ)
deriving DecidableEq

variable (c : CrossCopy)

/-- The client goes on, and nothing else changes. -/
def World.proceed (w : World) (a : Action) : Option World :=
  (c.step w.client a).map fun p => { w with client := p }

/-- One atomic step. -/
def World.step (w : World) : Call → Option World
  | .overwrite source => some { w with source := source }
  | .head => w.source.bind fun o => w.proceed c (.headed o.head)
  | .copy =>
      w.source.bind fun o => (w.proceed c .copied).map fun w' => { w' with dest := some o.toObject }
  | .create =>
      match w.client with
      | .create head _ =>
          (w.proceed c .created).map fun w' =>
            { w' with upload := some ⟨(applyHeadMetadata {} head).info, []⟩ }
      | _ => none
  | .spawn => w.proceed c .spawn
  | .part i eTag =>
      match w.client, w.source, w.upload with
      | .group g, some o, some u =>
          (o.copyRange (c.partRequest g.size i)).bind fun bytes =>
            (w.proceed c (.partCopied i eTag)).map fun w' =>
              { w' with upload := some (u.put ⟨(c.partRequest g.size i).number, eTag, bytes⟩) }
      | _, _, _ => none
  | .wait => w.proceed c .waited
  | .complete =>
      match w.client, w.upload with
      | .complete _ parts, some u =>
          (u.assemble parts).bind fun bytes =>
            (w.proceed c .completed).map fun w' =>
              { w' with upload := none, dest := some ⟨bytes, u.info⟩ }
      | _, _ => none
  | .abort => (w.proceed c .aborted).map fun w' => { w' with upload := none }
  | .fail => w.proceed c .failed
  | .failPart i => w.proceed c (.partFailed i)

/-- The client reads the source for a multipart copy: after its `HeadObject`, before `g.Wait()`. -/
def Phase.readsParts : Phase → Bool
  | .create _ _ | .group _ => true
  | _ => false

/-- Nobody overwrites the source while a multipart copy reads it. -/
def Undisturbed (w : World) : Call → Prop
  | .overwrite _ => w.client.readsParts = false
  | _ => True

instance (w : World) : ∀ a : Call, Decidable (Undisturbed w a)
  | .overwrite _ => inferInstanceAs (Decidable (_ = _))
  | .head | .copy | .create | .spawn | .part _ _ | .wait | .complete | .abort | .fail
  | .failPart _ => .isTrue trivial

/-! ## What the upload holds -/

/-- The upload of a copy of `o`, as far as it has come: every answered part has a number that S3 takes,
and stands in the upload with its bytes of `o`. -/
structure Holds (o : Object) (u : Upload) (ans : List (ℕ × String)) : Prop where
  info : u.info = o.info
  number : ∀ a ∈ ans, 1 ≤ (c.partRequest o.bytes.length a.1).number
  part : c.partCount o.bytes.length < 2 ^ 31 → ∀ a ∈ ans,
    u.lookup (some ⟨a.2, (c.partRequest o.bytes.length a.1).number⟩) =
      some (slice o.bytes (c.partRequest o.bytes.length a.1))

/-- What a run that was not disturbed has come to, when the client is in the phase `p`.  A multipart
copy goes back to one version `o` of the source, which is still the current one until its last part. -/
def World.InvAt (states : List World) (w : World) : Phase → Prop
  | .create head size => ∃ o : Version, w.source = some o ∧ head = o.head ∧
      size = o.bytes.length ∧ c.maxSingle < size
  | .group g => ∃ (o : Version) (u : Upload) (ans : List (ℕ × String)), w.source = some o ∧
      g.size = o.bytes.length ∧ c.maxSingle < g.size ∧ w.upload = some u ∧ c.GroupInv g ans ∧
      (g.failed = false → Holds c o.toObject u ans)
  | .complete size parts => ∃ (o : Version) (u : Upload) (ans : List (ℕ × String)),
      (∃ s ∈ states, s.source = some o) ∧ size = o.bytes.length ∧ c.maxSingle < size ∧
      w.upload = some u ∧ c.Collected size parts ans ∧ Holds c o.toObject u ans
  | .returned true => ∃ s ∈ states, ∃ o, s.source = some o ∧ w.dest = some o.toObject
  | _ => True

/-- The states of a run, newest first. -/
def World.Inv : List World → Prop
  | [] => True
  | w :: past => w.InvAt c (w :: past) w.client

variable {c}

/-- The next part arrives. -/
lemma Holds.put {o : Object} {u : Upload} {g : Group} {ans : List (ℕ × String)} {i : ℕ}
    {bytes : List UInt8} (h : Holds c o u ans) (hg : c.GroupInv g ans) (hf : g.failed = false)
    (hi : i ∈ g.running) (hsize : g.size = o.bytes.length)
    (hrange : o.copyRange (c.partRequest o.bytes.length i) = some bytes) (eTag : String) :
    Holds c o (u.put ⟨(c.partRequest o.bytes.length i).number, eTag, bytes⟩)
      (ans ++ [(i, eTag)]) := by
  obtain ⟨hnum, rfl⟩ : _ ∧ slice o.bytes _ = bytes := by simpa [Object.copyRange] using hrange
  have hperm := hg.perm hf
  refine ⟨h.info, fun a ha => ?_, fun hcount a ha => ?_⟩
  · rcases List.mem_append.mp ha with hold | hnew
    · exact h.number a hold
    · rw [List.mem_singleton.mp hnew]
      exact hnum.1
  · rcases List.mem_append.mp ha with hold | hnew
    · -- The older part keeps its place: its number is another one.
      have hne : a.1 ≠ i := fun hai =>
        List.disjoint_of_nodup_append (hperm.nodup_iff.mpr List.nodup_range)
          (List.mem_map_of_mem hold) (hai ▸ hi)
      have hlt : ∀ j, j ∈ ans.map Prod.fst ++ g.running → (j : ℤ) + 1 < 2 ^ 31 := by
        intro j hj
        have := List.mem_range.mp (hperm.mem_iff.mp hj)
        have := hg.next_le
        have := hg.length
        rw [hsize] at this
        omega
      rw [Upload.lookup_put_of_ne]
      · exact h.part hcount a hold
      · change (c.partRequest o.bytes.length a.1).number ≠ (c.partRequest o.bytes.length i).number
        rw [CrossCopy.partRequest_number c o.bytes.length
            (hlt _ (List.mem_append_left _ (List.mem_map_of_mem hold))),
          CrossCopy.partRequest_number c o.bytes.length (hlt _ (List.mem_append_right _ hi))]
        omega
    · rw [List.mem_singleton.mp hnew]
      exact Upload.lookup_put_self _ _

/-- What a completed upload assembles to. -/
lemma Holds.assemble {o : Version} {u : Upload} {ans : List (ℕ × String)}
    {parts : List (Option CompletedPart)} {bytes : List UInt8} (h : Holds c o.toObject u ans)
    (hcol : c.Collected o.bytes.length parts ans) (hsize : c.maxSingle < o.bytes.length)
    (hbytes : u.assemble parts = some bytes) : bytes = o.bytes := by
  obtain ⟨hne, -, hgather⟩ : parts ≠ [] ∧ _ ∧ u.gather parts = some bytes := by
    simpa [Upload.assemble, and_assoc] using hbytes
  have hlen := hcol.length
  have hpos : 0 < parts.length := List.length_pos_iff.mpr hne
  have hsingle := c.maxSingle_nonneg
  have hplan := CrossCopy.planned_of_one_le (c := c) (by omega) o.length_lt (by omega)
  -- A part with the number `2 ^ 31` would have been sent with a negative one.
  have hcount : c.partCount o.bytes.length < 2 ^ 31 := by
    by_contra hge
    have hmem : 2 ^ 31 - 1 ∈ ans.map Prod.fst :=
      hcol.perm.mem_iff.mpr (List.mem_range.mpr (by omega))
    obtain ⟨a, ha, hidx⟩ := List.mem_map.mp hmem
    have hnum := h.number a ha
    rw [hidx] at hnum
    exact absurd hnum (show ¬ 1 ≤ int32 ((2 ^ 31 - 1 : ℕ) + 1) by decide +kernel)
  obtain ⟨eTag, hperm, hparts⟩ := hcol.ordered
  have hlookup : ∀ i ∈ List.range parts.length,
      u.lookup (some ⟨eTag i, (c.partRequest o.bytes.length i).number⟩) =
        some (slice o.bytes (c.partRequest o.bytes.length i)) := fun i hi =>
    h.part hcount (i, eTag i) (hperm.mem_iff.mpr (List.mem_map_of_mem hi))
  rw [hparts, Upload.gather_map hlookup, hplan.flatten_slices rfl hlen] at hgather
  exact (Option.some.inj hgather).symm

/-! ## The runs -/

lemma World.proceed_eq_some {w w' : World} {a : Action} (h : w.proceed c a = some w') :
    ∃ p, c.step w.client a = some p ∧ w' = { w with client := p } := by
  obtain ⟨p, hp, rfl⟩ := Option.map_eq_some_iff.mp h
  exact ⟨p, hp, rfl⟩

/-- The steps of the client that leave S3 as it is and learn nothing from it. -/
def Action.silent : Action → Bool
  | .spawn | .partFailed _ | .waited | .aborted | .failed => true
  | _ => false

lemma World.InvAt.silent {w : World} {states : List World} {p p' : Phase} {a : Action}
    (hinv : w.InvAt c states p) (hstep : c.Step p a p') (ha : a.silent = true)
    (hmem : ∃ s ∈ states, s.source = w.source) : w.InvAt c states p' := by
  cases hstep with
  | spawn hlt =>
      obtain ⟨o, u, ans, ho, hsize, hsingle, hu, hg, hold⟩ := hinv
      exact ⟨o, u, ans, ho, hsize, hsingle, hu, hg.spawn hlt, hold⟩
  | partFailed =>
      obtain ⟨o, u, ans, ho, hsize, hsingle, hu, hg, -⟩ := hinv
      exact ⟨o, u, ans, ho, hsize, hsingle, hu, hg.partFailed _,
        fun hf => by simp [CrossCopy.giveUp] at hf⟩
  | waited hf hnext hrun =>
      obtain ⟨o, u, ans, ho, hsize, hsingle, hu, hg, hold⟩ := hinv
      obtain ⟨s, hs, heq⟩ := hmem
      exact ⟨o, u, ans, ⟨s, hs, heq.trans ho⟩, hsize, hsingle, hu, hg.waited hf hnext hrun, hold hf⟩
  | large | small | noSize | copied | created | noSlice | partCopied | completed => cases ha
  | _ => exact trivial

/-- More states, of which the last is the current one. -/
lemma World.InvAt.cons {w : World} {states : List World} {p : Phase} (h : w.InvAt c states p)
    (s : World) : w.InvAt c (s :: states) p := by
  cases p with
  | complete size parts =>
      obtain ⟨o, u, ans, ⟨s', hs', ho⟩, hrest⟩ := h
      exact ⟨o, u, ans, ⟨s', List.mem_cons_of_mem _ hs', ho⟩, hrest⟩
  | returned ok =>
      cases ok with
      | true =>
          obtain ⟨s', hs', ho⟩ := h
          exact ⟨s', List.mem_cons_of_mem _ hs', ho⟩
      | false => exact trivial
  | _ => exact h

/-- The client's own moves. -/
lemma World.inv_silent {w w' : World} {past : List World} {a : Action}
    (hinv : World.Inv c (w :: past)) (ha : a.silent = true) (h : w.proceed c a = some w') :
    World.Inv c (w' :: w :: past) := by
  obtain ⟨p, hp, rfl⟩ := World.proceed_eq_some h
  exact (hinv.cons _).silent (CrossCopy.step_step hp) ha
    ⟨w, List.mem_cons_of_mem _ List.mem_cons_self, rfl⟩

/-- `HeadObject`. -/
lemma World.inv_head {w w' : World} {past : List World} (h : w.step c .head = some w') :
    World.Inv c (w' :: w :: past) := by
  obtain ⟨o, ho, h⟩ := Option.bind_eq_some_iff.mp h
  obtain ⟨p, hp, rfl⟩ := World.proceed_eq_some h
  have hstep := CrossCopy.step_step hp
  change World.InvAt c _ _ p
  generalize w.client = q at hstep
  cases hstep with
  | large hsize => exact ⟨o, ho, rfl, rfl, hsize⟩
  | _ => exact trivial

/-- `CopyObject`. -/
lemma World.inv_copy {w w' : World} {past : List World} (h : w.step c .copy = some w') :
    World.Inv c (w' :: w :: past) := by
  obtain ⟨o, ho, h⟩ := Option.bind_eq_some_iff.mp h
  obtain ⟨w₁, h₁, rfl⟩ := Option.map_eq_some_iff.mp h
  obtain ⟨p, hp, rfl⟩ := World.proceed_eq_some h₁
  have hstep := CrossCopy.step_step hp
  change World.InvAt c _ _ p
  generalize w.client = q at hstep
  cases hstep with
  | copied => exact ⟨w, List.mem_cons_of_mem _ List.mem_cons_self, o, ho, rfl⟩

/-- `CreateMultipartUpload`. -/
lemma World.inv_create {w w' : World} {past : List World} (hinv : World.Inv c (w :: past))
    (h : w.step c .create = some w') : World.Inv c (w' :: w :: past) := by
  change World.InvAt c _ w w.client at hinv
  cases hw : w.client with
  | create head size =>
      simp only [World.step, hw] at h
      obtain ⟨w₁, h₁, rfl⟩ := Option.map_eq_some_iff.mp h
      obtain ⟨p, hp, rfl⟩ := World.proceed_eq_some h₁
      rw [hw] at hp hinv
      obtain ⟨o, ho, rfl, rfl, hsize⟩ := hinv
      have hstep := CrossCopy.step_step hp
      change World.InvAt c _ _ p
      cases hstep with
      | noSlice => exact trivial
      | created hcount =>
          refine ⟨o, _, [], ho, rfl, hsize, rfl, CrossCopy.groupInv_first hcount, fun _ => ?_⟩
          exact ⟨applyHeadMetadata_head o.toObject, fun _ ha => (nomatch ha), fun _ _ ha => nomatch ha⟩
  | _ => simp [World.step, hw] at h

/-- `UploadPartCopy`. -/
lemma World.inv_part {w w' : World} {past : List World} {i : ℕ} {eTag : String}
    (hinv : World.Inv c (w :: past)) (h : w.step c (.part i eTag) = some w') :
    World.Inv c (w' :: w :: past) := by
  change World.InvAt c _ w w.client at hinv
  cases hw : w.client with
  | group g =>
      rw [hw] at hinv
      obtain ⟨o, u, ans, ho, hsize, hsingle, hu, hg, hold⟩ := hinv
      simp only [World.step, hw, ho, hu] at h
      obtain ⟨bytes, hbytes, h⟩ := Option.bind_eq_some_iff.mp h
      obtain ⟨w₁, h₁, rfl⟩ := Option.map_eq_some_iff.mp h
      obtain ⟨p, hp, rfl⟩ := World.proceed_eq_some h₁
      rw [hw] at hp
      have hstep := CrossCopy.step_step hp
      change World.InvAt c _ _ p
      cases hstep with
      | partCopied hi =>
          refine ⟨o, _, _, ho, hsize, hsingle, rfl, hg.partCopied hi eTag, fun hf => ?_⟩
          rw [hsize] at hbytes ⊢
          exact (hold hf).put hg hf hi hsize hbytes eTag
  | _ => simp [World.step, hw] at h

/-- `CompleteMultipartUpload`. -/
lemma World.inv_complete {w w' : World} {past : List World} (hinv : World.Inv c (w :: past))
    (h : w.step c .complete = some w') : World.Inv c (w' :: w :: past) := by
  change World.InvAt c _ w w.client at hinv
  cases hw : w.client with
  | complete size parts =>
      rw [hw] at hinv
      obtain ⟨o, u, ans, ⟨s, hs, ho⟩, rfl, hsingle, hu, hcol, hold⟩ := hinv
      simp only [World.step, hw, hu] at h
      obtain ⟨bytes, hbytes, h⟩ := Option.bind_eq_some_iff.mp h
      obtain ⟨w₁, h₁, rfl⟩ := Option.map_eq_some_iff.mp h
      obtain ⟨p, hp, rfl⟩ := World.proceed_eq_some h₁
      rw [hw] at hp
      have hstep := CrossCopy.step_step hp
      change World.InvAt c _ _ p
      cases hstep with
      | completed =>
          refine ⟨s, List.mem_cons_of_mem _ hs, o, ho, ?_⟩
          rw [hold.assemble hcol hsingle hbytes, hold.info]
  | _ => simp [World.step, hw] at h

/-- An overwrite, when the client is not between a `HeadObject` and its last part. -/
lemma World.inv_overwrite {w : World} {past : List World} {source : Option Version}
    (hinv : World.Inv c (w :: past)) (hadm : w.client.readsParts = false) :
    World.Inv c ({ w with source := source } :: w :: past) := by
  have hcons := World.InvAt.cons hinv { w with source := source }
  change World.InvAt c _ { w with source := source } w.client
  revert hcons
  cases hw : w.client with
  | create head size => simp [hw, Phase.readsParts] at hadm
  | group g => simp [hw, Phase.readsParts] at hadm
  | returned ok => cases ok <;> exact id
  | _ => exact id

/-- One step of the system. -/
lemma World.inv_step {w w' : World} {past : List World} {a : Call}
    (hinv : World.Inv c (w :: past)) (hadm : Undisturbed w a) (h : w.step c a = some w') :
    World.Inv c (w' :: w :: past) := by
  cases a with
  | overwrite source =>
      obtain rfl := Option.some.inj h
      exact World.inv_overwrite hinv hadm
  | head => exact World.inv_head h
  | copy => exact World.inv_copy h
  | create => exact World.inv_create hinv h
  | part i eTag => exact World.inv_part hinv h
  | complete => exact World.inv_complete hinv h
  | spawn => exact World.inv_silent hinv rfl h
  | wait => exact World.inv_silent hinv rfl h
  | fail => exact World.inv_silent hinv rfl h
  | failPart i => exact World.inv_silent hinv rfl h
  | abort =>
      obtain ⟨w₁, h₁, rfl⟩ := Option.map_eq_some_iff.mp h
      obtain ⟨p, hp, rfl⟩ := World.proceed_eq_some h₁
      have hstep := CrossCopy.step_step hp
      change World.InvAt c _ _ p
      generalize w.client = q at hstep
      cases hstep
      exact trivial

/-- **A copy is never torn unless its source is overwritten while its parts are read.**  In every run in
which nobody overwrites the source between the `HeadObject` of a multipart copy and its last part, a copy
that returns `nil` has left one version of the source at the destination, with its headers and
metadata. -/
theorem never_torn (c : CrossCopy) {w₀ w : World} {past : List World} (h₀ : w₀.client = .head)
    (hrun : Run (World.step c) Undisturbed w₀ (w :: past)) (hret : w.client = .returned true) :
    ∃ s ∈ w :: past, ∃ o : Version, s.source = some o ∧ w.dest = some o.toObject := by
  have hinit : World.Inv c [w₀] := by
    change World.InvAt c _ w₀ w₀.client
    rw [h₀]
    exact trivial
  have hinv : World.InvAt c (w :: past) w w.client :=
    hrun.keeps hinit fun hinv hadm h => World.inv_step hinv hadm h
  rwa [hret] at hinv

/-- Two bytes of the same value. -/
def twice (b : UInt8) : Version := ⟨⟨[b, b], { contentType := toString b }⟩, show ((2 : ℕ) : ℤ) < 2 ^ 63 by decide⟩

/-- Two parts; the source is overwritten after the copy has returned. -/
def undisturbedCopy : List Call :=
  [.head, .create, .spawn, .part 0 "a", .spawn, .part 1 "b", .wait, .complete,
    .overwrite (some (twice 2))]

/-- A test of the last state of a run, given the others. -/
def ofLast (test : World → List World → Bool) : List World → Bool
  | [] => false
  | w :: past => test w past

theorem never_torn_two_parts :
    ∃ (w : World) (past : List World), w.client = .returned true ∧ w.source = some (twice 2) ∧
      ∃ s ∈ w :: past, ∃ o : Version, s.source = some o ∧ w.dest = some o.toObject := by
  have hplay : (playStates (World.step tinyCopy) (fun w a => decide (Undisturbed w a))
      { source := some (twice 1) } [] undisturbedCopy).any (ofLast fun w _ =>
        decide (w.client = .returned true ∧ w.source = some (twice 2))) = true := by
    decide +kernel
  obtain ⟨states, hrun, hlast⟩ := run_of_play Undisturbed (by simp) hplay
  cases states with
  | nil => exact absurd hlast (by simp [ofLast])
  | cons w past =>
      have hw := of_decide_eq_true hlast
      exact ⟨w, past, hw.1, hw.2, never_torn tinyCopy rfl hrun hw.1⟩

/-- The source is overwritten between the two parts. -/
def disturbedCopy : List Call :=
  [.head, .create, .spawn, .part 0 "a", .overwrite (some (twice 2)), .spawn, .part 1 "b", .wait,
    .complete]

/-- **An overwrite between two parts is assembled into an object that the source never was.** -/
theorem torn_copy :
    ∃ (w : World) (past : List World),
      Run (World.step tinyCopy) (fun _ _ => True) { source := some (twice 1) } (w :: past) ∧
      w.client = .returned true ∧ w.dest = some ⟨[1, 2], (twice 1).info⟩ ∧
      ¬ ∃ s ∈ w :: past, ∃ o : Version, s.source = some o ∧ w.dest = some o.toObject := by
  have hplay : (playStates (World.step tinyCopy) (fun _ _ => true)
      { source := some (twice 1) } [] disturbedCopy).any (ofLast fun w past =>
        decide (w.client = .returned true ∧ w.dest = some ⟨[1, 2], (twice 1).info⟩ ∧
          ∀ s ∈ w :: past, w.dest ≠ s.source.map Version.toObject)) = true := by
    decide +kernel
  obtain ⟨states, hrun, hlast⟩ := run_of_play (fun _ _ => True) (by simp) hplay
  cases states with
  | nil => exact absurd hlast (by simp [ofLast])
  | cons w past =>
      obtain ⟨hret, hdest, hnever⟩ := of_decide_eq_true hlast
      refine ⟨w, past, hrun, hret, hdest, ?_⟩
      rintro ⟨s, hs, o, ho, heq⟩
      exact hnever s hs (by rw [heq, ho, Option.map_some])

end Blobster.S3
