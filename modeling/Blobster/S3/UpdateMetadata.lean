import Blobster.S3.Service
import Blobster.S3.TornCopy

/-!
# Updating metadata on S3

`s3Backend.UpdateMetadata` (`s3/s3.go`).  S3 has no update of the metadata alone.  The driver reads the
headers of the object and copies it onto itself with new metadata, which drops every header that the
request does not supply again.  The copy takes the body that is current when it arrives; the headers are
those of the object that was read before.

An overwrite between the two requests gets its body under the headers of the object that it replaced,
**`mixed_object`**.  **`only_metadata_changes`** says that this takes an overwrite with other headers.

* `attributes`, `updateInput` — the two halves of the call; `CopyObjectInput.replace` — what S3 does.
* `replace_updateInput` — without interference, only the metadata changes.
* `KeyWorld`, `KeyWorld.step` — any number of calls, and other clients' writes of the key; the complete
  writes so far are kept.
* `SameHeaders` — the condition on an overwrite; `KeyWorld.Inv` — what it gives.
-/

namespace Blobster.S3

open Interleave

/-! ## The source -/

/-- The headers in the `Attributes` that the driver makes of a `HeadObjectOutput`. -/
def attributes (out : HeadObjectOutput) : Headers where
  cacheControl := out.cacheControl.getD ""
  contentDisposition := out.contentDisposition.getD ""
  contentEncoding := out.contentEncoding.getD ""
  contentLanguage := out.contentLanguage.getD ""
  contentType := out.contentType.getD ""

/-- What `UpdateMetadata` sets of a `CopyObjectInput`, with `MetadataDirective` set to `REPLACE`. -/
structure CopyObjectInput where
  metadata : UserMetadata := []
  cacheControl : Option String := none
  contentDisposition : Option String := none
  contentEncoding : Option String := none
  contentLanguage : Option String := none
  contentType : Option String := none
deriving DecidableEq

/-- The request of `UpdateMetadata`: the new metadata, and the headers that are not empty. -/
def updateInput (cur : Headers) (md : UserMetadata) : CopyObjectInput where
  metadata := if md.length > 0 then md else []
  cacheControl := present cur.cacheControl
  contentDisposition := present cur.contentDisposition
  contentEncoding := present cur.contentEncoding
  contentLanguage := present cur.contentLanguage
  contentType := present cur.contentType

/-- The self-copy: the body that is there, with the headers and the metadata of the request. -/
def CopyObjectInput.replace (input : CopyObjectInput) (o : Object) : Object where
  bytes := o.bytes
  info := {
    cacheControl := input.cacheControl.getD ""
    contentDisposition := input.contentDisposition.getD ""
    contentEncoding := input.contentEncoding.getD ""
    contentLanguage := input.contentLanguage.getD ""
    contentType := input.contentType.getD ""
    metadata := input.metadata }

/-- The content headers of an object. -/
def Object.headers (o : Object) : Headers where
  cacheControl := o.info.cacheControl
  contentDisposition := o.info.contentDisposition
  contentEncoding := o.info.contentEncoding
  contentLanguage := o.info.contentLanguage
  contentType := o.info.contentType

/-- The object with other metadata. -/
def Object.withMetadata (o : Object) (md : UserMetadata) : Object :=
  { o with info := { o.info with metadata := md } }

lemma present_getD (header : String) : (present header).getD "" = header := by
  by_cases h : header = "" <;> simp [present, h]

lemma attributes_head (o : Object) : attributes o.head = o.headers := by
  simp only [attributes, Object.head, Object.headers, present_getD]

/-- What the copy leaves: the body that is there, and what the request was made of. -/
lemma replace_eq (cur : Headers) (md : UserMetadata) (o : Object) :
    ((updateInput cur md).replace o).bytes = o.bytes ∧
      ((updateInput cur md).replace o).headers = cur ∧
      ((updateInput cur md).replace o).info.metadata = md := by
  refine ⟨rfl, ?_, ?_⟩
  · simp only [CopyObjectInput.replace, updateInput, Object.headers, present_getD]
  · cases md <;> rfl

/-- An object is its body, its headers and its metadata. -/
lemma Object.eq_withMetadata {o p : Object} {md : UserMetadata} (hbytes : o.bytes = p.bytes)
    (hheaders : o.headers = p.headers) (hmd : o.info.metadata = md) : o = p.withMetadata md := by
  obtain ⟨bytes, ⟨cc, cd, ce, cl, ct, metadata⟩⟩ := o
  obtain ⟨bytes', ⟨cc', cd', ce', cl', ct', metadata'⟩⟩ := p
  simp only [Object.headers, Headers.mk.injEq] at hheaders
  simp only at hbytes hmd
  simp [Object.withMetadata, hbytes, hmd, hheaders]

/-- **Without interference only the metadata changes.** -/
lemma replace_updateInput (o : Object) (md : UserMetadata) :
    (updateInput (attributes o.head) md).replace o = o.withMetadata md := by
  obtain ⟨hbytes, hheaders, hmd⟩ := replace_eq (attributes o.head) md o
  exact Object.eq_withMetadata hbytes (hheaders.trans (attributes_head o)) hmd

/-! ## The system -/

/-- Where a call of `UpdateMetadata` is: before its `HeadObject`, before its `CopyObject`, or back.  One that
has returned keeps the writes that were complete before its copy and the object that the copy left. -/
inductive UpdatePhase where
  | idle
  | head (md : UserMetadata)
  | copy (cur : Headers) (md : UserMetadata)
  | returned (md : UserMetadata) (before : List Object) (left : Object) (version : String)
  | failed (e : Err)
deriving DecidableEq

/-- The object at the key, the complete writes so far, and the clients that update its metadata. -/
structure KeyWorld (C : Type) where
  object : Option Object
  writes : List Object
  client : C → UpdatePhase

/-- A step: another client puts or deletes the object, a client calls `UpdateMetadata`, or a request of a
call succeeds or fails. -/
inductive UpdateCall (C : Type) where
  | overwrite (object : Option Object)
  | call (c : C) (md : UserMetadata)
  | head (c : C)
  | copy (c : C) (eTag : Option String)
  | fail (c : C) (err : ServiceError)

namespace KeyWorld

variable {C : Type} [DecidableEq C]

/-- The client goes on. -/
def enter (w : KeyWorld C) (c : C) (p : UpdatePhase) : KeyWorld C :=
  { w with client := Function.update w.client c p }

/-- One atomic step. -/
def step (w : KeyWorld C) : UpdateCall C → Option (KeyWorld C)
  | .overwrite object => some { w with object := object, writes := object.toList ++ w.writes }
  | .call c md =>
      match w.client c with
      | .head _ | .copy _ _ => none
      | _ => some (w.enter c (.head md))
  | .head c =>
      match w.client c, w.object with
      | .head md, some o => some (w.enter c (.copy (attributes o.head) md))
      | _, _ => none
  | .copy c eTag =>
      match w.client c, w.object with
      | .copy cur md, some o =>
          let left := (updateInput cur md).replace o
          some { w.enter c (.returned md w.writes left (etagVersion eTag)) with object := some left }
      | _, _ => none
  | .fail c err =>
      match w.client c with
      | .head _ | .copy _ _ => some (w.enter c (.failed (mapError err)))
      | _ => none

/-- Nobody has written to the key but with the object that is there, and nobody has called. -/
def initial (object : Option Object) : KeyWorld C := ⟨object, object.toList, fun _ => .idle⟩

end KeyWorld

/-- An overwrite between the two requests of a call has the headers that the call has read. -/
def SameHeaders {C : Type} (w : KeyWorld C) : UpdateCall C → Prop
  | .overwrite (some o) => ∀ c cur md, w.client c = .copy cur md → o.headers = cur
  | _ => True

namespace KeyWorld

variable {C : Type}

/-- What every state of a run with that condition has: the object goes back to one write but for its
metadata, a call that has read the headers has those of the object, and a call that has returned left the
object of one write before it with its own metadata. -/
structure Inv (w : KeyWorld C) : Prop where
  object : ∀ o, w.object = some o → ∃ p ∈ w.writes, o.bytes = p.bytes ∧ o.headers = p.headers
  read : ∀ c cur md, w.client c = .copy cur md → ∀ o, w.object = some o → o.headers = cur
  returned : ∀ c md before left version, w.client c = .returned md before left version →
    ∃ p ∈ before, left = p.withMetadata md

/-- A client goes on, and nothing else changes. -/
lemma Inv.enter [DecidableEq C] {w : KeyWorld C} (h : w.Inv) (c : C) {p : UpdatePhase}
    (hcopy : ∀ cur md, p = .copy cur md → ∀ o, w.object = some o → o.headers = cur)
    (hret : ∀ md before left version, p = .returned md before left version →
      ∃ q ∈ before, left = q.withMetadata md) : (w.enter c p).Inv := by
  refine ⟨h.object, fun d cur md hd => ?_, fun d md before left version hd => ?_⟩
  all_goals
    rw [KeyWorld.enter] at hd
    dsimp only at hd
    by_cases hdc : d = c
  · rw [hdc, Function.update_self] at hd
    exact hcopy cur md hd
  · rw [Function.update_of_ne hdc] at hd
    exact h.read d cur md hd
  · rw [hdc, Function.update_self] at hd
    exact hret md before left version hd
  · rw [Function.update_of_ne hdc] at hd
    exact h.returned d md before left version hd

lemma Inv.overwrite {w : KeyWorld C} (h : w.Inv) {object : Option Object}
    (hadm : SameHeaders w (.overwrite object)) :
    Inv { w with object := object, writes := object.toList ++ w.writes } := by
  refine ⟨fun o ho => ?_, fun c cur md hc o ho => ?_, h.returned⟩
  · dsimp only at ho
    exact ⟨o, by simp [ho], rfl, rfl⟩
  · dsimp only at ho
    rw [ho] at hadm
    exact hadm c cur md hc

/-- The self-copy of a client whose headers are those of the object. -/
lemma Inv.copy [DecidableEq C] {w : KeyWorld C} (h : w.Inv) {c : C} {cur : Headers} {md : UserMetadata}
    (hc : w.client c = .copy cur md) {o : Object} (ho : w.object = some o) (version : String) :
    Inv { w.enter c (.returned md w.writes ((updateInput cur md).replace o) version) with
      object := some ((updateInput cur md).replace o) } := by
  obtain ⟨hbytes, hheaders, hmd⟩ := replace_eq cur md o
  obtain ⟨p, hp, hpbytes, hpheaders⟩ := h.object o ho
  have hcur := h.read c cur md hc o ho
  have hleft : (updateInput cur md).replace o = p.withMetadata md :=
    Object.eq_withMetadata (hbytes.trans hpbytes)
      (hheaders.trans (hcur.symm.trans hpheaders)) hmd
  have henter := h.enter c (p := .returned md w.writes ((updateInput cur md).replace o) version)
    (by intro _ _ h; cases h) (by intro _ _ _ _ h; cases h; exact ⟨p, hp, hleft⟩)
  refine ⟨fun o' ho' => ?_, fun d cur' md' hd o' ho' => ?_, henter.returned⟩
  · obtain rfl := Option.some.inj ho'
    exact ⟨p, hp, hbytes.trans hpbytes, hheaders.trans (hcur.symm.trans hpheaders)⟩
  · obtain rfl := Option.some.inj ho'
    exact (hheaders.trans hcur.symm).trans (henter.read d cur' md' hd o ho)

lemma Inv.step [DecidableEq C] {w w' : KeyWorld C} {a : UpdateCall C} (h : w.Inv) (hadm : SameHeaders w a)
    (hs : w.step a = some w') : w'.Inv := by
  cases a with
  | overwrite object =>
      obtain rfl := Option.some.inj hs
      exact h.overwrite hadm
  | call c md =>
      rw [KeyWorld.step] at hs
      split at hs
      · cases hs
      · cases hs
      · obtain rfl := Option.some.inj hs
        exact h.enter c (by intro _ _ h; cases h) (by intro _ _ _ _ h; cases h)
  | head c =>
      rw [KeyWorld.step] at hs
      split at hs
      · rename_i md o hc ho
        obtain rfl := Option.some.inj hs
        refine h.enter c ?_ (by intro _ _ _ _ h; cases h)
        intro cur md' heq o' ho'
        cases heq
        rw [ho] at ho'
        rw [← Option.some.inj ho', attributes_head]
      · cases hs
  | copy c eTag =>
      rw [KeyWorld.step] at hs
      split at hs
      · rename_i cur md o hc ho
        obtain rfl := Option.some.inj hs
        exact h.copy hc ho _
      · cases hs
  | fail c err =>
      rw [KeyWorld.step] at hs
      split at hs
      · obtain rfl := Option.some.inj hs
        exact h.enter c (by intro _ _ h; cases h) (by intro _ _ _ _ h; cases h)
      · obtain rfl := Option.some.inj hs
        exact h.enter c (by intro _ _ h; cases h) (by intro _ _ _ _ h; cases h)
      · cases hs

lemma inv_initial (object : Option Object) : (initial object : KeyWorld C).Inv := by
  refine ⟨fun o ho => ⟨o, ?_, rfl, rfl⟩, fun c cur md hc => ?_, fun c md before left version hc => ?_⟩
  · exact Option.mem_toList.mpr ho
  · cases hc
  · cases hc

end KeyWorld

/-- **`UpdateMetadata` changes the metadata only**, in every run in which each overwrite that falls between
the two requests of a call has the content headers that the call has read: what a call that returned left is
the object of one write before it, with the new metadata. -/
theorem only_metadata_changes {C : Type} [DecidableEq C] {object : Option Object} {w : KeyWorld C}
    {past : List (KeyWorld C)}
    (hrun : Run KeyWorld.step SameHeaders (KeyWorld.initial object) (w :: past)) {c : C}
    {md : UserMetadata} {before : List Object} {left : Object} {version : String}
    (hret : w.client c = .returned md before left version) :
    ∃ p ∈ before, left = p.withMetadata md := by
  have hinv : ∀ s ∈ (w :: past).head?, s.Inv := by
    refine hrun.keeps (I := fun states => ∀ s ∈ states.head?, s.Inv) ?_ ?_
    · rintro s ⟨⟩
      exact KeyWorld.inv_initial object
    · rintro s s' rest a hs hadm hstep _ ⟨⟩
      exact (hs s rfl).step hadm hstep
  exact (hinv w rfl).returned c md before left version hret

/-! ## Runs with one call -/

/-- An object of one byte. -/
def oneByte (b : UInt8) (contentType : String) : Object := ⟨[b], { contentType := contentType }⟩

/-- A call with an overwrite between its two requests. -/
def overwritten (o : Object) : List (UpdateCall Unit) :=
  [.call () [("k", "v")], .head (), .overwrite (some o), .copy () (some "\"e\"")]

/-- `SameHeaders` for one client. -/
def sameHeadersTest (w : KeyWorld Unit) : UpdateCall Unit → Bool
  | .overwrite (some o) =>
      match w.client () with
      | .copy cur _ => o.headers = cur
      | _ => true
  | _ => true

lemma sameHeaders_of_test (w : KeyWorld Unit) (a : UpdateCall Unit)
    (h : sameHeadersTest w a = true) : SameHeaders w a := by
  cases a with
  | overwrite object =>
      cases object with
      | none => trivial
      | some o =>
          rintro ⟨⟩ cur md hc
          simp only [sameHeadersTest, hc] at h
          exact of_decide_eq_true h
  | call c md => trivial
  | head c => trivial
  | copy c eTag => trivial
  | fail c err => trivial

/-- What the call has returned in the last state of a run. -/
def returnedAs (test : List Object → Object → Bool) : List (KeyWorld Unit) → Bool
  | [] => false
  | w :: _ =>
      match w.client () with
      | .returned _ before left _ => test before left
      | _ => false

lemma exists_returned {test : List Object → Object → Bool} {states : List (KeyWorld Unit)}
    (h : returnedAs test states = true) :
    ∃ w past md before left version, states = w :: past ∧
      w.client () = .returned md before left version ∧ test before left = true := by
  cases states with
  | nil => cases h
  | cons w past =>
      simp only [returnedAs] at h
      split at h
      · rename_i md before left version hc
        exact ⟨w, past, md, before, left, version, rfl, hc, h⟩
      · cases h

/-- An overwrite with the same headers is the write that the update leaves. -/
theorem only_metadata_changes_overwritten :
    ∃ (w : KeyWorld Unit) (md : UserMetadata) (before : List Object) (left : Object)
      (version : String), w.client () = .returned md before left version ∧ left.bytes = [2] ∧
        ∃ p ∈ before, left = p.withMetadata md := by
  have hplay : (playStates KeyWorld.step sameHeadersTest
      (KeyWorld.initial (some (oneByte 1 "text/plain"))) []
        (overwritten (oneByte 2 "text/plain"))).any
          (returnedAs fun _ left => left.bytes = [2]) = true := by
    decide +kernel
  obtain ⟨states, hrun, hlast⟩ := run_of_play SameHeaders sameHeaders_of_test hplay
  obtain ⟨w, past, md, before, left, version, rfl, hret, htest⟩ := exists_returned hlast
  exact ⟨w, md, before, left, version, hret, of_decide_eq_true htest,
    only_metadata_changes hrun hret⟩

/-- **An overwrite with another content type gets its body under the old one**: what the call left has the
body and the headers of no write. -/
theorem mixed_object :
    ∃ (w : KeyWorld Unit) (past : List (KeyWorld Unit)) (md : UserMetadata) (before : List Object)
      (left : Object) (version : String),
      Run KeyWorld.step (fun _ _ => True) (KeyWorld.initial (some (oneByte 1 "text/plain")))
        (w :: past) ∧
      w.client () = .returned md before left version ∧
      left = (oneByte 2 "text/plain").withMetadata [("k", "v")] ∧
      before = [oneByte 2 "text/html", oneByte 1 "text/plain"] ∧
      ¬ ∃ p ∈ before, left.bytes = p.bytes ∧ left.headers = p.headers := by
  have hplay : (playStates KeyWorld.step (fun _ _ => true)
      (KeyWorld.initial (some (oneByte 1 "text/plain"))) []
        (overwritten (oneByte 2 "text/html"))).any (returnedAs fun before left =>
          left = (oneByte 2 "text/plain").withMetadata [("k", "v")] ∧
            before = [oneByte 2 "text/html", oneByte 1 "text/plain"]) = true := by
    decide +kernel
  obtain ⟨states, hrun, hlast⟩ := run_of_play (fun _ _ => True) (by simp) hplay
  obtain ⟨w, past, md, before, left, version, rfl, hret, htest⟩ := exists_returned hlast
  obtain ⟨rfl, rfl⟩ := of_decide_eq_true htest
  exact ⟨w, past, md, _, _, version, hrun, hret, rfl, rfl, by decide⟩

end Blobster.S3
