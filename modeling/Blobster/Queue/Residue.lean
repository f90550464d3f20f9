import Blobster.Interleave.Footprint
import Blobster.Queue.Scan
import Blobster.Queue.Stream

/-!
# What the retention pass leaves

A retention pass goes over the messages first and over the leases after that, and it looks at no
payload when it deletes a lease: it takes it that a lease older than the horizon is what a message
left behind.  That is so if the sweep over the messages really removed every message older than the
horizon, and if none is stored later.  Neither is checked.

* `passOf` — the pass a thread is in, and the horizon it works with once it has read its clock.
* `Spares` — a step of a pass deletes the lease of no stored message.
* **`Service.lease_of_stored_message_deleted`** — it does, when a message with an id older than the
  horizon is enqueued and claimed between the two sweeps; a second worker then holds it as well.
* `Undisturbed` — what the pass takes for granted; **`Service.leases_deleted_after_messages`** — it is
  enough.
-/

set_option linter.unusedSectionVars false

namespace Blobster

open Interleave Contract

variable {B C : Type} [DecidableEq B] [DecidableEq C]

/-- A retention pass: the retention of its queue, and its horizon once it has read the clock. -/
structure Pass where
  retention : ℤ
  horizon : Option ℤ

/-- What a step makes of the pass that the thread `t` is in. -/
def passAfter (t : Thread C) (e : BEvent B C) (p : Option Pass) : Option Pass :=
  match e with
  | .start u (.trim retention _) => if u = t then some ⟨retention, none⟩ else p
  | .start u _ => if u = t then none else p
  | .call u .now (now : ℤ) =>
      if u = t then p.map fun q => ⟨q.retention, some (now - q.retention)⟩ else p
  | _ => p

/-- The pass that the thread `t` is in, or was in last. -/
def passOf (t : Thread C) (h : List (BEvent B C × World B C)) : Option Pass :=
  h.foldr (fun a p => passAfter t a.1 p) none

/-- The horizon of that pass. -/
def horizonOf (t : Thread C) (v : BView B C) : Option ℤ := (passOf t v.hist).bind Pass.horizon

section Passes

variable {t : Thread C} {v : BView B C} {e : BEvent B C} {w : World B C} {p : Option Pass}

lemma passOf_push : passOf t (v.push e w).hist = passAfter t e (passOf t v.hist) := rfl

/-- The others' steps do not matter. -/
lemma passAfter_of_ne (h : e.thread ≠ some t) : passAfter t e p = p := by
  have hu : ∀ {u : Thread C}, e.thread = some u → u ≠ t := fun he hut => h (hut ▸ he)
  unfold passAfter
  split
  · exact if_neg (hu rfl)
  · exact if_neg (hu rfl)
  · exact if_neg (hu rfl)
  · rfl

/-- Nor does a call, if it is not a look at the clock or there is no pass. -/
lemma passAfter_call {o : Op B} {r : o.Res} (h : o ≠ .now ∨ p = none) :
    passAfter t (BEvent.called t o r) p = p := by
  cases o with
  | now =>
      obtain rfl := h.resolve_left fun hne => hne rfl
      simp [passAfter]
  | _ => rfl

end Passes

namespace Service

variable (s : Service B C)

/-- A step of a pass deletes the lease of no stored message. -/
def Spares (v : BView B C) (e : BEvent B C) (w : World B C) : Prop :=
  ∀ t x, e.thread = some t → passOf t v.hist ≠ none → s.slot v.world .lease x ≠ none →
    s.slot w .lease x = none → s.slot v.world .payload x = none

/-- What a pass takes for granted: nobody enqueues an id older than the horizon of a pass that has
read its clock, and the listing that a pass goes by is in order. -/
structure Undisturbed (v : BView B C) (e : BEvent B C) : Prop where
  late : ∀ t x body md pre r,
    e = BEvent.called t (.write s.bucket (Slot.payload.key x) body md pre) r →
    s.slot v.world .payload x = none → ∀ u h, horizonOf u v = some h → ¬ IsOld h x
  listed : ∀ t token n keys next,
    e = BEvent.called t (.listPage s.bucket token n queueMsgPrefix) (.ok (keys, next)) →
    passOf t v.hist ≠ none →
    InOrder v s.bucket queueMsgPrefix ((scanSoFar t token v).add keys) next

/-- No message older than the horizon is there that was not there before. -/
def OldStay (h : ℤ) (w w' : World B C) : Prop :=
  ∀ x, IsOld h x → s.slot w .payload x = none → s.slot w' .payload x = none

/-- What a thread promises about each of its steps. -/
structure Sparing (t : Thread C) (v v' : BView B C) : Prop where
  spares : passOf t v.hist ≠ none → ∀ x, s.slot v.world .lease x ≠ none →
    s.slot v'.world .lease x = none → s.slot v.world .payload x = none
  late : ∀ u h, horizonOf u v = some h → s.OldStay h v.world v'.world

/-- The contract of the passes. -/
def sparing (bk : B → Backend) (flt : Faults) : Contract (s.machine bk flt) where
  adm := s.Undisturbed
  inv _ := True
  guar := s.Sparing
  idle _ _ := True

variable {s} {bk : B → Backend} {flt : Faults} {t : Thread C} {v v' : BView B C}
  {w w' w'' : World B C} {h ret : ℤ} {n total : ℕ} {x key : String} {all rest keys : List String}
  {token next : PageToken} {e : BEvent B C} {sc : Scan}

lemma OldStay.refl : s.OldStay h w w := fun _ _ hx => hx

lemma OldStay.trans (h₁ : s.OldStay h w w') (h₂ : s.OldStay h w' w'') : s.OldStay h w w'' :=
  fun x hx hnone => h₂ x hx (h₁ x hx hnone)

lemma OldStay.stored (hst : s.OldStay h w w') (hx : IsOld h x)
    (hget : s.slot w' .payload x ≠ none) : s.slot w .payload x ≠ none :=
  fun hnone => hget (hst x hx hnone)

/-- A call that is admitted creates no old message. -/
lemma oldStay_exec {ch : Choice} {o : Op B} {r : o.Res}
    (he : exec bk flt t o ch v.world = some (r, w)) (ha : s.Undisturbed v (BEvent.called t o r))
    {u : Thread C} (hu : horizonOf u v = some h) : s.OldStay h v.world w := by
  intro x hx hnone
  by_contra hsome
  have hne : (w.store s.bucket).get (Slot.payload.key x) ≠
      (v.world.store s.bucket).get (Slot.payload.key x) := by
    intro heq
    exact hsome (heq.trans hnone)
  obtain ⟨body, md, pre, rfl, -⟩ | ⟨pre, -, hgone⟩ := exec_get he _ _ hne
  · exact ha.late t x body md pre r rfl hnone u h hu hx
  · exact hsome hgone

/-- Programs that are no pass. -/
lemma safe_outside {α : Type} (p : BProg B α) (hp : passOf t v.hist = none) :
    (s.sparing bk flt).Safe t (fun _ _ => True) p v := by
  refine (Safe.of_within (P := fun _ => True) (F := fun v => passOf t v.hist = none) ?_ ?_
    (Prog.within_all (fun _ => trivial) p) hp).mono fun _ _ _ _ => trivial
  · rintro v v' ⟨-, -, ⟨e, w, -, -, rfl⟩ | ⟨u, hu, ⟨e, w, he, rfl⟩, -⟩⟩ hv
    · exact passOf_push.trans ((passAfter_of_ne (e := .env) nofun).trans hv)
    · exact passOf_push.trans ((passAfter_of_ne (by simpa [he] using hu)).trans hv)
  · rintro o - v ch r w - hv he ha
    have he' : exec bk flt t o ch v.world = some (r, w) := he
    refine ⟨⟨fun hpass => absurd hv hpass, fun u h hu => oldStay_exec he' ha hu⟩, trivial, ?_⟩
    exact (passAfter_call (.inr hv)).trans hv

/-! ## A pass at work -/

/-- The thread is in a pass with the horizon `h` and has listed `sc`, and every old message that is
stored was stored all the time since the run had taken `n` steps. -/
structure Sweeping (s : Service B C) (t : Thread C) (ret h : ℤ) (n : ℕ) (sc : Scan)
    (v : BView B C) : Prop where
  pass : passOf t v.hist = some ⟨ret, some h⟩
  scan : scanned t v.hist = sc
  le : n ≤ v.hist.length
  kept : ∀ x, IsOld h x → s.slot v.world .payload x ≠ none →
    Present v s.bucket n (Slot.payload.key x)

lemma Sweeping.horizon (hs : Sweeping s t ret h n sc v) : horizonOf t v = some h := by
  rw [horizonOf, hs.pass, Option.bind_some]

lemma Sweeping.inPass (hs : Sweeping s t ret h n sc v) : passOf t v.hist ≠ none := by
  rw [hs.pass]
  exact nofun

lemma Sweeping.push (hs : Sweeping s t ret h n sc v)
    (hpass : passAfter t e (passOf t v.hist) = passOf t v.hist)
    (hscan : scanned t (v.push e w).hist = scanned t v.hist) (hst : s.OldStay h v.world w) :
    Sweeping s t ret h n sc (v.push e w) := by
  refine ⟨hpass.trans hs.pass, hscan.trans hs.scan, hs.le.trans (Nat.le_succ _), fun x hx hget => ?_⟩
  intro w' hw'
  rw [View.push_worldsFrom _ _ _ hs.le, List.mem_cons] at hw'
  rcases hw' with rfl | hw'
  · exact hget
  · exact hs.kept x hx (hst.stored hx hget) w' hw'

/-- The others leave the pass alone and create no old message. -/
lemma interf_sweeping (hi : (s.sparing bk flt).Interf t v v') (hs : Sweeping s t ret h n sc v) :
    Sweeping s t ret h n sc v' ∧ s.OldStay h v.world v'.world := by
  obtain ⟨-, -, ⟨d, w, ⟨⟩, -, rfl⟩ | ⟨u, hu, ⟨e, w, he, rfl⟩, hg⟩⟩ := hi
  · have hst : s.OldStay h v.world (v.world.advance d) := fun _ _ hx => hx
    exact ⟨hs.push (passAfter_of_ne nofun) (scanned_push_of_ne nofun) hst, hst⟩
  · have hst := hg.late t h hs.horizon
    have hne : e.thread ≠ some t := by simpa [he] using hu
    exact ⟨hs.push (passAfter_of_ne hne) (scanned_push_of_ne hne) hst, hst⟩

lemma Sweeping.rely (hs : Sweeping s t ret h n sc v) (hr : (s.sparing bk flt).Rely t v v') :
    Sweeping s t ret h n sc v' ∧ s.OldStay h v.world v'.world := by
  refine hr.of_step (R := fun v v' => Sweeping s t ret h n sc v →
    Sweeping s t ret h n sc v' ∧ s.OldStay h v.world v'.world) (fun v hs => ⟨hs, .refl⟩) ?_
    interf_sweeping hs
  intro a b c hab hbc hs
  obtain ⟨hs₁, hst₁⟩ := hab hs
  obtain ⟨hs₂, hst₂⟩ := hbc hs₁
  exact ⟨hs₂, hst₁.trans hst₂⟩

/-- A step that changes nothing. -/
lemma Sparing.quiet : s.Sparing t v (v.push e v.world) :=
  ⟨fun _ _ hx hnone => absurd hnone hx, fun _ _ _ => .refl⟩

/-- A delete of the pass adds nothing to what it has listed. -/
lemma Sweeping.delete (hs : Sweeping s t ret h n sc v) {r : Except Err Unit}
    (hst : s.OldStay h v.world w) :
    Sweeping s t ret h n sc (v.push (BEvent.called t (.delete s.bucket key []) r) w) :=
  hs.push (passAfter_call (.inl nofun)) rfl hst

/-- A page is added to what the pass has listed. -/
lemma Sweeping.list (hs : Sweeping s t ret h n sc v) {size : ℕ} {pref : String} :
    Sweeping s t ret h n ((scanSoFar t token v).add keys)
      (v.push (BEvent.called t (.listPage s.bucket token size pref) (.ok (keys, next)))
        v.world) := by
  refine ⟨hs.pass, ?_, hs.le.trans (Nat.le_succ _), fun x hx hget => ?_⟩
  · simp [scanned, pageOf, scanSoFar]
  · intro w' hw'
    rw [View.push_worldsFrom _ _ _ hs.le, List.mem_cons] at hw'
    rcases hw' with rfl | hw'
    · exact hget
    · exact hs.kept x hx hget w' hw'

/-- A deleted key: what it was is gone, and nothing else is changed. -/
lemma slot_delete (w : World B C) (key : String) (k : Slot) (y : String) :
    s.slot (w.setStore s.bucket ((w.store s.bucket).erase key)) k y =
      if k.key y = key then none else s.slot w k y := by
  split
  · subst key
    exact QueueSetup.slot_erase_self s.toQueueSetup w
  · rename_i hne
    simp [QueueSetup.slot, Store.get_erase_ne _ _ hne]

/-- What a delete of the pass leaves: an old message that it was of is gone, unless it failed. -/
structure Deleted (s : Service B C) (t : Thread C) (ret h : ℤ) (n : ℕ) (sc : Scan) (w : World B C)
    (key : String) (r : Option Err) (v : BView B C) : Prop where
  sweeping : Sweeping s t ret h n sc v
  stay : s.OldStay h w v.world
  gone : r = none → ∀ y, IsOld h y → key = Slot.payload.key y → s.slot v.world .payload y = none

lemma Deleted.rely {r : Option Err} (hd : Deleted s t ret h n sc w key r v)
    (hr : (s.sparing bk flt).Rely t v v') : Deleted s t ret h n sc w key r v' := by
  obtain ⟨hs, hst⟩ := hd.sweeping.rely hr
  exact ⟨hs, hd.stay.trans hst, fun hnone y hy hkey => hst y hy (hd.gone hnone y hy hkey)⟩

/-- A listing that fails adds nothing either. -/
lemma Sweeping.listFailed (hs : Sweeping s t ret h n sc v) {size : ℕ} {pref : String} {err : Err} :
    Sweeping s t ret h n sc
      (v.push (BEvent.called t (.listPage s.bucket token size pref) (.error err)) v.world) :=
  hs.push (passAfter_call (.inl nofun)) rfl .refl

/-- **A delete of the pass.**  It must not be of the lease of a stored message. -/
lemma safe_deleteIfPresent {q : Queue B} (hq : q.bucket = s.bucket) (hs : Sweeping s t ret h n sc v)
    (hspare : ∀ w, s.OldStay h v.world w → ∀ y, key = Slot.lease.key y →
      s.slot w .payload y = none) :
    (s.sparing bk flt).Safe t (Deleted s t ret h n sc v.world key) (q.deleteIfPresent key) v := by
  unfold Queue.deleteIfPresent
  rw [hq]
  refine safe_delete ?_ ?_
  · rintro v₁ hr₁ - r st hst - -
    obtain ⟨hs₁, hst₁⟩ := hs.rely hr₁
    obtain ⟨-, rfl⟩ := Store.delete_ok hst
    have hslot := slot_delete (s := s) v₁.world key
    have hstay : ∀ h, s.OldStay h v₁.world
        (v₁.world.setStore s.bucket ((v₁.world.store s.bucket).erase key)) := by
      intro h y _ hnone
      rw [hslot, hnone, ite_self]
    have hdel : ∀ r', Deleted s t ret h n sc v.world key r'
        (v₁.push (BEvent.called t (.delete s.bucket key []) r)
          (v₁.world.setStore s.bucket ((v₁.world.store s.bucket).erase key))) := by
      refine fun r' => ⟨hs₁.delete (hstay h), hst₁.trans (hstay h), ?_⟩
      intro _ y _ hkey
      rw [View.push_world, hslot, if_pos hkey.symm]
    refine ⟨⟨fun _ y hy hgone => ?_, fun _ h _ => hstay h⟩, trivial, ?_⟩
    · rw [View.push_world, hslot] at hgone
      split at hgone
      · rename_i hkey
        exact hspare _ hst₁ y hkey.symm
      · exact absurd hgone hy
    · split <;> exact .ret fun v' hr' _ => (hdel _).rely hr'
  · rintro v₁ hr₁ - e herr -
    obtain ⟨hs₁, hst₁⟩ := hs.rely hr₁
    have hs₂ : Sweeping s t ret h n sc
        (v₁.push (BEvent.called t (.delete s.bucket key []) (.error e)) v₁.world) := hs₁.delete .refl
    refine ⟨.quiet, trivial, ?_⟩
    split
    · rename_i heq
      cases heq
    · rename_i heq
      cases heq
      refine .ret fun v' hr' _ => Deleted.rely ⟨hs₂, hst₁, fun _ y hy hkey => ?_⟩ hr'
      rw [View.push_world, QueueSetup.slot, ← hkey]
      exact (Store.delete_nil_error (herr.resolve_right (by simp))).2
    · exact .ret fun v' hr' _ => Deleted.rely ⟨hs₂, hst₁, by simp⟩ hr'

/-- The lease of an old message that is gone may be deleted. -/
lemma spare_lease {y : String} (hx : IsOld h x) (hgone : s.slot w .payload x = none)
    (hst : s.OldStay h w w') (hy : Slot.lease.key x = Slot.lease.key y) :
    s.slot w' .payload y = none := by
  obtain ⟨-, rfl⟩ := Slot.key_inj hy
  exact hst x hx hgone

/-- **The removal of an old message and of its lease.** -/
lemma safe_removeMessage {q : Queue B} (hq : q.bucket = s.bucket) (hs : Sweeping s t ret h n sc v)
    (hx : IsOld h x) :
    (s.sparing bk flt).Safe t (Deleted s t ret h n sc v.world (Slot.payload.key x))
      (q.removeEntry (Slot.payload.key x) x true) v := by
  refine Safe.bind trivial (safe_deleteIfPresent hq hs fun w _ y hy => ?_) fun r v₁ _ hd => ?_
  · exact absurd (Slot.key_inj hy).1 (by simp)
  cases r with
  | some e => exact .ret fun v' hr' _ => hd.rely hr'
  | none =>
      have hgone := hd.gone rfl x hx rfl
      refine (safe_deleteIfPresent hq hd.sweeping fun w hst y hy =>
        spare_lease hx hgone hst hy).mono fun r v₂ _ hd₂ => ?_
      refine ⟨hd₂.sweeping, hd.stay.trans hd₂.stay, fun _ y hy hkey => ?_⟩
      obtain ⟨-, rfl⟩ := Slot.key_inj hkey
      exact hd₂.stay x hx hgone

/-! ## The sweep over the messages -/

/-- No old message is stored. -/
def Clean (s : Service B C) (h : ℤ) (w : World B C) : Prop :=
  ∀ x, IsOld h x → s.slot w .payload x = none

/-- Of the old messages that the listed keys `all` reach up to, those that are stored are among
`rest`. -/
def Left (s : Service B C) (h : ℤ) (all rest : List String) (next : PageToken) (w : World B C) :
    Prop :=
  ∀ x, IsOld h x → s.slot w .payload x ≠ none →
    (next = .done ∨ ∃ key ∈ all, Slot.payload.key x ≤ key) → Slot.payload.key x ∈ rest

lemma Clean.stay (hc : s.Clean h w) (hst : s.OldStay h w w') : s.Clean h w' :=
  fun x hx => hst x hx (hc x hx)

lemma Left.stay (hl : s.Left h all rest next w) (hst : s.OldStay h w w') :
    s.Left h all rest next w' :=
  fun x hx hget => hl x hx (hst.stored hx hget)

/-- A key that is no stored old message is done with. -/
lemma Left.skip (hl : s.Left h all (key :: rest) next w)
    (hkey : ∀ x, key = Slot.payload.key x → IsOld h x → s.slot w .payload x = none) :
    s.Left h all rest next w := by
  intro x hx hget hreach
  rcases List.mem_cons.mp (hl x hx hget hreach) with heq | hmem
  · exact absurd (hkey x heq.symm hx) hget
  · exact hmem

/-- **The early stop.**  At the first id that is not old, all old messages are done with. -/
lemma Left.stop {y : String} {ts : ℤ} (hl : s.Left h all (Slot.payload.key y :: rest) next w)
    (hsorted : (Slot.payload.key y :: rest).Pairwise (· < ·)) (hmem : Slot.payload.key y ∈ all)
    (hy : queueIDTime y = some ts) (hts : ¬ ts < h) : s.Clean h w := by
  intro x hx
  by_contra hget
  have hlt : Slot.payload.key x < Slot.payload.key y :=
    (append_lt_append_left _).mpr (hx.lt hy hts)
  rcases List.mem_cons.mp (hl x hx hget (.inr ⟨_, hmem, hlt.le⟩)) with heq | hrest
  · exact absurd heq hlt.ne
  · exact absurd (List.rel_of_pairwise_cons hsorted hrest) hlt.asymm

/-- What the loop over a page leaves: it goes on and all of the page is done with, or it returns, and
then no old message is left, the budget is used up, or there was an error. -/
def PageSwept (s : Service B C) (h : ℤ) (all : List String) (next : PageToken) (total : ℕ)
    (w : World B C) : (ℕ × ℕ) ⊕ (ℕ × Option Err) → Prop
  | .inl (removed, budget) => s.Left h all [] next w ∧ removed + budget = total
  | .inr (removed, err) => err = none → s.Clean h w ∨ total ≤ removed

lemma PageSwept.stay {r : (ℕ × ℕ) ⊕ (ℕ × Option Err)} (hp : s.PageSwept h all next total w r)
    (hst : s.OldStay h w w') : s.PageSwept h all next total w' r := by
  cases r with
  | inl p => exact ⟨hp.1.stay hst, hp.2⟩
  | inr p => exact fun herr => (hp herr).imp_left fun hc => hc.stay hst

lemma safe_pageSwept {r : (ℕ × ℕ) ⊕ (ℕ × Option Err)} (hs : Sweeping s t ret h n sc v)
    (hp : s.PageSwept h all next total v.world r) :
    (s.sparing bk flt).Safe t (fun r v' => Sweeping s t ret h n sc v' ∧
      s.PageSwept h all next total v'.world r) (.ret r) v := by
  refine .ret fun v' hr _ => ?_
  obtain ⟨hs', hst⟩ := hs.rely hr
  exact ⟨hs', hp.stay hst⟩

/-- **The loop over a page of messages.** -/
lemma safe_sweepMessages {q : Queue B} (hq : q.bucket = s.bucket) :
    ∀ (keys : List String) (removed budget : ℕ) {v : BView B C}, Sweeping s t ret h n sc v →
      s.Left h all keys next v.world → keys.Pairwise (· < ·) → keys ⊆ all →
      removed + budget = total →
      (s.sparing bk flt).Safe t (fun r v' => Sweeping s t ret h n sc v' ∧
        s.PageSwept h all next total v'.world r)
        (q.sweepObjects queueMsgPrefix h true keys removed budget) v
  | [], removed, budget, v, hs, hl, _, _, htotal => safe_pageSwept hs ⟨hl, htotal⟩
  | key :: keys, removed, budget, v, hs, hl, hsorted, hsub, htotal => by
      have hrest := hsorted.of_cons
      have hsub' : keys ⊆ all := fun k hk => hsub (List.mem_cons_of_mem _ hk)
      have hskip : (∀ x, key = Slot.payload.key x → ¬ IsOld h x) →
          (s.sparing bk flt).Safe t (fun r v' => Sweeping s t ret h n sc v' ∧
            s.PageSwept h all next total v'.world r)
            (q.sweepObjects queueMsgPrefix h true keys removed budget) v := fun hno =>
        safe_sweepMessages hq keys removed budget hs
          (hl.skip fun x hx hold => absurd hold (hno x hx)) hrest hsub' htotal
      unfold Queue.sweepObjects
      split
      · rename_i hcut
        refine hskip fun x hx _ => ?_
        exact absurd (hcut.symm.trans (cutPrefix_eq_some.mpr hx)) nofun
      rename_i id hcut
      obtain rfl : key = Slot.payload.key id := cutPrefix_eq_some.mp hcut
      have hid : ∀ {x}, Slot.payload.key id = Slot.payload.key x → id = x := fun hx =>
        (Slot.key_inj hx).2
      split
      · rename_i hempty
        refine hskip fun x hx hold => ?_
        obtain ⟨ts, hts, -⟩ := hid hx ▸ hold
        rw [hempty] at hts
        exact absurd (queueIDTime_empty.symm.trans hts) nofun
      split
      · rename_i hnone
        refine hskip fun x hx hold => ?_
        obtain ⟨ts, hts, -⟩ := hid hx ▸ hold
        exact absurd (hnone.symm.trans hts) nofun
      rename_i ts hts
      split
      · rename_i hnot
        exact safe_pageSwept hs fun _ =>
          .inl (hl.stop hsorted (hsub List.mem_cons_self) hts hnot)
      rename_i hlt
      have hold : IsOld h id := ⟨ts, hts, not_not.mp hlt⟩
      refine Safe.bind trivial (safe_removeMessage hq hs hold) fun r v₁ _ hd => ?_
      cases r with
      | some e => exact safe_pageSwept hd.sweeping nofun
      | none =>
          have hl₁ : s.Left h all keys next v₁.world := (hl.stay hd.stay).skip fun x hx _ =>
            hd.gone rfl x (hid hx ▸ hold) hx
          dsimp only
          split
          · exact safe_pageSwept hd.sweeping fun _ => .inr (by omega)
          · exact safe_sweepMessages hq keys _ _ hd.sweeping hl₁ hrest hsub' (by omega)

/-- Where the listing of the messages resumes: at the beginning, or behind keys none of which is an old
message that is still stored. -/
def Resumes (s : Service B C) (h : ℤ) (n : ℕ) (token : PageToken) (sc : Scan) (w : World B C) :
    Prop :=
  token = .first ∨ n ≤ sc.since ∧
    ∀ x, IsOld h x → s.slot w .payload x ≠ none → Slot.payload.key x ∉ sc.keys

lemma Resumes.stay (hp : s.Resumes h n token sc w) (hst : s.OldStay h w w') :
    s.Resumes h n token sc w' :=
  hp.imp_right fun hp => ⟨hp.1, fun x hx hget => hp.2 x hx (hst.stored hx hget)⟩

lemma Sweeping.scanSoFar (hs : Sweeping s t ret h n sc v) (hp : s.Resumes h n token sc v.world) :
    n ≤ (scanSoFar t token v).since ∧ ∀ x, IsOld h x → s.slot v.world .payload x ≠ none →
      Slot.payload.key x ∉ (Blobster.scanSoFar t token v).keys := by
  by_cases hfirst : token = .first
  · simp only [Blobster.scanSoFar, hfirst, if_true]
    exact ⟨hs.le, fun _ _ _ => List.not_mem_nil⟩
  · rw [Blobster.scanSoFar, if_neg hfirst, hs.scan]
    exact hp.resolve_left hfirst

/-- What a page in order leaves to do: the old messages that are stored have been there during the
whole scan. -/
lemma Sweeping.left (hs : Sweeping s t ret h n sc v) (hp : s.Resumes h n token sc v.world)
    (hin : InOrder v s.bucket queueMsgPrefix ((Blobster.scanSoFar t token v).add keys) next) :
    s.Left h ((Blobster.scanSoFar t token v).keys ++ keys) keys next v.world := by
  intro x hx hget hreach
  obtain ⟨hsince, hdone⟩ := hs.scanSoFar hp
  have hpres : Present v s.bucket (Blobster.scanSoFar t token v).since (queueMsgPrefix ++ x) :=
    fun w hw => hs.kept x hx hget w (v.worldsFrom_anti hsince hw)
  exact (List.mem_append.mp (hin.covers x hpres hreach)).resolve_left (hdone x hx hget)

/-- What the sweep over the messages goes on with. -/
def Unswept (s : Service B C) (t : Thread C) (ret h : ℤ) (n total : ℕ)
    (acc : PageToken × ℕ × ℕ) (v : BView B C) : Prop :=
  ∃ sc, Sweeping s t ret h n sc v ∧ s.Resumes h n acc.1 sc v.world ∧ acc.2.1 + acc.2.2 = total

/-- What the sweep over the messages returns with. -/
def MessagesSwept (s : Service B C) (t : Thread C) (ret h : ℤ) (n total : ℕ)
    (out : ℕ × Option Err) (v : BView B C) : Prop :=
  ∃ sc, Sweeping s t ret h n sc v ∧ (out.2 = none → s.Clean h v.world ∨ total ≤ out.1)

lemma MessagesSwept.rely {out : ℕ × Option Err} (hm : MessagesSwept s t ret h n total out v)
    (hr : (s.sparing bk flt).Rely t v v') : MessagesSwept s t ret h n total out v' := by
  obtain ⟨sc, hs, hclean⟩ := hm
  obtain ⟨hs', hst⟩ := hs.rely hr
  exact ⟨sc, hs', fun herr => (hclean herr).imp_left fun hc => hc.stay hst⟩

lemma safe_messagesRound {q : Queue B} (hq : q.bucket = s.bucket) {acc : PageToken × ℕ × ℕ}
    (hu : Unswept s t ret h n total acc v) :
    (s.sparing bk flt).Safe t (fun r v' => match r with
        | .inl acc => Unswept s t ret h n total acc v'
        | .inr out => MessagesSwept s t ret h n total out v')
      (q.sweepRound queueMsgPrefix h true acc) v := by
  obtain ⟨token, removed, budget⟩ := acc
  obtain ⟨sc, hs, hp, hbudget⟩ := hu
  unfold Queue.sweepRound
  rw [hq]
  dsimp only
  split
  · rename_i hzero
    refine .ret fun v' hr _ => MessagesSwept.rely ⟨sc, hs, fun _ => .inr ?_⟩ hr
    simpa [hzero] using hbudget.ge
  refine safe_listPage fun v₁ hr₁ _ r hlist ha => ⟨.quiet, trivial, ?_⟩
  obtain ⟨hs₁, hst₁⟩ := hs.rely hr₁
  rcases hlist with ⟨keys, next, -, rfl⟩ | rfl
  · have hp₁ : s.Resumes h n token sc v₁.world := hp.stay hst₁
    have hin := ha.listed t token _ keys next rfl hs₁.inPass
    have hleft := hs₁.left hp₁ hin
    refine Safe.bind trivial (safe_sweepMessages hq keys removed budget hs₁.list hleft
      (List.pairwise_append.mp hin.sorted).2.1 (List.subset_append_right _ _) hbudget) ?_
    rintro (⟨removed', budget'⟩ | out) v₂ - ⟨hs₂, hpage⟩
    · dsimp only
      split
      · rename_i hdone
        refine .ret fun v' hr _ => MessagesSwept.rely ⟨_, hs₂, fun _ => .inl fun x hx => ?_⟩ hr
        by_contra hget
        exact absurd (hpage.1 x hx hget (.inl hdone)) List.not_mem_nil
      · refine .ret fun v' hr _ => ?_
        obtain ⟨hs₃, hst₃⟩ := hs₂.rely hr
        refine ⟨_, hs₃, .inr ⟨(hs₁.scanSoFar hp₁).1, fun x hx hget hmem => ?_⟩, hpage.2⟩
        exact absurd ((hpage.1.stay hst₃) x hx hget (.inr ⟨_, hmem, le_rfl⟩)) List.not_mem_nil
    · exact .ret fun v' hr _ => MessagesSwept.rely ⟨_, hs₂, hpage⟩ hr
  · exact .ret fun v' hr _ => MessagesSwept.rely ⟨sc, hs₁.listFailed, nofun⟩ hr

/-- **The sweep over the messages** ends when none that is old is left, or with the budget used up. -/
lemma safe_trimMessages {q : Queue B} (hq : q.bucket = s.bucket) (hs : Sweeping s t ret h n sc v)
    (fuel : ℕ) :
    (s.sparing bk flt).Safe t (MessagesSwept s t ret h n total)
      (q.trimSweep queueMsgPrefix h total true fuel) v :=
  Safe.loop (I := Unswept s t ret h n total) (fun _ => safe_park)
    (fun _ _ _ hI => (safe_messagesRound hq hI).mono fun r _ _ h => by cases r <;> exact h)
    (fun _ _ _ hm => .ret fun _ hr _ => hm.rely hr) fuel _ v trivial
    ⟨sc, hs, .inl rfl, Nat.zero_add _⟩

/-! ## The sweep over the leases -/

/-- A pass that has removed the old messages. -/
def AfterMessages (s : Service B C) (t : Thread C) (ret h : ℤ) (n : ℕ) (v : BView B C) : Prop :=
  (∃ sc, Sweeping s t ret h n sc v) ∧ s.Clean h v.world

lemma AfterMessages.rely (ha : AfterMessages s t ret h n v) (hr : (s.sparing bk flt).Rely t v v') :
    AfterMessages s t ret h n v' := by
  obtain ⟨⟨sc, hs⟩, hc⟩ := ha
  obtain ⟨hs', hst⟩ := hs.rely hr
  exact ⟨⟨sc, hs'⟩, hc.stay hst⟩

lemma AfterMessages.safe_ret {α : Type} (ha : AfterMessages s t ret h n v) (a : α) :
    (s.sparing bk flt).Safe t (fun _ => AfterMessages s t ret h n) (.ret a) v :=
  .ret fun _ hr _ => ha.rely hr

/-- **The loop over a page of leases.** -/
lemma safe_sweepLeases {q : Queue B} (hq : q.bucket = s.bucket) :
    ∀ (keys : List String) (removed budget : ℕ) {v : BView B C}, AfterMessages s t ret h n v →
      (s.sparing bk flt).Safe t (fun _ => AfterMessages s t ret h n)
        (q.sweepObjects queueLeasePrefix h false keys removed budget) v
  | [], _, _, _, ha => ha.safe_ret _
  | key :: keys, removed, budget, v, ha => by
      have ih := fun removed budget => @safe_sweepLeases q hq keys removed budget
      unfold Queue.sweepObjects
      split
      · exact ih _ _ ha
      rename_i id hcut
      split
      · exact ih _ _ ha
      split
      · exact ih _ _ ha
      rename_i ts hts
      split
      · exact ha.safe_ret _
      rename_i hlt
      have hold : IsOld h id := ⟨ts, hts, not_not.mp hlt⟩
      obtain rfl : key = Slot.lease.key id := cutPrefix_eq_some.mp hcut
      obtain ⟨⟨sc, hs⟩, hc⟩ := ha
      refine Safe.bind (Q := fun _ => AfterMessages s t ret h n) trivial ?_ fun r v₁ _ ha₁ => ?_
      · refine Safe.bind trivial (safe_deleteIfPresent hq hs fun w hst y hy =>
          spare_lease hold (hc id hold) hst hy) fun r v₁ _ hd => ?_
        have ha₁ : AfterMessages s t ret h n v₁ := ⟨⟨sc, hd.sweeping⟩, hc.stay hd.stay⟩
        cases r <;> exact ha₁.safe_ret _
      · cases r with
        | some e => exact ha₁.safe_ret _
        | none =>
            dsimp only
            split
            · exact ha₁.safe_ret _
            · exact ih _ _ ha₁

lemma safe_trimLeases {q : Queue B} (hq : q.bucket = s.bucket) (ha : AfterMessages s t ret h n v)
    (budget fuel : ℕ) :
    (s.sparing bk flt).Safe t (fun _ => AfterMessages s t ret h n)
      (q.trimSweep queueLeasePrefix h budget false fuel) v := by
  refine Safe.loop (I := fun _ => AfterMessages s t ret h n) (fun _ => safe_park) ?_
    (fun _ _ _ ha => ha.safe_ret _) fuel _ v trivial ha
  rintro ⟨token, removed, budget⟩ v - ha
  refine Safe.mono (Q := fun _ => AfterMessages s t ret h n) (fun r _ _ h => by cases r <;> exact h)
    ?_
  unfold Queue.sweepRound
  rw [hq]
  dsimp only
  split
  · exact ha.safe_ret _
  refine safe_listPage fun v₁ hr₁ _ r hlist _ => ⟨.quiet, trivial, ?_⟩
  obtain ⟨⟨sc, hs₁⟩, hc₁⟩ := ha.rely hr₁
  rcases hlist with ⟨keys, next, -, rfl⟩ | rfl
  · refine Safe.bind trivial (safe_sweepLeases hq keys removed budget ⟨⟨_, hs₁.list⟩, hc₁⟩) ?_
    rintro (acc | out) v₂ - ha₂
    · dsimp only
      split <;> exact ha₂.safe_ret _
    · exact ha₂.safe_ret _
  · exact AfterMessages.safe_ret ⟨⟨sc, hs₁.listFailed⟩, hc₁⟩ _

/-- **`Trim`.** -/
lemma safe_trim {q : Queue B} (hq : q.bucket = s.bucket) (fuel : ℕ)
    (hp : passOf t v.hist = some ⟨ret, none⟩) :
    (s.sparing bk flt).Safe t (fun _ _ => True) (q.trim ret fuel) v := by
  have hint : ∀ {v v'}, (s.sparing bk flt).Interf t v v' →
      passOf t v.hist = some ⟨ret, none⟩ → passOf t v'.hist = some ⟨ret, none⟩ := by
    rintro v v' ⟨-, -, ⟨e, w, -, -, rfl⟩ | ⟨u, hu, ⟨e, w, he, rfl⟩, -⟩⟩ hv
    · exact passOf_push.trans ((passAfter_of_ne (e := .env) nofun).trans hv)
    · exact passOf_push.trans ((passAfter_of_ne (by simpa [he] using hu)).trans hv)
  unfold Queue.trim
  split
  · exact .ret fun _ _ _ => trivial
  refine safe_now fun v₁ hr₁ _ _ => ⟨.quiet, trivial, ?_⟩
  have hs : Sweeping s t ret (v₁.world.clock - ret) (v₁.hist.length + 1) (scanned t v₁.hist)
      (v₁.push (BEvent.called t .now v₁.world.clock) v₁.world) := by
    refine ⟨?_, rfl, le_rfl, fun x _ hget w hw => ?_⟩
    · rw [passOf_push, hr₁.stable hint hp]
      simp [passAfter]
    · rw [show v₁.hist.length + 1 = (v₁.push (BEvent.called t .now v₁.world.clock)
        v₁.world).hist.length from rfl, View.worldsFrom_now, List.mem_singleton] at hw
      exact hw ▸ hget
  refine Safe.bind trivial (safe_trimMessages hq hs fuel) ?_
  rintro ⟨removed, err⟩ v₂ - ⟨sc, hs₂, hclean⟩
  dsimp only
  split
  · exact .ret fun _ _ _ => trivial
  rename_i hgo
  rw [not_or, not_not] at hgo
  have ha : AfterMessages s t ret (v₁.world.clock - ret) (v₁.hist.length + 1) v₂ :=
    ⟨⟨sc, hs₂⟩, (hclean hgo.1).resolve_right hgo.2⟩
  exact Safe.bind trivial (safe_trimLeases hq ha _ fuel) fun _ _ _ _ => .ret fun _ _ _ => trivial

/-! ## Every run -/

lemma sparing_sound (w₀ : World B C) : (s.sparing bk flt).Sound w₀ where
  init := ⟨trivial, fun _ => trivial⟩
  env _ _ _ _ := trivial
  stable _ _ _ _ _ := trivial
  start := by
    rintro ⟨c, g⟩ e v p w - - - hstart
    have hquiet : w.store = v.world.store := by
      cases start_cases hstart <;> rfl
    have hslot : ∀ k x, s.slot w k x = s.slot v.world k x := fun k x => by
      rw [QueueSetup.slot, QueueSetup.slot, hquiet]
    refine ⟨⟨fun _ x hx hnone => ?_, fun _ _ _ x _ hnone => ?_⟩, trivial, ?_⟩
    · exact absurd ((hslot _ _).symm.trans hnone) hx
    · exact (hslot _ _).trans hnone
    cases start_cases hstart with
    | enqueueStream r attrs hc => exact safe_outside _ (by simp [passOf, passAfter])
    | enqueueWithIDStream id r attrs hc => exact safe_outside _ (by simp [passOf, passAfter])
    | trim retention fuel hc =>
        exact Safe.discard trivial (fun _ h => h)
          (safe_trim rfl fuel (by simp [passOf, passAfter]))
    | tryReceive hc => exact safe_outside _ (by simp [passOf, passAfter])
    | ack m hm => exact safe_outside _ (by simp [passOf, passAfter])
    | nack m hm => exact safe_outside _ (by simp [passOf, passAfter])
    | renew fuel m hm hst => exact safe_outside _ (by simp [passOf, passAfter])

/-- **A pass deletes the leases of messages that are gone**, in every run in which nobody enqueues an
id older than its horizon once it has read the clock, and in which its listing is in order. -/
theorem leases_deleted_after_messages {w₀ : World B C}
    {c : Config (bucketSig B) (World B C) (Thread C)}
    (hc : Reach (s.machine bk flt) s.Undisturbed w₀ c) : c.view.Along s.Spares := by
  refine hc.along fun {c c' e} hc hs ha t x he hpass hlease hgone => ?_
  obtain ⟨d, w, -, -, hv⟩ | ⟨u, hu, -, hg⟩ := (sparing_sound w₀).step_guar hc hs ha
  · obtain ⟨w', hw'⟩ := hs.push
    rw [hw', View.push, View.push, View.mk.injEq, List.cons.injEq, Prod.mk.injEq] at hv
    rw [hv.2.1.1] at he
    cases he
  · obtain rfl := Option.some.inj (hu.symm.trans he)
    exact hg.spares hpass x hlease hgone

/-! ## Runs -/

/-- Whether the thread `t`, in a pass, deleted the lease of the stored message `x`. -/
def strips (s : Service B C) (t : Thread C) (x : String) :
    World B C → List (BEvent B C × World B C) → Bool
  | _, [] => false
  | w, (e, w₀) :: h =>
      (decide (e.thread = some t) && (passOf t h).isSome && (s.slot w₀ .lease x).isSome &&
        (s.slot w .lease x).isNone && (s.slot w₀ .payload x).isSome) || strips s t x w₀ h

lemma not_along_of_strips {w : World B C} {hist : List (BEvent B C × World B C)}
    (hstrips : strips s t x w hist = true) : ¬ AlongTo s.Spares w hist := by
  induction hist generalizing w with
  | nil => exact nomatch hstrips
  | cons p hist ih =>
      rintro ⟨hp, hrest⟩
      rw [strips, Bool.or_eq_true] at hstrips
      rcases hstrips with hnow | hlater
      · simp only [Bool.and_eq_true, decide_eq_true_eq, Option.isSome_iff_ne_none,
          Option.isNone_iff_eq_none] at hnow
        obtain ⟨⟨⟨⟨ht, hpass⟩, hlease⟩, hgone⟩, hpayload⟩ := hnow
        exact hpayload (hp t x ht hpass hlease hgone)
      · exact ih hlater hrest

/-- A retention pass, a producer and two workers. -/
def upkeep : Service Unit (Fin 4) where
  bucket := ()
  lease _ := 30
  headWindow _ := 256
  maxReceives _ := 0
  owner c := Nat.repr c
  owner_inj := by decide
  uuid _ := "u"
  pf := ⟨id, fun _ => "", id⟩

/-- **The lease of a stored message is deleted.**  The pass has gone over the messages when one with an
old id is enqueued, as by the replication of another queue, and claimed.  The pass deletes its lease,
and the second worker claims the message while the first one's lease runs. -/
theorem lease_of_stored_message_deleted :
    ∃ c, Reach (upkeep.machine (fun _ => memBackend) ⟨false, false⟩) anyStep
        ⟨10000000000, fun _ => {}, fun _ => {}⟩ c ∧
      ¬ c.view.Along upkeep.Spares ∧
      ∃ m m', (c.view.world.mem 2).message = some m ∧ (c.view.world.mem 3).message = some m' ∧
        m.id = m'.id ∧ c.view.world.clock < m.leaseUntil := by
  obtain ⟨c, hreach, htest⟩ := reach_of_run_any
    (M := upkeep.machine (fun _ => memBackend) ⟨false, false⟩)
    (w := ⟨10000000000, fun _ => {}, fun _ => {}⟩)
    (l := [.start (0, .main) (.trim 1000 2), .call (0, .main) .ok,
      .call (0, .main) (.page [] .done),
      .start (1, .main) (.enqueueWithIDStream "0000000000001-a" { chunks := [⟨#[1]⟩] } []),
      .call (1, .main) (.branch false), .call (1, .main) .ok, .call (1, .main) .ok,
      .start (2, .main) .tryReceive, .call (2, .main) (.page ["msg/0000000000001-a"] .done),
      .call (2, .main) (.pick 0), .call (2, .main) .ok, .call (2, .main) .ok, .call (2, .main) .ok,
      .call (2, .main) .ok, .call (2, .main) .ok, .call (2, .main) .ok,
      .call (0, .main) (.page ["lease/0000000000001-a"] .done), .call (0, .main) .ok,
      .start (3, .main) .tryReceive, .call (3, .main) (.page ["msg/0000000000001-a"] .done),
      .call (3, .main) (.pick 0), .call (3, .main) .ok, .call (3, .main) .ok, .call (3, .main) .ok,
      .call (3, .main) .ok, .call (3, .main) .ok, .call (3, .main) .ok])
    (p := fun c => strips upkeep (0, .main) "0000000000001-a" c.view.world c.view.hist &&
      (c.view.world.mem 2).message.any fun m : Message =>
        (c.view.world.mem 3).message.any fun m' : Message =>
          decide (m.id = m'.id) && decide (c.view.world.clock < m.leaseUntil)) (by decide +kernel)
  simp only [Bool.and_eq_true, Option.any_eq_true, decide_eq_true_eq] at htest
  obtain ⟨hstrips, m, hm, m', hm', hid, huntil⟩ := htest
  exact ⟨c, hreach, not_along_of_strips hstrips, m, m', hm, hm', hid, huntil⟩

/-- The start of a pass. -/
def isTrim : BEvent B C → Bool
  | .start _ (.trim _ _) => true
  | _ => false

/-- A thread is in no pass if none has been started. -/
lemma passOf_eq_none {hist : List (BEvent B C × World B C)}
    (hno : hist.all (fun a => !isTrim a.1) = true) : passOf t hist = none := by
  induction hist with
  | nil => rfl
  | cons a hist ih =>
      rw [List.all_cons, Bool.and_eq_true, Bool.not_eq_true'] at hno
      rw [passOf, List.foldr_cons]
      change passAfter t a.1 (passOf t hist) = none
      rw [ih hno.2]
      have ha := hno.1
      generalize a.1 = e at ha
      unfold passAfter
      split
      · cases ha
      · split <;> rfl
      · split <;> rfl
      · rfl

/-- Runs whose passes begin after the last enqueue and list the messages on one page. -/
def isUndisturbed (s : Service Unit C) (v : BView Unit C) : BEvent Unit C → Bool
  | .call _ (.write _ key _ _ _) _ =>
      (cutPrefix key queueMsgPrefix).isNone || v.hist.all fun a => !isTrim a.1
  | .call _ (.listPage _ token _ pref) (.ok (keys, next)) =>
      decide (pref ≠ queueMsgPrefix) || (decide (token = .first) && decide (next = .done) &&
        decide (keys = (v.world.store s.bucket).keysUnder pref))
  | _ => true

lemma undisturbed_of_isUndisturbed {s : Service Unit C} (v : BView Unit C) (e : BEvent Unit C)
    (htest : isUndisturbed s v e = true) : s.Undisturbed v e where
  late := by
    rintro t x body md pre r rfl - u h hu
    have hcut : cutPrefix (Slot.payload.key x) queueMsgPrefix = some x := cutPrefix_eq_some.mpr rfl
    simp only [isUndisturbed, hcut, Option.isNone_some, Bool.false_or] at htest
    rw [horizonOf, passOf_eq_none htest] at hu
    cases hu
  listed := by
    rintro t token n keys next rfl -
    simp only [isUndisturbed, ne_eq, not_true_eq_false, decide_false, Bool.false_or,
      Bool.and_eq_true, decide_eq_true_eq] at htest
    obtain ⟨⟨rfl, rfl⟩, rfl⟩ := htest
    exact inOrder_onePage t v _ _

/-- A message is claimed and then, with its lease, removed by a pass. -/
theorem leases_deleted_after_messages_claimed :
    ∃ c, Reach (upkeep.machine (fun _ => memBackend) ⟨false, false⟩) upkeep.Undisturbed
        ⟨1000000, fun _ => {}, fun _ => {}⟩ c ∧
      upkeep.slot c.view.world .payload "0000000000001-a" = none ∧
      upkeep.slot c.view.world .lease "0000000000001-a" = none ∧
      (c.view.world.mem 2).message ≠ none ∧ c.view.Along upkeep.Spares := by
  obtain ⟨c, hreach, htest⟩ := reach_of_run_adm
    (M := upkeep.machine (fun _ => memBackend) ⟨false, false⟩)
    (w := ⟨1000000, fun _ => {}, fun _ => {}⟩) (undisturbed_of_isUndisturbed (s := upkeep))
    (l := [.start (1, .main) (.enqueueWithIDStream "0000000000001-a" { chunks := [⟨#[1]⟩] } []),
      .call (1, .main) (.branch false), .call (1, .main) .ok, .call (1, .main) .ok,
      .start (2, .main) .tryReceive, .call (2, .main) (.page ["msg/0000000000001-a"] .done),
      .call (2, .main) (.pick 0), .call (2, .main) .ok, .call (2, .main) .ok, .call (2, .main) .ok,
      .call (2, .main) .ok, .call (2, .main) .ok, .call (2, .main) .ok,
      .env (2000 : ℕ), .start (0, .main) (.trim 1000 2), .call (0, .main) .ok,
      .call (0, .main) (.page ["msg/0000000000001-a"] .done), .call (0, .main) .ok,
      .call (0, .main) .ok, .call (0, .main) (.page [] .done)])
    (p := fun c => (upkeep.slot c.view.world .payload "0000000000001-a").isNone &&
      (upkeep.slot c.view.world .lease "0000000000001-a").isNone &&
      (c.view.world.mem 2).message.isSome) (by decide +kernel)
  simp only [Bool.and_eq_true, Option.isNone_iff_eq_none, Option.isSome_iff_ne_none] at htest
  exact ⟨c, hreach, htest.1.1, htest.1.2, htest.2, leases_deleted_after_messages hreach⟩

end Service

end Blobster
