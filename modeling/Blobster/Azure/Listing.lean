import Blobster.Azure.Escape
import Blobster.Bucket.Store

/-!
# Listings of the azureblob driver

A listing by prefix is answered by the container, which knows only escaped names: the driver escapes
the prefix, lists the names that start with it, and unescapes what it gets (`ListPage`).

* `Container`, `Container.Lists` — the container, and what is assumed of it: over all its pages, a
  flat listing gives exactly the names under the prefix.
* `listPage` — `ListPage` of the bucket, without a delimiter.
* `ClearCut` — the prefixes with which no escape sequence of a key can interfere.
* **`list_faithful_iff`** — exactly for those the names under the escaped prefix are the names of the
  keys under the prefix, and for those the listing returns exactly these keys.
-/

namespace Blobster

namespace Azure

/-! ## The container and the driver -/

/-- A container: the names of its blobs, and how it answers a flat listing from a marker on, with a
page of names and the marker to go on with. -/
structure Container where
  blobs : List String
  listFlat : (pref : String) → (marker : PageToken) → (maxResults : ℤ) → List String × PageToken

/-- Over all its pages, a flat listing gives the names that start with the prefix. -/
def Container.Lists (ct : Container) : Prop :=
  ∀ pref maxResults, ∃ pages, Pages (fun marker => some (ct.listFlat pref marker maxResults)) .first
    pages ∧ pages.flatten = ct.blobs.filter fun name => pref.toList.isPrefixOf name.toList

/-- `ListPage` of a bucket rooted at `bucketPrefix`, without a delimiter.  An empty token is
`io.EOF`. -/
def listPage (ct : Container) (bucketPrefix : String) (token : PageToken) (pageSize : ℤ)
    (pref : String) : Option (List String × PageToken) :=
  if token = .done then none
  else
    let pageSize := if pageSize ≤ 0 then 1000 else pageSize
    let maxResults := pageSize.bmod (2 ^ 32)
    let (items, next) := ct.listFlat (escapeKey (bucketPrefix ++ pref) true) token maxResults
    some (items.map fun name => trimPrefix (unescapeKey name) bucketPrefix, next)

/-- The driver goes through the container's pages. -/
lemma pages_listPage {ct : Container} {bucketPrefix pref : String} {pageSize : ℤ}
    {token : PageToken} {pages : List (List String)} (htoken : token ≠ .done)
    (h : Pages (fun marker => some (ct.listFlat (escapeKey (bucketPrefix ++ pref) true) marker
      ((if pageSize ≤ 0 then 1000 else pageSize).bmod (2 ^ 32)))) token pages) :
    Pages (fun token => listPage ct bucketPrefix token pageSize pref) token
      (pages.map fun page => page.map fun name => trimPrefix (unescapeKey name) bucketPrefix) := by
  induction h with
  | last h =>
      refine .last ?_
      rw [listPage, if_neg htoken]
      simp only [Option.some.injEq] at h
      simp only [h]
  | more h hnext _ ih =>
      refine .more ?_ hnext (ih hnext)
      rw [listPage, if_neg htoken]
      simp only [Option.some.injEq] at h
      simp only [h]

/-! ## Which prefixes are listed faithfully -/

/-- Nothing in the prefix is escaped, not even at the end of a key; it does not stop inside the
sequence of a character that a key may have escaped there; and it does not spell out such a
sequence. -/
structure ClearCut (pref : List Char) : Prop where
  plain : ∀ u c v, pref = u ++ c :: v → ¬ Escaped false u.reverse c v.isEmpty
  whole : ∀ u s c, pref = u ++ s → s ≠ [] → Escaped false u.reverse c true → ¬ s <+: escapeSeq c
  unspelt : ∀ u c v, pref = u ++ (escapeSeq c ++ v) → ¬ Escaped true u.reverse c false

/-- The names of the keys under the prefix are the names under the escaped prefix. -/
def NamesFaithful (pref : List Char) : Prop :=
  ∀ key : List Char, pref <+: key ↔ escapeFrom true [] pref <+: escapeFrom false [] key

section Faithful

variable {pref u v w : List Char} {c : Char}

/-- What begins a concatenation begins its first part or reaches into the second. -/
lemma prefix_append_cases (h : v <+: u ++ w) : v <+: u ∨ ∃ s, v = u ++ s ∧ s <+: w := by
  rcases List.prefix_or_prefix_of_prefix h (List.prefix_append u w) with hv | ⟨s, rfl⟩
  · exact .inl hv
  · exact .inr ⟨s, rfl, (List.prefix_append_right_inj u).mp h⟩

/-- A key that goes on behind the prefix has a name that goes on behind the escaped prefix. -/
lemma escapeFrom_isPrefix (hw : w ≠ []) :
    escapeFrom true [] u <+: escapeFrom false [] (u ++ w) := by
  rw [escapeFrom_append hw]
  exact List.prefix_append _ _

/-- An escaped character is not what its sequence begins with. -/
lemma not_begins_escapeSeq (hc : c ≠ '_') : ¬ c :: v <+: escapeSeq c ++ w := by
  obtain ⟨l, hl⟩ := escapeSeq_eq_cons c
  rw [hl, List.cons_append, List.cons_append, List.cons_prefix_cons]
  exact fun h => hc h.1

lemma escapeSeq_not_begins (hc : c ≠ '_') (hv : v ≠ []) (hseq : v <+: escapeSeq c ++ w) :
    ¬ v <+: c :: u := by
  intro h
  obtain ⟨d, v, rfl⟩ := List.exists_cons_of_ne_nil hv
  obtain ⟨rfl, -⟩ := List.cons_prefix_cons.mp h
  exact not_begins_escapeSeq hc hseq

/-- Where a character is escaped in any case, the key that has it and the key that has its sequence
instead have the same name, whatever follows. -/
lemma escapeFrom_spell_open (h : Escaped true u.reverse c false) (v w : List Char) :
    escapeFrom false [] (u ++ c :: (v ++ w)) = escapeFrom false [] (u ++ (escapeSeq c ++ (v ++ w))) :=
  escapeFrom_spell (by simpa using h.anywhere)

lemma NamesFaithful.clearCut (h : NamesFaithful pref) : ClearCut pref := by
  constructor
  · rintro u c v rfl hesc
    by_cases hopen : Escaped true u.reverse c v.isEmpty
    · -- The key with the sequence written out has the same name and does not start with the prefix.
      have hname : escapeFrom true [] (u ++ c :: v) <+:
          escapeFrom false [] (u ++ (escapeSeq c ++ (v ++ ['x']))) := by
        rw [← escapeFrom_spell_open hopen.anywhere]
        simpa using escapeFrom_isPrefix (u := u ++ c :: v) (w := ['x']) (by simp)
      exact not_begins_escapeSeq hesc.ne_underscore
        ((List.prefix_append_right_inj u).mp ((h _).mpr hname))
    · -- A slash at the end: the prefix itself, as a key, is named differently.
      have hname := (h (u ++ c :: v)).mp List.prefix_rfl
      rw [escapeFrom_append (List.cons_ne_nil c v), escapeFrom_append (List.cons_ne_nil c v),
        List.prefix_append_right_inj, escapeFrom, escapeFrom, List.append_nil, if_neg hopen,
        if_pos hesc] at hname
      exact not_begins_escapeSeq hesc.ne_underscore hname
  · rintro u s c rfl hs hesc hseq
    have hinert : escapeFrom true u.reverse (s ++ []) = s ++ [] :=
      escapeFrom_inert fun d hd => ⟨(escapeSeq_inert (hseq.subset hd)).1,
        (escapeSeq_inert (hseq.subset hd)).2.1⟩
    have hname : escapeFrom true [] (u ++ s) <+: escapeFrom false [] (u ++ [c]) := by
      rw [List.append_nil] at hinert
      rw [escapeFrom_append hs, escapeFrom_append (List.cons_ne_nil c []),
        List.prefix_append_right_inj, List.append_nil, hinert, escapeFrom, if_pos (by exact hesc)]
      exact hseq.trans (List.prefix_append _ _)
    exact escapeSeq_not_begins hesc.ne_underscore hs (hseq.trans (List.prefix_append _ []))
      ((List.prefix_append_right_inj u).mp ((h _).mpr hname))
  · rintro u c v rfl hesc
    have hname : escapeFrom true [] (u ++ (escapeSeq c ++ v)) <+:
        escapeFrom false [] (u ++ c :: (v ++ ['x'])) := by
      rw [escapeFrom_spell_open hesc]
      simpa using escapeFrom_isPrefix (u := u ++ (escapeSeq c ++ v)) (w := ['x']) (by simp)
    exact escapeSeq_not_begins hesc.ne_underscore (by simp [escapeSeq_ne_nil]) List.prefix_rfl
      ((List.prefix_append_right_inj u).mp ((h _).mpr hname))

lemma ClearCut.namesFaithful (h : ClearCut pref) : NamesFaithful pref := by
  have hfull : escapeFrom false [] pref = pref :=
    escapeFrom_eq_self [] pref fun u c v huv => by simpa using h.plain u c v huv
  have hself : escapeFrom true [] pref = pref :=
    escapeFrom_eq_self [] pref fun u c v huv hesc => by
      rw [List.append_nil] at hesc
      exact h.plain u c v huv hesc.anywhere
  intro key
  constructor
  · rintro ⟨rest, rfl⟩
    by_cases hrest : rest = []
    · rw [hrest, List.append_nil, hself, hfull]
    · exact escapeFrom_isPrefix hrest
  · rw [hself]
    intro hname
    rcases exists_first_escaped false [] key with hkey | ⟨u, c, v, rfl, hesc, hkey⟩
    · rwa [hkey] at hname
    · -- The prefix ends before the first sequence of the name, or it meets that sequence.
      rw [hkey] at hname
      rw [List.append_nil] at hesc
      rcases prefix_append_cases hname with hu | ⟨s, rfl, hs⟩
      · exact hu.trans (List.prefix_append _ _)
      by_cases hnil : s = []
      · rw [hnil, List.append_nil]
        exact List.prefix_append _ _
      rcases prefix_append_cases hs with hseq | ⟨s', rfl, hs'⟩
      · exact absurd hseq (h.whole u s c rfl hnil hesc.at_end)
      · by_cases hnil' : s' = []
        · refine absurd ?_ (h.whole u _ c rfl hnil hesc.at_end)
          rw [hnil', List.append_nil]
        · refine absurd ?_ (h.unspelt u c s' rfl)
          have hv : v ≠ [] := by
            rintro rfl
            exact hnil' (List.prefix_nil.mp hs')
          have hlast : v.isEmpty = false := by simpa using hv
          exact (hlast ▸ hesc).of_not_last

/-- The next character of a prefix whose name follows a text: the next one of the text, unless the
text has two underscores there. -/
lemma escapeFrom_follows {a : Char} {b r l : List Char} (h : escapeFrom true b r <+: a :: l)
    (hl : ¬ ['_', '_'] <+: a :: l) :
    r = [] ∨ ∃ r', r = a :: r' ∧ escapeFrom true (a :: b) r' <+: l := by
  cases r with
  | nil => exact .inl rfl
  | cons e r =>
      rw [escapeFrom] at h
      split_ifs at h with he
      · refine absurd (List.IsPrefix.trans ?_ h) hl
        simp [escapeSeq, opening, List.cons_prefix_cons]
      · rw [List.singleton_append, List.cons_prefix_cons] at h
        obtain ⟨rfl, h⟩ := h
        exact .inr ⟨r, rfl, h⟩

/-- A prefix that follows an escape sequence, but not through its opening. -/
lemma spells_opening {b : List Char} {d : Char} (hpref : ¬ opening <:+: c :: pref)
    (h : [c] ++ escapeFrom true (c :: b) pref <+: escapeSeq d ++ w) :
    c :: pref ∈ [['_'], ['_', '_'], ['_', '_', '0']] := by
  simp only [escapeSeq, opening, List.cons_append, List.nil_append, List.cons_prefix_cons] at h
  obtain ⟨rfl, h⟩ := h
  rcases escapeFrom_follows h (by simp [List.cons_prefix_cons]) with rfl | ⟨r₁, rfl, h₁⟩
  · simp
  rcases escapeFrom_follows h₁ (by simp [List.cons_prefix_cons]) with rfl | ⟨r₂, rfl, h₂⟩
  · simp
  rcases escapeFrom_follows h₂ (by simp [List.cons_prefix_cons]) with rfl | ⟨r₃, rfl, -⟩
  · simp
  · exact absurd (List.IsPrefix.isInfix ⟨r₃, rfl⟩) hpref

/-- Between keys and prefixes without `__0x`, only a prefix that stops inside the opening of a
sequence is mistaken for another. -/
lemma begins_of_names {p : Bool} {b key : List Char} (hpref : ¬ opening <:+: pref)
    (hkey : ¬ opening <:+: key) (h : escapeFrom true b pref <+: escapeFrom p b key) :
    pref <+: key ∨ ∃ u s, pref = u ++ s ∧ s ∈ [['_'], ['_', '_'], ['_', '_', '0']] := by
  induction pref generalizing b key with
  | nil => exact .inl (List.nil_prefix)
  | cons c pref ih =>
      cases key with
      | nil =>
          rw [escapeFrom, List.prefix_nil, escapeFrom_eq_nil] at h
          cases h
      | cons d key =>
          have hrest : c = d → escapeFrom true (c :: b) pref <+: escapeFrom p (d :: b) key →
              c :: pref <+: d :: key ∨
                ∃ u s, c :: pref = u ++ s ∧ s ∈ [['_'], ['_', '_'], ['_', '_', '0']] := by
            rintro rfl h
            rw [List.infix_cons_iff, not_or] at hpref hkey
            rcases ih hpref.2 hkey.2 h with h | ⟨u, s, rfl, hs⟩
            · exact .inl (List.cons_prefix_cons.mpr ⟨rfl, h⟩)
            · exact .inr ⟨c :: u, s, rfl, hs⟩
          rw [escapeFrom, escapeFrom] at h
          split_ifs at h with hc hd hd
          · -- two sequences: a sequence tells which character it stands for
            have hcd : c = d := by
              obtain ⟨rest, hrest⟩ := h
              have hdec := unescapeRune_escapeSeq (c := d) (v := escapeFrom p (d :: b) key)
              rw [← hrest, List.append_assoc, unescapeRune_escapeSeq] at hdec
              exact (Prod.mk.inj (Option.some.inj hdec)).1
            subst hcd
            exact hrest rfl ((List.prefix_append_right_inj _).mp h)
          · -- the key spells the opening out
            refine absurd (List.IsPrefix.isInfix (opening_of_literal (p := p) (b := d :: b) ?_)) hkey
            rw [escapeSeq, List.append_assoc] at h
            exact (List.prefix_append _ _).trans h
          · -- the prefix follows the sequence as far as it goes
            refine .inr ⟨[], _, rfl, ?_⟩
            exact spells_opening hpref h
          · obtain ⟨rfl, h⟩ := List.cons_prefix_cons.mp h
            exact hrest rfl h

end Faithful

/-! ## What a listing returns -/

/-- A blob that is stored under the key `key` is listed under the prefix exactly if the key starts
with it. -/
lemma ClearCut.listed {pref : String} (h : ClearCut pref.toList) (key : String) :
    (escapeKey pref true).toList.isPrefixOf (escapeKey key false).toList =
      pref.toList.isPrefixOf key.toList := by
  rw [Bool.eq_iff_iff, List.isPrefixOf_iff_prefix, List.isPrefixOf_iff_prefix, escapeKey_eq,
    escapeKey_eq]
  exact (h.namesFaithful key.toList).symm

/-- **Which prefixes are listed faithfully.**  The names under the escaped prefix are those of the
keys under the prefix exactly if the prefix is clear-cut.  A bucket rooted at `bucketPrefix` then
returns, over all pages of a listing by `pref`, exactly the stored keys under `bucketPrefix ++ pref`,
without the bucket's own prefix, as long as the stored keys have no `__0x` in them. -/
theorem list_faithful_iff (bucketPrefix pref : String) :
    ((∀ key : String, (bucketPrefix ++ pref).toList <+: key.toList ↔
        (escapeKey (bucketPrefix ++ pref) true).toList <+: (escapeKey key false).toList) ↔
      ClearCut (bucketPrefix ++ pref).toList) ∧
      ∀ (ct : Container) (keys : List String) (pageSize : ℤ),
        ct.Lists → ct.blobs = keys.map (escapeKey · false) →
        (∀ key ∈ keys, ¬ opening <:+: key.toList) → ClearCut (bucketPrefix ++ pref).toList →
        ∃ pages, Pages (fun token => listPage ct bucketPrefix token pageSize pref) .first pages ∧
          pages.flatten = (keys.filter fun key =>
            (bucketPrefix ++ pref).toList.isPrefixOf key.toList).map (trimPrefix · bucketPrefix) := by
  refine ⟨⟨fun h => ?_, fun h key => ?_⟩, ?_⟩
  · refine NamesFaithful.clearCut fun key => ?_
    simpa [escapeKey_eq] using h (String.ofList key)
  · rw [escapeKey_eq, escapeKey_eq]
    exact h.namesFaithful key.toList
  · intro ct keys pageSize hlists hblobs hkeys hclear
    obtain ⟨pages, hpages, hflat⟩ := hlists (escapeKey (bucketPrefix ++ pref) true)
      ((if pageSize ≤ 0 then 1000 else pageSize).bmod (2 ^ 32))
    refine ⟨_, pages_listPage (by simp) hpages, ?_⟩
    rw [← List.map_flatten, hflat, hblobs, List.filter_map, List.map_map]
    have hsame : ((fun name => (escapeKey (bucketPrefix ++ pref) true).toList.isPrefixOf
        name.toList) ∘ fun key => escapeKey key false) =
        fun key => (bucketPrefix ++ pref).toList.isPrefixOf key.toList :=
      funext hclear.listed
    rw [hsame]
    refine List.map_congr_left fun key hkey => ?_
    rw [Function.comp_apply, unescape_escapeKey (hkeys key (List.mem_of_mem_filter hkey))]

/-- A container that answers every listing with one page. -/
def onePage (blobs : List String) : Container where
  blobs := blobs
  listFlat pref _ _ := (blobs.filter fun name => pref.toList.isPrefixOf name.toList, .done)

lemma onePage_lists (blobs : List String) : (onePage blobs).Lists := fun pref _ =>
  ⟨[blobs.filter fun name => pref.toList.isPrefixOf name.toList], .last rfl, by simp [onePage]⟩

/-- The prefix `a` meets no escape sequence. -/
lemma clearCut_a : ClearCut ['a'] := by
  have hsplit : ∀ {u s : List Char}, ['a'] = u ++ s → s ≠ [] → u = [] ∧ s = ['a'] := by
    intro u s h hs
    cases u with
    | nil => exact ⟨rfl, h.symm⟩
    | cons d u =>
        obtain ⟨-, h⟩ := List.cons.inj h
        exact absurd (List.append_eq_nil_iff.mp h.symm).2 hs
  refine ⟨fun u c v h => ?_, fun u s c h hs _ => ?_, fun u c v h => ?_⟩
  · obtain ⟨rfl, hv⟩ := hsplit h (List.cons_ne_nil c v)
    obtain ⟨rfl, rfl⟩ := List.cons.inj hv
    decide
  · obtain ⟨-, rfl⟩ := hsplit h hs
    simp [escapeSeq, opening]
  · obtain ⟨-, hv⟩ := hsplit h (by simp [escapeSeq_ne_nil])
    simp [escapeSeq, opening] at hv

/-- A container with the keys `ab/`, `a#` and `_`, listed by the prefix `a`. -/
theorem list_faithful_a : ∃ pages,
    Pages (fun token => listPage (onePage (["ab/", "a#", "_"].map (escapeKey · false))) "" token 10
      "a") .first pages ∧ pages.flatten = ["ab/", "a#"] := by
  obtain ⟨pages, hpages, hflat⟩ := (list_faithful_iff "" "a").2
    (onePage (["ab/", "a#", "_"].map (escapeKey · false))) ["ab/", "a#", "_"] 10
    (onePage_lists _) rfl (by decide) clearCut_a
  exact ⟨pages, hpages, hflat.trans (by decide)⟩

/-- A key that ends in a slash is missing from the listing by itself, and a key that begins with an
escaped character appears in the listing by an underscore. -/
theorem listing_misled :
    ("dir/".toList <+: "dir/".toList ∧
      ¬ (escapeKey "dir/" true).toList <+: (escapeKey "dir/" false).toList) ∧
    (¬ "_".toList <+: "#".toList ∧
      (escapeKey "_" true).toList <+: (escapeKey "#" false).toList) ∧
    listPage (onePage [escapeKey "dir/" false]) "" .first 10 "dir/" = some ([], .done) ∧
    listPage (onePage [escapeKey "#" false]) "" .first 10 "_" = some (["#"], .done) := by
  decide

end Azure

end Blobster
