import Mathlib.Data.List.Count
import Mathlib.Data.List.Perm.Basic
import Blobster.Azure.Escape
import Blobster.Driver.Options

/-!
# Metadata of the azureblob driver

Azure takes only C# identifiers as names of metadata and returns them in any letter case.  The driver
hex-escapes the keys and URL-escapes the values (`toAzureMetadata`) and reverses both when it reads
(`fromAzureMetadata`, `azureblob.go`).  As with keys of objects, the characters of an escape sequence are
legal in a metadata key, and nothing escapes them; the only guard is that two keys of one map must not get
the same name.

* `escapeMetadataKey`, `toAzureMetadata`, `fromAzureMetadata` — the functions of `azureblob.go`; `Lowering`
  and `QueryEscaping` — the two functions of the standard library they rest on.
* `metaName` — the same escaping, character by character; **`metaName_identifier`**.
* `Spells` — the key spells out a sequence, or would with what the escaping of its next character adds.
  **`readKey_eq_iff`** — exactly those keys come back under another name.
* **`metadata_round_trip_iff`** — which maps are read back as they were written, when Azure keeps the letter
  case of the names and when it does not; **`key_renamed`** — a map that is not.
-/

namespace Blobster

namespace Azure

/-! ## The source -/

/-- The letters, digits and the underscore. -/
def identChar (c : Char) : Bool :=
  ('a' ≤ c && c ≤ 'z') || ('A' ≤ c && c ≤ 'Z') || ('0' ≤ c && c ≤ '9') || c == '_'

/-- The argument of `hexEscape` in `escapeMetadataKey`. -/
def shouldEscapeMetadataKey (r : List Char) (i : ℕ) : Bool :=
  match r[i]? with
  | none => false
  | some c => if i == 0 && '0' ≤ c && c ≤ '9' then true else !identChar c

/-- `escapeMetadataKey`. -/
def escapeMetadataKey (key : String) : String := hexEscape key shouldEscapeMetadataKey

/-- `unicode.ToLower`, of which only the ASCII part matters. -/
structure Lowering where
  lower : Char → Char
  ascii : ∀ c : Char, c.toNat < 128 → lower c = c.toLower

/-- `strings.ToLower`. -/
def Lowering.toLower (L : Lowering) (s : String) : String := String.ofList (s.toList.map L.lower)

/-- `url.QueryEscape` and `url.QueryUnescape`, which inverts it. -/
structure QueryEscaping where
  queryEscape : String → String
  queryUnescape : String → Option String
  unescape_escape : ∀ v, queryUnescape (queryEscape v) = some v

/-- `map[string]*string`. -/
abbrev AzureMetadata := List (String × Option String)

/-- What `toAzureMetadata` makes of one entry. -/
def writeEntry (url : QueryEscaping) (kv : String × String) : String × Option String :=
  (escapeMetadataKey kv.1, some (url.queryEscape kv.2))

/-- `toAzureMetadata`, on the entries of the map in the order in which it is ranged over. -/
def toAzureMetadata (url : QueryEscaping) (metadata : UserMetadata) : Except Err AzureMetadata :=
  metadata.foldlM (fun out kv =>
    if out.any fun e => e.1 = escapeMetadataKey kv.1 then .error .invalidOption
    else .ok (out ++ [writeEntry url kv])) []

/-- The key that a name is read as. -/
def readKey (L : Lowering) (name : String) : String := L.toLower (unescapeKey name)

/-- The value that is read: what cannot be unescaped is taken as it is. -/
def readValue (url : QueryEscaping) (v : Option String) : String :=
  (url.queryUnescape (v.getD "")).getD (v.getD "")

/-- `out[key] = value`. -/
def assign (out : UserMetadata) (key value : String) : UserMetadata :=
  if out.any fun kv => kv.1 = key then out.map fun kv => if kv.1 = key then (key, value) else kv
  else out ++ [(key, value)]

/-- `fromAzureMetadata`, likewise. -/
def fromAzureMetadata (L : Lowering) (url : QueryEscaping) (metadata : AzureMetadata) : UserMetadata :=
  metadata.foldl (fun out e => assign out (readKey L e.1) (readValue url e.2)) []

/-! ## Names, character by character -/

/-- A character behind the first one. -/
def spell (c : Char) : List Char := if identChar c then [c] else escapeSeq c

/-- A C# identifier. -/
def Identifier (l : List Char) : Prop :=
  ∃ c cs, l = c :: cs ∧ (∀ d ∈ l, identChar d = true) ∧ ¬ ('0' ≤ c ∧ c ≤ '9')

/-- The name of a key. -/
def metaName : List Char → List Char
  | [] => []
  | c :: cs => (if '0' ≤ c ∧ c ≤ '9' then escapeSeq c else spell c) ++ cs.flatMap spell

section Names

variable {c d : Char} {k l v : List Char}

lemma spell_of_ident (h : identChar c = true) : spell c = [c] := if_pos h

lemma spell_of_not_ident (h : ¬ identChar c = true) : spell c = escapeSeq c := if_neg h

lemma flatMap_spell_eq_self (h : ∀ c ∈ v, identChar c = true) : v.flatMap spell = v := by
  conv_rhs => rw [← List.flatMap_singleton' v]
  exact List.flatMap_congr fun d hd => spell_of_ident (h d hd)

/-- The loop of `hexEscape` behind the first character. -/
lemma zipIdx_eq_spell (pre rest : List Char) (hpre : pre ≠ []) :
    ((rest.zipIdx pre.length).flatMap fun (c, i) =>
        if shouldEscapeMetadataKey (pre ++ rest) i then escapeSeq c else [c]) =
      rest.flatMap spell := by
  induction rest generalizing pre with
  | nil => rfl
  | cons c rest ih =>
      have ih := ih (pre ++ [c]) (by simp)
      simp only [List.length_append, List.length_singleton, List.append_assoc,
        List.singleton_append] at ih
      have hpos : (pre.length == 0) = false := by simpa using hpre
      have hshould : shouldEscapeMetadataKey (pre ++ c :: rest) pre.length = !identChar c := by
        simp [shouldEscapeMetadataKey, hpos]
      simp only [List.zipIdx_cons, List.flatMap_cons, ih, hshould, spell]
      cases identChar c <;> rfl

/-- The loop of `hexEscape` on a key. -/
lemma zipIdx_eq_metaName (rs : List Char) :
    (rs.zipIdx.flatMap fun (c, i) => if shouldEscapeMetadataKey rs i then escapeSeq c else [c]) =
      metaName rs := by
  cases rs with
  | nil => rfl
  | cons c rest =>
      have hrest := zipIdx_eq_spell [c] rest (by simp)
      simp only [List.length_singleton, List.singleton_append] at hrest
      rw [List.zipIdx_cons, List.flatMap_cons, Nat.zero_add, hrest, metaName]
      refine congrArg (· ++ rest.flatMap spell) ?_
      by_cases hc : '0' ≤ c ∧ c ≤ '9'
      · simp [shouldEscapeMetadataKey, hc]
      · rw [if_neg hc]
        have hshould : shouldEscapeMetadataKey (c :: rest) 0 = !identChar c := by
          simp only [shouldEscapeMetadataKey, List.getElem?_cons_zero]
          exact if_neg (by simpa using hc)
        simp only [hshould, spell]
        cases identChar c <;> rfl

/-- **The driver's loop is the recursion.** -/
lemma escapeMetadataKey_eq (key : String) :
    (escapeMetadataKey key).toList = metaName key.toList := by
  simp only [escapeMetadataKey, hexEscape]
  split_ifs with hany
  · rw [String.toList_ofList, zipIdx_eq_metaName]
  · -- no character is escaped
    rw [← zipIdx_eq_metaName]
    have hself : (key.toList.zipIdx.flatMap fun (c, i) =>
        if shouldEscapeMetadataKey key.toList i then escapeSeq c else [c]) =
          key.toList.zipIdx.flatMap fun x => [x.1] := by
      refine List.flatMap_congr fun x hx => if_neg fun hesc => hany ?_
      have hlt := (List.mem_zipIdx hx).2.1
      exact List.any_eq_true.mpr ⟨x.2, List.mem_range.mpr (by omega), hesc⟩
    rw [hself, ← List.map_eq_flatMap, List.zipIdx_map_fst]

/-- The characters of a sequence are those of an identifier. -/
lemma identChar_of_mem_escapeSeq (h : d ∈ escapeSeq c) : identChar d = true := by
  simp only [escapeSeq, opening, closing, List.mem_append, List.mem_cons, List.not_mem_nil,
    or_false] at h
  have hdigit : ∀ k < 16, identChar (Nat.digitChar k) = true := by decide
  rcases h with (rfl | rfl | rfl | rfl) | h | (rfl | rfl)
  all_goals first
    | decide
    | obtain ⟨k, hk, rfl⟩ := exists_digit_of_mem_toDigits h
      exact hdigit k hk

lemma identChar_of_mem_spell (h : d ∈ spell c) : identChar d = true := by
  rw [spell] at h
  split_ifs at h with hc
  · rwa [List.mem_singleton.mp h]
  · exact identChar_of_mem_escapeSeq h

/-- **Every name is an identifier.** -/
lemma metaName_identifier (hk : k ≠ []) : Identifier (metaName k) := by
  obtain ⟨c, cs, rfl⟩ := List.exists_cons_of_ne_nil hk
  obtain ⟨l, hl⟩ := escapeSeq_eq_cons c
  have hfirst : ∃ d ds, (if '0' ≤ c ∧ c ≤ '9' then escapeSeq c else spell c) = d :: ds ∧
      ¬ ('0' ≤ d ∧ d ≤ '9') ∧ ∀ e ∈ d :: ds, identChar e = true := by
    by_cases hc : '0' ≤ c ∧ c ≤ '9'
    · rw [if_pos hc]
      exact ⟨'_', l ++ ['_'], hl, by decide, fun e he =>
        identChar_of_mem_escapeSeq (c := c) (hl ▸ he)⟩
    · rw [if_neg hc]
      by_cases hi : identChar c = true
      · exact ⟨c, [], spell_of_ident hi, hc, by simpa using hi⟩
      · exact ⟨'_', l ++ ['_'], (spell_of_not_ident hi).trans hl, by decide, fun e he =>
          identChar_of_mem_escapeSeq (c := c) (hl ▸ he)⟩
  obtain ⟨d, ds, heq, hd, hall⟩ := hfirst
  refine ⟨d, ds ++ cs.flatMap spell, by rw [metaName, heq]; rfl, fun e he => ?_, hd⟩
  rw [metaName, heq] at he
  rcases List.mem_append.mp he with he | he
  · exact hall e he
  · obtain ⟨x, -, hx⟩ := List.mem_flatMap.mp he
    exact identChar_of_mem_spell hx

/-- An identifier is its own name, and nothing else is. -/
lemma metaName_eq_self_iff (hk : k ≠ []) : metaName k = k ↔ Identifier k := by
  refine ⟨fun h => h ▸ metaName_identifier hk, ?_⟩
  rintro ⟨c, cs, rfl, hall, hc⟩
  have hcs := flatMap_spell_eq_self fun d hd => hall d (List.mem_cons_of_mem _ hd)
  rw [metaName, if_neg hc, spell_of_ident (hall c List.mem_cons_self), hcs]
  rfl

end Names

/-! ## Keys that spell out a sequence -/

/-- What follows the digits closes the sequence in the name.  An escaped character does so too, because its
own sequence begins with two underscores. -/
def Closes (t : List Char) : Prop :=
  ∃ c t', (t = c :: t' ∧ identChar c = false) ∨
    (t = '_' :: c :: t' ∧ (c = '_' ∨ identChar c = false))

/-- The key spells out a sequence: the opening, hexadecimal digits of a number below `2 ^ 31`, and what
closes it. -/
def Spells (k : List Char) : Prop :=
  ∃ u ds t, k = u ++ (opening ++ (ds ++ t)) ∧ (∀ c ∈ ds, (hexValue c).isSome = true) ∧
    (parseInt ds).isSome = true ∧ Closes t

section Spelling

variable {c d : Char} {ds k l t v w : List Char}

/-- What a name begins with, unless it is an underscore, is a character of the key. -/
lemma flatMap_spell_head (hd : d ≠ '_') (h : d :: l <+: v.flatMap spell) :
    identChar d = true ∧ ∃ v', v = d :: v' ∧ l <+: v'.flatMap spell := by
  cases v with
  | nil => simp at h
  | cons c v =>
      obtain ⟨m, hm⟩ := escapeSeq_eq_cons c
      by_cases hc : identChar c = true
      · rw [List.flatMap_cons, spell_of_ident hc, List.singleton_append, List.cons_prefix_cons] at h
        obtain ⟨rfl, h⟩ := h
        exact ⟨hc, v, rfl, h⟩
      · rw [List.flatMap_cons, spell_of_not_ident hc, hm, List.cons_append, List.cons_append,
          List.cons_prefix_cons] at h
        exact absurd h.1 hd

/-- The digits of a name that are followed by something are characters of the key. -/
lemma flatMap_spell_digits (hds : '_' ∉ ds) (h : v.flatMap spell = ds ++ w) :
    (∀ c ∈ ds, identChar c = true) ∧ ∃ t, v = ds ++ t ∧ t.flatMap spell = w := by
  induction ds generalizing v with
  | nil => exact ⟨nofun, v, rfl, h⟩
  | cons d ds ih =>
      rw [List.mem_cons, not_or] at hds
      obtain ⟨hd, v', rfl, -⟩ := flatMap_spell_head (Ne.symm hds.1)
        (h ▸ List.prefix_append (d :: ds) w)
      rw [List.flatMap_cons, spell_of_ident hd, List.singleton_append, List.cons_append] at h
      obtain ⟨hall, t, rfl, ht⟩ := ih hds.2 (List.cons.inj h).2
      exact ⟨List.forall_mem_cons.mpr ⟨hd, hall⟩, t, rfl, ht⟩

/-- The name closes the sequence exactly if the key does. -/
lemma closes_iff : Closes t ↔ closing <+: t.flatMap spell := by
  constructor
  · rintro ⟨c, t', ⟨rfl, hc⟩ | ⟨rfl, hc⟩⟩
    · rw [List.flatMap_cons, spell_of_not_ident (by simp [hc])]
      refine ⟨['0', 'x'] ++ (Nat.toDigits 16 c.toNat ++ closing) ++ t'.flatMap spell, ?_⟩
      simp [escapeSeq, opening, closing]
    · rw [List.flatMap_cons, List.flatMap_cons, spell_of_ident (by decide)]
      rcases hc with rfl | hc
      · rw [spell_of_ident (by decide)]
        exact ⟨_, rfl⟩
      · obtain ⟨m, hm⟩ := escapeSeq_eq_cons c
        rw [spell_of_not_ident (by simp [hc]), hm]
        exact ⟨_, rfl⟩
  · intro h
    cases t with
    | nil => simp [closing] at h
    | cons c t' =>
        by_cases hc : identChar c = true
        · rw [List.flatMap_cons, spell_of_ident hc, closing, List.singleton_append,
            List.cons_prefix_cons] at h
          obtain ⟨rfl, h⟩ := h
          cases t' with
          | nil => simp at h
          | cons d t' =>
              by_cases hd : identChar d = true
              · rw [List.flatMap_cons, spell_of_ident hd, List.singleton_append,
                  List.cons_prefix_cons] at h
                exact ⟨d, t', .inr ⟨rfl, .inl h.1.symm⟩⟩
              · exact ⟨d, t', .inr ⟨rfl, .inr (by simpa using hd)⟩⟩
        · exact ⟨c, t', .inl ⟨rfl, by simpa using hc⟩⟩

/-- No sequence opens across the border between a literal character and what follows. -/
lemma opening_of_spell (hc : identChar c = true) (h : opening <+: (c :: v).flatMap spell) :
    ∃ w, c :: v = opening ++ w := by
  rw [List.flatMap_cons, spell_of_ident hc, opening, List.singleton_append,
    List.cons_prefix_cons] at h
  obtain ⟨rfl, h⟩ := h
  cases v with
  | nil => simp at h
  | cons d v =>
      by_cases hd : identChar d = true
      · rw [List.flatMap_cons, spell_of_ident hd, List.singleton_append, List.cons_prefix_cons] at h
        obtain ⟨rfl, h⟩ := h
        obtain ⟨-, v₁, rfl, h₁⟩ := flatMap_spell_head (by decide) h
        obtain ⟨-, v₂, rfl, -⟩ := flatMap_spell_head (by decide) h₁
        exact ⟨v₂, rfl⟩
      · -- the next character is escaped: `___` opens nothing
        rw [List.flatMap_cons, spell_of_not_ident hd] at h
        simp [escapeSeq, opening] at h

/-- A hexadecimal digit is a character of an identifier. -/
lemma identChar_of_hexValue (h : (hexValue c).isSome = true) : identChar c = true ∧ c ≠ '_' := by
  constructor
  · unfold hexValue at h
    split_ifs at h with h₁ h₂ h₃
    · simp [identChar, h₁]
    · simp [identChar, h₂.1, h₂.2.trans (show 'f' ≤ 'z' by decide)]
    · simp [identChar, h₃.1, h₃.2.trans (show 'F' ≤ 'Z' by decide)]
    · cases h
  · rintro rfl
    exact absurd h (by decide)

lemma hexValue_of_foldlM {n m : ℕ}
    (h : ds.foldlM (fun n c => (hexValue c).map fun d => 16 * n + d) n = some m) :
    ∀ c ∈ ds, (hexValue c).isSome = true := by
  induction ds generalizing n with
  | nil => exact nofun
  | cons d ds ih =>
      rw [List.foldlM_cons, Option.bind_eq_bind, Option.bind_eq_some_iff] at h
      obtain ⟨n', hn', h⟩ := h
      obtain ⟨x, hx, -⟩ := Option.map_eq_some_iff.mp hn'
      exact List.forall_mem_cons.mpr ⟨by rw [hx]; rfl, ih h⟩

/-- What reads as a number and has no sign is digits. -/
lemma hexValue_of_parseInt (hds : ∀ c ∈ ds, identChar c = true) (h : (parseInt ds).isSome = true) :
    ∀ c ∈ ds, (hexValue c).isSome = true := by
  obtain ⟨n, hn⟩ := Option.isSome_iff_exists.mp h
  unfold parseInt at hn
  split at hn
  · exact absurd (hds '+' List.mem_cons_self) (by decide)
  · exact absurd (hds '-' List.mem_cons_self) (by decide)
  · obtain ⟨m, hm, -⟩ := Option.bind_eq_some_iff.mp hn
    cases ds with
    | nil => exact nofun
    | cons d ds =>
        rw [parseUint] at hm
        · exact hexValue_of_foldlM hm
        · simp

/-- A literal character of a name is taken for the beginning of a sequence exactly if the key spells one
there. -/
lemma unescapeRune_spell_iff (hc : identChar c = true) :
    (unescapeRune ((c :: v).flatMap spell)).isSome = true ↔
      ∃ ds t, c :: v = opening ++ (ds ++ t) ∧ (∀ c ∈ ds, (hexValue c).isSome = true) ∧
        (parseInt ds).isSome = true ∧ Closes t := by
  have hopen : opening.flatMap spell = opening :=
    flatMap_spell_eq_self (List.all_eq_true.mp rfl)
  constructor
  · intro h
    obtain ⟨⟨D, n⟩, hsome⟩ := Option.isSome_iff_exists.mp h
    obtain ⟨ds, Y, hX, -, hds, hparse, -⟩ := unescapeRune_eq_some hsome
    obtain ⟨w, hw⟩ := opening_of_spell hc (hX ▸ List.prefix_append _ _)
    rw [hw, List.flatMap_append, hopen, List.append_right_inj] at hX
    obtain ⟨hident, t, rfl, ht⟩ := flatMap_spell_digits hds hX
    exact ⟨ds, t, hw, hexValue_of_parseInt hident hparse, hparse,
      closes_iff.mpr (ht ▸ List.prefix_append _ _)⟩
  · rintro ⟨ds, t, heq, hhex, hparse, hclose⟩
    have hident : ∀ c ∈ ds, identChar c = true ∧ c ≠ '_' := fun c hc =>
      identChar_of_hexValue (hhex c hc)
    obtain ⟨Y, hY⟩ := closes_iff.mp hclose
    have hne : ds ≠ [] := by
      rintro rfl
      simp [parseInt, parseUint] at hparse
    rw [heq, List.flatMap_append, List.flatMap_append, hopen,
      flatMap_spell_eq_self fun c hc => (hident c hc).1, ← hY,
      unescapeRune_sequence hne fun h => (hident _ h).2 rfl]
    simpa using hparse

/-- A sequence in a longer key stands at its front or in the rest. -/
lemma spells_cons_iff :
    Spells (c :: v) ↔ (∃ ds t, c :: v = opening ++ (ds ++ t) ∧
      (∀ c ∈ ds, (hexValue c).isSome = true) ∧ (parseInt ds).isSome = true ∧ Closes t) ∨ Spells v := by
  constructor
  · rintro ⟨_ | ⟨a, u⟩, ds, t, heq, hrest⟩
    · exact .inl ⟨ds, t, heq, hrest⟩
    · exact .inr ⟨u, ds, t, (List.cons.inj heq).2, hrest⟩
  · rintro (⟨ds, t, heq, hrest⟩ | ⟨u, ds, t, rfl, hrest⟩)
    · exact ⟨[], ds, t, heq, hrest⟩
    · exact ⟨c :: u, ds, t, rfl, hrest⟩

lemma spells_cons_of_ne (hc : c ≠ '_') : Spells (c :: v) ↔ Spells v := by
  rw [spells_cons_iff, or_iff_right]
  rintro ⟨ds, t, heq, -⟩
  exact hc (List.cons.inj heq).1

/-- Reading a name back goes right up to the first sequence that the key spells. -/
lemma unescapeFrom_spell (v : List Char) :
    (¬ Spells v ∧ unescapeFrom 0 (v.flatMap spell) = v) ∨
      ∃ u c v', v = u ++ c :: v' ∧ identChar c = true ∧
        (unescapeRune ((c :: v').flatMap spell)).isSome = true ∧
        unescapeFrom 0 (v.flatMap spell) = u ++ unescapeFrom 0 ((c :: v').flatMap spell) := by
  induction v with
  | nil =>
      refine .inl ⟨?_, rfl⟩
      rintro ⟨u, ds, t, heq, -⟩
      simp [opening] at heq
  | cons c v ih =>
      by_cases hc : identChar c = true
      · by_cases hrune : (unescapeRune ((c :: v).flatMap spell)).isSome = true
        · exact .inr ⟨[], c, v, rfl, hc, hrune, rfl⟩
        · have hstep : unescapeFrom 0 ((c :: v).flatMap spell) =
              c :: unescapeFrom 0 (v.flatMap spell) := by
            rw [Bool.not_eq_true, Option.isSome_eq_false_iff, Option.isNone_iff_eq_none] at hrune
            rw [List.flatMap_cons, spell_of_ident hc, List.singleton_append] at hrune ⊢
            rw [unescapeFrom, hrune]
          rw [unescapeRune_spell_iff hc] at hrune
          rcases ih with ⟨hspells, hv⟩ | ⟨u, c', v', rfl, hrest⟩
          · refine .inl ⟨?_, by rw [hstep, hv]⟩
            rw [spells_cons_iff, not_or]
            exact ⟨hrune, hspells⟩
          · refine .inr ⟨c :: u, c', v', rfl, hrest.1, hrest.2.1, ?_⟩
            rw [hstep, hrest.2.2]
            rfl
      · have hne : c ≠ '_' := by
          rintro rfl
          exact hc (by decide)
        have hstep : unescapeFrom 0 ((c :: v).flatMap spell) =
            c :: unescapeFrom 0 (v.flatMap spell) := by
          rw [List.flatMap_cons, spell_of_not_ident hc, unescapeFrom_escapeSeq]
        rcases ih with ⟨hspells, hv⟩ | ⟨u, c', v', rfl, hrest⟩
        · refine .inl ⟨?_, by rw [hstep, hv]⟩
          rwa [spells_cons_of_ne hne]
        · refine .inr ⟨c :: u, c', v', rfl, hrest.1, hrest.2.1, ?_⟩
          rw [hstep, hrest.2.2]
          rfl

end Spelling

/-! ## What a sequence weighs -/

/-- The characters that are no hexadecimal digits.  A sequence has five of them, whatever it stands for, and
what it is decoded to has at most five when it is escaped again. -/
def weight (l : List Char) : ℕ :=
  l.countP fun c => !(('0' ≤ c && c ≤ '9') || ('a' ≤ c && c ≤ 'f'))

section Weight

variable {L : Lowering} {c d : Char} {l m v : List Char}

lemma weight_append : weight (l ++ m) = weight l + weight m := List.countP_append

lemma weight_opening_closing (ds : List Char) : 5 ≤ weight (opening ++ (ds ++ closing)) := by
  have hopen : weight opening = 3 := by decide
  have hclose : weight closing = 2 := by decide
  rw [weight_append, weight_append, hopen, hclose]
  omega

lemma weight_spell_le (c : Char) : weight (spell c) ≤ 5 := by
  rw [spell]
  split_ifs
  · exact List.countP_le_length.trans (by simp)
  · have hdigits : weight (Nat.toDigits 16 c.toNat) = 0 := by
      have hdigit : ∀ k < 16,
          (('0' ≤ Nat.digitChar k && Nat.digitChar k ≤ '9') ||
            ('a' ≤ Nat.digitChar k && Nat.digitChar k ≤ 'f')) = true := by decide
      refine List.countP_eq_zero.mpr fun d hd => ?_
      obtain ⟨k, hk, rfl⟩ := exists_digit_of_mem_toDigits hd
      rw [hdigit k hk]
      simp
    have hopen : weight opening = 3 := by decide
    have hclose : weight closing = 2 := by decide
    rw [escapeSeq, weight_append, weight_append, hdigits, hopen, hclose]

/-- Where a sequence is decoded, it is skipped and the rest is read. -/
lemma unescapeFrom_of_some {X : List Char} {n : ℕ} (h : unescapeRune X = some (d, n)) :
    ∃ S Y, X = S ++ Y ∧ S ≠ [] ∧ 5 ≤ weight S ∧ unescapeFrom 0 X = d :: unescapeFrom 0 Y := by
  obtain ⟨ds, Y, rfl, -, -, -, rfl⟩ := unescapeRune_eq_some h
  refine ⟨opening ++ (ds ++ closing), Y, by simp, by simp [opening], weight_opening_closing ds, ?_⟩
  have hX : opening ++ (ds ++ (closing ++ Y)) = '_' :: ((['_', '0', 'x'] ++ (ds ++ closing)) ++ Y) := by
    simp [opening]
  rw [hX] at h ⊢
  have hskip := unescapeFrom_skip (v := Y) (['_', '0', 'x'] ++ (ds ++ closing))
  rw [unescapeFrom, h]
  exact congrArg (d :: ·) hskip

/-- A name that is read, lower-cased and escaped again weighs no more. -/
lemma weight_unescape (n : ℕ) :
    ∀ X : List Char, X.length ≤ n → (∀ c ∈ X, identChar c = true ∧ L.lower c = c) →
      weight (((unescapeFrom 0 X).map L.lower).flatMap spell) ≤ weight X := by
  induction n with
  | zero =>
      intro X hX _
      obtain rfl := List.length_eq_zero_iff.mp (Nat.le_zero.mp hX)
      exact le_rfl
  | succ n ih =>
      intro X hX hall
      cases X with
      | nil => exact le_rfl
      | cons c X =>
          cases hrune : unescapeRune (c :: X) with
          | none =>
              obtain ⟨hc, hl⟩ := hall c List.mem_cons_self
              have := ih X (by simpa using hX) fun d hd => hall d (List.mem_cons_of_mem _ hd)
              rw [unescapeFrom, hrune, List.map_cons, List.flatMap_cons, hl, spell_of_ident hc,
                weight_append, ← List.singleton_append (l := X), weight_append]
              omega
          | some p =>
              obtain ⟨D, k⟩ := p
              obtain ⟨S, Y, hXY, hS, hweight, hread⟩ := unescapeFrom_of_some hrune
              have hlen : Y.length ≤ n := by
                have := congrArg List.length hXY
                have := List.length_pos_of_ne_nil hS
                simp only [List.length_append, List.length_cons] at *
                omega
              have := ih Y hlen fun e he => hall e (hXY ▸ List.mem_append_right S he)
              have := weight_spell_le (L.lower D)
              rw [hread, List.map_cons, List.flatMap_cons, weight_append, hXY, weight_append]
              omega

/-- Sequences are written in lower case. -/
lemma lower_of_mem_escapeSeq (h : d ∈ escapeSeq c) : L.lower d = d := by
  have hdigit : ∀ k < 16, (Nat.digitChar k).toNat < 128 ∧
      (Nat.digitChar k).toLower = Nat.digitChar k := by decide
  simp only [escapeSeq, opening, closing, List.mem_append, List.mem_cons, List.not_mem_nil,
    or_false] at h
  rcases h with (rfl | rfl | rfl | rfl) | h | (rfl | rfl)
  all_goals first
    | exact L.ascii _ (by decide)
    | obtain ⟨k, hk, rfl⟩ := exists_digit_of_mem_toDigits h
      rw [L.ascii _ (hdigit k hk).1, (hdigit k hk).2]

lemma lower_of_mem_spell (hc : L.lower c = c) (h : d ∈ spell c) : L.lower d = d := by
  rw [spell] at h
  split_ifs at h
  · rwa [List.mem_singleton.mp h]
  · exact lower_of_mem_escapeSeq h

/-- The name of a lower-case key is in lower case. -/
lemma lower_of_mem_metaName (hv : ∀ c ∈ v, L.lower c = c) (h : d ∈ metaName v) : L.lower d = d := by
  cases v with
  | nil => cases h
  | cons c cs =>
      rcases List.mem_append.mp h with h | h
      · split_ifs at h
        · exact lower_of_mem_escapeSeq h
        · exact lower_of_mem_spell (hv c List.mem_cons_self) h
      · obtain ⟨x, hx, hdx⟩ := List.mem_flatMap.mp h
        exact lower_of_mem_spell (hv x (List.mem_cons_of_mem c hx)) hdx

/-- **Exactly the keys that spell no sequence are read back.**  A key that does loses weight: the sequence
weighs five, and the underscore that would have to stand in its place only one. -/
lemma read_spell_iff (hv : v.map L.lower = v) :
    (unescapeFrom 0 (v.flatMap spell)).map L.lower = v ↔ ¬ Spells v := by
  have hlow : ∀ c ∈ v, L.lower c = c := List.map_inj_left.mp (hv.trans (List.map_id' v).symm)
  rcases unescapeFrom_spell v with ⟨hspells, hread⟩ | ⟨u, c, v', rfl, hc, hrune, hread⟩
  · rw [hread]
    exact iff_of_true hv hspells
  · have hspells : Spells (u ++ c :: v') := by
      obtain ⟨ds, t, heq, hrest⟩ := (unescapeRune_spell_iff hc).mp hrune
      exact ⟨u, ds, t, by rw [heq], hrest⟩
    refine iff_of_false (fun heq => ?_) (not_not.mpr hspells)
    obtain ⟨⟨D, n⟩, hsome⟩ := Option.isSome_iff_exists.mp hrune
    obtain ⟨S, Y, hSY, -, hweight, hD⟩ := unescapeFrom_of_some hsome
    rw [hread, hD, List.map_append, List.map_cons] at heq
    obtain ⟨-, heq⟩ := List.append_inj heq (by simp)
    have hrest := (List.cons.inj heq).2
    obtain ⟨ds, t, hopen, -⟩ := (unescapeRune_spell_iff hc).mp hrune
    obtain rfl : c = '_' := (List.cons.inj hopen).1
    have hle := weight_unescape (L := L) Y.length Y le_rfl fun d hd => by
      have hmem : d ∈ ('_' :: v').flatMap spell := hSY ▸ List.mem_append_right S hd
      obtain ⟨x, hx, hdx⟩ := List.mem_flatMap.mp hmem
      exact ⟨identChar_of_mem_spell hdx,
        lower_of_mem_spell (hlow x (List.mem_append_right u hx)) hdx⟩
    have hself : weight (('_' :: v').flatMap spell) = 1 + weight (v'.flatMap spell) := by
      rw [List.flatMap_cons, weight_append]
      rfl
    rw [hrest] at hle
    rw [hSY, weight_append] at hself
    omega

end Weight

/-! ## Keys that are read back -/

/-- Equal up to the case of ASCII letters. -/
def SameLetters (name name' : String) : Prop :=
  name'.toList.map Char.toLower = name.toList.map Char.toLower

section Keys

variable {L : Lowering} {key name : String} {c : Char} {ds k v : List Char}

lemma unescapeKey_toList (name : String) : (unescapeKey name).toList = unescapeFrom 0 name.toList := by
  rw [unescapeKey, hexUnescape]
  split_ifs with h
  · exact String.toList_ofList
  · exact .symm <| unescapeFrom_of_not_infix h

lemma readKey_toList (name : String) :
    (readKey L name).toList = (unescapeFrom 0 name.toList).map L.lower := by
  rw [readKey, Lowering.toLower, String.toList_ofList, unescapeKey_toList]

lemma lower_of_toLower (h : L.toLower key = key) : key.toList.map L.lower = key.toList := by
  rw [← String.toList_inj, Lowering.toLower, String.toList_ofList] at h
  exact h

lemma toList_ne_nil (h : key ≠ "") : key.toList ≠ [] := fun hnil =>
  h (String.toList_inj.mp (hnil.trans String.toList_empty.symm))

/-- **A key is read back from its own name exactly if it spells no sequence.** -/
lemma readKey_eq_iff (hne : key ≠ "") (hlow : L.toLower key = key) :
    readKey L (escapeMetadataKey key) = key ↔ ¬ Spells key.toList := by
  have hk := lower_of_toLower hlow
  rw [← String.toList_inj, readKey_toList, escapeMetadataKey_eq]
  obtain ⟨c, cs, hcs⟩ := List.exists_cons_of_ne_nil (toList_ne_nil hne)
  rw [hcs] at hk ⊢
  rw [metaName]
  by_cases hc : '0' ≤ c ∧ c ≤ '9'
  · -- a digit in front is escaped, and read back
    obtain ⟨hc', hcs'⟩ := List.cons.inj hk
    have hne : c ≠ '_' := by
      rintro rfl
      exact absurd hc (by decide)
    rw [if_pos hc, unescapeFrom_escapeSeq, List.map_cons, hc', List.cons_inj_right,
      spells_cons_of_ne hne]
    exact read_spell_iff hcs'
  · rw [if_neg hc, ← List.flatMap_cons]
    exact read_spell_iff hk

lemma toNat_lt_of_ident (h : identChar c = true) : c.toNat < 128 := by
  simp only [identChar, Bool.or_eq_true, Bool.and_eq_true, decide_eq_true_eq, beq_iff_eq] at h
  rcases h with ((h | h) | h) | rfl
  · exact lt_of_le_of_lt (show c.toNat ≤ 'z'.toNat from h.2) (by decide)
  · exact lt_of_le_of_lt (show c.toNat ≤ 'Z'.toNat from h.2) (by decide)
  · exact lt_of_le_of_lt (show c.toNat ≤ '9'.toNat from h.2) (by decide)
  · decide

/-- The letter case of an ASCII character does not matter for what it is. -/
lemma ascii_toLower : ∀ n < 128, hexValue (Char.ofNat n).toLower = hexValue (Char.ofNat n) ∧
    (identChar (Char.ofNat n).toLower = true → identChar (Char.ofNat n) = true) := by
  decide

lemma toLower_of_le (h : 128 ≤ c.toNat) : c.toLower = c := by
  refine dif_neg fun hup => ?_
  have hle : c.toNat ≤ 'Z'.toNat := hup.2
  have hZ : 'Z'.toNat = 90 := by decide
  omega

lemma hexValue_toLower (c : Char) : hexValue c.toLower = hexValue c := by
  by_cases h : c.toNat < 128
  · simpa using (ascii_toLower c.toNat h).1
  · rw [toLower_of_le (by omega)]

lemma identChar_of_toLower (h : identChar c.toLower = true) : identChar c = true := by
  by_cases hc : c.toNat < 128
  · simpa using (ascii_toLower c.toNat hc).2 (by simpa using h)
  · rwa [toLower_of_le (by omega)] at h

lemma parseUint_toLower (ds : List Char) : parseUint (ds.map Char.toLower) = parseUint ds := by
  cases ds with
  | nil => rfl
  | cons d ds =>
      rw [parseUint, parseUint, List.foldlM_map]
      · simp only [hexValue_toLower]
      · simp
      · simp

/-- Without a sign it is the digits that are read. -/
lemma parseInt_of_ident (h : ∀ c ∈ ds, identChar c = true) :
    parseInt ds = (parseUint ds).bind fun n => if n < 2 ^ 31 then some (n : ℤ) else none := by
  unfold parseInt
  split
  · exact absurd (h '+' List.mem_cons_self) (by decide)
  · exact absurd (h '-' List.mem_cons_self) (by decide)
  · rfl

/-- What is not decoded anywhere is read as it stands. -/
lemma unescapeFrom_eq_self_or (X : List Char) :
    unescapeFrom 0 X = X ∨ ∃ u X', X = u ++ X' ∧ (unescapeRune X').isSome = true := by
  induction X with
  | nil => exact .inl rfl
  | cons c X ih =>
      cases hrune : unescapeRune (c :: X) with
      | some p => exact .inr ⟨[], c :: X, rfl, by rw [hrune]; rfl⟩
      | none =>
          rcases ih with h | ⟨u, X', rfl, h⟩
          · exact .inl (by rw [unescapeFrom, hrune, h])
          · exact .inr ⟨c :: u, X', rfl, h⟩

/-- A key that is an identifier and spells no sequence is read back from its name in any letter case. -/
lemma readKey_sameLetters (hlow : L.toLower key = key) (hident : Identifier key.toList)
    (hspells : ¬ Spells key.toList) (h : SameLetters (escapeMetadataKey key) name) :
    readKey L name = key := by
  have hk := lower_of_toLower hlow
  obtain ⟨-, -, -, hall, -⟩ := id hident
  have hne : key.toList ≠ [] := by
    obtain ⟨c, cs, hcs, -⟩ := hident
    rw [hcs]
    exact List.cons_ne_nil c cs
  have hlower : ∀ c ∈ key.toList, L.lower c = c :=
    List.map_inj_left.mp (hk.trans (List.map_id' _).symm)
  -- The key is its own name, and it is in lower case.
  have hname : name.toList.map Char.toLower = key.toList := by
    rw [SameLetters, escapeMetadataKey_eq, (metaName_eq_self_iff hne).mpr hident] at h
    rw [h]
    refine (List.map_congr_left fun c hc => ?_).trans (List.map_id' _)
    rw [← L.ascii c (toNat_lt_of_ident (hall c hc)), hlower c hc]
  have hnameIdent : ∀ c ∈ name.toList, identChar c = true := fun c hc =>
    identChar_of_toLower (hall _ (hname ▸ List.mem_map_of_mem hc))
  have hread : unescapeFrom 0 name.toList = name.toList := by
    refine (unescapeFrom_eq_self_or _).resolve_right ?_
    rintro ⟨u, X, hX, hsome⟩
    obtain ⟨⟨D, n⟩, hD⟩ := Option.isSome_iff_exists.mp hsome
    obtain ⟨ds, Y, rfl, -, -, hparse, -⟩ := unescapeRune_eq_some hD
    have hds : ∀ c ∈ ds, identChar c = true := fun c hc => hnameIdent c (by rw [hX]; simp [hc])
    have hds' : ∀ c ∈ ds.map Char.toLower, identChar c = true := fun c hc =>
      hall c (by rw [← hname, hX]; simp only [List.map_append, List.mem_append]; tauto)
    have hparse' : (parseInt (ds.map Char.toLower)).isSome = true := by
      rw [parseInt_of_ident hds', parseUint_toLower, ← parseInt_of_ident hds]
      exact hparse
    refine hspells ⟨u.map Char.toLower, ds.map Char.toLower, closing ++ Y.map Char.toLower, ?_,
      hexValue_of_parseInt hds' hparse', hparse', '_', Y.map Char.toLower, .inr ⟨rfl, .inl rfl⟩⟩
    rw [← hname, hX]
    simp only [List.map_append]
    rfl
  rw [← String.toList_inj, readKey_toList, hread, ← hname]
  exact List.map_congr_left fun c hc => L.ascii c (toNat_lt_of_ident (hnameIdent c hc))

/-- An `x` in upper case. -/
def upperX (c : Char) : Char := if c = 'x' then 'X' else c

lemma toLower_upperX (c : Char) : (upperX c).toLower = c.toLower := by
  rw [upperX]
  split_ifs with h
  · rw [h]
    decide
  · rfl

lemma lower_upperX (hc : L.lower c = c) : L.lower (upperX c) = c := by
  rw [upperX]
  split_ifs with h
  · rw [h, L.ascii 'X' (by decide)]
    decide
  · exact hc

/-- A sequence with an `X` is none. -/
lemma unescapeFrom_upperX (l : List Char) :
    unescapeFrom 0 (l.map upperX) = l.map upperX := by
  refine unescapeFrom_of_not_infix fun h => ?_
  obtain ⟨c, -, hc⟩ := List.mem_map.mp (h.subset (show 'x' ∈ opening by decide))
  rw [upperX] at hc
  split_ifs at hc with hx
  · exact absurd hc (by decide)
  · exact hx hc

/-- **In any letter case** a key is read back exactly if it also needs no escaping: with `X` for `x` a
sequence is none. -/
lemma readKey_sameLetters_iff (hne : key ≠ "") (hlow : L.toLower key = key) :
    (∀ name, SameLetters (escapeMetadataKey key) name → readKey L name = key) ↔
      ¬ Spells key.toList ∧ Identifier key.toList := by
  refine ⟨fun h => ⟨(readKey_eq_iff hne hlow).mp (h _ rfl), ?_⟩, fun h name hname =>
    readKey_sameLetters hlow h.2 h.1 hname⟩
  have hlower : ∀ c ∈ key.toList, L.lower c = c :=
    List.map_inj_left.mp ((lower_of_toLower hlow).trans (List.map_id' _).symm)
  rw [← metaName_eq_self_iff (toList_ne_nil hne)]
  have hread := h (String.ofList ((metaName key.toList).map upperX)) ?_
  · rw [← String.toList_inj, readKey_toList, String.toList_ofList, unescapeFrom_upperX,
      List.map_map] at hread
    refine Eq.trans ?_ hread
    refine (List.map_id' _).symm.trans (List.map_congr_left fun c hc => ?_)
    exact (lower_upperX (lower_of_mem_metaName hlower hc)).symm
  · rw [SameLetters, String.toList_ofList, escapeMetadataKey_eq, List.map_map]
    exact List.map_congr_left fun c _ => toLower_upperX c

end Keys

/-! ## Maps -/

/-- The names of the entries of a map. -/
def names (metadata : UserMetadata) : List String := metadata.map fun kv => escapeMetadataKey kv.1

/-- How Azure returns what was written: in any order, each name as `back` allows. -/
def Returned (back : String → String → Prop) (m m' : AzureMetadata) : Prop :=
  ∃ l, m'.Perm l ∧ List.Forall₂ (fun e e' => back e.1 e'.1 ∧ e'.2 = e.2) m l

/-- What becomes of a map: it is refused with `ErrInvalidOption`, or its names are identifiers, what is read
is the map, and every entry is read under its own key. -/
def RoundTrips (L : Lowering) (url : QueryEscaping) (back : String → String → Prop)
    (metadata : UserMetadata) : Prop :=
  match toAzureMetadata url metadata with
  | .error e => e = .invalidOption
  | .ok m => (∀ e ∈ m, Identifier e.1.toList) ∧
      (∀ m', Returned back m m' → (fromAzureMetadata L url m').Perm metadata) ∧
      ∀ kv ∈ metadata, ∀ name, back (escapeMetadataKey kv.1) name → readKey L name = kv.1

section Maps

variable {L : Lowering} {url : QueryEscaping} {metadata : UserMetadata} {back : String → String → Prop}

/-- The loop of `toAzureMetadata`, from the entries that are there on. -/
lemma foldlM_writeEntry (metadata : UserMetadata) (out : AzureMetadata)
    (hout : (out.map Prod.fst).Nodup) :
    (metadata.foldlM (fun out kv =>
        if out.any fun e => e.1 = escapeMetadataKey kv.1 then Except.error Err.invalidOption
        else .ok (out ++ [writeEntry url kv])) out : Except Err AzureMetadata) =
      if (out.map Prod.fst ++ names metadata).Nodup then .ok (out ++ metadata.map (writeEntry url))
      else .error .invalidOption := by
  induction metadata generalizing out with
  | nil =>
      rw [if_pos (by simpa [names] using hout)]
      simp
      rfl
  | cons kv metadata ih =>
      rw [List.foldlM_cons]
      by_cases hmem : escapeMetadataKey kv.1 ∈ out.map Prod.fst
      · have hany : (out.any fun e => e.1 = escapeMetadataKey kv.1) = true := by
          obtain ⟨e, he, heq⟩ := List.mem_map.mp hmem
          exact List.any_eq_true.mpr ⟨e, he, by simpa using heq⟩
        rw [if_pos hany, if_neg]
        · rfl
        · intro hnodup
          exact List.disjoint_of_nodup_append hnodup hmem List.mem_cons_self
      · have hany : ¬ (out.any fun e => e.1 = escapeMetadataKey kv.1) = true := by
          intro h
          obtain ⟨e, he, heq⟩ := List.any_eq_true.mp h
          exact hmem (List.mem_map.mpr ⟨e, he, by simpa using heq⟩)
        rw [if_neg hany]
        refine (ih (out ++ [writeEntry url kv]) ?_).trans ?_
        · rw [List.map_append]
          exact List.nodup_append'.mpr ⟨hout, List.nodup_singleton _, by
            simpa [writeEntry] using hmem⟩
        · simp [names, writeEntry]

/-- A map is refused exactly if two of its names are the same, whatever the order of its entries. -/
lemma toAzureMetadata_eq (url : QueryEscaping) (metadata : UserMetadata) :
    toAzureMetadata url metadata =
      if (names metadata).Nodup then .ok (metadata.map (writeEntry url))
      else .error .invalidOption := by
  exact foldlM_writeEntry metadata [] .nil

/-- The loop of `fromAzureMetadata` on entries that are read under different keys. -/
lemma foldl_assign (m : AzureMetadata) (out : UserMetadata)
    (h : (out.map Prod.fst ++ m.map fun e => readKey L e.1).Nodup) :
    m.foldl (fun out e => assign out (readKey L e.1) (readValue url e.2)) out =
      out ++ m.map fun e => (readKey L e.1, readValue url e.2) := by
  induction m generalizing out with
  | nil => simp
  | cons e m ih =>
      have hmem : readKey L e.1 ∉ out.map Prod.fst := fun hm =>
        List.disjoint_of_nodup_append h hm List.mem_cons_self
      have hany : ¬ (out.any fun kv => kv.1 = readKey L e.1) = true := by
        intro h
        obtain ⟨kv, hkv, heq⟩ := List.any_eq_true.mp h
        exact hmem (List.mem_map.mpr ⟨kv, hkv, by simpa using heq⟩)
      rw [List.foldl_cons, assign, if_neg hany, ih]
      · simp
      · simpa using h

/-- What is read of a map whose entries come back under their own keys. -/
lemma map_read_eq {l : AzureMetadata}
    (hback : ∀ kv ∈ metadata, ∀ name, back (escapeMetadataKey kv.1) name → readKey L name = kv.1)
    (h : List.Forall₂ (fun e e' => back e.1 e'.1 ∧ e'.2 = e.2) (metadata.map (writeEntry url)) l) :
    (l.map fun e => (readKey L e.1, readValue url e.2)) = metadata := by
  rw [List.forall₂_map_left_iff] at h
  induction h with
  | nil => rfl
  | @cons kv e metadata l hhead _ ih =>
      obtain ⟨hkey, hval⟩ := List.forall_mem_cons.mp hback
      have hread : (readKey L e.1, readValue url e.2) = kv := by
        refine Prod.ext (hkey _ hhead.1) ?_
        rw [hhead.2]
        simp [readValue, writeEntry, url.unescape_escape]
      rw [List.map_cons, hread, ih hval]

/-- A map comes back exactly if it is refused or each of its keys does. -/
lemma roundTrips_iff (hne : ∀ kv ∈ metadata, kv.1 ≠ "") :
    RoundTrips L url back metadata ↔ ¬ (names metadata).Nodup ∨
      ∀ kv ∈ metadata, ∀ name, back (escapeMetadataKey kv.1) name → readKey L name = kv.1 := by
  unfold RoundTrips
  rw [toAzureMetadata_eq]
  by_cases hnames : (names metadata).Nodup
  · rw [if_pos hnames, or_iff_right (not_not.mpr hnames)]
    refine ⟨fun h => h.2.2, fun hback => ⟨fun e he => ?_, ?_, hback⟩⟩
    · obtain ⟨kv, hkv, rfl⟩ := List.mem_map.mp he
      change Identifier (escapeMetadataKey kv.1).toList
      rw [escapeMetadataKey_eq]
      exact metaName_identifier (toList_ne_nil (hne kv hkv))
    · rintro m' ⟨l, hperm, hl⟩
      have hread := hperm.map fun e => (readKey L e.1, readValue url e.2)
      rw [map_read_eq hback hl] at hread
      have hkeys : (metadata.map Prod.fst).Nodup := by
        refine List.Nodup.of_map escapeMetadataKey ?_
        rwa [List.map_map]
      have hnodup : (m'.map fun e => readKey L e.1).Nodup := by
        have := (hread.map Prod.fst).nodup_iff.mpr hkeys
        rwa [List.map_map] at this
      rw [fromAzureMetadata, foldl_assign m' [] (by simpa using hnodup)]
      exact hread
  · rw [if_neg hnames]
    exact iff_of_true rfl (.inl hnames)

end Maps

/-- **Which metadata round-trips.**  Whether a map is accepted does not depend on the order of its entries.
If Azure returns the names as they were written, a map is refused or read back exactly if two of its names
are the same or none of its keys spells out a sequence; if it returns them in any letter case, each key also
has to be an identifier. -/
theorem metadata_round_trip_iff (L : Lowering) (url : QueryEscaping) (metadata : UserMetadata)
    (hkeys : ∀ kv ∈ metadata, kv.1 ≠ "" ∧ L.toLower kv.1 = kv.1) :
    (∀ metadata', metadata'.Perm metadata →
      ((toAzureMetadata url metadata').isOk ↔ (toAzureMetadata url metadata).isOk)) ∧
    (RoundTrips L url (fun name name' => name' = name) metadata ↔
      ¬ (names metadata).Nodup ∨ ∀ kv ∈ metadata, ¬ Spells kv.1.toList) ∧
    (RoundTrips L url SameLetters metadata ↔
      ¬ (names metadata).Nodup ∨ ∀ kv ∈ metadata, ¬ Spells kv.1.toList ∧ Identifier kv.1.toList) := by
  have hne : ∀ kv ∈ metadata, kv.1 ≠ "" := fun kv hkv => (hkeys kv hkv).1
  refine ⟨fun metadata' hperm => ?_, ?_, ?_⟩
  · have hnames : (names metadata').Nodup ↔ (names metadata).Nodup := (hperm.map _).nodup_iff
    rw [toAzureMetadata_eq, toAzureMetadata_eq]
    by_cases h : (names metadata).Nodup
    · rw [if_pos h, if_pos (hnames.mpr h)]
      exact iff_of_true rfl rfl
    · rw [if_neg h, if_neg (mt hnames.mp h)]
  · rw [roundTrips_iff hne]
    refine or_congr_right (forall₂_congr fun kv hkv => ?_)
    rw [forall_eq]
    exact readKey_eq_iff (hkeys kv hkv).1 (hkeys kv hkv).2
  · rw [roundTrips_iff hne]
    refine or_congr_right (forall₂_congr fun kv hkv => ?_)
    exact readKey_sameLetters_iff (hkeys kv hkv).1 (hkeys kv hkv).2

/-- Lower-casing of ASCII alone. -/
def asciiLowering : Lowering := ⟨Char.toLower, fun _ _ => rfl⟩

/-- Values that need no escaping. -/
def plainValues : QueryEscaping := ⟨id, some, fun _ => rfl⟩

/-- A key that is escaped is read back as long as Azure keeps its letter case. -/
theorem metadata_round_trip_iff_tag :
    RoundTrips asciiLowering plainValues (fun name name' => name' = name)
        [("owner", "tests"), ("my-tag", "v")] ∧
      ¬ RoundTrips asciiLowering plainValues SameLetters [("owner", "tests"), ("my-tag", "v")] := by
  have hiff := metadata_round_trip_iff asciiLowering plainValues
    [("owner", "tests"), ("my-tag", "v")] (by decide)
  have hnot : ∀ key : String, ¬ opening <:+: key.toList → ¬ Spells key.toList := by
    rintro key h ⟨u, ds, t, heq, -⟩
    exact h ⟨u, ds ++ t, by rw [heq, List.append_assoc]⟩
  refine ⟨hiff.2.1.mpr (.inr fun kv hkv => hnot kv.1 ?_), fun h => ?_⟩
  · revert kv
    decide
  · rcases hiff.2.2.mp h with h | h
    · exact h (by decide)
    · obtain ⟨-, -, -, hall, -⟩ := (h ("my-tag", "v") (by decide)).2
      exact absurd (hall '-' (by decide)) (by decide)

/-- **Renamed keys.**  A key that spells the sequence of an underscore, and one in which the escaping of its
last character closes what the key has opened. -/
theorem key_renamed :
    (toAzureMetadata plainValues [("a__0x5f__b", "1")]).toOption.map
        (fromAzureMetadata asciiLowering plainValues) = some [("a_b", "1")] ∧
      (toAzureMetadata plainValues [("__0x61-", "1")]).toOption.map
        (fromAzureMetadata asciiLowering plainValues) = some [("a0x2d__", "1")] ∧
      ¬ RoundTrips asciiLowering plainValues (fun name name' => name' = name)
        [("a__0x5f__b", "1")] := by
  refine ⟨by decide +kernel, by decide +kernel, ?_⟩
  intro h
  have heq : toAzureMetadata plainValues [("a__0x5f__b", "1")] =
      .ok [("a__0x5f__b", some "1")] := by decide +kernel
  rw [RoundTrips, heq] at h
  exact absurd (h.2.2 ("a__0x5f__b", "1") (by decide) "a__0x5f__b" (by decide)) (by decide +kernel)

end Azure

end Blobster
