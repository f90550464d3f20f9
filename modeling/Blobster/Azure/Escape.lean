import Mathlib.Data.List.Infix
import Mathlib.Data.List.TakeWhile
import Mathlib.Data.Nat.Digits.Defs
import Mathlib.Data.String.Basic

/-!
# Key escaping of the azureblob driver

Azure cannot address every character of a key, so the driver writes some of them as `__0x<hex>__`
(`escapeKey`) and reads the sequences back when it lists (`unescapeKey`).  Which characters are
escaped depends on where they stand: a `/` is, when it ends a full key or follows `..`.  The
characters of a sequence are themselves legal in a key, and nothing escapes them.

* `shouldEscapeKey`, `hexEscape`, `escapeKey`, `unescapeRune`, `hexUnescape`, `unescapeKey` — the
  functions of `azureblob.go`.
* `Escaped`, `escapeFrom` — the same escaping as a recursion over the key, with the characters before
  as its context; `escapeKey_eq` connects the two.
* **`escapeFrom_spell`** — a character that is escaped and its sequence written out in its place have
  the same name.  Everything that goes wrong with the names comes from this.
* **`unescape_escapeKey`** — a key without `__0x` is read back, and **`escapeKey_addressable`** — its
  name holds nothing that Azure cannot address.
* **`escapeKey_own_name_iff`** — exactly the keys that need no escaping and spell out no escape
  sequence have a name that no other key has.
-/

namespace Blobster

namespace Azure

/-! ## The source -/

/-- `__0x`, which opens an escape sequence. -/
def opening : List Char := ['_', '_', '0', 'x']

/-- `__`, which closes it. -/
def closing : List Char := ['_', '_']

/-- `fmt.Fprintf(&b, "__0x%x__", c)`. -/
def escapeSeq (c : Char) : List Char := opening ++ (Nat.toDigits 16 c.toNat ++ closing)

/-- The characters that are escaped wherever they stand: the backslash, control characters,
`" # % ?` and DEL. -/
def special (c : Char) : Bool :=
  c == '\\' || (c.toNat < 32 || c == '"' || c == '#' || c == '%' || c == '?' || c.toNat == 127)

/-- The argument of `hexEscape` in `escapeKey`. -/
def shouldEscapeKey (isPrefix : Bool) (r : List Char) (i : ℕ) : Bool :=
  match r[i]? with
  | none => false
  | some c =>
      special c ||
        (!isPrefix && i == r.length - 1 && c == '/') ||
        (decide (1 < i) && c == '/' && r[i - 1]? == some '.' && r[i - 2]? == some '.')

/-- `hexEscape`. -/
def hexEscape (s : String) (shouldEscape : List Char → ℕ → Bool) : String :=
  let rs := s.toList
  if (List.range rs.length).any (shouldEscape rs) then
    String.ofList (rs.zipIdx.flatMap fun (c, i) => if shouldEscape rs i then escapeSeq c else [c])
  else s

/-- `escapeKey`. -/
def escapeKey (key : String) (isPrefix : Bool) : String := hexEscape key (shouldEscapeKey isPrefix)

/-- A hexadecimal digit, as `strconv` reads it. -/
def hexValue (c : Char) : Option ℕ :=
  if '0' ≤ c ∧ c ≤ '9' then some (c.toNat - '0'.toNat)
  else if 'a' ≤ c ∧ c ≤ 'f' then some (c.toNat - 'a'.toNat + 10)
  else if 'A' ≤ c ∧ c ≤ 'F' then some (c.toNat - 'A'.toNat + 10)
  else none

/-- `strconv.ParseUint(s, 16, 64)`, without its bound. -/
def parseUint : List Char → Option ℕ
  | [] => none
  | ds => ds.foldlM (fun n c => (hexValue c).map fun d => 16 * n + d) 0

/-- `strconv.ParseInt(s, 16, 32)`. -/
def parseInt (ds : List Char) : Option ℤ :=
  match ds with
  | '+' :: ds => (parseUint ds).bind fun n => if n < 2 ^ 31 then some n else none
  | '-' :: ds => (parseUint ds).bind fun n => if n ≤ 2 ^ 31 then some (-n) else none
  | ds => (parseUint ds).bind fun n => if n < 2 ^ 31 then some n else none

/-- `WriteRune`: what is not a code point is written as U+FFFD. -/
def writeRune (v : ℤ) : Char :=
  if 0 ≤ v ∧ v.toNat.isValidChar then Char.ofNat v.toNat else Char.ofNat 0xFFFD

/-- `unescapeRune`, on the characters from the position on: the decoded character and how many were
consumed. -/
def unescapeRune (rs : List Char) : Option (Char × ℕ) :=
  if rs.length ≤ 4 ∨ rs.take 4 ≠ opening then none
  else
    let digits := (rs.drop 4).takeWhile (· ≠ '_')
    if digits = [] ∨ (rs.drop (4 + digits.length)).take 2 ≠ closing then none
    else (parseInt digits).map fun v => (writeRune v, 4 + digits.length + 2)

/-- The loop of `hexUnescape`, with `skip` characters left to pass over. -/
def unescapeFrom : ℕ → List Char → List Char
  | _, [] => []
  | skip + 1, _ :: rs => unescapeFrom skip rs
  | 0, c :: rs =>
      match unescapeRune (c :: rs) with
      | some (d, n) => d :: unescapeFrom (n - 1) rs
      | none => c :: unescapeFrom 0 rs

/-- `hexUnescape`. -/
def hexUnescape (s : String) : String :=
  if opening <:+: s.toList then String.ofList (unescapeFrom 0 s.toList) else s

/-- `unescapeKey`. -/
def unescapeKey (key : String) : String := hexUnescape key

/-! ## Escaping as a recursion over the key -/

/-- Whether the character is escaped behind the characters `before`, the nearest first. -/
def Escaped (isPrefix : Bool) (before : List Char) (c : Char) (last : Bool) : Prop :=
  special c = true ∨ (isPrefix = false ∧ last = true ∧ c = '/') ∨
    (c = '/' ∧ ['.', '.'] <+: before)

instance (isPrefix : Bool) (before : List Char) (c : Char) (last : Bool) :
    Decidable (Escaped isPrefix before c last) := by
  unfold Escaped; infer_instance

/-- The name of the rest of a key. -/
def escapeFrom (isPrefix : Bool) (before : List Char) : List Char → List Char
  | [] => []
  | c :: rest =>
      (if Escaped isPrefix before c rest.isEmpty then escapeSeq c else [c]) ++
        escapeFrom isPrefix (c :: before) rest

section Escaped

variable {p : Bool} {c : Char}

/-- The character b the last one, and the one b it. -/
lemma dots_iff (pre rest : List Char) :
    (1 < pre.length ∧ (pre ++ rest)[pre.length - 1]? = some '.' ∧
      (pre ++ rest)[pre.length - 2]? = some '.') ↔ ['.', '.'] <+: pre.reverse := by
  rcases List.eq_nil_or_concat' pre with rfl | ⟨pre, a, rfl⟩
  · simp
  rcases List.eq_nil_or_concat' pre with rfl | ⟨pre, b, rfl⟩
  · simp
  · have ha : (pre ++ [b] ++ [a] ++ rest)[(pre ++ [b] ++ [a]).length - 1]? = some a := by simp
    have hb : (pre ++ [b] ++ [a] ++ rest)[(pre ++ [b] ++ [a]).length - 2]? = some b := by simp
    have hlen : 1 < (pre ++ [b] ++ [a]).length := by simp
    simp only [ha, hb, hlen, true_and, List.reverse_append, List.reverse_singleton,
      List.singleton_append, List.cons_prefix_cons, List.nil_prefix, Option.some.injEq, and_true]
    exact and_congr eq_comm eq_comm

lemma shouldEscapeKey_append (pre rest : List Char) :
    shouldEscapeKey p (pre ++ c :: rest) pre.length = true ↔
      Escaped p pre.reverse c rest.isEmpty := by
  have hlast : (pre.length == (pre ++ c :: rest).length - 1) = rest.isEmpty := by
    cases rest <;> simp
  have hget : (pre ++ c :: rest)[pre.length]? = some c := by simp
  simp only [shouldEscapeKey, hget, hlast, Escaped, ← dots_iff pre (c :: rest), Bool.or_eq_true,
    Bool.and_eq_true, Bool.not_eq_true', beq_iff_eq, decide_eq_true_eq]
  tauto

/-- The loop of `hexEscape`, from any position on. -/
lemma zipIdx_eq_escapeFrom (pre rest : List Char) :
    ((rest.zipIdx pre.length).flatMap fun (c, i) =>
        if shouldEscapeKey p (pre ++ rest) i then escapeSeq c else [c]) =
      escapeFrom p pre.reverse rest := by
  induction rest generalizing pre with
  | nil => rfl
  | cons c rest ih =>
      have ih := ih (pre ++ [c])
      simp only [List.length_append, List.length_singleton, List.append_assoc,
        List.singleton_append, List.reverse_append, List.reverse_singleton] at ih
      simp only [List.zipIdx_cons, List.flatMap_cons, ih, escapeFrom, shouldEscapeKey_append]

/-- A key in which nothing is escaped is its own name. -/
lemma escapeFrom_eq_self (pre rest : List Char)
    (h : ∀ u c v, rest = u ++ c :: v → ¬ Escaped p (u.reverse ++ pre) c v.isEmpty) :
    escapeFrom p pre rest = rest := by
  induction rest generalizing pre with
  | nil => rfl
  | cons c rest ih =>
      have hc : ¬ Escaped p pre c rest.isEmpty := h [] c rest rfl
      rw [escapeFrom, if_neg hc, ih (c :: pre), List.singleton_append]
      rintro u d v rfl
      simpa using h (c :: u) d v rfl

/-- **The driver's loop is the recursion.** -/
theorem escapeKey_eq (key : String) :
    (escapeKey key p).toList = escapeFrom p [] key.toList := by
  simp only [escapeKey, hexEscape]
  split_ifs with hany
  · rw [String.toList_ofList]
    simpa using zipIdx_eq_escapeFrom [] key.toList
  · refine (escapeFrom_eq_self [] key.toList fun u c v huv hesc => hany ?_).symm
    rw [List.append_nil, ← shouldEscapeKey_append, ← huv] at hesc
    refine List.any_eq_true.mpr ⟨u.length, List.mem_range.mpr ?_, hesc⟩
    simp [huv]

end Escaped

/-! ## Escape sequences -/

section Sequences

variable {p l l' : Bool} {b b' u v w : List Char} {c d : Char}

lemma exists_digit_of_mem_toDigits {n : ℕ} (h : c ∈ Nat.toDigits 16 n) :
    ∃ k < 16, c = Nat.digitChar k := by
  induction n using Nat.strong_induction_on with
  | _ n ih =>
      rcases Nat.lt_or_ge n 16 with hn | hn
      · rw [Nat.toDigits_of_lt_base hn, List.mem_singleton] at h
        exact ⟨n, hn, h⟩
      · rw [Nat.toDigits_of_base_le (by omega) hn, List.mem_append, List.mem_singleton] at h
        rcases h with h | h
        · exact ih (n / 16) (by omega) h
        · exact ⟨n % 16, by omega, h⟩

/-- What a hexadecimal digit is not. -/
lemma digit_inert : ∀ k < 16, special (Nat.digitChar k) = false ∧ Nat.digitChar k ≠ '/' ∧
    Nat.digitChar k ≠ '.' ∧ Nat.digitChar k ≠ '_' ∧ hexValue (Nat.digitChar k) = some k := by
  decide

lemma toDigits_ne_nil (n : ℕ) : Nat.toDigits 16 n ≠ [] := by
  rcases Nat.lt_or_ge n 16 with hn | hn
  · simp [Nat.toDigits_of_lt_base hn]
  · simp [Nat.toDigits_of_base_le (by omega) hn]

/-- A character of an escape sequence is never escaped, and is no dot. -/
lemma escapeSeq_inert (h : d ∈ escapeSeq c) : special d = false ∧ d ≠ '/' ∧ d ≠ '.' := by
  simp only [escapeSeq, opening, closing, List.mem_append, List.mem_cons, List.not_mem_nil,
    or_false] at h
  rcases h with (rfl | rfl | rfl | rfl) | h | (rfl | rfl)
  · decide
  · decide
  · decide
  · decide
  · obtain ⟨k, hk, rfl⟩ := exists_digit_of_mem_toDigits h
    exact ⟨(digit_inert k hk).1, (digit_inert k hk).2.1, (digit_inert k hk).2.2.1⟩
  · decide
  · decide

lemma escapeSeq_eq_cons (c : Char) : ∃ l, escapeSeq c = '_' :: l ++ ['_'] :=
  ⟨['_', '0', 'x'] ++ Nat.toDigits 16 c.toNat ++ ['_'], by simp [escapeSeq, opening, closing]⟩

lemma escapeSeq_ne_nil (c : Char) : escapeSeq c ≠ [] := by simp [escapeSeq, opening]

lemma Escaped.ne (h : Escaped p b c l) (hs : special d = false) (hd : d ≠ '/') :
    c ≠ d := by
  rintro rfl
  rcases h with h | ⟨-, -, h⟩ | ⟨h, -⟩
  · exact absurd h (by simp [hs])
  · exact hd h
  · exact hd h

lemma Escaped.ne_underscore (h : Escaped p b c l) : c ≠ '_' :=
  h.ne (by decide) (by decide)

lemma Escaped.ne_dot (h : Escaped p b c l) : c ≠ '.' := h.ne (by decide) (by decide)

/-- What is escaped in a prefix is escaped in a key, wherever it stands. -/
lemma Escaped.anywhere (h : Escaped true b c l) : Escaped p b c l' := by
  rcases h with h | ⟨h, -, -⟩ | h
  · exact .inl h
  · cases h
  · exact .inr (.inr h)

/-- What is escaped in front of something is escaped in a prefix. -/
lemma Escaped.of_not_last (h : Escaped p b c false) : Escaped true b c l := by
  rcases h with h | ⟨-, h, -⟩ | h
  · exact .inl h
  · cases h
  · exact .inr (.inr h)

/-- What is escaped anywhere is escaped at the end of a key. -/
lemma Escaped.at_end (h : Escaped p b c l) : Escaped false b c true := by
  rcases h with h | ⟨-, -, h⟩ | h
  · exact .inl h
  · exact .inr (.inl ⟨rfl, rfl, h⟩)
  · exact .inr (.inr h)

/-! ## Names of parts of a key -/

/-- The context matters only through the dots it ends in. -/
def SameDots (b b' : List Char) : Prop :=
  (['.'] <+: b ↔ ['.'] <+: b') ∧ (['.', '.'] <+: b ↔ ['.', '.'] <+: b')

lemma escapeFrom_congr (h : SameDots b b') :
    escapeFrom p b v = escapeFrom p b' v := by
  induction v generalizing b b' with
  | nil => rfl
  | cons c v ih =>
      have hc : Escaped p b c v.isEmpty ↔ Escaped p b' c v.isEmpty := by
        simp only [Escaped, h.2]
      have hcons : SameDots (c :: b) (c :: b') := by
        simp only [SameDots, List.cons_prefix_cons, List.nil_prefix, and_true, h.1]
      simp only [escapeFrom, hc, ih hcons]

lemma sameDots_of_ne (hc : c ≠ '.') (hd : d ≠ '.') : SameDots (c :: b) (d :: b') := by
  simp [SameDots, List.cons_prefix_cons, hc.symm, hd.symm]

/-- In front of something, a part of a key is named as a prefix is. -/
lemma escapeFrom_append (hw : w ≠ []) :
    escapeFrom p b (u ++ w) =
      escapeFrom true b u ++ escapeFrom p (u.reverse ++ b) w := by
  induction u generalizing b with
  | nil => rfl
  | cons c u ih =>
      have hlast : (u ++ w).isEmpty = false := by simp [hw]
      have hc : Escaped p b c false ↔ Escaped true b c u.isEmpty :=
        ⟨Escaped.of_not_last, Escaped.anywhere⟩
      rw [List.cons_append, escapeFrom, escapeFrom, hlast, ih]
      simp only [hc, List.append_assoc, List.reverse_cons, List.singleton_append]

/-- Characters that are never escaped stand for themselves. -/
lemma escapeFrom_inert (hu : ∀ c ∈ u, special c = false ∧ c ≠ '/') :
    escapeFrom p b (u ++ v) = u ++ escapeFrom p (u.reverse ++ b) v := by
  induction u generalizing b with
  | nil => rfl
  | cons c u ih =>
      have hc : ¬ Escaped p b c (u ++ v).isEmpty := fun h =>
        h.ne (hu c List.mem_cons_self).1 (hu c List.mem_cons_self).2 rfl
      rw [List.cons_append, escapeFrom, if_neg hc, ih fun d hd => hu d (List.mem_cons_of_mem _ hd)]
      simp

lemma escapeFrom_escapeSeq :
    escapeFrom p b (escapeSeq c ++ v) =
      escapeSeq c ++ escapeFrom p ((escapeSeq c).reverse ++ b) v :=
  escapeFrom_inert fun _ hd => ⟨(escapeSeq_inert hd).1, (escapeSeq_inert hd).2.1⟩

/-- **An escaped character and its sequence, written out in its place, have the same name.** -/
theorem escapeFrom_spell (h : Escaped p (u.reverse ++ b) c v.isEmpty) :
    escapeFrom p b (u ++ c :: v) = escapeFrom p b (u ++ (escapeSeq c ++ v)) := by
  rw [escapeFrom_append (List.cons_ne_nil c v),
    escapeFrom_append (w := escapeSeq c ++ v) (by simp [escapeSeq_ne_nil]), escapeFrom, if_pos h,
    escapeFrom_escapeSeq]
  obtain ⟨l, hl⟩ := escapeSeq_eq_cons c
  have hdots : SameDots (c :: (u.reverse ++ b))
      ((escapeSeq c).reverse ++ (u.reverse ++ b)) := by
    rw [hl]
    simpa using sameDots_of_ne (d := '_') h.ne_dot (by decide)
  rw [escapeFrom_congr hdots]

end Sequences

/-! ## Reading names back -/

section Unescape

variable {p : Bool} {b rest v : List Char} {c d : Char}

lemma parseUint_toDigits (n : ℕ) : parseUint (Nat.toDigits 16 n) = some n := by
  have hfold : ∀ n, (Nat.toDigits 16 n).foldlM (fun n c => (hexValue c).map fun d => 16 * n + d) 0 =
      some n := by
    intro n
    induction n using Nat.strong_induction_on with
    | _ n ih =>
        rcases Nat.lt_or_ge n 16 with hn | hn
        · simp [Nat.toDigits_of_lt_base hn, (digit_inert n hn).2.2.2.2]
        · have hval := (digit_inert (n % 16) (by omega)).2.2.2.2
          rw [Nat.toDigits_of_base_le (by omega) hn, List.foldlM_append, ih (n / 16) (by omega)]
          simp [hval]
          omega
  cases hd : Nat.toDigits 16 n with
  | nil => exact absurd hd (toDigits_ne_nil n)
  | cons c ds =>
      rw [parseUint, ← hd]
      · exact hfold n
      · simp

lemma parseInt_toDigits (c : Char) : parseInt (Nat.toDigits 16 c.toNat) = some (c.toNat : ℤ) := by
  have hlt : c.toNat < 2 ^ 31 := by
    have hvalid : c.toNat.isValidChar := c.valid
    rcases hvalid with h | ⟨-, h⟩ <;> omega
  have hdigit : ∀ k < 16, Nat.digitChar k ≠ '+' ∧ Nat.digitChar k ≠ '-' := by decide
  have hsign : ∀ d ds, Nat.toDigits 16 c.toNat = d :: ds → d ≠ '+' ∧ d ≠ '-' := by
    intro d ds h
    obtain ⟨k, hk, rfl⟩ := exists_digit_of_mem_toDigits (h ▸ List.mem_cons_self)
    exact hdigit k hk
  unfold parseInt
  split
  · exact absurd rfl (hsign _ _ (by assumption)).1
  · exact absurd rfl (hsign _ _ (by assumption)).2
  · rw [parseUint_toDigits, Option.bind_some, if_pos hlt]

lemma writeRune_toNat (c : Char) : writeRune c.toNat = c := by
  have hvalid : c.toNat.isValidChar := c.valid
  rw [writeRune, if_pos ⟨Int.natCast_nonneg _, by simpa using hvalid⟩, Int.toNat_natCast,
    Char.ofNat_toNat]

/-- What `unescapeRune` decodes: an opening, digits that read as a number, and a closing. -/
lemma unescapeRune_sequence {ds : List Char} (hne : ds ≠ []) (hds : '_' ∉ ds) (v : List Char) :
    unescapeRune (opening ++ (ds ++ (closing ++ v))) =
      (parseInt ds).map fun n => (writeRune n, 4 + ds.length + 2) := by
  have hdigits : (ds ++ (closing ++ v)).takeWhile (· ≠ '_') = ds := by
    rw [List.takeWhile_append_of_pos]
    · simp [closing]
    · intro d hd
      exact decide_eq_true fun h => hds (h ▸ hd)
  have hdrop : (opening ++ (ds ++ (closing ++ v))).drop 4 = ds ++ (closing ++ v) :=
    List.drop_left' rfl
  have htake : (opening ++ (ds ++ (closing ++ v))).take 4 = opening := List.take_left' rfl
  have hlen : ¬ (opening ++ (ds ++ (closing ++ v))).length ≤ 4 := by
    have := List.length_pos_of_ne_nil hne
    simp only [opening, List.length_append, List.length_cons, List.length_nil]
    omega
  have hclose : ((opening ++ (ds ++ (closing ++ v))).drop (4 + ds.length)).take 2 = closing := by
    rw [← List.drop_drop, hdrop, List.drop_left' rfl]
    exact List.take_left' rfl
  simp only [unescapeRune, htake, hdrop, hdigits, hclose, hlen, hne, ne_eq, not_true, or_self,
    if_false]

/-- It decodes nothing else. -/
lemma unescapeRune_eq_some {rs : List Char} {n : ℕ} (h : unescapeRune rs = some (d, n)) :
    ∃ ds v, rs = opening ++ (ds ++ (closing ++ v)) ∧ ds ≠ [] ∧ '_' ∉ ds ∧ (parseInt ds).isSome ∧
      n = (opening ++ (ds ++ closing)).length := by
  simp only [unescapeRune] at h
  split_ifs at h with hopen hclose
  rw [not_or, not_le, not_not] at hopen
  rw [not_or, not_not] at hclose
  obtain ⟨v, hv, hres⟩ := Option.map_eq_some_iff.mp h
  have hmem : '_' ∉ (rs.drop 4).takeWhile (· ≠ '_') := fun hm => by
    simpa using List.mem_takeWhile_imp hm
  have hrs : rs = opening ++ rs.drop 4 := by rw [← hopen.2, List.take_append_drop]
  have hdigits := List.prefix_append_drop (List.takeWhile_prefix (· ≠ '_') (l := rs.drop 4))
  generalize (rs.drop 4).takeWhile (· ≠ '_') = ds at *
  have hclosing : rs.drop (4 + ds.length) = closing ++ rs.drop (4 + ds.length + 2) := by
    rw [← hclose.2, ← List.drop_drop (i := 2), List.take_append_drop]
  refine ⟨ds, rs.drop (4 + ds.length + 2), ?_, hclose.1, hmem, by rw [hv]; rfl, ?_⟩
  · rw [← hclosing, ← List.drop_drop, ← hdigits]
    exact hrs
  · cases hres
    simp [opening, closing]
    omega

/-- A sequence is decoded to its character, whatever follows. -/
lemma unescapeRune_escapeSeq : unescapeRune (escapeSeq c ++ v) = some (c, (escapeSeq c).length) := by
  have hdigits : '_' ∉ Nat.toDigits 16 c.toNat := by
    intro h
    obtain ⟨k, hk, heq⟩ := exists_digit_of_mem_toDigits h
    exact (digit_inert k hk).2.2.2.1 heq.symm
  have hseq := unescapeRune_sequence (toDigits_ne_nil c.toNat) hdigits v
  rw [parseInt_toDigits, Option.map_some, writeRune_toNat] at hseq
  rw [escapeSeq, List.append_assoc, List.append_assoc, hseq]
  simp [opening, closing]
  omega

lemma unescapeFrom_skip (l : List Char) : unescapeFrom l.length (l ++ v) = unescapeFrom 0 v := by
  induction l with
  | nil => rfl
  | cons c l ih => simpa [unescapeFrom] using ih

lemma unescapeFrom_escapeSeq :
    unescapeFrom 0 (escapeSeq c ++ v) = c :: unescapeFrom 0 v := by
  have hrune := unescapeRune_escapeSeq (c := c) (v := v)
  cases hseq : escapeSeq c with
  | nil => exact absurd hseq (escapeSeq_ne_nil c)
  | cons d l =>
      rw [hseq, List.cons_append] at hrune
      simp only [List.cons_append, unescapeFrom, hrune, List.length_cons, Nat.add_sub_cancel,
        unescapeFrom_skip]

lemma unescapeFrom_literal (h : ¬ opening <+: c :: v) :
    unescapeFrom 0 (c :: v) = c :: unescapeFrom 0 v := by
  have hnone : unescapeRune (c :: v) = none := by
    refine if_pos (.inr fun htake => h ?_)
    rw [← htake]
    exact List.take_prefix _ _
  simp only [unescapeFrom, hnone]

lemma unescapeFrom_of_not_infix (h : ¬ opening <:+: v) : unescapeFrom 0 v = v := by
  induction v with
  | nil => rfl
  | cons c v ih =>
      rw [List.infix_cons_iff, not_or] at h
      rw [unescapeFrom_literal h.1, ih h.2]

/-- What a name begins with, unless it is an underscore, is a character of the key. -/
lemma escapeFrom_head {l : List Char} (hd : d ≠ '_') (h : d :: l <+: escapeFrom p b rest) :
    ∃ rest', rest = d :: rest' ∧ l <+: escapeFrom p (d :: b) rest' := by
  cases rest with
  | nil => simp [escapeFrom] at h
  | cons c rest =>
      obtain ⟨m, hm⟩ := escapeSeq_eq_cons c
      rw [escapeFrom] at h
      split_ifs at h with hesc
      · rw [hm, List.cons_append, List.cons_append, List.cons_prefix_cons] at h
        exact absurd h.1 hd
      · rw [List.singleton_append, List.cons_prefix_cons] at h
        exact ⟨rest, by rw [h.1], by rw [h.1]; exact h.2⟩

/-- No sequence opens across the border between a literal character and what follows. -/
lemma opening_of_literal (h : opening <+: c :: escapeFrom p b rest) :
    opening <+: c :: rest := by
  rw [opening, List.cons_prefix_cons] at h
  obtain ⟨rfl, h⟩ := h
  cases rest with
  | nil => simp [escapeFrom] at h
  | cons d rest =>
      rw [escapeFrom] at h
      split_ifs at h with hesc
      · -- the next character is escaped: `___` opens nothing
        simp [escapeSeq, opening] at h
      · rw [List.singleton_append, List.cons_prefix_cons] at h
        obtain ⟨rfl, h⟩ := h
        obtain ⟨rest₁, rfl, h₁⟩ := escapeFrom_head (by decide) h
        obtain ⟨rest₂, rfl, -⟩ := escapeFrom_head (by decide) h₁
        exact ⟨rest₂, rfl⟩

lemma unescape_escapeFrom (h : ¬ opening <:+: rest) :
    unescapeFrom 0 (escapeFrom p b rest) = rest := by
  induction rest generalizing b with
  | nil => rfl
  | cons c rest ih =>
      rw [List.infix_cons_iff, not_or] at h
      rw [escapeFrom]
      split_ifs with hesc
      · rw [unescapeFrom_escapeSeq, ih h.2]
      · rw [List.singleton_append, unescapeFrom_literal fun ho => h.1 (opening_of_literal ho),
          ih h.2]

/-- **A key without `__0x` is read back from its name.** -/
theorem unescape_escapeKey {key : String} (h : ¬ opening <:+: key.toList) :
    unescapeKey (escapeKey key p) = key := by
  rw [← String.toList_inj, unescapeKey, hexUnescape]
  split_ifs with hname
  · rw [String.toList_ofList, escapeKey_eq, unescape_escapeFrom h]
  · rw [← unescapeFrom_of_not_infix hname, escapeKey_eq, unescape_escapeFrom h]

end Unescape

/-! ## What a name holds -/

section Addressable

variable {p : Bool} {b rest : List Char} {c d : Char}

lemma special_of_mem_escapeFrom (h : d ∈ escapeFrom p b rest) : special d = false := by
  induction rest generalizing b with
  | nil => simp [escapeFrom] at h
  | cons c rest ih =>
      rw [escapeFrom, List.mem_append] at h
      rcases h with h | h
      · split_ifs at h with hesc
        · exact (escapeSeq_inert h).1
        · rw [List.mem_singleton] at h
          subst h
          exact Bool.eq_false_iff.mpr fun hs => hesc (.inl hs)
      · exact ih h

/-- No slash follows two dots, whether the dots are in the name or in front of it. -/
lemma no_dots_slash : ¬ ['.', '.', '/'] <:+: escapeFrom p b rest ∧
    (['.'] <+: b → ¬ ['.', '/'] <+: escapeFrom p b rest) ∧
    (['.', '.'] <+: b → ¬ ['/'] <+: escapeFrom p b rest) := by
  induction rest generalizing b with
  | nil => simp [escapeFrom]
  | cons c rest ih =>
      obtain ⟨ih₃, ih₂, ih₁⟩ := ih (b := c :: b)
      refine ⟨fun h => ?_, fun hb h => ?_, fun hb h => ?_⟩
      · have hskip : ∀ l : List Char, '.' ∉ l → ['.', '.', '/'] <:+:
            l ++ escapeFrom p (c :: b) rest → False := by
          intro l hl h
          induction l with
          | nil => exact ih₃ h
          | cons a l ihl =>
              rw [List.mem_cons, not_or] at hl
              rw [List.cons_append, List.infix_cons_iff, List.cons_prefix_cons] at h
              exact h.elim (fun h => hl.1 h.1) (ihl hl.2)
        rw [escapeFrom] at h
        split_ifs at h with hesc
        · exact hskip _ (fun hd => (escapeSeq_inert hd).2.2 rfl) h
        · rw [List.singleton_append, List.infix_cons_iff, List.cons_prefix_cons] at h
          rcases h with ⟨rfl, h⟩ | h
          · exact ih₂ (by simp) h
          · exact ih₃ h
      · obtain ⟨rest', heq, h⟩ := escapeFrom_head (by decide) h
        obtain ⟨rfl, rfl⟩ := List.cons.inj heq
        exact ih₁ (List.cons_prefix_cons.mpr ⟨rfl, hb⟩) h
      · rw [escapeFrom] at h
        split_ifs at h with hesc
        · simp [escapeSeq, opening] at h
        · rw [List.singleton_append, List.cons_prefix_cons] at h
          exact hesc (.inr (.inr ⟨h.1.symm, hb⟩))

lemma escapeFrom_eq_nil : escapeFrom p b rest = [] ↔ rest = [] := by
  cases rest with
  | nil => simp [escapeFrom]
  | cons c rest =>
      rw [escapeFrom]
      split_ifs <;> simp [escapeSeq_ne_nil]

lemma escapeFrom_getLast : (escapeFrom false b rest).getLast? ≠ some '/' := by
  induction rest generalizing b with
  | nil => simp [escapeFrom]
  | cons c rest ih =>
      rw [escapeFrom]
      cases rest with
      | nil =>
          obtain ⟨l, hl⟩ := escapeSeq_eq_cons c
          split_ifs with hesc
          · simp [escapeFrom, hl, List.getLast?_cons]
          · simp only [escapeFrom, List.append_nil, List.getLast?_singleton, ne_eq,
              Option.some.injEq]
            exact fun hc => hesc (.inr (.inl ⟨rfl, rfl, hc⟩))
      | cons d rest =>
          have hne : escapeFrom false (c :: b) (d :: rest) ≠ [] := by
            simp [escapeFrom_eq_nil]
          rw [List.getLast?_append_of_ne_nil _ hne]
          exact ih

end Addressable

/-- **Escaping round-trips and gives addressable names.**  A key without `__0x` is read back from its
name; a name has no control character, none of the characters Azure cannot address and no `../`, and
the name of a full key does not end in a slash. -/
theorem escapeKey_round_trip (key : String) (isPrefix : Bool) (h : ¬ opening <:+: key.toList) :
    unescapeKey (escapeKey key isPrefix) = key ∧
      (∀ c ∈ (escapeKey key isPrefix).toList,
        32 ≤ c.toNat ∧ c.toNat ≠ 127 ∧ c ∉ ['"', '#', '%', '?', '\\']) ∧
      ¬ "../".toList <:+: (escapeKey key isPrefix).toList ∧
      (isPrefix = false → (escapeKey key isPrefix).toList.getLast? ≠ some '/') := by
  refine ⟨unescape_escapeKey h, fun c hc => ?_, ?_, ?_⟩
  · rw [escapeKey_eq] at hc
    have hs := special_of_mem_escapeFrom hc
    simp only [special, Bool.or_eq_false_iff, beq_eq_false_iff_ne, decide_eq_false_iff_not,
      not_lt] at hs
    simp only [List.mem_cons, List.not_mem_nil, or_false, not_or]
    tauto
  · rw [escapeKey_eq]
    exact no_dots_slash.1
  · rintro rfl
    rw [escapeKey_eq]
    exact escapeFrom_getLast

/-- Escaped characters next to each other, to underscores and to text that looks like the inside of
a sequence. -/
theorem escapeKey_round_trip_adjacent :
    unescapeKey (escapeKey "_\\\\0x41__a../_#_" false) = "_\\\\0x41__a../_#_" ∧
      ¬ "../".toList <:+: (escapeKey "_\\\\0x41__a../_#_" false).toList :=
  have h := escapeKey_round_trip "_\\\\0x41__a../_#_" false (by decide)
  ⟨h.1, h.2.2.1⟩

/-! ## Names that two keys share -/

/-- Keys without `__0x` have different names. -/
lemma escapeKey_inj {p : Bool} {k k' : String} (hk : ¬ opening <:+: k.toList)
    (hk' : ¬ opening <:+: k'.toList) (h : escapeKey k p = escapeKey k' p) : k = k' := by
  rw [← unescape_escapeKey (p := p) hk, h, unescape_escapeKey hk']

/-- Nothing in the key is escaped, and it does not spell out the sequence of a character that would
be escaped in that place. -/
def Unambiguous (key : String) : Prop :=
  ∀ u c v, key.toList = u ++ c :: v ∨ key.toList = u ++ (escapeSeq c ++ v) →
    ¬ Escaped false u.reverse c v.isEmpty

/-- The first character of a key that is escaped, if there is one. -/
lemma exists_first_escaped (p : Bool) (b rest : List Char) :
    escapeFrom p b rest = rest ∨
      ∃ u c v, rest = u ++ c :: v ∧ Escaped p (u.reverse ++ b) c v.isEmpty ∧
        escapeFrom p b rest =
          u ++ (escapeSeq c ++ escapeFrom p (c :: (u.reverse ++ b)) v) := by
  induction rest generalizing b with
  | nil => exact .inl rfl
  | cons c rest ih =>
      by_cases hesc : Escaped p b c rest.isEmpty
      · exact .inr ⟨[], c, rest, rfl, hesc, by rw [escapeFrom, if_pos hesc]; rfl⟩
      · rw [escapeFrom, if_neg hesc]
        rcases ih (c :: b) with h | ⟨u, d, v, rfl, hd, h⟩
        · exact .inl (by rw [h]; rfl)
        · exact .inr ⟨c :: u, d, v, rfl, by simpa using hd, by rw [h]; simp⟩

/-- **Which keys have a name of their own**: those that need no escaping and spell out no escape
sequence.  Any other key shares its name with the key that has the sequence written out, or the
character in its place. -/
theorem escapeKey_own_name_iff (key : String) :
    (∀ key', key' ≠ key → escapeKey key' false ≠ escapeKey key false) ↔ Unambiguous key := by
  constructor
  · rintro hown u c v huv hesc
    have hne : u ++ c :: v ≠ u ++ (escapeSeq c ++ v) := by
      obtain ⟨l, hl⟩ := escapeSeq_eq_cons c
      rw [Ne, List.append_right_inj, hl]
      exact fun h => hesc.ne_underscore (List.cons.inj h).1
    have hspell := escapeFrom_spell (p := false) (b := []) (u := u) (c := c) (v := v)
      (by simpa using hesc)
    rcases huv with huv | huv
    · refine hown (String.ofList (u ++ (escapeSeq c ++ v))) ?_ ?_
      · rw [Ne, ← String.toList_inj, String.toList_ofList, huv]
        exact hne.symm
      · rw [← String.toList_inj, escapeKey_eq, escapeKey_eq, String.toList_ofList, huv, hspell]
    · refine hown (String.ofList (u ++ c :: v)) ?_ ?_
      · rw [Ne, ← String.toList_inj, String.toList_ofList, huv]
        exact hne
      · rw [← String.toList_inj, escapeKey_eq, escapeKey_eq, String.toList_ofList, huv, hspell]
  · intro hplain key' hne heq
    have hself : (escapeKey key false).toList = key.toList := by
      rw [escapeKey_eq]
      exact escapeFrom_eq_self [] _ fun u c v huv => by simpa using hplain u c v (.inl huv)
    rw [← heq, escapeKey_eq] at hself
    rcases exists_first_escaped false [] key'.toList with h | ⟨u, c, v, -, hesc, h⟩
    · exact hne (String.toList_inj.mp (h.symm.trans hself))
    · rw [h] at hself
      have hv : (escapeFrom false (c :: (u.reverse ++ [])) v).isEmpty = v.isEmpty := by
        rw [Bool.eq_iff_iff, List.isEmpty_iff, List.isEmpty_iff, escapeFrom_eq_nil]
      exact hplain u c _ (.inr hself.symm) (by rw [hv]; simpa using hesc)

/-- A trailing slash, and its sequence written out. -/
theorem escapeKey_collides : "dir/" ≠ "dir__0x2f__" ∧
    escapeKey "dir/" false = escapeKey "dir__0x2f__" false := by
  decide

end Azure

end Blobster
