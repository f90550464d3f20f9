import Mathlib.Data.List.Infix
import Mathlib.Data.List.Lex
import Mathlib.Order.Lattice

/-!
# Words cut at a delimiter

Words over an ordered alphabet, in lexical order, each of which is cut behind the first occurrence of
a delimiter in it.

* `index`, `upTo` — where the delimiter first occurs, and the word up to the end of that occurrence;
  **`upTo_spec`** — this is the shortest initial part that ends in the delimiter.
* **`prefix_of_between`** — the words with one initial part are an interval of the order.
* **`upTo_le`**, **`lt_upTo`** — hence cutting keeps the order, and no uncut word lies between the
  words that are cut to one.
-/

namespace Lexical

variable {α : Type}

/-! ## The first occurrence -/

section Cut

variable [DecidableEq α] {d l p : List α}

/-- Where `d` first occurs. -/
def index (d : List α) : List α → Option ℕ
  | [] => if d = [] then some 0 else none
  | c :: l => if d.isPrefixOf (c :: l) then some 0 else (index d l).map (· + 1)

/-- The word up to the end of the first occurrence of `d`. -/
def upTo (d l : List α) : Option (List α) := (index d l).map fun i => l.take (i + d.length)

lemma upTo_nil : upTo d [] = if d = [] then some [] else none := by
  unfold upTo index
  split_ifs <;> simp

lemma upTo_cons (c : α) (l : List α) :
    upTo d (c :: l) = if d <+: c :: l then some d else (upTo d l).map (c :: ·) := by
  simp only [upTo, index, List.isPrefixOf_iff_prefix]
  split_ifs with h
  · rw [Option.map_some, Nat.zero_add, ← List.prefix_iff_eq_take.mp h]
  · rw [Option.map_map, Option.map_map]
    refine congrArg (Option.map · _) (funext fun i => ?_)
    simp [Nat.succ_add]

/-- A word without the delimiter is not cut. -/
lemma upTo_eq_none : upTo d l = none ↔ ¬ d <:+: l := by
  induction l with
  | nil =>
      rw [upTo_nil, List.infix_nil]
      split_ifs with h <;> simp [h]
  | cons c l ih =>
      rw [upTo_cons, List.infix_cons_iff]
      split_ifs with h
      · simp [h]
      · simp [h, ih]

/-- **The cut word is the shortest initial part that ends in the delimiter.** -/
theorem upTo_spec (h : upTo d l = some p) :
    p <+: l ∧ d <:+ p ∧ ∀ q, q <+: l → d <:+ q → p <+: q := by
  induction l generalizing p with
  | nil =>
      rw [upTo_nil] at h
      split_ifs at h with hd
      obtain rfl := Option.some.inj h
      exact ⟨List.prefix_rfl, hd ▸ List.suffix_rfl, fun q _ _ => List.nil_prefix⟩
  | cons c l ih =>
      rw [upTo_cons] at h
      split_ifs at h with hd
      · obtain rfl := Option.some.inj h
        exact ⟨hd, List.suffix_rfl, fun q hq hsuf =>
          List.prefix_of_prefix_length_le hd hq hsuf.length_le⟩
      · obtain ⟨p, hup, rfl⟩ := Option.map_eq_some_iff.mp h
        obtain ⟨hpre, hsuf, hmin⟩ := ih hup
        refine ⟨List.cons_prefix_cons.mpr ⟨rfl, hpre⟩, hsuf.trans (List.suffix_cons c p), ?_⟩
        intro q hq hdq
        cases q with
        | nil => exact absurd (List.suffix_nil.mp hdq ▸ List.nil_prefix) hd
        | cons b q =>
            -- the delimiter does not begin at once, so it ends behind `b`
            rcases List.suffix_cons_iff.mp hdq with heq | hdq
            · exact absurd (heq ▸ hq) hd
            · obtain ⟨rfl, htail⟩ := List.cons_prefix_cons.mp hq
              exact List.cons_prefix_cons.mpr ⟨rfl, hmin q htail hdq⟩

end Cut

/-! ## The order -/

section Order

variable [LinearOrder α] {d l l' p p' : List α}

lemma prefix_le (h : p <+: l) : p ≤ l := by
  obtain ⟨rest, rfl⟩ := h
  cases rest with
  | nil => rw [List.append_nil]
  | cons c rest =>
      refine le_of_lt ?_
      induction p with
      | nil => exact List.nil_lt_cons c rest
      | cons b p ih => exact List.cons_lt_cons_iff.mpr (.inr ⟨rfl, ih⟩)

/-- **The words that begin with `p` are an interval.** -/
theorem prefix_of_between (h : p <+: l') (hle : p ≤ l) (hlt : l ≤ l') : p <+: l := by
  induction p generalizing l l' with
  | nil => exact List.nil_prefix
  | cons c p ih =>
      obtain ⟨rest, rfl⟩ := h
      cases l with
      | nil => exact absurd (List.nil_lt_cons c p) (not_lt.mpr hle)
      | cons b l =>
          rw [← not_lt, List.cons_lt_cons_iff, not_or, not_and, not_lt] at hle
          rw [List.cons_append, ← not_lt, List.cons_lt_cons_iff, not_or, not_and, not_lt] at hlt
          obtain rfl : c = b := le_antisymm hle.1 hlt.1
          refine List.cons_prefix_cons.mpr ⟨rfl, ih (List.prefix_append p rest) ?_ ?_⟩
          · exact not_lt.mp (hle.2 rfl)
          · exact not_lt.mp (hlt.2 rfl)

/-- A cut word stays below every word above it. -/
lemma upTo_lt (h : l < l') (hp : upTo d l = some p) : p < l' :=
  (prefix_le (upTo_spec hp).1).trans_lt h

/-- A word without the delimiter stays below the cut words above it. -/
theorem lt_upTo (h : l < l') (hl : upTo d l = none) (hp : upTo d l' = some p) : l < p := by
  obtain ⟨hpre, ⟨s, rfl⟩, -⟩ := upTo_spec hp
  by_contra hle
  refine upTo_eq_none.mp hl ?_
  exact (List.suffix_append s d).isInfix.trans
    (prefix_of_between hpre (not_lt.mp hle) h.le).isInfix

/-- Cutting keeps the order. -/
theorem upTo_le (h : l < l') (hp : upTo d l = some p) (hp' : upTo d l' = some p') : p ≤ p' := by
  obtain ⟨hpre, -, hmin⟩ := upTo_spec hp
  obtain ⟨hpre', hsuf', -⟩ := upTo_spec hp'
  by_contra hlt
  -- otherwise the shorter one is an initial part of `l` that ends in the delimiter
  have hbetween : p' <+: l :=
    prefix_of_between hpre' ((not_le.mp hlt).le.trans (prefix_le hpre)) h.le
  exact hlt (prefix_le (hmin p' hbetween hsuf'))

end Order

end Lexical
