import Mathlib.Data.List.Lex
import Mathlib.Data.Char

/-!
# Decimal numbers as words

* `digitsValue` — the value of a list of digits, behind the value of those before.
* **`digitsValue_mono`** — numbers of one length are in the order of their digits.
* **`digitsValue_toDigits`** — the digits of a number have its value.
-/

namespace Lexical

/-- The decimal value of a list of digits, behind the value `n` of those before. -/
def digitsValue (n : ℕ) (digits : List Char) : ℕ :=
  digits.foldl (fun n c => 10 * n + (c.toNat - '0'.toNat)) n

lemma digitsValue_cons (n : ℕ) (c : Char) (digits : List Char) :
    digitsValue n (c :: digits) = digitsValue (10 * n + (c.toNat - '0'.toNat)) digits :=
  List.foldl_cons

lemma digit_bounds {c : Char} (h : c.isDigit = true) :
    '0'.toNat ≤ c.toNat ∧ c.toNat ≤ '0'.toNat + 9 := by
  simpa [Char.isDigit, UInt32.le_iff_toNat_le] using h

/-- Numbers of one length that are in lexical order, whatever follows them, are in order. -/
lemma digitsValue_mono {ds es xs ys : List Char} {m n : ℕ} (hlen : ds.length = es.length)
    (hds : ∀ c ∈ ds, c.isDigit = true) (hes : ∀ c ∈ es, c.isDigit = true)
    (h : m < n ∨ (m = n ∧ ¬ es ++ ys < ds ++ xs)) : digitsValue m ds ≤ digitsValue n es := by
  induction ds generalizing es m n with
  | nil =>
      obtain rfl := List.length_eq_zero_iff.mp hlen.symm
      exact h.elim le_of_lt fun h => h.1.le
  | cons c ds ih =>
      cases es with
      | nil => cases hlen
      | cons d es =>
          have hc := digit_bounds (hds c List.mem_cons_self)
          have hd := digit_bounds (hes d List.mem_cons_self)
          rw [digitsValue_cons, digitsValue_cons]
          refine ih (Nat.succ.inj hlen) (fun x hx => hds x (List.mem_cons_of_mem _ hx))
            (fun x hx => hes x (List.mem_cons_of_mem _ hx)) ?_
          -- A larger prefix decides; otherwise the next digits do, or nothing yet.
          generalize '0'.toNat = z at hc hd ⊢
          rcases h with h | ⟨rfl, h⟩
          · exact .inl (by omega)
          · rw [List.cons_append, List.cons_append, List.cons_lt_cons_iff, not_or, not_and] at h
            rcases (not_lt.mp h.1).lt_or_eq with hcd | rfl
            · have : c.toNat < d.toNat := hcd
              exact .inl (by omega)
            · exact .inr ⟨rfl, h.2 rfl⟩

lemma digitsValue_append (n : ℕ) (ds es : List Char) :
    digitsValue n (ds ++ es) = digitsValue (digitsValue n ds) es :=
  List.foldl_append

/-- Leading zeros add nothing. -/
lemma digitsValue_replicate_zero (k : ℕ) : digitsValue 0 (List.replicate k '0') = 0 := by
  induction k with
  | zero => rfl
  | succ k ih => exact ih

/-- **The digits of a number have its value.** -/
theorem digitsValue_toDigits (n : ℕ) : digitsValue 0 (Nat.toDigits 10 n) = n :=
  Nat.ofDigitChars_ten_toDigits

end Lexical
