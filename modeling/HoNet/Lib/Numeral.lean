import Mathlib.Data.List.DropRight
import Mathlib.Data.List.TakeWhile
import Mathlib.Data.Nat.Digits.Lemmas
import Mathlib.Tactic

/-!
# Numerals

A numeral is a list of characters, the most significant digit first; `dig` gives the value of a
character and `chr` the character of a value.

* `readDigits_eq` — reading takes the digits in front and leaves the rest.
* `numeral_digit`, `valueFrom_numeral` — a numeral is digits only, and has the value it was written for.
-/

namespace HoNet.Numeral

variable {α : Type} (dig : α → Option ℕ) (chr : ℕ → α) (b : ℕ)

def isDigit (c : α) : Bool := (dig c).any fun d => decide (d < b)

/-- The number with the digits `n` before those of the list. -/
def valueFrom (n : ℕ) (ds : List α) : ℕ := ds.foldl (fun n c => n * b + (dig c).getD 0) n

/-- Reads digits as long as there are any. -/
def readDigits : ℕ → List α → ℕ × List α
  | n, [] => (n, [])
  | n, c :: cs => if isDigit dig b c then readDigits (n * b + (dig c).getD 0) cs else (n, c :: cs)

/-- The numeral of a number, with a digit for 0. -/
def numeral (n : ℕ) : List α := if n = 0 then [chr 0] else (Nat.digits b n).reverse.map chr

variable {dig chr b} {n m : ℕ} {s ds rest : List α} {c : α}

theorem readDigits_eq :
    readDigits dig b n s = (valueFrom dig b n (s.takeWhile (isDigit dig b)),
      s.dropWhile (isDigit dig b)) := by
  induction s generalizing n with
  | nil => rfl
  | cons c s ih =>
    rw [readDigits]
    by_cases hc : isDigit dig b c = true
    · rw [if_pos hc, ih, List.takeWhile_cons_of_pos hc, List.dropWhile_cons_of_pos hc]
      rfl
    · rw [if_neg hc, List.takeWhile_cons_of_neg hc, List.dropWhile_cons_of_neg hc]
      rfl

/-- All of a list of digits is read. -/
theorem readDigits_all (h : ∀ c ∈ ds, isDigit dig b c = true) :
    readDigits dig b n ds = (valueFrom dig b n ds, []) := by
  rw [readDigits_eq, List.takeWhile_eq_self_iff.mpr h, List.dropWhile_eq_nil_iff.mpr h]

/-- If nothing is left, all was digits. -/
theorem all_digits_of_rest (h : (readDigits dig b n s).2 = []) :
    ∀ c ∈ s, isDigit dig b c = true := by
  rw [readDigits_eq] at h
  exact List.dropWhile_eq_nil_iff.mp h

theorem isDigit_chr (hdig : ∀ d < b, dig (chr d) = some d) (hn : n < b) :
    isDigit dig b (chr n) = true := by
  rw [isDigit, hdig n hn]
  exact decide_eq_true hn

theorem numeral_ne_nil (n : ℕ) : numeral chr b n ≠ [] := by
  unfold numeral
  split
  · exact List.cons_ne_nil _ _
  · next hn =>
    rw [ne_eq, List.map_eq_nil_iff, List.reverse_eq_nil_iff]
    exact Nat.digits_ne_nil_iff_ne_zero.mpr hn

/-- A numeral consists of digits. -/
theorem numeral_digit (hb : 1 < b) (hdig : ∀ d < b, dig (chr d) = some d) :
    ∀ c ∈ numeral chr b n, isDigit dig b c = true := by
  intro c hc
  unfold numeral at hc
  split at hc
  · rw [List.mem_singleton.mp hc]
    exact isDigit_chr hdig (by omega)
  · obtain ⟨d, hd, rfl⟩ := List.mem_map.mp hc
    exact isDigit_chr hdig (Nat.digits_lt_base hb (List.mem_reverse.mp hd))

theorem valueFrom_chr (hdig : ∀ d < b, dig (chr d) = some d) {l : List ℕ} (hl : ∀ d ∈ l, d < b) :
    valueFrom dig b 0 (l.reverse.map chr) = Nat.ofDigits b l := by
  induction l with
  | nil => rfl
  | cons d l ih =>
    have hd := hdig d (hl d List.mem_cons_self)
    have ih := ih fun x hx => hl x (List.mem_cons_of_mem d hx)
    rw [valueFrom] at ih
    rw [List.reverse_cons, List.map_append, valueFrom, List.foldl_append, ih, Nat.ofDigits_cons]
    simp only [List.map_cons, List.map_nil, List.foldl_cons, List.foldl_nil, hd, Option.getD_some]
    rw [Nat.mul_comm, Nat.add_comm]

/-- The number is that of its numeral. -/
theorem valueFrom_numeral (hb : 1 < b) (hdig : ∀ d < b, dig (chr d) = some d) (n : ℕ) :
    valueFrom dig b 0 (numeral chr b n) = n := by
  unfold numeral
  split
  · next hn =>
    simp [valueFrom, hdig 0 (by omega), hn]
  · rw [valueFrom_chr hdig fun d hd => Nat.digits_lt_base hb hd, Nat.ofDigits_digits]

/-- No numeral but that of 0 begins with the digit 0. -/
theorem numeral_head (hb : 1 < b) (hn : n ≠ 0) :
    ∃ d l, numeral chr b n = chr d :: l ∧ 0 < d ∧ d < b := by
  have hne : Nat.digits b n ≠ [] := Nat.digits_ne_nil_iff_ne_zero.mpr hn
  have hlast := Nat.getLast_digit_ne_zero b hn
  rw [numeral, if_neg hn]
  refine ⟨(Nat.digits b n).getLast hne, (Nat.digits b n).dropLast.reverse.map chr, ?_,
    Nat.pos_of_ne_zero hlast, Nat.digits_lt_base hb (List.getLast_mem hne)⟩
  conv_lhs => rw [← List.dropLast_append_getLast hne]
  rw [List.reverse_append, List.reverse_singleton, List.singleton_append, List.map_cons]

end HoNet.Numeral
