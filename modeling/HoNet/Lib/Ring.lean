import Mathlib.Data.List.Basic
import Mathlib.Data.List.GetD
import Mathlib.Tactic

/-!
# Circular memory

A memory of `n` elements addressed by counters that only grow: the element of the counter `c` stands
at `c % n`. `window mem c k` is what the `k` counters from `c` on hold.

* `window_splice` — storing contiguous data behind a window extends it, as long as the data does not
  reach round to its front.
* `take_drop_eq_window` — a contiguous region is a window.
-/

namespace HoNet.Ring

variable {α : Type} {mem data : List α} {c o k j x : Nat}

/-- The memory with `data` stored from the position `off` on. -/
def splice (mem : List α) (off : Nat) (data : List α) : List α :=
  mem.take off ++ data ++ mem.drop (off + data.length)

theorem splice_length (h : o + data.length ≤ mem.length) :
    (splice mem o data).length = mem.length := by
  simp only [splice, List.length_append, List.length_take, List.length_drop]
  omega

theorem getD_splice_in (h : o + data.length ≤ mem.length) (hj : j < data.length) (d : α) :
    (splice mem o data).getD (o + j) d = data.getD j d := by
  have ho : (mem.take o).length = o := by
    rw [List.length_take]
    omega
  rw [splice, List.append_assoc, List.getD_append_right _ _ _ _ (by omega), ho, Nat.add_sub_cancel_left,
    List.getD_append _ _ _ _ hj]

theorem getD_splice_out (h : o + data.length ≤ mem.length) (hx : x < o ∨ o + data.length ≤ x) (d : α) :
    (splice mem o data).getD x d = mem.getD x d := by
  have ho : (mem.take o).length = o := by
    rw [List.length_take]
    omega
  rcases hx with hx | hx
  · rw [splice, List.append_assoc, List.getD_append _ _ _ _ (by omega), List.getD_eq_getElem?_getD,
      List.getElem?_take_of_lt hx, ← List.getD_eq_getElem?_getD]
  · have hl : (mem.take o ++ data).length = o + data.length := by
      rw [List.length_append, ho]
    rw [splice, List.getD_append_right _ _ _ _ (by omega), hl, List.getD_eq_getElem?_getD,
      List.getElem?_drop, Nat.add_sub_cancel' hx, ← List.getD_eq_getElem?_getD]

/-- Counters less than one round apart are at different positions. -/
theorem mod_ne_of_lt {n a b : Nat} (hab : a < b) (hb : b < a + n) : a % n ≠ b % n := by
  intro h
  have hd : n ∣ b - a := (Nat.modEq_iff_dvd' hab.le).mp h
  have := Nat.le_of_dvd (by omega) hd
  omega

/-- Up to the physical end the positions follow each other. -/
theorem add_mod_of_fits {n : Nat} (h : c % n + j < n) : (c + j) % n = c % n + j := by
  have hj : j % n = j := Nat.mod_eq_of_lt (by omega)
  rw [Nat.add_mod, hj, Nat.mod_eq_of_lt h]

/-- Less than one round ahead and not in front: in the same round. -/
theorem eq_add_of_mod_le {n a b : Nat} (hab : a ≤ b) (hb : b < a + n) (h : a % n ≤ b % n) :
    b = a + (b % n - a % n) := by
  have ha' := Nat.div_add_mod a n
  have hb' := Nat.div_add_mod b n
  have hmod := Nat.mod_lt b (show 0 < n by omega)
  have hdiv : b / n = a / n := by
    rcases Nat.lt_or_eq_of_le (Nat.div_le_div_right (c := n) hab) with hlt | heq
    · have hround := Nat.mul_le_mul_left n (Nat.succ_le_of_lt hlt)
      rw [Nat.mul_succ] at hround
      omega
    · exact heq.symm
  rw [hdiv] at hb'
  omega

/-- Less than one round ahead and in front: in the next round. -/
theorem add_eq_of_mod_lt {n a b : Nat} (hab : a ≤ b) (hb : b < a + n) (h : b % n < a % n) :
    b + (a % n - b % n) = a + n := by
  have ha' := Nat.div_add_mod a n
  have hb' := Nat.div_add_mod b n
  have hmod := Nat.mod_lt a (show 0 < n by omega)
  have hdiv : b / n = a / n + 1 := by
    have hle := Nat.div_le_div_right (c := n) hab
    rcases Nat.lt_trichotomy (b / n) (a / n + 1) with hlt | heq | hgt
    · rw [show b / n = a / n by omega] at hb'
      omega
    · exact heq
    · have hround := Nat.mul_le_mul_left n (Nat.succ_le_of_lt hgt)
      rw [Nat.mul_succ, Nat.mul_succ] at hround
      omega
  rw [hdiv, Nat.mul_succ] at hb'
  omega

/-- The rest of a round leads back to the front. -/
theorem add_rest_mod {n : Nat} (hn : 0 < n) (c : Nat) : (c + (n - c % n)) % n = 0 := by
  have hdiv := Nat.div_add_mod c n
  have hlt := Nat.mod_lt c hn
  have hround : c + (n - c % n) = n * (c / n + 1) := by
    rw [Nat.mul_add, Nat.mul_one]
    omega
  rw [hround, Nat.mul_mod_right]

/-! ## Windows -/

variable [Inhabited α]

def cell (mem : List α) (c : Nat) : α := mem.getD (c % mem.length) default

def window (mem : List α) (c k : Nat) : List α := (List.range k).map fun i => cell mem (c + i)

@[simp] theorem window_length : (window mem c k).length = k := by
  simp [window]

@[simp] theorem window_zero : window mem c 0 = [] := rfl

theorem window_add (mem : List α) (c k m : Nat) :
    window mem c (k + m) = window mem c k ++ window mem (c + k) m := by
  simp only [window, List.range_add, List.map_append, List.map_map, Function.comp_def, Nat.add_assoc]

theorem window_congr {mem' : List α} (h : ∀ i, i < k → cell mem' (c + i) = cell mem (c + i)) :
    window mem' c k = window mem c k := by
  refine List.map_congr_left fun i hi => ?_
  exact h i (List.mem_range.mp hi)

/-- **Storing behind a window** extends it. -/
theorem window_splice (hfit : c % mem.length + data.length ≤ mem.length) (hoc : o ≤ c)
    (hroom : c + data.length ≤ o + mem.length) :
    window (splice mem (c % mem.length) data) o (c + data.length - o) =
      window mem o (c - o) ++ data := by
  have hlen := splice_length hfit
  have hsplit : c + data.length - o = (c - o) + data.length := by omega
  rw [hsplit, window_add]
  congr 1
  · refine window_congr fun i hi => ?_
    rw [cell, cell, hlen]
    -- an old element is not under the new data
    refine getD_splice_out hfit ?_ _
    by_contra hx
    push Not at hx
    obtain ⟨j, hj⟩ : ∃ j, (o + i) % mem.length = c % mem.length + j :=
      ⟨(o + i) % mem.length - c % mem.length, by omega⟩
    have hjd : j < data.length := by omega
    have hpos : (c + j) % mem.length = (o + i) % mem.length := by
      rw [hj]
      exact add_mod_of_fits (by omega)
    exact mod_ne_of_lt (n := mem.length) (show o + i < c + j by omega) (by omega) hpos.symm
  · rw [Nat.add_sub_cancel' hoc]
    refine List.ext_getElem (by simp) fun j hj hj' => ?_
    have hmem : 0 < mem.length := by omega
    have hpos : (c + j) % mem.length = c % mem.length + j := add_mod_of_fits (by omega)
    simp only [window, List.getElem_map, List.getElem_range, cell, hlen, hpos]
    rw [getD_splice_in hfit hj', List.getD_eq_getElem _ _ hj']

/-- A region that does not reach over the physical end. -/
theorem take_drop_eq_window (h : c % mem.length + k ≤ mem.length) :
    (mem.drop (c % mem.length)).take k = window mem c k := by
  refine List.ext_getElem ?_ fun j hj hj' => ?_
  · rw [window_length, List.length_take, List.length_drop]
    omega
  · rw [window_length] at hj'
    have hpos : (c + j) % mem.length = c % mem.length + j := add_mod_of_fits (by omega)
    simp only [window, List.getElem_map, List.getElem_range, cell, hpos, List.getElem_take,
      List.getElem_drop]
    rw [List.getD_eq_getElem]

end HoNet.Ring
