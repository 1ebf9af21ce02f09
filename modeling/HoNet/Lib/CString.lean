import Mathlib.Data.List.Basic
import Mathlib.Data.List.DropRight
import Mathlib.Data.List.TakeWhile
import Mathlib.Tactic

/-!
# C strings in a byte buffer

A buffer is a list of bytes, a pointer into it an index. `cstr buf p` is what a C function reads from
`p` on; `StrAt buf p s` says that `s` and its terminating zero are stored there, which no change
behind that zero can undo (`StrAt.append`).

Overwriting the byte behind a prefix (`set_behind`, `set_shift`) is what parsers that work in place
do. `strchr` and `isspace` are those of the C library.
-/

namespace HoNet.CString

variable {A B J R buf s : List UInt8} {c v : UInt8} {p : Nat}

def cstr (buf : List UInt8) (p : Nat) : List UInt8 := (buf.drop p).takeWhile fun b => b ≠ 0

/-- `s` and a terminating zero are stored at `p`. -/
def StrAt (buf : List UInt8) (p : Nat) (s : List UInt8) : Prop :=
  0 ∉ s ∧ ∃ A B, buf = A ++ s ++ 0 :: B ∧ A.length = p

theorem StrAt.cstr (h : StrAt buf p s) : cstr buf p = s := by
  obtain ⟨h0, A, B, rfl, rfl⟩ := h
  rw [CString.cstr, List.append_assoc, List.drop_left,
    List.takeWhile_append_of_pos fun b hb => by
      simp only [decide_eq_true_eq]; rintro rfl; exact h0 hb]
  simp

theorem StrAt.append (h : StrAt buf p s) (R : List UInt8) : StrAt (buf ++ R) p s := by
  obtain ⟨h0, A, B, rfl, rfl⟩ := h
  exact ⟨h0, A, B ++ R, by simp, rfl⟩

/-- A string depends on the bytes up to a zero behind its start only. -/
theorem cstr_congr {buf' : List UInt8} {e : Nat} (hp : p ≤ e) (hz : buf[e]? = some 0)
    (h : ∀ i, i ≤ e → buf'[i]? = buf[i]?) : cstr buf' p = cstr buf p := by
  have htake : buf'.take (e + 1) = buf.take (e + 1) := by
    refine List.ext_getElem? fun i => ?_
    rw [List.getElem?_take, List.getElem?_take]
    split_ifs with hi
    · exact h i (by omega)
    · rfl
  have hzero : 0 ∈ (buf.take (e + 1)).drop p := by
    refine List.mem_of_getElem? (i := e - p) ?_
    rw [List.getElem?_drop, show p + (e - p) = e by omega, List.getElem?_take_of_lt (by omega), hz]
  -- both strings end within the common bytes
  have hcut : ∀ l : List UInt8, l.take (e + 1) = buf.take (e + 1) →
      cstr l p = ((buf.take (e + 1)).drop p).takeWhile fun b => b ≠ 0 := by
    intro l hl
    rw [cstr, ← List.take_append_drop (e + 1) l, hl, List.drop_append, List.takeWhile_append,
      if_neg fun hlen => ?_]
    have hall := List.takeWhile_eq_self_iff.mp (List.Sublist.eq_of_length
      (List.takeWhile_sublist _) hlen)
    exact absurd (hall 0 hzero) (by simp)
  rw [hcut buf' htake, hcut buf rfl]

theorem set_behind : (A ++ c :: R).set A.length v = A ++ v :: R := by
  rw [List.set_append_right _ _ le_rfl, Nat.sub_self, List.set_cons_zero]

theorem get_behind : (A ++ c :: R)[A.length]? = some c := by
  rw [List.getElem?_append_right le_rfl, Nat.sub_self, List.getElem?_cons_zero]

/-- Overwriting the first byte of a gap `J` moves the gap one byte on. -/
theorem set_shift (A J R : List UInt8) (c v : UInt8) :
    ∃ J', (A ++ J ++ c :: R).set A.length v = A ++ [v] ++ J' ++ R ∧ J'.length = J.length := by
  cases J with
  | nil => exact ⟨[], by simp, rfl⟩
  | cons j J =>
    refine ⟨J ++ [c], ?_, by simp⟩
    rw [List.append_assoc, List.cons_append, set_behind]
    simp

/-! ## `strchr` and `isspace` -/

/-- The search of `strchr` over the bytes from `p` on. -/
def strchrFrom (c : UInt8) : List UInt8 → Nat → Option Nat
  | [], _ => none
  | b :: bs, p => if b = c then some p else if b = 0 then none else strchrFrom c bs (p + 1)

def strchr (buf : List UInt8) (p : Nat) (c : UInt8) : Option Nat := strchrFrom c (buf.drop p) p

/-- White space of the C locale. -/
def isspace (b : UInt8) : Bool := b == 32 || (9 ≤ b && b ≤ 13)

theorem strchrFrom_append (h0 : 0 ∉ s) (hc : c ∉ s) (T : List UInt8) (p : Nat) :
    strchrFrom c (s ++ T) p = strchrFrom c T (p + s.length) := by
  induction s generalizing p with
  | nil => rfl
  | cons b s ih =>
    rw [List.mem_cons, not_or] at h0 hc
    rw [List.cons_append, strchrFrom, if_neg (Ne.symm hc.1), if_neg (Ne.symm h0.1), ih h0.2 hc.2,
      List.length_cons]
    congr 1
    omega

/-- `strchr` on a string without the character. -/
theorem strchr_none (h0 : 0 ∉ s) (hc : c ∉ s) (hc0 : c ≠ 0) (A T : List UInt8) :
    strchr (A ++ (s ++ 0 :: T)) A.length c = none := by
  rw [strchr, List.drop_left, strchrFrom_append h0 hc, strchrFrom, if_neg (Ne.symm hc0), if_pos rfl]

/-- `strchr` on a string with the character behind `s`. -/
theorem strchr_some (h0 : 0 ∉ s) (hc : c ∉ s) (A T : List UInt8) :
    strchr (A ++ (s ++ c :: T)) A.length c = some (A.length + s.length) := by
  rw [strchr, List.drop_left, strchrFrom_append h0 hc, strchrFrom, if_pos rfl]

/-- A list with an element splits at its first occurrence. -/
theorem split_first (h : c ∈ s) :
    s = s.takeWhile (fun b => b ≠ c) ++ c :: (s.dropWhile fun b => b ≠ c).tail := by
  induction s with
  | nil => cases h
  | cons b s ih =>
    by_cases hb : b = c
    · simp [hb]
    · have hs := ih ((List.mem_cons.mp h).resolve_left (Ne.symm hb))
      rw [List.takeWhile_cons_of_pos (by simpa using hb),
        List.dropWhile_cons_of_pos (by simpa using hb), List.cons_append, ← hs]

theorem not_mem_takeWhile_ne (s : List UInt8) (c : UInt8) : c ∉ s.takeWhile (fun b => b ≠ c) :=
  fun hm => by simpa using List.mem_takeWhile_imp hm

theorem takeWhile_ne_of_not_mem (h : c ∉ s) : s.takeWhile (fun b => b ≠ c) = s :=
  List.takeWhile_eq_self_iff.mpr fun b hb => by
    simp only [decide_eq_true_eq]; rintro rfl; exact h hb

end HoNet.CString
