import HoNet.Lib.CString
import HoNet.Lib.Numeral

/-!
# Integers in `stringutil.cpp`

`tointeger` converts a string with `strtol` in base 0 and takes the result if nothing is left behind
the digits. `strtol` is the function of the C library with a `long` of 32 bits.

* `tointeger_spec` — exactly the integer constants are converted, up to white space in front; the
  empty string is 0.
* `tointeger_decimal` — an integer that was written in decimal is read back.
-/

namespace HoNet.Cfg

open HoNet.CString HoNet.Numeral

/-! ## `strtol` -/

/-- The value of a digit or a letter. -/
def digitValue (c : UInt8) : Option ℕ :=
  if 48 ≤ c ∧ c ≤ 57 then some (c.toNat - 48)
  else if 97 ≤ c ∧ c ≤ 122 then some (c.toNat - 87)
  else if 65 ≤ c ∧ c ≤ 90 then some (c.toNat - 55)
  else none

/-- The sign, and what follows it. -/
def signOf : List UInt8 → Bool × List UInt8
  | [] => (false, [])
  | c :: s => if c = 45 then (true, s) else if c = 43 then (false, s) else (false, c :: s)

/-- The base, and where the digits begin. -/
def baseOf : List UInt8 → ℕ × List UInt8
  | 48 :: x :: c :: s =>
    if (x = 120 ∨ x = 88) ∧ isDigit digitValue 16 c = true then (16, c :: s)
    else (8, 48 :: x :: c :: s)
  | 48 :: s => (8, 48 :: s)
  | s => (10, s)

/-- `LONG_MIN` and `LONG_MAX` for what is too small or too large. -/
def clampLong (n : ℤ) : ℤ := max (-2 ^ 31) (min n (2 ^ 31 - 1))

/-- `strtol(str, &endptr, 0)`: the number, and what stands at `endptr`. -/
def strtol (str : List UInt8) : ℤ × List UInt8 :=
  let (neg, s) := signOf (str.dropWhile isspace)
  let (base, s) := baseOf s
  let (n, rest) := readDigits digitValue base 0 s
  if rest.length = s.length then (0, str)
  else (clampLong (if neg then -(n : ℤ) else n), rest)

def tointeger (str : List UInt8) (dflt : ℤ) : ℤ :=
  let (n, endptr) := strtol str
  if endptr ≠ [] then dflt else n

/-! ## Integer constants -/

/-- Digits in base 16 behind `0x`, in base 8 behind a 0 that is one of them, in base 10
otherwise. -/
inductive Radix : ℕ → List UInt8 → List UInt8 → Prop
  | hex (x : UInt8) (ds : List UInt8) (hx : x = 120 ∨ x = 88) : Radix 16 ds (48 :: x :: ds)
  | octal (ds : List UInt8) : Radix 8 (48 :: ds) (48 :: ds)
  | decimal (c : UInt8) (ds : List UInt8) (hc : c ≠ 48) : Radix 10 (c :: ds) (c :: ds)

/-- An optional sign. -/
inductive Signed : Bool → List UInt8 → List UInt8 → Prop
  | bare (s : List UInt8) : Signed false s s
  | plus (s : List UInt8) : Signed false s (43 :: s)
  | minus (s : List UInt8) : Signed true s (45 :: s)

/-- `str` is white space and an integer constant, of the value `n` in a `long`. -/
inductive IntConstant : List UInt8 → ℤ → Prop
  | mk {w t u ds : List UInt8} {neg : Bool} {base : ℕ} (hw : ∀ c ∈ w, isspace c = true)
    (hsign : Signed neg t u) (hbase : Radix base ds t) (hne : ds ≠ [])
    (hds : ∀ c ∈ ds, isDigit digitValue base c = true) :
    IntConstant (w ++ u) (clampLong (if neg then -(valueFrom digitValue base 0 ds : ℤ)
      else valueFrom digitValue base 0 ds))

theorem space_not_digit {c : UInt8} (h : isspace c = true) : digitValue c = none := by
  have hc : c.toNat ≤ 32 := by
    simp only [isspace, Bool.or_eq_true, Bool.and_eq_true, beq_iff_eq, decide_eq_true_eq,
      UInt8.le_iff_toNat_le] at h
    rcases h with rfl | ⟨-, h⟩
    · decide
    · exact h.trans (by decide)
  have hlow {a : UInt8} (ha : 32 < a.toNat) : ¬ a ≤ c := by
    rw [UInt8.le_iff_toNat_le]
    omega
  have h₁ : ¬ (48 : UInt8) ≤ c := hlow (by decide)
  have h₂ : ¬ (97 : UInt8) ≤ c := hlow (by decide)
  have h₃ : ¬ (65 : UInt8) ≤ c := hlow (by decide)
  simp only [digitValue, h₁, h₂, h₃, false_and, if_false]

theorem digit_not_space {b : ℕ} {c : UInt8} (h : isDigit digitValue b c = true) :
    isspace c = false := by
  by_contra hs
  rw [isDigit, space_not_digit (by simpa using hs)] at h
  cases h

theorem digit_not_sign {b : ℕ} {c : UInt8} (h : isDigit digitValue b c = true) :
    c ≠ 45 ∧ c ≠ 43 := by
  constructor <;> rintro rfl <;> cases h

/-- The part behind the sign does not begin with white space or a sign. -/
theorem Radix.head {base : ℕ} {ds t : List UInt8} (h : Radix base ds t) (hne : ds ≠ [])
    (hds : ∀ c ∈ ds, isDigit digitValue base c = true) :
    ∃ c t', t = c :: t' ∧ isspace c = false ∧ c ≠ 45 ∧ c ≠ 43 := by
  cases h with
  | hex x ds hx => exact ⟨48, x :: ds, rfl, by decide, by decide, by decide⟩
  | octal ds => exact ⟨48, ds, rfl, by decide, by decide, by decide⟩
  | decimal c ds hc =>
    have hdigit := hds c List.mem_cons_self
    exact ⟨c, ds, rfl, digit_not_space hdigit, digit_not_sign hdigit⟩

theorem Signed.head {neg : Bool} {t u : List UInt8} (h : Signed neg t u)
    (ht : ∃ c t', t = c :: t' ∧ isspace c = false ∧ c ≠ 45 ∧ c ≠ 43) :
    u.head? ≠ none ∧ (∀ c ∈ u.head?, isspace c = false) ∧ signOf u = (neg, t) := by
  obtain ⟨c, t', rfl, hspace, hminus, hplus⟩ := ht
  cases h with
  | bare =>
    refine ⟨by simp, fun x hx => ?_, ?_⟩
    · obtain rfl : c = x := Option.some.inj hx
      exact hspace
    · rw [signOf, if_neg hminus, if_neg hplus]
  | plus =>
    refine ⟨by simp, fun x hx => ?_, rfl⟩
    obtain rfl : 43 = x := Option.some.inj hx
    rfl
  | minus =>
    refine ⟨by simp, fun x hx => ?_, rfl⟩
    obtain rfl : 45 = x := Option.some.inj hx
    rfl

/-- The base of a constant is found. -/
theorem Radix.baseOf {base : ℕ} {ds t : List UInt8} (h : Radix base ds t) (hne : ds ≠ [])
    (hds : ∀ c ∈ ds, isDigit digitValue base c = true) : baseOf t = (base, ds) := by
  cases h with
  | hex x ds hx =>
    cases ds with
    | nil => exact absurd rfl hne
    | cons c ds => rw [Cfg.baseOf, if_pos ⟨hx, hds c List.mem_cons_self⟩]
  | octal ds =>
    cases ds with
    | nil => rfl
    | cons x ds =>
      cases ds with
      | nil => rfl
      | cons c ds =>
        rw [Cfg.baseOf, if_neg]
        rintro ⟨rfl | rfl, -⟩
        · exact absurd (hds 120 (by simp)) (by decide)
        · exact absurd (hds 88 (by simp)) (by decide)
  | decimal c ds hc => rw [Cfg.baseOf.eq_3 _ (by simp_all) (by simp_all)]

/-- What is found is the base of a constant. -/
theorem baseOf_radix {t ds : List UInt8} {base : ℕ} (h : baseOf t = (base, ds)) (hne : ds ≠ []) :
    Radix base ds t := by
  unfold baseOf at h
  split at h
  · next x c s =>
    split at h
    · next hx =>
      cases h
      exact .hex x (c :: s) hx.1
    · cases h
      exact .octal _
  · cases h
    exact .octal _
  · next hcons hone =>
    cases h
    cases t with
    | nil => exact absurd rfl hne
    | cons c s =>
      refine .decimal c s ?_
      rintro rfl
      exact hone s rfl

theorem signOf_signed {neg : Bool} {t u : List UInt8} (h : signOf u = (neg, t)) :
    Signed neg t u := by
  cases u with
  | nil =>
    cases h
    exact .bare []
  | cons c u =>
    rw [signOf] at h
    split at h
    · next hc =>
      cases h
      rw [hc]
      exact .minus t
    · split at h
      · next hc =>
        cases h
        rw [hc]
        exact .plus t
      · cases h
        exact .bare _

/-! ## `tointeger` -/

variable {s : List UInt8} {n : ℤ}

/-- A constant is read to its end. -/
theorem IntConstant.strtol (h : IntConstant s n) : strtol s = (n, []) := by
  cases h with
  | @mk w t u ds neg base hw hsign hbase hne hds =>
    obtain ⟨hu, hspace, hsignOf⟩ := hsign.head (hbase.head hne hds)
    have hdrop : (w ++ u).dropWhile isspace = u := by
      rw [List.dropWhile_append_of_pos hw]
      cases u with
      | nil => exact absurd rfl hu
      | cons c u =>
        have hc : isspace c = false := hspace c rfl
        rw [List.dropWhile_cons_of_neg (by rw [hc]; decide)]
    have hlen : ¬ ([] : List UInt8).length = ds.length := fun he =>
      hne (List.eq_nil_of_length_eq_zero he.symm)
    simp only [Cfg.strtol, hdrop, hsignOf, hbase.baseOf hne hds, readDigits_all hds, if_neg hlen]

/-- What is read to its end is a constant or empty. -/
theorem constant_of_strtol (h : strtol s = (n, [])) : s = [] ∧ n = 0 ∨ IntConstant s n := by
  rw [Cfg.strtol] at h
  rcases hsign : signOf (s.dropWhile isspace) with ⟨neg, t⟩
  rcases hbase : baseOf t with ⟨base, ds⟩
  rcases hread : readDigits digitValue base 0 ds with ⟨m, rest⟩
  simp only [hsign, hbase, hread] at h
  split at h
  · cases h
    exact .inl ⟨rfl, rfl⟩
  · next hlen =>
    obtain ⟨hn, rfl⟩ := Prod.ext_iff.mp h
    have hne : ds ≠ [] := by
      rintro rfl
      exact hlen rfl
    have hds := all_digits_of_rest (show (readDigits digitValue base 0 ds).2 = [] by rw [hread])
    have hm : valueFrom digitValue base 0 ds = m := by
      have hall := readDigits_all (n := 0) hds
      rw [hread] at hall
      exact (congrArg Prod.fst hall).symm
    have hconst := IntConstant.mk (w := s.takeWhile isspace)
      (fun c hc => List.mem_takeWhile_imp hc) (signOf_signed hsign) (baseOf_radix hbase hne) hne hds
    rw [List.takeWhile_append_dropWhile, hm] at hconst
    have hn : clampLong (if neg then -(m : ℤ) else m) = n := hn
    rw [hn] at hconst
    exact .inr hconst

/-- **What `tointeger` converts**: exactly the integer constants, up to white space in front of
them; the empty string is 0. -/
theorem tointeger_spec (s : List UInt8) (dflt : ℤ) :
    (∀ n, IntConstant s n → tointeger s dflt = n) ∧
      ((∀ n, ¬ IntConstant s n) → tointeger s dflt = if s = [] then 0 else dflt) := by
  constructor
  · intro n h
    simp only [tointeger, h.strtol, ne_eq, not_true, if_false]
  · intro hnone
    rcases hread : strtol s with ⟨n, endptr⟩
    simp only [tointeger, hread]
    by_cases hend : endptr = []
    · subst hend
      rcases constant_of_strtol hread with ⟨rfl, rfl⟩ | h
      · rfl
      · exact absurd h (hnone n)
    · rw [if_pos hend, if_neg]
      rintro rfl
      cases hread
      exact hend rfl

/-- `0x1F`, a 9 in base 8, and nothing. -/
example : tointeger [48, 120, 49, 70] 7 = 31 ∧ tointeger [48, 57] 7 = 7 ∧ tointeger [] 7 = 0 := by
  decide

/-! ## Decimal -/

def digitChar (d : ℕ) : UInt8 := UInt8.ofNat (48 + d)

/-- The decimal of an integer. -/
def decimal (n : ℤ) : List UInt8 :=
  if n < 0 then 45 :: numeral digitChar 10 n.natAbs else numeral digitChar 10 n.natAbs

theorem digitValue_digitChar : ∀ d < 10, digitValue (digitChar d) = some d := by decide

theorem digitChar_ne : ∀ d < 10, 0 < d → digitChar d ≠ 48 := by decide

theorem decimal_digits (n : ℤ) : ∀ c ∈ decimal n, c = 45 ∨ isDigit digitValue 10 c = true := by
  have hnum := numeral_digit (n := n.natAbs) (by decide : 1 < 10) digitValue_digitChar
  intro c hc
  unfold decimal at hc
  split at hc
  · rcases List.mem_cons.mp hc with rfl | hc
    · exact .inl rfl
    · exact .inr (hnum c hc)
  · exact .inr (hnum c hc)

/-- The decimal of a natural number has its base. -/
theorem radix_numeral (m : ℕ) :
    ∃ base, Radix base (numeral digitChar 10 m) (numeral digitChar 10 m) ∧
      (∀ c ∈ numeral digitChar 10 m, isDigit digitValue base c = true) ∧
      valueFrom digitValue base 0 (numeral digitChar 10 m) = m := by
  rcases eq_or_ne m 0 with rfl | hm
  · refine ⟨8, .octal [], fun c hc => ?_, rfl⟩
    rw [List.mem_singleton.mp hc]
    rfl
  · obtain ⟨d, l, heq, hpos, hlt⟩ : ∃ d l,
        numeral digitChar 10 m = digitChar d :: l ∧ 0 < d ∧ d < 10 := numeral_head (by decide) hm
    refine ⟨10, ?_, numeral_digit (by decide) digitValue_digitChar,
      valueFrom_numeral (by decide) digitValue_digitChar m⟩
    rw [heq]
    exact .decimal _ l (digitChar_ne d hlt hpos)

/-- **An integer that was written is read back.** -/
theorem tointeger_decimal (hlo : -2 ^ 31 ≤ n) (hhi : n < 2 ^ 31) (dflt : ℤ) :
    tointeger (decimal n) dflt = n := by
  obtain ⟨base, hbase, hds, hvalue⟩ := radix_numeral n.natAbs
  have hclamp : clampLong n = n := by
    unfold clampLong
    omega
  refine (tointeger_spec (decimal n) dflt).1 n ?_
  unfold decimal
  split
  · next hneg =>
    have h := IntConstant.mk (w := []) (fun c hc => absurd hc List.not_mem_nil) (.minus _) hbase
      (numeral_ne_nil n.natAbs) hds
    rw [hvalue, if_pos rfl, show -(n.natAbs : ℤ) = n by omega, hclamp] at h
    exact h
  · next hpos =>
    have h := IntConstant.mk (w := []) (fun c hc => absurd hc List.not_mem_nil) (.bare _) hbase
      (numeral_ne_nil n.natAbs) hds
    rw [hvalue, if_neg (by decide), show (n.natAbs : ℤ) = n by omega, hclamp] at h
    exact h

end HoNet.Cfg
