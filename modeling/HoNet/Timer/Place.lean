import Mathlib.Data.Nat.Bitwise
import Mathlib.Tactic

/-!
# Slot selection of the timing wheel

`coretimer.c` files a timer by comparing its expiry with the current time above ever coarser bit
masks: the near wheel `t[256]` when they differ in the low 8 bits only, else the first of the four
levels `n[4][64]` whose mask hides every difference.

* `place` — the slot `addto_list` selects, transcribed with its masks and its `for` loop.
* `shiftLoop` — the `while` loop of `timer_shift`: which slot, if any, the new time cascades.

Principal results: `place_near_iff` and `place_level_iff` read both choices as agreement of
quotients; `place_succ_of_ne` and `place_succ_ne_move` — between two consecutive times a timer
changes its slot exactly when it lies in the slot that is cascaded; `place_cascade_target` — a slot
that receives cascaded timers holds no other timer; `one_cascade_exact` — the loop with its `int`
mask and its calls of `list_move` written down.
-/

namespace HoNet.Timer

/-- `#define TIME_SLOT_LEN 10`: milliseconds per tick. -/
def TIME_SLOT_LEN : Nat := 10

/-- `#define TIME_NEAR (1<<8)`. -/
def TIME_NEAR : Nat := 1 <<< 8

/-- `#define TIME_LEVEL (1 << 6)`. -/
def TIME_LEVEL : Nat := 1 <<< 6

def TIME_NEAR_MASK : Nat := TIME_NEAR - 1

def TIME_LEVEL_MASK : Nat := TIME_LEVEL - 1

/-- A list head of the wheel: `t[i]` or `n[l][i]`. -/
inductive Slot where
  | near (i : Nat)
  | level (l i : Nat)
  deriving DecidableEq, Repr

/-- The `for (; i < 3; i++)` loop of `addto_list`; the first argument counts the rounds left. -/
def findLevel (expire current_time : Nat) : Nat → Nat → Nat → Nat
  | 0, i, _ => i
  | rounds + 1, i, mask =>
    if expire ||| (mask - 1) = current_time ||| (mask - 1) then i
    else findLevel expire current_time rounds (i + 1) (mask <<< 6)

/-- The slot `addto_list` hands to `list_add`. -/
def place (expire current_time : Nat) : Slot :=
  if expire ||| TIME_NEAR_MASK = current_time ||| TIME_NEAR_MASK then
    .near (expire &&& TIME_NEAR_MASK)
  else
    let i := findLevel expire current_time 3 0 (TIME_NEAR <<< 6)
    .level i ((expire >>> (8 + i * 6)) &&& TIME_LEVEL_MASK)

/-- What the `while` loop of `timer_shift` does: leave without a move, move one slot, or still
turn when the rounds are used up. -/
inductive ShiftOutcome where
  | noMove
  | move (level idx : Nat)
  | turning
  deriving DecidableEq, Repr

/-- The `while ((ct & (mask - 1)) == 0)` loop of `timer_shift`; the first argument bounds the
rounds. -/
def shiftLoop (ct : Nat) : Nat → Nat → Nat → Nat → ShiftOutcome
  | 0, _, _, _ => .turning
  | rounds + 1, i, mask, t =>
    if ct &&& (mask - 1) = 0 then
      let idx := t &&& TIME_LEVEL_MASK
      if idx ≠ 0 then .move i idx
      else shiftLoop ct rounds (i + 1) (mask <<< 6) (t >>> 6)
    else .noMove

/-- The move `timer_shift` makes when the time becomes `ct`. -/
def shiftMove (ct : Nat) : ShiftOutcome :=
  if ct = 0 then .move 3 0 else shiftLoop ct 4 0 TIME_NEAR (ct >>> 8)

/-! ## Masks as quotients -/

theorem or_mask_eq_iff (k a b : Nat) :
    a ||| (2 ^ k - 1) = b ||| (2 ^ k - 1) ↔ a / 2 ^ k = b / 2 ^ k := by
  constructor
  · intro h
    apply Nat.eq_of_testBit_eq
    intro i
    have hi := congrArg (fun x => x.testBit (i + k)) h
    simpa [Nat.testBit_or, Nat.testBit_two_pow_sub_one, Nat.testBit_div_two_pow] using hi
  · intro h
    apply Nat.eq_of_testBit_eq
    intro i
    rw [Nat.testBit_or, Nat.testBit_or, Nat.testBit_two_pow_sub_one]
    by_cases hik : i < k
    · simp [hik]
    · have hi := congrArg (fun x => x.testBit (i - k)) h
      simp only [Nat.testBit_div_two_pow, Nat.sub_add_cancel (Nat.not_lt.mp hik)] at hi
      simp [hi]

theorem or_near_mask (a b : Nat) :
    a ||| TIME_NEAR_MASK = b ||| TIME_NEAR_MASK ↔ a / 256 = b / 256 := or_mask_eq_iff 8 a b

theorem and_near_mask (a : Nat) : a &&& TIME_NEAR_MASK = a % 256 :=
  Nat.and_two_pow_sub_one_eq_mod a 8

theorem and_level_mask (a : Nat) : a &&& TIME_LEVEL_MASK = a % 64 :=
  Nat.and_two_pow_sub_one_eq_mod a 6

/-- One round of the level loop with the mask `2 ^ k`. -/
theorem findLevel_succ (e c rounds i k : Nat) :
    findLevel e c (rounds + 1) i (2 ^ k) =
      if e / 2 ^ k = c / 2 ^ k then i else findLevel e c rounds (i + 1) (2 ^ (k + 6)) := by
  rw [findLevel, Nat.shiftLeft_eq, ← Nat.pow_add]
  simp only [or_mask_eq_iff]

/-- The level loop picks the first level whose mask hides every difference. -/
theorem findLevel_eq (e c : Nat) :
    findLevel e c 3 0 (TIME_NEAR <<< 6) =
      if e / 2 ^ 14 = c / 2 ^ 14 then 0 else if e / 2 ^ 20 = c / 2 ^ 20 then 1
      else if e / 2 ^ 26 = c / 2 ^ 26 then 2 else 3 := by
  rw [show TIME_NEAR <<< 6 = 2 ^ 14 from rfl, findLevel_succ, findLevel_succ, findLevel_succ,
    findLevel]

/-- Bits of the clock below level `l`: `2 ^ width l` is the number of ticks one slot spans. -/
def width (l : Nat) : Nat := 8 + l * 6

/-- `place` with its masks read as quotients. -/
theorem place_eq (e c : Nat) :
    place e c =
      if e / 256 = c / 256 then .near (e % 256)
      else if e / 2 ^ 14 = c / 2 ^ 14 then .level 0 (e / 2 ^ 8 % 64)
      else if e / 2 ^ 20 = c / 2 ^ 20 then .level 1 (e / 2 ^ 14 % 64)
      else if e / 2 ^ 26 = c / 2 ^ 26 then .level 2 (e / 2 ^ 20 % 64)
      else .level 3 (e / 2 ^ 26 % 64) := by
  simp only [place, or_near_mask, and_near_mask, and_level_mask, findLevel_eq,
    Nat.shiftRight_eq_div_pow]
  split_ifs <;> rfl

theorem place_near_iff {e c i : Nat} :
    place e c = .near i ↔ e / 256 = c / 256 ∧ i = e % 256 := by
  rw [place_eq]
  split_ifs with h <;> simp [h, eq_comm]

theorem width_succ (l : Nat) : width (l + 1) = width l + 6 := by
  simp only [width]
  omega

theorem quot_succ (l x : Nat) : x / 2 ^ width (l + 1) = x / 2 ^ width l / 64 := by
  rw [Nat.div_div_eq_div_mul, show 64 = 2 ^ 6 from rfl, ← Nat.pow_add, width_succ]

theorem quot_eq_of_le {a b l m : Nat} (h : a / 2 ^ width l = b / 2 ^ width l) (hlm : l ≤ m) :
    a / 2 ^ width m = b / 2 ^ width m := by
  induction m, hlm using Nat.le_induction with
  | base => exact h
  | succ m _ ih => rw [quot_succ, quot_succ, ih]

/-- A timer is filed on level `l` iff expiry and time differ above that level's slot width and
agree above the next one (every 32-bit pair agrees above the last). -/
theorem place_level_iff {e c l i : Nat} :
    place e c = .level l i ↔
      l ≤ 3 ∧ e / 2 ^ width l ≠ c / 2 ^ width l ∧
        (l < 3 → e / 2 ^ width (l + 1) = c / 2 ^ width (l + 1)) ∧
        i = e / 2 ^ width l % 64 := by
  rw [place_eq]
  constructor
  · intro h
    split at h
    · cases h
    rename_i h0
    split at h
    · rename_i h1
      cases h
      exact ⟨by omega, h0, fun _ => h1, rfl⟩
    rename_i h1
    split at h
    · rename_i h2
      cases h
      exact ⟨by omega, h1, fun _ => h2, rfl⟩
    rename_i h2
    split at h
    · rename_i h3
      cases h
      exact ⟨by omega, h2, fun _ => h3, rfl⟩
    · rename_i h3
      cases h
      exact ⟨le_refl 3, h3, fun hlt => absurd hlt (lt_irrefl 3), rfl⟩
  · rintro ⟨hl, hd, ha, rfl⟩
    have hne : ∀ m, m ≤ l → e / 2 ^ width m ≠ c / 2 ^ width m :=
      fun m hm heq => hd (quot_eq_of_le heq hm)
    have h0 : e / 256 ≠ c / 256 := hne 0 (Nat.zero_le l)
    rw [if_neg h0]
    rcases (by omega : l = 0 ∨ l = 1 ∨ l = 2 ∨ l = 3) with rfl | rfl | rfl | rfl
    · have h1 : e / 2 ^ 14 = c / 2 ^ 14 := ha (by omega)
      rw [if_pos h1]
      rfl
    · have h1 : e / 2 ^ 14 ≠ c / 2 ^ 14 := hne 1 (by omega)
      have h2 : e / 2 ^ 20 = c / 2 ^ 20 := ha (by omega)
      rw [if_neg h1, if_pos h2]
      rfl
    · have h1 : e / 2 ^ 14 ≠ c / 2 ^ 14 := hne 1 (by omega)
      have h2 : e / 2 ^ 20 ≠ c / 2 ^ 20 := hne 2 (by omega)
      have h3 : e / 2 ^ 26 = c / 2 ^ 26 := ha (by omega)
      rw [if_neg h1, if_neg h2, if_pos h3]
      rfl
    · have h1 : e / 2 ^ 14 ≠ c / 2 ^ 14 := hne 1 (by omega)
      have h2 : e / 2 ^ 20 ≠ c / 2 ^ 20 := hne 2 (by omega)
      have h3 : e / 2 ^ 26 ≠ c / 2 ^ 26 := hne 3 (by omega)
      rw [if_neg h1, if_neg h2, if_neg h3]
      rfl

/-! ## The cascade -/

theorem mod_width_of_le {ct l m : Nat} (hz : ct % 2 ^ width l = 0) (hml : m ≤ l) :
    ct % 2 ^ width m = 0 := by
  have hd : 2 ^ width m ∣ 2 ^ width l := Nat.pow_dvd_pow 2 (by simp only [width]; omega)
  exact Nat.mod_eq_zero_of_dvd (hd.trans (Nat.dvd_of_mod_eq_zero hz))

/-- The low bits below a level are those of the level under it and one digit. -/
theorem mod_succ_iff (ct l : Nat) :
    ct % 2 ^ width (l + 1) = 0 ↔ ct % 2 ^ width l = 0 ∧ ct / 2 ^ width l % 64 = 0 := by
  rw [width_succ, Nat.pow_add, show 2 ^ 6 = 64 from rfl, Nat.mod_mul]
  have hpos : 0 < 2 ^ width l := Nat.two_pow_pos _
  constructor
  · intro h
    obtain ⟨h1, h2⟩ := Nat.eq_zero_of_add_eq_zero h
    exact ⟨h1, (Nat.mul_eq_zero.mp h2).resolve_left hpos.ne'⟩
  · rintro ⟨h1, h2⟩
    rw [h1, h2, Nat.mul_zero]

/-- The digits below a level whose low bits are zero. -/
theorem digit_eq_zero {ct l m : Nat} (hz : ct % 2 ^ width l = 0) (hml : m < l) :
    ct / 2 ^ width m % 64 = 0 :=
  ((mod_succ_iff ct m).mp (mod_width_of_le hz hml)).2

/-- One round of the shift loop on level `l`. -/
theorem shiftLoop_succ (ct rounds l : Nat) :
    shiftLoop ct (rounds + 1) l (2 ^ width l) (ct / 2 ^ width l) =
      if ct % 2 ^ width l = 0 then
        if ct / 2 ^ width l % 64 ≠ 0 then .move l (ct / 2 ^ width l % 64)
        else shiftLoop ct rounds (l + 1) (2 ^ width (l + 1)) (ct / 2 ^ width (l + 1))
      else .noMove := by
  rw [shiftLoop, Nat.shiftLeft_eq, ← Nat.pow_add, Nat.and_two_pow_sub_one_eq_mod, and_level_mask,
    Nat.shiftRight_eq_div_pow, Nat.div_div_eq_div_mul, ← Nat.pow_add, width_succ]

/-- The loop stops at the first digit that is not zero. -/
theorem shiftLoop_spec {ct : Nat} (rounds l : Nat) (hz : ct % 2 ^ width l = 0) :
    (shiftLoop ct rounds l (2 ^ width l) (ct / 2 ^ width l) = .turning ∧
      ct % 2 ^ width (l + rounds) = 0) ∨
    ∃ m, m < l + rounds ∧ ct % 2 ^ width m = 0 ∧ ct / 2 ^ width m % 64 ≠ 0 ∧
      shiftLoop ct rounds l (2 ^ width l) (ct / 2 ^ width l) =
        .move m (ct / 2 ^ width m % 64) := by
  induction rounds generalizing l with
  | zero => exact .inl ⟨rfl, hz⟩
  | succ rounds ih =>
    rw [shiftLoop_succ, if_pos hz]
    by_cases hd : ct / 2 ^ width l % 64 = 0
    · rw [if_neg (not_not_intro hd), show l + (rounds + 1) = l + 1 + rounds by omega]
      exact ih (l + 1) ((mod_succ_iff ct l).mpr ⟨hz, hd⟩)
    · rw [if_pos hd]
      exact .inr ⟨l, by omega, hz, hd, rfl⟩

/-- The move of a shift to a non-zero time, read off the digits of that time. -/
theorem shiftMove_cases {ct : Nat} (h0 : ct ≠ 0) :
    (ct % 2 ^ width 0 ≠ 0 ∧ shiftMove ct = .noMove) ∨
    (ct % 2 ^ width 4 = 0 ∧ shiftMove ct = .turning) ∨
    ∃ m, m ≤ 3 ∧ ct % 2 ^ width m = 0 ∧ ct / 2 ^ width m % 64 ≠ 0 ∧
      shiftMove ct = .move m (ct / 2 ^ width m % 64) := by
  have he : shiftMove ct = shiftLoop ct 4 0 (2 ^ width 0) (ct / 2 ^ width 0) := by
    rw [shiftMove, if_neg h0, Nat.shiftRight_eq_div_pow]
    rfl
  rw [he]
  by_cases hz : ct % 2 ^ width 0 = 0
  · rcases shiftLoop_spec 4 0 hz with ⟨h, h4⟩ | ⟨m, hm, hz', hd, h⟩
    · exact .inr (.inl ⟨h4, h⟩)
    · exact .inr (.inr ⟨m, by omega, hz', hd, h⟩)
  · rw [shiftLoop_succ, if_neg hz]
    exact .inl ⟨hz, rfl⟩

/-- A shift to `ct` moves slot `(l, idx)` iff all digits of `ct` below level `l` are zero and its
digit at level `l` is `idx`, which is not zero. -/
theorem shiftMove_move_iff {ct l idx : Nat} (h0 : ct ≠ 0) :
    shiftMove ct = .move l idx ↔
      l ≤ 3 ∧ ct % 2 ^ width l = 0 ∧ idx ≠ 0 ∧ idx = ct / 2 ^ width l % 64 := by
  constructor
  · intro h
    rcases shiftMove_cases h0 with ⟨-, he⟩ | ⟨-, he⟩ | ⟨m, hm, hz, hd, he⟩ <;> rw [h] at he <;>
      cases he
    exact ⟨hm, hz, hd, rfl⟩
  · rintro ⟨hl, hz, hn, rfl⟩
    rcases shiftMove_cases h0 with ⟨hne, -⟩ | ⟨h4, -⟩ | ⟨m, hm, hz', hd, he⟩
    · exact absurd (mod_width_of_le hz (Nat.zero_le l)) hne
    · exact absurd (digit_eq_zero h4 (Nat.lt_succ_of_le hl)) hn
    · -- two levels with zeros below and a digit that is not zero are one
      rcases lt_trichotomy m l with hlt | rfl | hlt
      · exact absurd (digit_eq_zero hz hlt) hd
      · exact he
      · exact absurd (digit_eq_zero hz' hlt) hn

/-- The loop of `timer_shift` ends: within four rounds, hence with a level index of at most 3. -/
theorem shiftMove_ne_turning {ct : Nat} (hct : ct < 2 ^ 32) : shiftMove ct ≠ .turning := by
  by_cases h0 : ct = 0
  · subst h0
    simp [shiftMove]
  · intro h
    rcases shiftMove_cases h0 with ⟨-, he⟩ | ⟨h4, -⟩ | ⟨m, -, -, -, he⟩
    · rw [h] at he
      cases he
    · have h32 : ct % 2 ^ 32 = 0 := h4
      omega
    · rw [h] at he
      cases he

/-- Below `2 ^ 26` nothing is filed at the last level. -/
theorem place_ne_top {e c idx : Nat} (he : e < 2 ^ 26) (hc : c < 2 ^ 26) :
    place e c ≠ .level 3 idx := by
  rw [place_eq]
  have hquot : e / 2 ^ 26 = c / 2 ^ 26 := by rw [Nat.div_eq_of_lt he, Nat.div_eq_of_lt hc]
  split_ifs <;> simp

/-- Nor is a slot of it moved. -/
theorem shiftMove_ne_top {ct idx : Nat} (h0 : ct ≠ 0) (hct : ct < 2 ^ 26) :
    shiftMove ct ≠ .move 3 idx := by
  intro hm
  obtain ⟨-, -, hne, hidx⟩ := (shiftMove_move_iff h0).mp hm
  rw [Nat.div_eq_of_lt (by simpa [width] using hct)] at hidx
  exact hne hidx

theorem shiftMove_noMove_iff {ct : Nat} (h0 : ct ≠ 0) :
    shiftMove ct = .noMove ↔ ct % 256 ≠ 0 := by
  constructor
  · intro h
    rcases shiftMove_cases h0 with ⟨hne, -⟩ | ⟨-, he⟩ | ⟨m, -, -, -, he⟩
    · exact hne
    · rw [h] at he
      cases he
    · rw [h] at he
      cases he
  · intro h
    rcases shiftMove_cases h0 with ⟨-, he⟩ | ⟨h4, -⟩ | ⟨m, -, hz, -, -⟩
    · exact he
    · exact absurd (mod_width_of_le h4 (Nat.zero_le 4)) h
    · exact absurd (mod_width_of_le hz (Nat.zero_le m)) h

/-- Advancing the clock leaves a quotient unless the low digits become zero. -/
theorem quot_tick (c l : Nat) :
    (c + 1) / 2 ^ width l = c / 2 ^ width l + if (c + 1) % 2 ^ width l = 0 then 1 else 0 := by
  rw [Nat.succ_div]
  simp only [Nat.dvd_iff_mod_eq_zero]

/-- A timer that is still to come differs from the old time above every level whose low digits
become zero. -/
theorem quot_ne_of_carry {e c l : Nat} (he : c + 1 ≤ e) (hz : (c + 1) % 2 ^ width l = 0) :
    e / 2 ^ width l ≠ c / 2 ^ width l := by
  have hq := quot_tick c l
  rw [if_pos hz] at hq
  have hle : (c + 1) / 2 ^ width l ≤ e / 2 ^ width l := Nat.div_le_div_right he
  omega

/-- Above the moved level the quotients of the old and the new time agree. -/
theorem quot_above_move {c l m : Nat} (hd : (c + 1) / 2 ^ width l % 64 ≠ 0) (hlm : l < m) :
    (c + 1) / 2 ^ width m = c / 2 ^ width m := by
  refine quot_eq_of_le ?_ hlm
  have hq := quot_tick c l
  rw [quot_succ, quot_succ]
  split_ifs at hq <;> omega

/-- Slot selection depends on the time above its low 8 bits only. -/
theorem place_congr {e c c' : Nat} (h : c / 256 = c' / 256) : place e c = place e c' := by
  have h0 : c / 2 ^ width 0 = c' / 2 ^ width 0 := h
  have h1 := quot_eq_of_le h0 (Nat.zero_le 1)
  have h2 := quot_eq_of_le h0 (Nat.zero_le 2)
  have h3 := quot_eq_of_le h0 (Nat.zero_le 3)
  simp only [width] at h1 h2 h3
  rw [place_eq, place_eq, h, h1, h2, h3]

/-- A timer outside the moved slot keeps its slot. -/
theorem place_succ_of_ne {e c : Nat} (he : c + 1 ≤ e)
    (h : ∀ l idx, shiftMove (c + 1) = .move l idx → place e c ≠ .level l idx)
    (ht : shiftMove (c + 1) ≠ .turning) : place e (c + 1) = place e c := by
  cases hm : shiftMove (c + 1) with
  | turning => exact absurd hm ht
  | noMove =>
    have hz := (shiftMove_noMove_iff (Nat.succ_ne_zero c)).mp hm
    exact place_congr (by omega)
  | move l idx =>
    obtain ⟨hl, hz, hn, hidx⟩ := (shiftMove_move_iff (Nat.succ_ne_zero c)).mp hm
    have hne := h l idx hm
    cases hp : place e c with
    | near i =>
      have hq := quot_ne_of_carry he (mod_width_of_le hz (Nat.zero_le l))
      exact absurd (place_near_iff.mp hp).1 hq
    | level m i =>
      obtain ⟨hm3, hd, ha, hi⟩ := place_level_iff.mp hp
      have habove : ∀ k, l < k → (c + 1) / 2 ^ width k = c / 2 ^ width k :=
        fun k hk => quot_above_move (hidx ▸ hn) hk
      have hlm : l ≤ m := by
        by_contra hlt
        exact quot_ne_of_carry he (mod_width_of_le hz (by omega)) (ha (by omega))
      refine place_level_iff.mpr ⟨hm3, ?_, fun hm3' => ?_, hi⟩
      · rcases Nat.eq_or_lt_of_le hlm with rfl | hlt
        -- on the moved level itself the timer has another digit than the new time
        · intro hq
          exact hne (hp.trans (by rw [hi, hq, ← hidx]))
        · rw [habove m hlt]; exact hd
      · rw [habove (m + 1) (by omega)]; exact ha hm3'

/-- A timer in the moved slot agrees with the new time from the moved level upwards. -/
theorem place_move_quot {e c l idx : Nat} (he : e < 2 ^ 32) (hc : c + 1 < 2 ^ 32)
    (hm : shiftMove (c + 1) = .move l idx) (hp : place e c = .level l idx) :
    e / 2 ^ width l = (c + 1) / 2 ^ width l := by
  obtain ⟨hl, hz, hn, hidx⟩ := (shiftMove_move_iff (Nat.succ_ne_zero c)).mp hm
  obtain ⟨_, hd, ha, hi⟩ := place_level_iff.mp hp
  have hab := quot_above_move (hidx ▸ hn) (Nat.lt_succ_self l)
  have htop : e / 2 ^ width (l + 1) = (c + 1) / 2 ^ width (l + 1) := by
    by_cases h3 : l < 3
    · rw [ha h3, hab]
    · have : l = 3 := by omega
      subst this
      simp only [width] at *
      omega
  rw [quot_succ, quot_succ] at htop
  have hdig : e / 2 ^ width l % 64 = (c + 1) / 2 ^ width l % 64 := hi.symm.trans hidx
  generalize e / 2 ^ width l = p at htop hdig ⊢
  generalize (c + 1) / 2 ^ width l = q at htop hdig ⊢
  omega

/-- A timer in the moved slot leaves it. -/
theorem place_succ_ne_move {e c l idx : Nat} (he : e < 2 ^ 32) (hc : c + 1 < 2 ^ 32)
    (hm : shiftMove (c + 1) = .move l idx) (hp : place e c = .level l idx) :
    place e (c + 1) ≠ .level l idx := fun h =>
  (place_level_iff.mp h).2.1 (place_move_quot he hc hm hp)

/-- A slot that receives a cascaded timer holds no other one: whoever is placed there at the new
time came out of the moved slot too. -/
theorem place_cascade_target {e e' c l idx : Nat} (he : e < 2 ^ 32) (hc : c + 1 < 2 ^ 32)
    (he' : c + 1 ≤ e') (hm : shiftMove (c + 1) = .move l idx) (hp : place e c = .level l idx)
    (hs : place e' (c + 1) = place e (c + 1)) : place e' c = .level l idx := by
  obtain ⟨hl, hz, hn, hidx⟩ := (shiftMove_move_iff (Nat.succ_ne_zero c)).mp hm
  have hq := place_move_quot he hc hm hp
  have hq' : e' / 2 ^ width l = (c + 1) / 2 ^ width l := by
    cases hpe : place e (c + 1) with
    | near i =>
      rw [hpe] at hs
      have h0 : e' / 2 ^ width 0 = (c + 1) / 2 ^ width 0 := (place_near_iff.mp hs).1
      exact quot_eq_of_le h0 (Nat.zero_le l)
    | level m i =>
      rw [hpe] at hs
      have hml : m < l := by
        by_contra hge
        exact (place_level_iff.mp hpe).2.1 (quot_eq_of_le hq (by omega))
      exact quot_eq_of_le ((place_level_iff.mp hs).2.2.1 (by omega)) (by omega)
  have hab := quot_above_move (hidx ▸ hn) (Nat.lt_succ_self l)
  refine place_level_iff.mpr ⟨hl, quot_ne_of_carry he' hz, fun _ => ?_, by rw [hq', hidx]⟩
  rw [← hab]
  exact quot_eq_of_le hq' (Nat.le_succ l)

/-- The near slot of the current time holds exactly the timers due now. -/
theorem place_eq_near_self {e c : Nat} : place e c = .near (c &&& TIME_NEAR_MASK) ↔ e = c := by
  rw [place_near_iff, and_near_mask]
  omega

/-! ## The loop of `timer_shift` with its own integers -/

/-- The local variables of `timer_shift` and the calls of `list_move` made so far. -/
structure ShiftState where
  i : Nat
  mask : Nat
  t : Nat
  moves : List (Nat × Nat)
  deriving DecidableEq, Repr

/-- How a round of the loop ends. `overflow` is a `mask <<= 6` that no `int` holds. -/
inductive ShiftRound where
  | again (s : ShiftState)
  | leave (s : ShiftState)
  | overflow
  deriving DecidableEq, Repr

/-- One evaluation of `while ((ct & (mask - 1)) == 0)` and of the body under it. -/
def shiftRound (ct : Nat) (s : ShiftState) : ShiftRound :=
  if ct &&& (s.mask - 1) = 0 then
    let idx := s.t &&& TIME_LEVEL_MASK
    if idx ≠ 0 then .leave { s with moves := s.moves ++ [(s.i, idx)] }
    else if s.mask <<< 6 < 2 ^ 31 then
      .again { s with mask := s.mask <<< 6, t := s.t >>> 6, i := s.i + 1 }
    else .overflow
  else .leave s

/-- The loop; `none` when it overflows or needs more rounds than the first argument. -/
def shiftWhile (ct : Nat) : Nat → ShiftState → Option ShiftState
  | 0, _ => none
  | rounds + 1, s =>
    match shiftRound ct s with
    | .again s => shiftWhile ct rounds s
    | .leave s => some s
    | .overflow => none

/-- The variables before the loop, for the new time `ct`. -/
def ShiftState.start (ct : Nat) : ShiftState := ⟨0, TIME_NEAR, ct >>> 8, []⟩

def ShiftOutcome.moves : ShiftOutcome → List (Nat × Nat)
  | .move level idx => [(level, idx)]
  | _ => []

theorem shiftWhile_succ (ct rounds l : Nat) :
    shiftWhile ct (rounds + 1) ⟨l, 2 ^ width l, ct / 2 ^ width l, []⟩ =
      if ct % 2 ^ width l = 0 then
        if ct / 2 ^ width l % 64 ≠ 0 then
          some ⟨l, 2 ^ width l, ct / 2 ^ width l, [(l, ct / 2 ^ width l % 64)]⟩
        else if 2 ^ width (l + 1) < 2 ^ 31 then
          shiftWhile ct rounds ⟨l + 1, 2 ^ width (l + 1), ct / 2 ^ width (l + 1), []⟩
        else none
      else some ⟨l, 2 ^ width l, ct / 2 ^ width l, []⟩ := by
  have hm : (2 ^ width l) <<< 6 = 2 ^ width (l + 1) := by
    rw [Nat.shiftLeft_eq, ← Nat.pow_add, width_succ]
  have ht : (ct / 2 ^ width l) >>> 6 = ct / 2 ^ width (l + 1) := by
    rw [Nat.shiftRight_eq_div_pow, quot_succ]
  simp only [shiftWhile, shiftRound, Nat.and_two_pow_sub_one_eq_mod, and_level_mask, hm, ht,
    List.nil_append]
  split_ifs <;> rfl

/-- Where the bounded loop ends, the loop with its `int` mask ends on a level up to 3 and has made
the same move. -/
theorem shiftWhile_spec {ct : Nat} (rounds l : Nat) (hl : l + rounds = 4)
    (ht : shiftLoop ct rounds l (2 ^ width l) (ct / 2 ^ width l) ≠ .turning) :
    ∃ s, (∀ n, rounds ≤ n →
        shiftWhile ct n ⟨l, 2 ^ width l, ct / 2 ^ width l, []⟩ = some s) ∧
      s.i ≤ 3 ∧ s.mask = 2 ^ width s.i ∧
      s.moves = (shiftLoop ct rounds l (2 ^ width l) (ct / 2 ^ width l)).moves := by
  induction rounds generalizing l with
  | zero => exact absurd rfl ht
  | succ rounds ih =>
    have hrun : ∀ n, rounds + 1 ≤ n → ∃ m, n = m + 1 ∧ rounds ≤ m :=
      fun n hn => ⟨n - 1, by omega, by omega⟩
    rw [shiftLoop_succ] at ht ⊢
    by_cases hz : ct % 2 ^ width l = 0
    · rw [if_pos hz] at ht ⊢
      by_cases hd : ct / 2 ^ width l % 64 = 0
      · rw [if_neg (not_not_intro hd)] at ht ⊢
        obtain ⟨s, hs, hi, hmask, hmoves⟩ := ih (l + 1) (by omega) ht
        -- a round is left for the next level, so that level is at most 3 and its mask fits
        have hl3 : l + 1 ≤ 3 := by
          by_contra h
          have h0 : rounds = 0 := by omega
          subst h0
          exact ht rfl
        have hfit : 2 ^ width (l + 1) < 2 ^ 31 :=
          Nat.pow_lt_pow_right (by omega) (by unfold width; omega)
        refine ⟨s, fun n hn => ?_, hi, hmask, hmoves⟩
        obtain ⟨m, rfl, hm⟩ := hrun n hn
        rw [shiftWhile_succ, if_pos hz, if_neg (not_not_intro hd), if_pos hfit]
        exact hs m hm
      · rw [if_pos hd]
        refine ⟨⟨l, 2 ^ width l, ct / 2 ^ width l, [(l, ct / 2 ^ width l % 64)]⟩,
          fun n hn => ?_, (by omega : l ≤ 3), rfl, rfl⟩
        obtain ⟨m, rfl, -⟩ := hrun n hn
        rw [shiftWhile_succ, if_pos hz, if_pos hd]
    · rw [if_neg hz]
      refine ⟨⟨l, 2 ^ width l, ct / 2 ^ width l, []⟩, fun n hn => ?_, (by omega : l ≤ 3), rfl, rfl⟩
      obtain ⟨m, rfl, -⟩ := hrun n hn
      rw [shiftWhile_succ, if_neg hz]

theorem ShiftOutcome.mem_moves {o : ShiftOutcome} {level idx : Nat} :
    (level, idx) ∈ o.moves ↔ o = .move level idx := by
  cases o <;> simp [ShiftOutcome.moves, eq_comm]

theorem ShiftOutcome.length_moves (o : ShiftOutcome) : o.moves.length ≤ 1 := by
  cases o <;> simp [ShiftOutcome.moves]

/-- A timer changes its slot exactly when it lies in the slot that is moved. -/
theorem place_ne_iff {e c : Nat} (he : e < 2 ^ 32) (hce : c + 1 ≤ e) :
    place e (c + 1) ≠ place e c ↔
      ∃ l idx, shiftMove (c + 1) = .move l idx ∧ place e c = .level l idx := by
  constructor
  · intro hne
    by_contra hnone
    refine hne (place_succ_of_ne hce (fun l idx hm hp => ?_) (shiftMove_ne_turning (by omega)))
    exact hnone ⟨l, idx, hm, hp⟩
  · rintro ⟨l, idx, hm, hp⟩
    rw [hp]
    exact place_succ_ne_move he (by omega) hm hp

/-- **One cascade per shift.** For every new time that is not 0 the loop of `timer_shift` ends after
at most four rounds, on a level up to 3 and with a mask that fits an `int`. It calls `list_move` at
most once, for a slot that is not the first of its level, and a timer still to come changes its slot
exactly when it lies in the slot that is moved. -/
theorem one_cascade_exact {ct e : Nat} (h0 : ct ≠ 0) (hct : ct ≤ e) (he : e < 2 ^ 32) :
    ∃ s, (∀ rounds, 4 ≤ rounds → shiftWhile ct rounds (.start ct) = some s) ∧
      s.i ≤ 3 ∧ s.mask < 2 ^ 31 ∧
      s.moves.length ≤ 1 ∧ (∀ l idx, (l, idx) ∈ s.moves → l ≤ 3 ∧ idx ≠ 0) ∧
      (place e ct ≠ place e (ct - 1) ↔
        ∃ l idx, (l, idx) ∈ s.moves ∧ place e (ct - 1) = .level l idx) := by
  obtain ⟨c, rfl⟩ : ∃ c, ct = c + 1 := ⟨ct - 1, by omega⟩
  have hturn := shiftMove_ne_turning (show c + 1 < 2 ^ 32 by omega)
  have hloop : shiftMove (c + 1) = shiftLoop (c + 1) 4 0 (2 ^ width 0) ((c + 1) / 2 ^ width 0) := by
    rw [shiftMove, if_neg h0, Nat.shiftRight_eq_div_pow]
    rfl
  have hstart : ShiftState.start (c + 1) = ⟨0, 2 ^ width 0, (c + 1) / 2 ^ width 0, []⟩ := by
    rw [ShiftState.start, Nat.shiftRight_eq_div_pow]
    rfl
  obtain ⟨s, hs, hi, hmask, hmoves⟩ := shiftWhile_spec 4 0 rfl (hloop ▸ hturn)
  rw [← hloop] at hmoves
  refine ⟨s, fun n hn => ?_, hi, ?_, ?_, fun l idx hm => ?_, ?_⟩
  · rw [hstart]
    exact hs n hn
  · rw [hmask]
    exact Nat.pow_lt_pow_right (by omega) (by unfold width; omega)
  · rw [hmoves]
    exact ShiftOutcome.length_moves _
  · rw [hmoves, ShiftOutcome.mem_moves, shiftMove_move_iff h0] at hm
    exact ⟨hm.1, hm.2.2.1⟩
  · rw [hmoves, Nat.add_sub_cancel, place_ne_iff he hct]
    simp only [ShiftOutcome.mem_moves]

/-- At the time 256 the timer of expiry 300 leaves slot 1 of the first level for the near wheel. -/
theorem one_cascade_exact_256 :
    (256 ≠ 0 ∧ 256 ≤ 300 ∧ 300 < 2 ^ 32) ∧
    ∃ s, (∀ rounds, 4 ≤ rounds → shiftWhile 256 rounds (.start 256) = some s) ∧
      s.i ≤ 3 ∧ s.mask < 2 ^ 31 ∧
      s.moves.length ≤ 1 ∧ (∀ l idx, (l, idx) ∈ s.moves → l ≤ 3 ∧ idx ≠ 0) ∧
      (place 300 256 ≠ place 300 (256 - 1) ↔
        ∃ l idx, (l, idx) ∈ s.moves ∧ place 300 (256 - 1) = .level l idx) :=
  ⟨by decide, one_cascade_exact (by decide) (by decide) (by decide)⟩

end HoNet.Timer
