import HoNet.RingFifo

/-!
# Reading back what a ring buffer was made from

`ring_buffer(data, len)` rounds its capacity to an even number, which need not be a power of two.
`readbuffer` reduces the cursor with `%` and `read` masks it with `size - 1`, so that the two agree only
where the mask takes nothing away.

* `read_cursor`, `drain_cursor` — what one step reads.
* `readOut_iff` — the splits that read the data back.
* `reads_back_iff` — the lengths for which all splits do.
-/

namespace HoNet.RingBuffer

/-! ## Splits -/

/-- A call `read(n)`, or `readbuffer` and taking `m` bytes with `read_ok(m)`. -/
inductive ReadStep where
  | read (n : Nat)
  | take (m : Nat)
  deriving DecidableEq, Repr

def ReadStep.size : ReadStep → Nat
  | .read n => n
  | .take m => m

/-- All bytes that the steps read; `none` when a `read` returns false or an assertion fails. -/
def readOut : RingBuffer → List ReadStep → Option (List UInt8)
  | _, [] => some []
  | b, .read n :: steps => (b.read n).2.bind fun d => (readOut (b.read n).1 steps).map (d ++ ·)
  | b, .take m :: steps => (b.drain m).bind fun r => (readOut r.1 steps).map (r.2 ++ ·)

/-- The steps are a way of splitting the reading of `len` bytes. -/
def Splits (len : Nat) (steps : List ReadStep) : Prop := (steps.map ReadStep.size).sum = len

/-- The capacity that `init` gives to a buffer for `len` bytes. -/
def capacity (len : Nat) : Nat := if len &&& (len - 1) = 0 then len else (len / 2 + 1) * 2 % 2 ^ 32

/-- Wherever a `read(n)` begins, masking the cursor leads to the same `n` bytes. -/
def Masked (data : List UInt8) : Nat → List ReadStep → Prop
  | _, [] => True
  | o, .read n :: steps =>
    (data.drop (o &&& (capacity data.length - 1))).take n = (data.drop o).take n ∧
      Masked data (o + n) steps
  | o, .take m :: steps => Masked data (o + m) steps

variable {b : RingBuffer} {data : List UInt8} {o n m len : Nat} {steps : List ReadStep}

theorem init_size_eq (b : RingBuffer) (hpos : 0 < len) (hlt : len < 2 ^ 32) :
    (b.init len).size = capacity len := by
  have hsub : sub32 len 1 = len - 1 := sub32_eq hpos hlt
  simp only [init, capacity, hsub, Nat.shiftLeft_eq, Nat.shiftRight_eq_div_pow, pow_one]
  by_cases hmask : len &&& (len - 1) = 0
  · rw [if_pos hmask, if_neg (by simp [hmask])]
  · rw [if_neg hmask, if_pos ⟨by omega, hmask⟩]

/-! ## One step -/

/-- `data` is stored and its first `o` bytes have been read. -/
structure Cursor (data : List UInt8) (b : RingBuffer) (o : Nat) : Prop where
  filled : b.Filled
  size_eq : b.size = capacity data.length
  inp_eq : b.inp = data.length
  out_eq : b.out = o
  bytes : b.buffer.take data.length = data

theorem Cursor.region (h : Cursor data b o) {p : Nat} (hp : p + n ≤ data.length) :
    (b.buffer.drop p).take n = (data.drop p).take n := by
  conv_rhs => rw [← h.bytes]
  rw [List.drop_take, List.take_take, Nat.min_eq_left (by omega)]

theorem Cursor.next (h : Cursor data b o) (hn : o + n ≤ data.length) :
    Cursor data (b.readOk n) (o + n) := by
  have hlen := h.filled.content_length
  rw [h.inp_eq, h.out_eq] at hlen
  have hsize := h.filled.size_lt
  have hinp := h.filled.inp_le
  rw [h.inp_eq] at hinp
  refine ⟨(h.filled.readOk (by omega)).1, h.size_eq, h.inp_eq, ?_, h.bytes⟩
  rw [readOk, h.out_eq]
  exact Nat.mod_eq_of_lt (by omega)

theorem Cursor.count_eq (h : Cursor data b o) : sub32 b.inp b.out = data.length - o := by
  have hO := h.filled.out_le
  have hI := h.filled.inp_le
  have hsize := h.filled.size_lt
  rw [h.inp_eq, h.out_eq] at *
  exact sub32_eq (by omega) (by omega)

theorem read_cursor (h : Cursor data b o) (hn : o + n ≤ data.length) (hpos : 0 < data.length) :
    b.read n = (b.readOk n, some ((data.drop (o &&& (capacity data.length - 1))).take n)) := by
  have hsize := h.filled.size_lt
  have hinp := h.filled.inp_le
  rw [h.inp_eq] at hinp
  have hmask : o &&& (b.size - 1) ≤ o := Nat.and_le_left
  have hl : (if n < b.size - (o &&& (b.size - 1)) then n else b.size - (o &&& (b.size - 1))) = n := by
    split <;> omega
  simp only [read, h.count_eq, sub32_eq (show 1 ≤ b.size by omega) hsize]
  rw [if_neg (by omega), ← h.size_eq, readOk, h.out_eq, sub32_eq (by omega) hsize, hl,
    sub32_eq le_rfl (show n < 2 ^ 32 by omega), Nat.sub_self, List.take_zero, List.append_nil,
    h.region (by omega)]

theorem drain_cursor (h : Cursor data b o) (hm : o + m ≤ data.length) :
    b.drain m = some (b.readOk m, (data.drop o).take m) := by
  have hsize := h.filled.size_lt
  have hinp := h.filled.inp_le
  rw [h.inp_eq] at hinp
  have hlen := h.filled.content_length
  rw [h.inp_eq, h.out_eq] at hlen
  by_cases hend : b.content = []
  · rw [hend, List.length_nil] at hlen
    obtain rfl : m = 0 := by omega
    have hnone : b.readbuffer = none := by
      simp only [readbuffer, h.count_eq]
      exact if_pos (by omega)
    have hsame : b.readOk 0 = b := by
      have hout : (b.out + 0) % 2 ^ 32 = b.out := by
        rw [h.out_eq]
        exact Nat.mod_eq_of_lt (by omega)
      rw [readOk, hout]
    simp only [drain, hnone, hsame, List.take_zero]
  · obtain ⟨hread, -⟩ := h.filled.readbuffer_eq hend
    rw [h.inp_eq, h.out_eq] at hread
    simp only [drain, hread, Nat.min_eq_left (show m ≤ data.length - o by omega), h.count_eq]
    rw [if_pos (by omega), RingBuffer.region, h.region hm]

/-! ## All steps -/

/-- The bytes are those that are left exactly if every masked cursor leads to the right ones. -/
theorem readOut_from (h : Cursor data b o) (hpos : 0 < data.length)
    (hs : Splits (data.length - o) steps) (ho : o ≤ data.length) :
    ∃ r, readOut b steps = some r ∧ (r = data.drop o ↔ Masked data o steps) := by
  induction steps generalizing b o with
  | nil =>
    have hend : data.length - o = 0 := hs.symm
    refine ⟨[], rfl, iff_of_true ?_ trivial⟩
    rw [List.drop_eq_nil_of_le (by omega)]
  | cons st steps ih =>
    have hsum : st.size + (steps.map ReadStep.size).sum = data.length - o := hs
    have hfits : o + st.size ≤ data.length := by omega
    have hsplit : data.drop o = (data.drop o).take st.size ++ data.drop (o + st.size) := by
      rw [← List.drop_drop, List.take_append_drop]
    obtain ⟨r, hr, hiff⟩ := ih (h.next hfits) (show _ = _ by omega) hfits
    cases st with
    | read n =>
      simp only [ReadStep.size] at hfits hsplit hr hiff
      refine ⟨(data.drop (o &&& (capacity data.length - 1))).take n ++ r, ?_, ?_⟩
      · rw [readOut, read_cursor h hfits hpos]
        simp only [Option.bind_some, hr, Option.map_some]
      · have hlen : ((data.drop (o &&& (capacity data.length - 1))).take n).length =
            ((data.drop o).take n).length := by
          have hmask : o &&& (capacity data.length - 1) ≤ o := Nat.and_le_left
          simp only [List.length_take, List.length_drop]
          omega
        rw [hsplit, Masked, ← hiff]
        constructor
        · intro heq
          exact List.append_inj heq hlen
        · rintro ⟨hd, hrest⟩
          rw [hd, hrest]
    | take m =>
      simp only [ReadStep.size] at hfits hsplit hr hiff
      refine ⟨(data.drop o).take m ++ r, ?_, ?_⟩
      · rw [readOut, drain_cursor h hfits]
        simp only [Option.bind_some, hr, Option.map_some]
      · rw [Masked, ← hiff]
        conv_lhs => rhs; rw [hsplit]
        exact List.append_right_inj _

theorem write_size_out (b : RingBuffer) (data : List UInt8) :
    (b.write data).1.size = b.size ∧ (b.write data).1.out = b.out := by
  unfold write
  dsimp only
  split
  · exact ⟨rfl, rfl⟩
  · exact ⟨rfl, rfl⟩

/-- The buffer made from data, unless its rounded capacity wraps. -/
theorem cursor_ofData (hpos : 0 < data.length) (hlt : data.length + 2 < 2 ^ 32) :
    Cursor data (ofData data) 0 := by
  obtain ⟨hfilled, hcontent⟩ := filled_ofData data hlt
  have hmade : ofData data = ((init ⟨none, [], 0, 0, 0⟩ data.length).write data).1 := by
    rw [ofData]
    exact if_pos hpos
  obtain ⟨hsize, hout⟩ := write_size_out (init ⟨none, [], 0, 0, 0⟩ data.length) data
  rw [← hmade] at hsize hout
  have hout : (ofData data).out = 0 := hout
  have hlen := hfilled.content_length
  rw [hcontent, hout, Nat.sub_zero] at hlen
  refine ⟨hfilled, ?_, hlen.symm, hout, ?_⟩
  · rw [hsize]
    exact init_size_eq _ hpos (by omega)
  · rw [content, hout, List.drop_zero] at hcontent
    rwa [hlen]

/-- **The splits that read the data back**, for a length whose rounded capacity does not wrap. -/
theorem readOut_iff (hpos : 0 < data.length) (hlt : data.length + 2 < 2 ^ 32)
    (hs : Splits data.length steps) :
    (ofData data).readOut steps = some data ↔ Masked data 0 steps := by
  obtain ⟨r, hr, hiff⟩ := readOut_from (cursor_ofData hpos hlt) hpos hs (Nat.zero_le _)
  rw [List.drop_zero] at hiff
  rw [hr, Option.some.injEq, hiff]

/-! ## Lengths whose capacity wraps -/

theorem init_wraps (b : RingBuffer) (hlo : 2 ^ 32 ≤ len + 2) (hlt : len < 2 ^ 32) :
    b.init len = { b with buffer := [], size := 0, out := 0, inp := 0 } := by
  have hlen : len = 2 ^ 32 - 2 ∨ len = 2 ^ 32 - 1 := by omega
  rcases hlen with rfl | rfl
  · rfl
  · rfl

/-- A capacity of 0: nothing is stored. -/
theorem ofData_wraps (hlo : 2 ^ 32 ≤ data.length + 2) (hlt : data.length < 2 ^ 32) :
    (ofData data).buffer = [] := by
  have hwrite : (write ⟨none, [], 0, 0, 0⟩ data).1 = ⟨none, [], 0, 0, 0⟩ := by
    have hfull : write ⟨none, [], 0, 0, 0⟩ data = (⟨none, [], 0, 0, 0⟩, false) :=
      if_pos (show sub32 0 (sub32 0 0) < data.length by
        rw [show sub32 0 (sub32 0 0) = 0 by decide]
        omega)
    rw [hfull]
  rw [ofData, init_wraps _ hlo hlt]
  dsimp only
  rw [if_pos (by omega), hwrite]

/-- Without memory no step reads a byte. -/
theorem readOut_nil {r : List UInt8} (hb : b.buffer = []) (h : b.readOut steps = some r) : r = [] := by
  induction steps generalizing b r with
  | nil => exact (Option.some.inj h).symm
  | cons st steps ih =>
    cases st with
    | read n =>
      obtain ⟨d, hd, h⟩ := Option.bind_eq_some_iff.mp h
      obtain ⟨rest, hrest, rfl⟩ := Option.map_eq_some_iff.mp h
      have hbuf : (b.read n).1.buffer = [] ∧ d = [] := by
        unfold read at hd ⊢
        dsimp only at hd ⊢
        split at hd
        · cases hd
        · rename_i hfits
          rw [if_neg hfits]
          obtain rfl := Option.some.inj hd
          exact ⟨hb, by simp [hb]⟩
      rw [hbuf.2, ih hbuf.1 hrest, List.append_nil]
    | take m =>
      obtain ⟨⟨b', d⟩, hd, h⟩ := Option.bind_eq_some_iff.mp h
      obtain ⟨rest, hrest, rfl⟩ := Option.map_eq_some_iff.mp h
      have hbuf : b'.buffer = [] ∧ d = [] := by
        unfold drain at hd
        split at hd
        · obtain ⟨rfl, rfl⟩ := Prod.mk.inj (Option.some.inj hd)
          exact ⟨hb, rfl⟩
        · dsimp only at hd
          split at hd
          · obtain ⟨rfl, rfl⟩ := Prod.mk.inj (Option.some.inj hd)
            exact ⟨hb, by simp [RingBuffer.region, hb]⟩
          · cases hd
      rw [ih hbuf.1 hrest, List.append_nil]
      exact hbuf.2

theorem readOut_wraps (hlo : 2 ^ 32 ≤ data.length + 2) (hlt : data.length < 2 ^ 32) :
    (ofData data).readOut steps ≠ some data := by
  intro h
  have hnil := readOut_nil (ofData_wraps hlo hlt) h
  rw [hnil, List.length_nil] at hlo
  omega

/-! ## Lengths whose capacity is a power of two -/

/-- Nothing is masked away below a power of two. -/
theorem masked_of_pow {k : Nat} (hcap : capacity data.length = 2 ^ k) (hle : data.length ≤ 2 ^ k)
    (hs : Splits (data.length - o) steps) (ho : o ≤ data.length) : Masked data o steps := by
  induction steps generalizing o with
  | nil => trivial
  | cons st steps ih =>
    have hsum : st.size + (steps.map ReadStep.size).sum = data.length - o := hs
    have hrest := ih (o := o + st.size) (show _ = _ by omega) (by omega)
    cases st with
    | read n =>
      refine ⟨?_, hrest⟩
      rw [hcap, Nat.and_two_pow_sub_one_eq_mod]
      rcases Nat.lt_or_eq_of_le ho with hlt | rfl
      · rw [Nat.mod_eq_of_lt (by omega)]
      · have hn : n = 0 := by
          have : n + (steps.map ReadStep.size).sum = data.length - data.length := hsum
          omega
        rw [hn, List.take_zero, List.take_zero]
    | take m => exact hrest

/-- The lengths that are rounded to a power of two. -/
def RoundsToPow (len : Nat) : Prop := ∃ k ≤ 31, len = 2 ^ k ∨ len + 1 = 2 ^ k ∨ len + 2 = 2 ^ k

theorem pow_of_mask (hpos : 0 < len) (hmask : len &&& (len - 1) = 0) (hlt : len < 2 ^ 32) :
    ∃ k ≤ 31, len = 2 ^ k := by
  obtain ⟨k, hk⟩ := (Nat.and_sub_one_eq_zero_iff_isPowerOfTwo (by omega)).mp hmask
  refine ⟨k, ?_, hk⟩
  rw [hk] at hlt
  have := (Nat.pow_lt_pow_iff_right (a := 2) (by decide)).mp hlt
  omega

theorem RoundsToPow.capacity_eq (h : RoundsToPow len) (hpos : 0 < len) :
    ∃ j, capacity len = 2 ^ j ∧ len ≤ 2 ^ j ∧ len + 2 < 2 ^ 32 := by
  obtain ⟨k, hk, h⟩ := h
  have hle : 2 ^ k ≤ 2 ^ 31 := Nat.pow_le_pow_right (by decide) hk
  by_cases hmask : len &&& (len - 1) = 0
  · obtain ⟨j, -, hj⟩ := pow_of_mask hpos hmask (by omega)
    exact ⟨j, by rw [capacity, if_pos hmask, hj], hj.le, by omega⟩
  · have hne : len ≠ 2 ^ k := by
      intro e
      rw [e, Nat.and_two_pow_sub_one_eq_mod, Nat.mod_self] at hmask
      exact hmask rfl
    obtain ⟨j, rfl⟩ : ∃ j, k = j + 1 := Nat.exists_eq_succ_of_ne_zero fun e => by
      rw [e] at h hne
      omega
    have hround : (len / 2 + 1) * 2 = 2 ^ (j + 1) := by
      rw [Nat.pow_succ] at h hne ⊢
      omega
    refine ⟨j + 1, ?_, by omega, by omega⟩
    rw [capacity, if_neg hmask, hround]
    exact Nat.mod_eq_of_lt (by omega)

/-- A capacity that is no power of two has a cursor that the mask takes back. -/
theorem exists_masked (hpos : 0 < len) (hlt : len + 2 < 2 ^ 32) (hne : ¬ RoundsToPow len) :
    ∃ o < len, o &&& (capacity len - 1) < o := by
  have hmask : len &&& (len - 1) ≠ 0 := by
    intro hmask
    obtain ⟨k, hk, heq⟩ := pow_of_mask hpos hmask (by omega)
    exact hne ⟨k, hk, .inl heq⟩
  have hcap : capacity len = (len / 2 + 1) * 2 := by
    rw [capacity, if_neg hmask]
    exact Nat.mod_eq_of_lt (by omega)
  -- all bits below the highest one of the capacity
  have hlow := Nat.pow_log_le_self 2 (show capacity len ≠ 0 by omega)
  have hhigh := Nat.lt_pow_succ_log_self (b := 2) (by decide) (capacity len)
  generalize Nat.log 2 (capacity len) = j at hlow hhigh
  have hj31 : j ≤ 31 := by
    have hpow : 2 ^ j < 2 ^ 32 := by omega
    have := (Nat.pow_lt_pow_iff_right (a := 2) (by decide)).mp hpow
    omega
  have hstrict : 2 ^ j ≠ capacity len := by
    intro e
    refine hne ⟨j, hj31, ?_⟩
    omega
  obtain ⟨i, rfl⟩ : ∃ i, j = i + 1 := Nat.exists_eq_succ_of_ne_zero fun e => by
    rw [e] at hhigh
    omega
  rw [Nat.pow_succ] at hhigh
  have hi := Nat.pow_succ 2 i
  have hone : 0 < 2 ^ i := Nat.two_pow_pos i
  refine ⟨2 ^ (i + 1) - 1, by omega, ?_⟩
  rw [Nat.and_comm, Nat.and_two_pow_sub_one_eq_mod]
  have hmod : (capacity len - 1) % 2 ^ (i + 1) = capacity len - 1 - 2 ^ (i + 1) := by
    rw [Nat.mod_eq_sub_mod (by omega), Nat.mod_eq_of_lt (by omega)]
  rw [hmod]
  omega

/-- Zeros but for a single byte. -/
def spike (len o : Nat) : List UInt8 := (List.range len).map fun i => if i = o then 1 else 0

theorem spike_take (ho : n < len) : ((spike len o).drop n).take 1 = [if n = o then 1 else 0] := by
  have hlen : n < (spike len o).length := by simpa [spike] using ho
  rw [List.drop_eq_getElem_cons hlen, List.take_succ_cons, List.take_zero]
  simp [spike]

/-- **Reading back.** A split of the reading gives the data back if and only if the capacity does not
wrap and masking the cursor of each `read` leads to the same bytes. All splits of all data of a length
do so if and only if the length is `2^k`, `2^k - 1` or `2^k - 2`. -/
theorem reads_back_iff {len : Nat} (hpos : 0 < len) (hlt : len < 2 ^ 32) :
    (∀ data steps, data.length = len → Splits len steps →
      ((ofData data).readOut steps = some data ↔ len + 2 < 2 ^ 32 ∧ Masked data 0 steps)) ∧
    ((∀ data steps, data.length = len → Splits len steps → (ofData data).readOut steps = some data) ↔
      RoundsToPow len) := by
  have hone : ∀ data steps, data.length = len → Splits len steps →
      ((ofData data).readOut steps = some data ↔ len + 2 < 2 ^ 32 ∧ Masked data 0 steps) := by
    rintro data steps rfl hs
    rcases Nat.lt_or_ge (data.length + 2) (2 ^ 32) with hfits | hwraps
    · rw [readOut_iff hpos hfits hs, and_iff_right hfits]
    · exact iff_of_false (readOut_wraps hwraps hlt) (by omega)
  refine ⟨hone, ?_⟩
  constructor
  · intro hall
    by_contra hne
    have hfits : len + 2 < 2 ^ 32 := by
      have hzero := hall (List.replicate len 0) [.take len] List.length_replicate (by simp [Splits, ReadStep.size])
      exact ((hone _ _ List.length_replicate (by simp [Splits, ReadStep.size])).mp hzero).1
    obtain ⟨o, ho, hback⟩ := exists_masked hpos hfits hne
    have hlen : (spike len o).length = len := by simp [spike]
    have hsplits : Splits len [.take o, .read 1, .take (len - o - 1)] := by
      simp only [Splits, ReadStep.size, List.map_cons, List.map_nil, List.sum_cons, List.sum_nil]
      omega
    obtain ⟨-, hread, -⟩ := (hone _ _ hlen hsplits).mp (hall _ _ hlen hsplits)
    rw [Nat.zero_add, hlen, spike_take (by omega), spike_take ho, if_pos rfl, if_neg (by omega)] at hread
    cases hread
  · intro hpow data steps hlen hs
    obtain ⟨j, hcap, hle, hfits⟩ := hpow.capacity_eq hpos
    refine (hone data steps hlen hs).mpr ⟨hfits, ?_⟩
    subst hlen
    exact masked_of_pow hcap hle hs (Nat.zero_le _)

/-- Six bytes in a buffer of eight. -/
theorem reads_back_iff_six :
    Splits 6 [.take 3, .read 3] ∧
      (ofData [1, 2, 3, 4, 5, 6]).readOut [.take 3, .read 3] = some [1, 2, 3, 4, 5, 6] := by
  have hsplits : Splits 6 [.take 3, .read 3] := rfl
  have hpos : 0 < 6 := by decide
  refine ⟨hsplits, ?_⟩
  exact (reads_back_iff hpos (by decide)).2.mpr ⟨3, by decide, .inr (.inr rfl)⟩ _ _ rfl hsplits

/-- Five bytes in a buffer of six: the second `read` begins at 2, masked with 5. -/
theorem five_not_read_back :
    Splits 5 [.read 2, .read 3] ∧
      (ofData [1, 2, 3, 4, 5]).readOut [.read 2, .read 3] = some [1, 2, 1, 2, 3] ∧
      (ofData [1, 2, 3, 4, 5]).readOut [.read 2, .read 3] ≠ some [1, 2, 3, 4, 5] :=
  ⟨rfl, by decide +kernel, by decide +kernel⟩

end HoNet.RingBuffer
