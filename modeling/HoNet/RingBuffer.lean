import Mathlib.Data.Nat.Bitwise
import Mathlib.Tactic

/-!
# `ring_buffer.cpp`

The byte queue that carries the payload of a send or a receive. `in` and `out` are 32-bit counters
that run freely; positions in the memory are taken modulo `size`. Only the 32-bit target is built, so
`size_t` has 32 bits too.

* `filled_ofData` — a buffer made from data holds it.
* `readbuffer_eq`, `Filled.readOk` — reading it out: all that is left is offered at once.
-/

namespace HoNet

/-- `a - b` in 32 bits. -/
def sub32 (a b : Nat) : Nat := (a + (2 ^ 32 - b)) % 2 ^ 32

/-- `memcpy(buffer + off, data, ..)`. -/
def memcpy (buffer : List UInt8) (off : Nat) (data : List UInt8) : List UInt8 :=
  buffer.take off ++ data ++ buffer.drop (off + data.length)

/-- `ring_buffer`; `next` is its link in a `buffer_head`, as an address. -/
structure RingBuffer where
  next : Option Nat
  buffer : List UInt8
  size : Nat
  out : Nat
  inp : Nat
  deriving DecidableEq, Repr, Inhabited

namespace RingBuffer

/-! ## The functions -/

/-- `init`; what `malloc` returns is not read before it is written and stands as zeros. -/
def init (b : RingBuffer) (sz : Nat) : RingBuffer :=
  let sz := if sz ≠ 0 ∧ sz &&& sub32 sz 1 ≠ 0 then (((sz >>> 1) + 1) <<< 1) % 2 ^ 32 else sz
  { b with buffer := List.replicate sz 0, size := sz, out := 0, inp := 0 }

def empty (b : RingBuffer) : Bool := b.inp == b.out

def write (b : RingBuffer) (data : List UInt8) : RingBuffer × Bool :=
  let sz := data.length
  let all := sub32 b.size (sub32 b.inp b.out)
  if all < sz then (b, false)
  else
    let wp := b.inp &&& sub32 b.size 1
    let l := if sz < sub32 b.size wp then sz else sub32 b.size wp
    let buffer := memcpy b.buffer wp (data.take l)
    let buffer := memcpy buffer 0 (data.drop l)
    ({ b with buffer := buffer, inp := (b.inp + sz) % 2 ^ 32 }, true)

/-- `writebuffer`: the offset and the length of the region offered. -/
def writebuffer (b : RingBuffer) : Option (Nat × Nat) :=
  let all := sub32 b.size (sub32 b.inp b.out)
  if all = 0 then none
  else
    let wp := b.inp &&& sub32 b.size 1
    let rp := b.out &&& sub32 b.size 1
    some (wp, if wp ≥ rp then sub32 (sub32 b.size wp) 1 else sub32 rp wp)

/-- `write_ok`; `none` when its assertion fails. -/
def writeOk (b : RingBuffer) (sz : Nat) : Option RingBuffer :=
  if sz ≤ sub32 b.size (sub32 b.inp b.out) then some { b with inp := (b.inp + sz) % 2 ^ 32 }
  else none

/-- `read`, and the bytes it stores at `data` when it returns true. -/
def read (b : RingBuffer) (sz : Nat) : RingBuffer × Option (List UInt8) :=
  let all := sub32 b.inp b.out
  if all < sz then (b, none)
  else
    let rp := b.out &&& sub32 b.size 1
    let l := if sz < sub32 b.size rp then sz else sub32 b.size rp
    ({ b with out := (b.out + sz) % 2 ^ 32 },
      some ((b.buffer.drop rp).take l ++ b.buffer.take (sub32 sz l)))

/-- `readbuffer`: the offset and the length of the region offered. -/
def readbuffer (b : RingBuffer) : Option (Nat × Nat) :=
  let all := sub32 b.inp b.out
  if all = 0 then none
  else
    let wp := b.inp % b.size
    let rp := b.out % b.size
    some (rp, if wp > rp then wp - rp else b.size - rp)

/-- `read_ok` when its assertion `sz <= in - out` holds. -/
def readOk (b : RingBuffer) (sz : Nat) : RingBuffer := { b with out := (b.out + sz) % 2 ^ 32 }

/-- `ring_buffer(data, len)`. -/
def ofData (data : List UInt8) : RingBuffer :=
  let b := init ⟨none, [], 0, 0, 0⟩ data.length
  if data.length > 0 then (write b data).1 else b

/-- The bytes of a region. -/
def region (b : RingBuffer) (r : Nat × Nat) : List UInt8 := (b.buffer.drop r.1).take r.2

/-! ## Buffers that are filled once -/

/-- The counters have not gone round yet. -/
structure Filled (b : RingBuffer) : Prop where
  out_le : b.out ≤ b.inp
  inp_le : b.inp ≤ b.size
  size_lt : b.size < 2 ^ 32
  buffer_length : b.buffer.length = b.size

/-- The bytes still to be read. -/
def content (b : RingBuffer) : List UInt8 := (b.buffer.take b.inp).drop b.out

variable {b : RingBuffer} {n : Nat}

theorem sub32_eq {x y : Nat} (h : y ≤ x) (hx : x < 2 ^ 32) : sub32 x y = x - y := by
  rw [sub32, show x + (2 ^ 32 - y) = x - y + 2 ^ 32 by omega, Nat.add_mod_right,
    Nat.mod_eq_of_lt (by omega)]

theorem Filled.content_length (h : b.Filled) : b.content.length = b.inp - b.out := by
  have := h.inp_le
  rw [content, List.length_drop, List.length_take, h.buffer_length]
  omega

theorem Filled.content_nil (h : b.Filled) : b.content = [] ↔ b.empty = true := by
  have := h.out_le
  rw [← List.length_eq_zero_iff, h.content_length, empty, beq_iff_eq]
  omega

/-- All bytes that are left are offered in one region. -/
theorem Filled.readbuffer_eq (h : b.Filled) (hne : b.content ≠ []) :
    b.readbuffer = some (b.out, b.inp - b.out) ∧ b.region (b.out, b.inp - b.out) = b.content := by
  have hlen := h.content_length
  have hpos : 0 < b.content.length := List.length_pos_iff.mpr hne
  have h₁ := h.inp_le
  have h₂ := h.size_lt
  refine ⟨?_, ?_⟩
  · have hrp : b.out % b.size = b.out := Nat.mod_eq_of_lt (by omega)
    simp only [readbuffer, sub32_eq h.out_le (show b.inp < 2 ^ 32 by omega), hrp]
    rw [if_neg (by omega)]
    rcases Nat.lt_or_eq_of_le h₁ with hlt | heq
    · rw [Nat.mod_eq_of_lt hlt, if_pos (by omega)]
    · rw [heq, Nat.mod_self, if_neg (by omega)]
  · rw [region, content, List.drop_take]

theorem Filled.readOk (h : b.Filled) (hn : n ≤ b.content.length) :
    (b.readOk n).Filled ∧ (b.readOk n).content = b.content.drop n := by
  have hlen := h.content_length
  have h₁ := h.out_le
  have h₂ := h.inp_le
  have h₃ := h.size_lt
  have hout : (b.out + n) % 2 ^ 32 = b.out + n := Nat.mod_eq_of_lt (by omega)
  refine ⟨⟨?_, h₂, h₃, h.buffer_length⟩, ?_⟩
  · simp only [RingBuffer.readOk, hout]
    omega
  · simp only [RingBuffer.readOk, content, hout, List.drop_drop]

theorem write_next (b : RingBuffer) (data : List UInt8) : (b.write data).1.next = b.next := by
  simp only [write]
  split <;> rfl

theorem ofData_next (data : List UInt8) : (ofData data).next = none := by
  simp only [ofData]
  split
  · exact write_next _ _
  · rfl

/-- The size of a buffer for `n` bytes is at least `n`. -/
theorem init_size (b : RingBuffer) (hn : n + 2 < 2 ^ 32) :
    n ≤ (b.init n).size ∧ (b.init n).size < 2 ^ 32 ∧ (b.init n).buffer.length = (b.init n).size := by
  simp only [init, List.length_replicate, and_true]
  split
  · rw [Nat.shiftLeft_eq, Nat.shiftRight_eq_div_pow]
    omega
  · omega

/-- A buffer made from data holds it. -/
theorem filled_ofData (data : List UInt8) (hd : data.length + 2 < 2 ^ 32) :
    (ofData data).Filled ∧ (ofData data).content = data := by
  obtain ⟨hle, hlt, hlen⟩ := init_size ⟨none, [], 0, 0, 0⟩ hd
  have hinp : (init ⟨none, [], 0, 0, 0⟩ data.length).inp = 0 := rfl
  have hout : (init ⟨none, [], 0, 0, 0⟩ data.length).out = 0 := rfl
  rw [ofData]
  generalize init ⟨none, [], 0, 0, 0⟩ data.length = b at *
  by_cases hpos : data.length > 0
  swap
  · obtain rfl : data = [] := List.length_eq_zero_iff.mp (by omega)
    simp only [if_neg hpos]
    exact ⟨⟨by omega, by omega, hlt, hlen⟩, by simp [content, hinp]⟩
  · have hz : sub32 0 0 = 0 := by decide
    have hall : sub32 b.size 0 = b.size := sub32_eq (Nat.zero_le _) hlt
    simp only [if_pos hpos, write, hinp, hout, hz, hall, if_neg (Nat.not_lt.mpr hle), Nat.zero_and,
      Nat.zero_add, Nat.mod_eq_of_lt (show data.length < 2 ^ 32 by omega)]
    have hl : data.take (if data.length < b.size then data.length else b.size) = data ∧
        data.drop (if data.length < b.size then data.length else b.size) = [] := by
      split
      · simp
      · rw [show b.size = data.length by omega]
        simp
    rw [hl.1, hl.2]
    have hbuf : memcpy (memcpy b.buffer 0 data) 0 [] = data ++ b.buffer.drop data.length := by
      simp [memcpy]
    refine ⟨⟨by simp, hle, hlt, ?_⟩, ?_⟩
    · simp only [hbuf, List.length_append, List.length_drop, hlen]
      omega
    · simp [content, hbuf]

end RingBuffer

end HoNet
