import Mathlib.Data.Nat.Bitwise
import Mathlib.Tactic
import HoNet.Lib.Ring
import HoNet.RingBuffer

/-!
# The ring buffer as a bounded queue

The counters `in` and `out` of a ring buffer run modulo `2^32` and the size divides `2^32`, so that
they can be read as the low bits of two counters that never go round: `Counted b I O` says that `I`
bytes were put into `b` and `O` were taken out. Everything else is the circular memory of
`HoNet.Ring`.

* `Counted.write`, `Counted.read`, `Counted.fill`, `Counted.drain` — one step each.
* `ring_fifo` — every sequence of the calls is that of a bounded queue.
-/

namespace HoNet

namespace RingBuffer

/-! ## Users of a buffer -/

/-- The number of bytes stored. -/
def count (b : RingBuffer) : Nat := sub32 b.inp b.out

/-- The position `p` of the memory holds a stored byte. -/
def StoredAt (b : RingBuffer) (p : Nat) : Prop := ∃ i < b.count, p = (b.out + i) % b.size

/-- The bytes stored, the oldest one first. -/
def stored (b : RingBuffer) : List UInt8 := Ring.window b.buffer b.out b.count

/-- `writebuffer`, then storing at most `*sz` of the bytes of `data` at `*ptr`, then `write_ok`; the
bytes stored are returned beside the buffer. -/
def fill (b : RingBuffer) (data : List UInt8) : Option (RingBuffer × List UInt8) :=
  match b.writebuffer with
  | none => some (b, [])
  | some (off, sz) =>
    let data := data.take sz
    (writeOk { b with buffer := memcpy b.buffer off data } data.length).map fun b => (b, data)

/-- `readbuffer`, then taking at most `*sz` and at most `n` bytes at `*ptr`, then `read_ok` with its
assertion; the bytes taken are returned beside the buffer. -/
def drain (b : RingBuffer) (n : Nat) : Option (RingBuffer × List UInt8) :=
  match b.readbuffer with
  | none => some (b, [])
  | some (off, sz) =>
    let m := min n sz
    if m ≤ sub32 b.inp b.out then some (b.readOk m, b.region (off, m)) else none

/-- `data` stored behind the last byte and counted. -/
def store (b : RingBuffer) (data : List UInt8) : RingBuffer :=
  { b with buffer := memcpy b.buffer (b.inp % b.size) data, inp := (b.inp + data.length) % 2 ^ 32 }

/-- A buffer of `2^k` bytes with nothing in it, wherever its counters stand. -/
structure Ready (b : RingBuffer) : Prop where
  size_eq : ∃ k ≤ 31, b.size = 2 ^ k
  buffer_length : b.buffer.length = b.size
  inp_lt : b.inp < 2 ^ 32
  inp_eq : b.inp = b.out

/-- What the constructors leave, when asked for a power of two. -/
theorem ready_init (b : RingBuffer) {k : Nat} (hk : k ≤ 31) : (b.init (2 ^ k)).Ready := by
  have hlt : 2 ^ k < 2 ^ 32 := Nat.pow_lt_pow_right (by decide) (by omega)
  have hmask : 2 ^ k &&& sub32 (2 ^ k) 1 = 0 := by
    rw [sub32_eq Nat.one_le_two_pow hlt, Nat.and_two_pow_sub_one_eq_mod, Nat.mod_self]
  have hinit : b.init (2 ^ k) =
      { b with buffer := List.replicate (2 ^ k) 0, size := 2 ^ k, out := 0, inp := 0 } := by
    simp only [init, hmask, ne_eq, not_true_eq_false, and_false, if_false]
  rw [hinit]
  exact ⟨⟨k, hk, rfl⟩, List.length_replicate, Nat.two_pow_pos 32, rfl⟩

/-! ## Counters that do not go round -/

/-- `I` bytes were put in and `O` taken out, counted from some multiple of `2^32`. -/
structure Counted (b : RingBuffer) (I O : Nat) : Prop where
  size_eq : ∃ k ≤ 31, b.size = 2 ^ k
  buffer_length : b.buffer.length = b.size
  inp_eq : b.inp = I % 2 ^ 32
  out_eq : b.out = O % 2 ^ 32
  out_le : O ≤ I
  inp_le : I ≤ O + b.size

variable {b : RingBuffer} {I O n : Nat} {data : List UInt8}

theorem Ready.counted (h : b.Ready) : b.Counted b.inp b.out where
  size_eq := h.size_eq
  buffer_length := h.buffer_length
  inp_eq := (Nat.mod_eq_of_lt h.inp_lt).symm
  out_eq := by
    rw [← h.inp_eq]
    exact (Nat.mod_eq_of_lt h.inp_lt).symm
  out_le := h.inp_eq.ge
  inp_le := by
    rw [h.inp_eq]
    exact Nat.le_add_right _ _

namespace Counted

theorem size_pos (h : b.Counted I O) : 0 < b.size := by
  obtain ⟨k, -, hk⟩ := h.size_eq
  rw [hk]
  exact Nat.two_pow_pos k

theorem size_lt (h : b.Counted I O) : b.size < 2 ^ 32 := by
  obtain ⟨k, hk31, hk⟩ := h.size_eq
  rw [hk]
  exact Nat.pow_lt_pow_right (by decide) (by omega)

/-- Reducing to 32 bits does not change the position of a counter. -/
theorem mod_mod (h : b.Counted I O) (c : Nat) : c % 2 ^ 32 % b.size = c % b.size := by
  obtain ⟨k, hk31, hk⟩ := h.size_eq
  rw [hk]
  exact Nat.mod_mod_of_dvd c (Nat.pow_dvd_pow 2 (by omega))

theorem and_mask (h : b.Counted I O) (c : Nat) : c &&& sub32 b.size 1 = c % b.size := by
  rw [sub32_eq h.size_pos h.size_lt]
  obtain ⟨k, -, hk⟩ := h.size_eq
  rw [hk, Nat.and_two_pow_sub_one_eq_mod]

/-- The difference of the counters is the number of bytes stored. -/
theorem count_eq (h : b.Counted I O) : sub32 b.inp b.out = I - O := by
  have := h.inp_le
  have := h.out_le
  have := h.size_lt
  rw [sub32, h.inp_eq, h.out_eq]
  omega

theorem free_eq (h : b.Counted I O) : sub32 b.size (sub32 b.inp b.out) = b.size - (I - O) := by
  have := h.inp_le
  rw [h.count_eq]
  exact sub32_eq (by omega) h.size_lt

theorem wp_eq (h : b.Counted I O) : b.inp &&& sub32 b.size 1 = I % b.size := by
  rw [h.and_mask, h.inp_eq, h.mod_mod]

theorem rp_eq (h : b.Counted I O) : b.out &&& sub32 b.size 1 = O % b.size := by
  rw [h.and_mask, h.out_eq, h.mod_mod]

theorem mod_lt (h : b.Counted I O) (c : Nat) : c % b.size < b.size := Nat.mod_lt c h.size_pos

theorem stored_eq (h : b.Counted I O) : b.stored = Ring.window b.buffer O (I - O) := by
  rw [stored, count, h.count_eq]
  refine List.map_congr_left fun i _ => ?_
  rw [Ring.cell, Ring.cell, h.buffer_length, h.out_eq, Nat.add_mod, h.mod_mod, ← Nat.add_mod]

/-- The counters that are stored are those from `O` to `I`. -/
theorem storedAt_iff (h : b.Counted I O) {p : Nat} :
    b.StoredAt p ↔ ∃ c, O ≤ c ∧ c < I ∧ p = c % b.size := by
  have hpos (i : Nat) : (b.out + i) % b.size = (O + i) % b.size := by
    rw [h.out_eq, Nat.add_mod, h.mod_mod, ← Nat.add_mod]
  rw [StoredAt, count, h.count_eq]
  constructor
  · rintro ⟨i, hi, rfl⟩
    exact ⟨O + i, by omega, by omega, hpos i⟩
  · rintro ⟨c, hO, hI, rfl⟩
    refine ⟨c - O, by omega, ?_⟩
    rw [hpos, Nat.add_sub_cancel' hO]

/-! ## One step -/

/-- The position behind the last byte. -/
theorem inp_mod (h : b.Counted I O) : b.inp % b.size = I % b.size := by
  rw [h.inp_eq, h.mod_mod]

theorem inp_add (h : b.Counted I O) (m : Nat) : (b.inp + m) % 2 ^ 32 = (I + m) % 2 ^ 32 := by
  rw [h.inp_eq, Nat.mod_add_mod]

/-- Storing behind the last byte, without reaching over the physical end. -/
theorem store (h : b.Counted I O) (hfit : I % b.size + data.length ≤ b.size)
    (hroom : I + data.length ≤ O + b.size) :
    (b.store data).Counted (I + data.length) O ∧ (b.store data).stored = b.stored ++ data := by
  have hle := h.out_le
  have hlen := h.buffer_length
  have hfit' : I % b.buffer.length + data.length ≤ b.buffer.length := by rwa [hlen]
  have hbuf : (b.store data).buffer = Ring.splice b.buffer (I % b.buffer.length) data := by
    rw [RingBuffer.store, h.inp_mod, hlen]
    rfl
  have hcount : (b.store data).Counted (I + data.length) O := by
    refine ⟨h.size_eq, ?_, h.inp_add _, h.out_eq, by omega, hroom⟩
    rw [hbuf]
    exact (Ring.splice_length hfit').trans hlen
  refine ⟨hcount, ?_⟩
  rw [hcount.stored_eq, h.stored_eq, hbuf]
  exact Ring.window_splice hfit' hle (by omega)

/-- `write`, when the data fits, stores up to the physical end and then goes on at the front. -/
theorem write_eq (h : b.Counted I O) (hroom : I + data.length ≤ O + b.size) :
    b.write data = ((b.store (data.take (b.size - I % b.size))).store
      (data.drop (b.size - I % b.size)), true) := by
  have hO := h.out_le
  have hwp := h.mod_lt I
  have hfree : ¬ b.size - (I - O) < data.length := by omega
  simp only [write, h.free_eq, h.wp_eq, sub32_eq hwp.le h.size_lt, if_neg hfree, RingBuffer.store,
    h.inp_mod, Nat.mod_add_mod]
  rcases Nat.lt_or_ge data.length (b.size - I % b.size) with hlt | hge
  · rw [if_pos hlt, List.take_length, List.drop_length, List.take_of_length_le hlt.le,
      List.drop_eq_nil_of_le hlt.le]
    simp [memcpy]
  · have htake : (data.take (b.size - I % b.size)).length = b.size - I % b.size := by
      rw [List.length_take]
      omega
    have hround : (b.inp + (b.size - I % b.size)) % 2 ^ 32 % b.size = 0 := by
      rw [h.inp_add, h.mod_mod, Ring.add_rest_mod h.size_pos]
    rw [if_neg (by omega), htake, hround, List.length_drop, Nat.add_assoc, Nat.add_sub_cancel' hge]

theorem write (h : b.Counted I O) (hroom : I + data.length ≤ O + b.size) :
    (b.write data).1.Counted (I + data.length) O ∧ (b.write data).1.stored = b.stored ++ data := by
  have hwp := h.mod_lt I
  have hl : (data.take (b.size - I % b.size)).length + (data.drop (b.size - I % b.size)).length =
      data.length := by
    rw [← List.length_append, List.take_append_drop]
  have htake : (data.take (b.size - I % b.size)).length = min (b.size - I % b.size) data.length :=
    List.length_take
  rw [h.write_eq hroom]
  obtain ⟨hc₁, hs₁⟩ := h.store (show I % b.size + (data.take (b.size - I % b.size)).length ≤ b.size by
    omega) (by omega)
  have hfit : (I + (data.take (b.size - I % b.size)).length) % b.size +
      (data.drop (b.size - I % b.size)).length ≤ b.size := by
    rcases Nat.lt_or_ge data.length (b.size - I % b.size) with hlt | hge
    · have := h.mod_lt (I + (data.take (b.size - I % b.size)).length)
      omega
    · have hO := h.out_le
      rw [htake, Nat.min_eq_left hge, Ring.add_rest_mod h.size_pos]
      omega
  obtain ⟨hc₂, hs₂⟩ := hc₁.store hfit (show _ ≤ O + b.size by omega)
  rw [Nat.add_assoc, hl] at hc₂
  refine ⟨hc₂, ?_⟩
  rw [hs₂, hs₁, List.append_assoc, List.take_append_drop]

theorem readOk (h : b.Counted I O) (hn : O + n ≤ I) :
    (b.readOk n).Counted I (O + n) ∧
      b.stored = Ring.window b.buffer O n ++ (b.readOk n).stored := by
  have hle := h.inp_le
  have hout : (b.out + n) % 2 ^ 32 = (O + n) % 2 ^ 32 := by
    rw [h.out_eq, Nat.mod_add_mod]
  have hcount : (b.readOk n).Counted I (O + n) :=
    ⟨h.size_eq, h.buffer_length, h.inp_eq, hout, hn, show I ≤ O + n + b.size by omega⟩
  refine ⟨hcount, ?_⟩
  rw [hcount.stored_eq, h.stored_eq, show I - O = n + (I - (O + n)) by omega, Ring.window_add]
  rfl

theorem write_of_full (h : b.Counted I O) (hfull : O + b.size < I + data.length) :
    b.write data = (b, false) := by
  have hO := h.out_le
  have hI := h.inp_le
  simp only [RingBuffer.write, h.free_eq]
  exact if_pos (by omega)

/-- What stands at the counters from `c` on, up to the physical end. -/
theorem take_drop (h : b.Counted I O) {c : Nat} (hfit : c % b.size + n ≤ b.size) :
    (b.buffer.drop (c % b.size)).take n = Ring.window b.buffer c n := by
  rw [← h.buffer_length] at hfit ⊢
  exact Ring.take_drop_eq_window hfit

/-- `read`, when so many bytes are stored. -/
theorem read_eq (h : b.Counted I O) (hn : O + n ≤ I) :
    b.read n = (b.readOk n, some (Ring.window b.buffer O n)) := by
  have hI := h.inp_le
  have hrp := h.mod_lt O
  have hall : ¬ I - O < n := by omega
  have hn32 : n < 2 ^ 32 := by
    have := h.size_lt
    omega
  simp only [read, h.count_eq, h.rp_eq, sub32_eq hrp.le h.size_lt, if_neg hall, RingBuffer.readOk]
  congr 2
  rcases Nat.lt_or_ge n (b.size - O % b.size) with hlt | hge
  · rw [if_pos hlt, sub32_eq le_rfl hn32, Nat.sub_self, List.take_zero, List.append_nil]
    exact h.take_drop (by omega)
  · rw [if_neg (by omega), sub32_eq hge hn32]
    conv_rhs => rw [← Nat.add_sub_cancel' hge, Ring.window_add]
    congr 1
    · exact h.take_drop (by omega)
    · have hfront := Ring.add_rest_mod h.size_pos O
      have hwin := h.take_drop (c := O + (b.size - O % b.size)) (n := n - (b.size - O % b.size))
        (by omega)
      rwa [hfront, List.drop_zero] at hwin

theorem read_of_short (h : b.Counted I O) (hn : I < O + n) : b.read n = (b, none) := by
  have hO := h.out_le
  simp only [read, h.count_eq]
  exact if_pos (by omega)

/-- The region `writebuffer` offers begins behind the last byte, inside the memory and in the free
part. -/
theorem writebuffer (h : b.Counted I O) {off sz : Nat} (hw : b.writebuffer = some (off, sz)) :
    off = I % b.size ∧ off + sz ≤ b.size ∧ I + sz ≤ O + b.size := by
  have hO := h.out_le
  have hwp := h.mod_lt I
  have hrp := h.mod_lt O
  simp only [RingBuffer.writebuffer, h.free_eq, h.wp_eq, h.rp_eq, sub32_eq hwp.le h.size_lt] at hw
  split at hw
  · cases hw
  · rename_i hfree
    have hI : I < O + b.size := by
      have := h.inp_le
      omega
    injection hw with hw
    injection hw with hoff hsz
    subst hoff
    split at hsz
    · rename_i hge
      rw [sub32_eq (by omega) (by have := h.size_lt; omega)] at hsz
      have := Ring.eq_add_of_mod_le hO hI hge
      omega
    · rename_i hlt
      rw [sub32_eq (by omega) (by have := h.size_lt; omega)] at hsz
      have := Ring.add_eq_of_mod_lt hO hI (by omega)
      omega

/-- `readbuffer` offers the stored bytes up to the physical end. -/
theorem readbuffer_eq (h : b.Counted I O) (hne : O ≠ I) :
    b.readbuffer = some (O % b.size, min (I - O) (b.size - O % b.size)) := by
  have hO := h.out_le
  have hI := h.inp_le
  have hrp := h.mod_lt O
  have hwp := h.mod_lt I
  have hout : b.out % b.size = O % b.size := by rw [h.out_eq, h.mod_mod]
  simp only [RingBuffer.readbuffer, h.count_eq, h.inp_mod, hout]
  rw [if_neg (by omega)]
  congr 2
  rcases Nat.lt_or_eq_of_le hI with hlt | hfull
  · rcases Nat.lt_or_ge (I % b.size) (O % b.size) with hmod | hmod
    · have := Ring.add_eq_of_mod_lt hO hlt hmod
      rw [if_neg (by omega)]
      omega
    · have := Ring.eq_add_of_mod_le hO hlt hmod
      rw [if_pos (by omega)]
      omega
  · rw [hfull, Nat.add_mod_right, if_neg (by omega)]
    omega

theorem readbuffer_none (h : b.Counted I O) (heq : O = I) : b.readbuffer = none := by
  simp only [RingBuffer.readbuffer, h.count_eq]
  exact if_pos (by omega)

/-- The region `readbuffer` offers begins at the oldest byte, inside the memory and in the stored
part. -/
theorem readbuffer (h : b.Counted I O) {off sz : Nat} (hr : b.readbuffer = some (off, sz)) :
    off = O % b.size ∧ off + sz ≤ b.size ∧ O + sz ≤ I := by
  have hO := h.out_le
  have hrp := h.mod_lt O
  rcases eq_or_ne O I with heq | hne
  · rw [h.readbuffer_none heq] at hr
    cases hr
  · rw [h.readbuffer_eq hne] at hr
    obtain ⟨rfl, rfl⟩ := Prod.mk.inj (Option.some.inj hr)
    exact ⟨rfl, by omega, by omega⟩

theorem fill (h : b.Counted I O) (data : List UInt8) :
    ∃ b' d, b.fill data = some (b', d) ∧ b'.Counted (I + d.length) O ∧ b'.size = b.size ∧
      b'.stored = b.stored ++ d := by
  simp only [RingBuffer.fill]
  split
  · exact ⟨b, [], rfl, h, rfl, (List.append_nil _).symm⟩
  · rename_i off sz hw
    obtain ⟨rfl, hin, hroom⟩ := h.writebuffer hw
    have hd : (data.take sz).length ≤ sz := List.length_take_le _ _
    obtain ⟨hc, hs⟩ := h.store (show I % b.size + (data.take sz).length ≤ b.size by omega) (by omega)
    refine ⟨b.store (data.take sz), data.take sz, ?_, hc, rfl, hs⟩
    have hok : (data.take sz).length ≤ b.size - (I - O) := by omega
    simp only [writeOk, h.free_eq, if_pos hok, Option.map_some, RingBuffer.store, h.inp_mod]

theorem drain (h : b.Counted I O) (n : Nat) :
    ∃ b' d, b.drain n = some (b', d) ∧ b'.Counted I (O + d.length) ∧ b'.size = b.size ∧
      b.stored = d ++ b'.stored := by
  simp only [RingBuffer.drain]
  split
  · exact ⟨b, [], rfl, h, rfl, rfl⟩
  · rename_i off sz hr
    obtain ⟨rfl, hin, hst⟩ := h.readbuffer hr
    have hm : O + min n sz ≤ I := by omega
    obtain ⟨hc, hs⟩ := h.readOk hm
    have hregion : b.region (O % b.size, min n sz) = Ring.window b.buffer O (min n sz) :=
      h.take_drop (by omega)
    refine ⟨b.readOk (min n sz), Ring.window b.buffer O (min n sz), ?_, ?_, rfl, hs⟩
    · rw [h.count_eq, if_pos (by omega), hregion]
    · rwa [Ring.window_length]

/-- A region offered for writing holds no stored byte. -/
theorem not_storedAt (h : b.Counted I O) {off sz p : Nat} (hw : b.writebuffer = some (off, sz))
    (hp : off ≤ p) (hp' : p < off + sz) : ¬ b.StoredAt p := by
  obtain ⟨rfl, hin, hroom⟩ := h.writebuffer hw
  rw [h.storedAt_iff]
  rintro ⟨c, hO, hI, rfl⟩
  have hpos := Ring.add_mod_of_fits (c := I) (n := b.size) (j := c % b.size - I % b.size) (by omega)
  rw [Nat.add_sub_cancel' hp] at hpos
  exact Ring.mod_ne_of_lt (n := b.size) (show c < I + (c % b.size - I % b.size) by omega)
    (by omega) hpos.symm

/-- A region offered for reading holds stored bytes only. -/
theorem storedAt (h : b.Counted I O) {off sz p : Nat} (hr : b.readbuffer = some (off, sz))
    (hp : off ≤ p) (hp' : p < off + sz) : b.StoredAt p := by
  obtain ⟨rfl, hin, hst⟩ := h.readbuffer hr
  rw [h.storedAt_iff]
  refine ⟨O + (p - O % b.size), by omega, by omega, ?_⟩
  rw [Ring.add_mod_of_fits (by omega), Nat.add_sub_cancel' hp]

end Counted

end RingBuffer

/-! ## Runs -/

/-- A call, with what its caller stores or how much it takes. -/
inductive RingOp where
  | write (data : List UInt8)
  | read (n : Nat)
  | fill (data : List UInt8)
  | drain (n : Nat)
  deriving DecidableEq, Repr

/-- A buffer with all bytes put into it and all bytes taken out of it so far. -/
structure RingRun where
  buf : RingBuffer
  put : List UInt8
  taken : List UInt8
  deriving DecidableEq, Repr

namespace RingRun

/-- One call; `none` when an assertion fails. -/
def step (s : RingRun) : RingOp → Option RingRun
  | .write data =>
    let (b, ok) := s.buf.write data
    some { s with buf := b, put := if ok then s.put ++ data else s.put }
  | .read n =>
    let (b, data) := s.buf.read n
    some { s with buf := b, taken := s.taken ++ data.getD [] }
  | .fill data => (s.buf.fill data).map fun (b, d) => { s with buf := b, put := s.put ++ d }
  | .drain n => (s.buf.drain n).map fun (b, d) => { s with buf := b, taken := s.taken ++ d }

def run (s : RingRun) : List RingOp → Option RingRun
  | [] => some s
  | op :: ops => (s.step op).bind fun s => s.run ops

/-- What was put in and not taken out is what is stored. -/
structure Inv (size : Nat) (s : RingRun) : Prop where
  counted : ∃ I O, s.buf.Counted I O
  size_eq : s.buf.size = size
  put_eq : s.put = s.taken ++ s.buf.stored

variable {s : RingRun} {size : Nat}

theorem Inv.step (h : Inv size s) (op : RingOp) : ∃ s', s.step op = some s' ∧ Inv size s' := by
  obtain ⟨I, O, hc⟩ := h.counted
  have hput := h.put_eq
  cases op with
  | write data =>
    rcases Nat.lt_or_ge (O + s.buf.size) (I + data.length) with hfull | hroom
    · refine ⟨s, ?_, h⟩
      simp only [RingRun.step, hc.write_of_full hfull, Bool.false_eq_true, if_false]
    · obtain ⟨hc', hs'⟩ := hc.write hroom
      have hstep : s.step (.write data) =
          some { s with buf := (s.buf.write data).1, put := s.put ++ data } := by
        rw [RingRun.step, hc.write_eq hroom]
        rfl
      have hsize : (s.buf.write data).1.size = s.buf.size := by
        rw [hc.write_eq hroom]
        rfl
      refine ⟨_, hstep, ⟨_, _, hc'⟩, hsize.trans h.size_eq, ?_⟩
      simp only [hs', hput, List.append_assoc]
  | read n =>
    rcases Nat.lt_or_ge I (O + n) with hshort | hn
    · refine ⟨s, ?_, h⟩
      simp only [RingRun.step, hc.read_of_short hshort, Option.getD_none, List.append_nil]
    · obtain ⟨hc', hs'⟩ := hc.readOk hn
      have hstep : s.step (.read n) = some { s with
          buf := s.buf.readOk n, taken := s.taken ++ Ring.window s.buf.buffer O n } := by
        rw [RingRun.step, hc.read_eq hn]
        rfl
      refine ⟨_, hstep, ⟨_, _, hc'⟩, h.size_eq, ?_⟩
      simp only [hput, hs', List.append_assoc]
  | fill data =>
    obtain ⟨b', d, hfill, hc', hsize, hs'⟩ := hc.fill data
    refine ⟨{ s with buf := b', put := s.put ++ d }, by rw [RingRun.step, hfill]; rfl, ⟨_, _, hc'⟩,
      hsize.trans h.size_eq, ?_⟩
    simp only [hs', hput, List.append_assoc]
  | drain n =>
    obtain ⟨b', d, hdrain, hc', hsize, hs'⟩ := hc.drain n
    refine ⟨{ s with buf := b', taken := s.taken ++ d }, by rw [RingRun.step, hdrain]; rfl,
      ⟨_, _, hc'⟩, hsize.trans h.size_eq, ?_⟩
    simp only [hs', hput, List.append_assoc]

theorem Inv.run (h : Inv size s) (ops : List RingOp) : ∃ s', s.run ops = some s' ∧ Inv size s' := by
  induction ops generalizing s with
  | nil => exact ⟨s, rfl, h⟩
  | cons op ops ih =>
    obtain ⟨s₁, hstep, h₁⟩ := h.step op
    obtain ⟨s₂, hrun, h₂⟩ := ih h₁
    refine ⟨s₂, ?_, h₂⟩
    rw [RingRun.run, hstep]
    exact hrun

end RingRun

/-- **The ring buffer is a bounded queue**, wherever its counters start and however often they go
round: no assertion fails, what was put in is what was taken out followed by what is stored, the
difference of the counters is the number of stored bytes, `write` and `read` succeed exactly when
they can and otherwise change nothing, and the regions handed out are free or stored as promised. -/
theorem ring_fifo {b : RingBuffer} (hb : b.Ready) (ops : List RingOp) :
    ∃ s, RingRun.run ⟨b, [], []⟩ ops = some s ∧
      s.put = s.taken ++ s.buf.stored ∧
      s.taken.length + sub32 s.buf.inp s.buf.out = s.put.length ∧
      sub32 s.buf.inp s.buf.out ≤ b.size ∧
      (∀ data, (s.buf.write data).2 = true ↔
        sub32 s.buf.inp s.buf.out + data.length ≤ b.size) ∧
      (∀ data, (s.buf.write data).2 = false → (s.buf.write data).1 = s.buf) ∧
      (∀ n, (s.buf.read n).2.isSome = true ↔ n ≤ sub32 s.buf.inp s.buf.out) ∧
      (∀ n, (s.buf.read n).2 = none → (s.buf.read n).1 = s.buf) ∧
      s.buf.buffer.length = b.size ∧
      (∀ off sz, s.buf.writebuffer = some (off, sz) →
        off + sz ≤ b.size ∧ ∀ p, off ≤ p → p < off + sz → ¬ s.buf.StoredAt p) ∧
      (∀ off sz, s.buf.readbuffer = some (off, sz) →
        off + sz ≤ b.size ∧ ∀ p, off ≤ p → p < off + sz → s.buf.StoredAt p) := by
  have hempty : b.stored = [] := by
    rw [hb.counted.stored_eq, hb.inp_eq, Nat.sub_self, Ring.window_zero]
  have hstart : RingRun.Inv b.size ⟨b, [], []⟩ := ⟨⟨_, _, hb.counted⟩, rfl, hempty.symm⟩
  obtain ⟨s, hrun, hinv⟩ := hstart.run ops
  obtain ⟨I, O, hc⟩ := hinv.counted
  have hO := hc.out_le
  have hI := hc.inp_le
  rw [← hinv.size_eq]
  refine ⟨s, hrun, hinv.put_eq, ?_, ?_, fun data => ?_, fun data => ?_, fun n => ?_, fun n => ?_,
    hc.buffer_length, fun off sz hw => ?_, fun off sz hr => ?_⟩
  · rw [hinv.put_eq, List.length_append, hc.stored_eq, Ring.window_length, hc.count_eq]
  · rw [hc.count_eq]
    omega
  · rw [hc.count_eq]
    rcases Nat.lt_or_ge (O + s.buf.size) (I + data.length) with hfull | hroom
    · rw [hc.write_of_full hfull]
      exact ⟨(by simp), (by omega)⟩
    · rw [hc.write_eq hroom]
      exact ⟨fun _ => by omega, fun _ => rfl⟩
  · intro hfail
    rcases Nat.lt_or_ge (O + s.buf.size) (I + data.length) with hfull | hroom
    · rw [hc.write_of_full hfull]
    · rw [hc.write_eq hroom] at hfail
      cases hfail
  · rw [hc.count_eq]
    rcases Nat.lt_or_ge I (O + n) with hshort | hn
    · rw [hc.read_of_short hshort]
      exact ⟨(by simp), (by omega)⟩
    · rw [hc.read_eq hn]
      exact ⟨fun _ => by omega, fun _ => rfl⟩
  · intro hfail
    rcases Nat.lt_or_ge I (O + n) with hshort | hn
    · rw [hc.read_of_short hshort]
    · rw [hc.read_eq hn] at hfail
      cases hfail
  · exact ⟨(hc.writebuffer hw).2.1, fun p => hc.not_storedAt hw⟩
  · exact ⟨(hc.readbuffer hr).2.1, fun p => hc.storedAt hr⟩

/-- Four bytes whose counters are about to go round. -/
def nearWrap : RingBuffer := ⟨none, [0, 0, 0, 0], 4, 2 ^ 32 - 2, 2 ^ 32 - 2⟩

theorem nearWrap_ready : nearWrap.Ready := ⟨⟨2, by decide, rfl⟩, rfl, by decide, rfl⟩

theorem ring_fifo_nearWrap :
    nearWrap.Ready ∧
      ∃ s, RingRun.run ⟨nearWrap, [], []⟩ [.write [1, 2, 3], .drain 9, .fill [4, 5], .read 2] = some s ∧
        s.taken = [1, 2, 3, 4] ∧ s.buf.inp = 3 ∧ s.put = s.taken ++ s.buf.stored := by
  obtain ⟨s, hrun, hput, -⟩ :=
    ring_fifo nearWrap_ready [.write [1, 2, 3], .drain 9, .fill [4, 5], .read 2]
  have hend : RingRun.run ⟨nearWrap, [], []⟩ [.write [1, 2, 3], .drain 9, .fill [4, 5], .read 2] =
      some ⟨⟨none, [3, 4, 5, 2], 4, 2, 3⟩, [1, 2, 3, 4, 5], [1, 2, 3, 4]⟩ := by
    decide +kernel
  rw [hend] at hrun
  obtain rfl := Option.some.inj hrun
  exact ⟨nearWrap_ready, _, hend, rfl, rfl, hput⟩

end HoNet
