import HoNet.CoreBuffer
import HoNet.RingFifo

/-!
# Reading a `buffer_node`

A node is the same circular memory as a `ring_buffer`, so that what is known of the counters of the
latter (`RingBuffer.Counted`) is used here through `toRing`.

* `nextPower_spec` — the size of a node.
* `startread_eq` — `buffernode_startread` offers the stored bytes up to the physical end.
* `zero_copy_fifo` — writing and taking bytes at the returned pointers is a bounded queue.
* `read_eq`, `copy_agrees_iff` — `buffernode_read` goes wrong behind the physical end.
-/

namespace HoNet

/-! ## The size of a node -/

/-- From `2^k` on, with a round for every power up to `2^31`. -/
theorem nextPowerLoop_spec {rounds k sz : Nat} (hk : k + rounds = 31) (hsz : sz ≤ 2 ^ 31) :
    ∃ j, k ≤ j ∧ j ≤ 31 ∧ nextPowerLoop rounds (2 ^ k) sz = 2 ^ j ∧ sz ≤ 2 ^ j ∧
      (k < j → 2 ^ (j - 1) < sz) := by
  induction rounds generalizing k with
  | zero =>
    obtain rfl : k = 31 := hk
    exact ⟨31, le_rfl, le_rfl, rfl, hsz, fun h => absurd h (lt_irrefl _)⟩
  | succ rounds ih =>
    unfold nextPowerLoop
    split
    · rename_i hlt
      have hdouble : 2 ^ k * 2 % 2 ^ 32 = 2 ^ (k + 1) := by
        rw [← Nat.pow_succ]
        exact Nat.mod_eq_of_lt (Nat.pow_lt_pow_right (by decide) (by omega))
      rw [hdouble]
      obtain ⟨j, hkj, hj, heq, hle, hmin⟩ := ih (k := k + 1) (by omega)
      refine ⟨j, by omega, hj, heq, hle, fun _ => ?_⟩
      rcases Nat.lt_or_eq_of_le hkj with hlt' | rfl
      · exact hmin hlt'
      · exact hlt
    · rename_i hge
      exact ⟨k, le_rfl, by omega, rfl, by omega, fun h => absurd h (lt_irrefl _)⟩

/-- **The size** of a node for `len` bytes: the least power of two from 64 on that is large enough. -/
theorem nextPower_spec {len : Nat} (hlen : len < LONG_MAX) :
    ∃ j, j ≤ 31 ∧ nextPower len = 2 ^ j ∧
      IsLeast {n | (∃ k, n = 2 ^ k) ∧ max 64 len ≤ n} (nextPower len) := by
  have hsz : len < 2 ^ 31 - 1 := hlen
  have hrounds : 6 + 25 = 31 := rfl
  have hfits : len ≤ 2 ^ 31 := by omega
  obtain ⟨j, h6, hj, heq, hle, hmin⟩ := nextPowerLoop_spec hrounds hfits
  have hnp : nextPower len = 2 ^ j := by
    rw [nextPower, if_neg (by omega)]
    exact heq
  refine ⟨j, hj, hnp, ?_⟩
  rw [hnp]
  refine ⟨⟨⟨j, rfl⟩, max_le (Nat.pow_le_pow_right (n := 2) (by decide) h6) hle⟩, ?_⟩
  rintro n ⟨⟨i, rfl⟩, hn⟩
  refine Nat.pow_le_pow_right (by decide) ?_
  obtain ⟨h64, hlen'⟩ := max_le_iff.mp hn
  rcases Nat.lt_or_eq_of_le h6 with hlt | rfl
  · have hpow : 2 ^ (j - 1) < 2 ^ i := lt_of_lt_of_le (hmin hlt) hlen'
    have := (Nat.pow_lt_pow_iff_right (a := 2) (by decide)).mp hpow
    omega
  · exact (Nat.pow_le_pow_iff_right (a := 2) (by decide)).mp h64

namespace BufferNode

/-! ## A node as a ring buffer -/

def toRing (node : BufferNode) : RingBuffer := ⟨node.next, node.buf, node.size, node.out, node.inp⟩

/-- A node of `buffernode_new` whose counters stand at `c`. -/
def newAt (len c : Nat) : BufferNode := { new len with inp := c, out := c }

/-- The position `p` of `buf` holds a stored byte. -/
def StoredAt (node : BufferNode) (p : Nat) : Prop := ∃ i < node.canread, p = (node.out + i) % node.size

variable {node : BufferNode} {I O n len c : Nat} {data : List UInt8}

theorem newAt_ready (hlen : len < LONG_MAX) (hc : c < 2 ^ 32) : (newAt len c).toRing.Ready := by
  obtain ⟨j, hj, heq, -⟩ := nextPower_spec hlen
  exact ⟨⟨j, hj, heq⟩, List.length_replicate, hc, rfl⟩

theorem write_toRing (node : BufferNode) (data : List UInt8) :
    (node.write data).1.toRing = (node.toRing.write data).1 ∧
      (node.write data).2 = (node.toRing.write data).2 := by
  by_cases hfull : sub32 node.size (sub32 node.inp node.out) < data.length
  · have hnode : node.write data = (node, false) := if_pos hfull
    have hring : node.toRing.write data = (node.toRing, false) := if_pos hfull
    rw [hnode, hring]
    exact ⟨rfl, rfl⟩
  · have hnode : node.write data = _ := if_neg hfull
    have hring : node.toRing.write data = _ := if_neg hfull
    rw [hnode, hring]
    exact ⟨rfl, rfl⟩

theorem stored_eq (h : node.toRing.Counted I O) : node.stored = node.toRing.stored := by
  have hlen : node.buf.length = node.size := h.buffer_length
  simp only [stored, RingBuffer.stored, Ring.window, Ring.cell, toRing, hlen]
  rfl

theorem canread_eq (h : node.toRing.Counted I O) : node.canread = I - O := h.count_eq

theorem canwrite_eq (h : node.toRing.Counted I O) : node.canwrite = node.size - (I - O) := h.free_eq

theorem out_mod (h : node.toRing.Counted I O) : node.out % node.size = O % node.size := by
  rw [show node.out = O % 2 ^ 32 from h.out_eq]
  exact h.mod_mod O

/-- `buffernode_startread` offers the stored bytes up to the physical end. -/
theorem startread_eq (h : node.toRing.Counted I O) :
    node.startread = if O = I then (none, 0)
      else (some (O % node.size), min (I - O) (node.size - O % node.size)) := by
  have hO := h.out_le
  have hrp : O % node.size < node.size := h.mod_lt O
  have hcount : sub32 node.inp node.out = I - O := h.count_eq
  have hout := out_mod h
  have hsub : sub32 node.size (O % node.size) = node.size - O % node.size :=
    RingBuffer.sub32_eq hrp.le h.size_lt
  rcases eq_or_ne O I with heq | hne
  · rw [if_pos heq]
    simp only [startread, hcount]
    exact if_pos (by omega)
  · have hring := h.readbuffer_eq hne
    simp only [RingBuffer.readbuffer, toRing, hcount, hout] at hring
    rw [if_neg (by omega)] at hring
    rw [if_neg hne]
    simp only [startread, hcount, hout, hsub]
    rw [if_neg (by omega)]
    exact congrArg (fun r : Nat × Nat => (some r.1, r.2)) (Option.some.inj hring)

theorem readok_eq (h : node.toRing.Counted I O) (hn : O + n ≤ I) :
    node.readok n = ({ node with out := (node.out + n) % 2 ^ 32 }, true) := by
  have hcount : sub32 node.inp node.out = I - O := h.count_eq
  simp only [readok, hcount]
  exact if_neg (by omega)

/-- `buffernode_readok` moves the front of the stored bytes. -/
theorem readok_spec (h : node.toRing.Counted I O) (hn : O + n ≤ I) :
    (node.readok n).1.toRing.Counted I (O + n) ∧
      node.stored = Ring.window node.buf O n ++ (node.readok n).1.stored := by
  obtain ⟨hc, hs⟩ := h.readOk hn
  rw [readok_eq h hn]
  refine ⟨hc, ?_⟩
  have hrest : BufferNode.stored { node with out := (node.out + n) % 2 ^ 32 } = _ := stored_eq hc
  rw [stored_eq h, hrest]
  exact hs

/-- What a write that fits does. -/
theorem write_spec (h : node.toRing.Counted I O) (hroom : I + data.length ≤ O + node.size) :
    (node.write data).2 = true ∧ (node.write data).1.toRing.Counted (I + data.length) O ∧
      (node.write data).1.stored = node.stored ++ data ∧ (node.write data).1.size = node.size := by
  obtain ⟨hnode, hret⟩ := write_toRing node data
  obtain ⟨hc, hs⟩ := h.write hroom
  have heq := h.write_eq hroom
  rw [← hnode] at hc hs
  refine ⟨by rw [hret, heq], hc, ?_, ?_⟩
  · rw [stored_eq hc, stored_eq h, hs]
  · have hsize : (node.write data).1.toRing.size = node.size := by
      rw [hnode, heq]
      rfl
    exact hsize

theorem write_full (h : node.toRing.Counted I O) (hfull : O + node.size < I + data.length) :
    node.write data = (node, false) := by
  have hO := h.out_le
  have hfree : sub32 node.size (sub32 node.inp node.out) = node.size - (I - O) := h.free_eq
  have hI : I ≤ O + node.size := h.inp_le
  simp only [write, hfree]
  exact if_pos (by omega)

/-- The counters stay in order, whether the write fits or not. -/
theorem write_counted (h : node.toRing.Counted I O) (data : List UInt8) :
    ∃ I O, (node.write data).1.toRing.Counted I O := by
  rcases Nat.lt_or_ge (O + node.size) (I + data.length) with hfull | hroom
  · rw [write_full h hfull]
    exact ⟨I, O, h⟩
  · exact ⟨_, _, (write_spec h hroom).2.1⟩

theorem readok_counted (h : node.toRing.Counted I O) (n : Nat) :
    ∃ I O, (node.readok n).1.toRing.Counted I O := by
  have hO := h.out_le
  rcases Nat.lt_or_ge I (O + n) with hshort | hn
  · have hsame : node.readok n = (node, false) := if_pos (by
      rw [show sub32 node.inp node.out = I - O from h.count_eq]
      omega)
    rw [hsame]
    exact ⟨I, O, h⟩
  · exact ⟨_, _, (readok_spec h hn).1⟩

/-! ## Zero-copy reading -/

/-- `buffernode_startread`, then taking at most the returned length and at most `m` bytes at `*ptr`,
then `buffernode_readok`; `none` when that returns -1. The bytes taken are returned beside the node. -/
def take (node : BufferNode) (m : Nat) : Option (BufferNode × List UInt8) :=
  let (ptr, len) := node.startread
  let m := min m len
  let (node', ok) := node.readok m
  if ok then some (node', (node.buf.drop (ptr.getD 0)).take m) else none

/-- The node behind taking a region in full. -/
def takeFull (node : BufferNode) : BufferNode := (node.readok node.startread.2).1

/-- The region offered lies inside `buf` and inside the stored part, and there is one if and only if
anything is stored. -/
structure OffersStored (node : BufferNode) : Prop where
  nonempty : 0 < node.startread.2 ↔ node.canread ≠ 0
  inside : ∀ off, node.startread.1 = some off → off + node.startread.2 ≤ node.buf.length
  stored : ∀ off, node.startread.1 = some off →
    ∀ p, off ≤ p → p < off + node.startread.2 → node.StoredAt p

theorem startread_length (h : node.toRing.Counted I O) :
    node.startread.2 = min (I - O) (node.size - O % node.size) := by
  rw [startread_eq h]
  split
  · rename_i heq
    rw [heq, Nat.sub_self, Nat.zero_min]
  · rfl

/-- Taking `m` bytes takes as many of them as one region has. -/
theorem take_eq (h : node.toRing.Counted I O) {m k : Nat}
    (hk : k = min m (min (I - O) (node.size - O % node.size))) :
    node.take m = some ((node.readok k).1, Ring.window node.buf O k) := by
  have hO := h.out_le
  have hrp : O % node.size < node.size := h.mod_lt O
  have hbytes : (node.buf.drop (node.startread.1.getD 0)).take k = Ring.window node.buf O k := by
    rw [startread_eq h]
    split
    · rename_i heq
      obtain rfl : k = 0 := by omega
      rfl
    · exact h.take_drop (show O % node.size + k ≤ node.size by omega)
  simp only [take, startread_length h, ← hk, hbytes, readok_eq h (show O + k ≤ I by omega), if_true]

theorem offersStored (h : node.toRing.Counted I O) : node.OffersStored := by
  have hO := h.out_le
  have hrp : O % node.size < node.size := h.mod_lt O
  have hoff : ∀ off, node.startread.1 = some off → O ≠ I ∧ off = O % node.size := by
    intro off hp
    rw [startread_eq h] at hp
    split at hp
    · cases hp
    · rename_i hne
      exact ⟨hne, (Option.some.inj hp).symm⟩
  refine ⟨?_, fun off hp => ?_, fun off hp p hle hlt => ?_⟩
  · rw [startread_length h, canread_eq h]
    omega
  · obtain ⟨-, rfl⟩ := hoff off hp
    rw [startread_length h, show node.buf.length = node.size from h.buffer_length]
    omega
  · obtain ⟨hne, rfl⟩ := hoff off hp
    rw [startread_length h] at hlt
    exact h.storedAt (h.readbuffer_eq hne) hle hlt

theorem takeFull_spec (h : node.toRing.Counted I O) :
    node.takeFull.toRing.Counted I (O + min (I - O) (node.size - O % node.size)) := by
  have hO := h.out_le
  rw [takeFull, startread_length h]
  exact (readok_spec h (by omega)).1

/-- Two regions taken in full leave nothing. -/
theorem takeFull_takeFull (h : node.toRing.Counted I O) : node.takeFull.takeFull.canread = 0 := by
  have hI : I ≤ O + node.size := h.inp_le
  have hrp : O % node.size < node.size := h.mod_lt O
  have h₁ := takeFull_spec h
  have hsize : node.takeFull.size = node.size := by
    rw [takeFull, startread_length h, readok_eq h (by have := h.out_le; omega)]
  rw [canread_eq (takeFull_spec h₁), hsize]
  rcases Nat.le_total (I - O) (node.size - O % node.size) with hall | hpart
  · omega
  · -- the first region ends at the physical end, the second begins at the front
    have hfront : (O + min (I - O) (node.size - O % node.size)) % node.size = 0 := by
      rw [Nat.min_eq_right hpart]
      exact Ring.add_rest_mod (by omega) O
    rw [hfront]
    omega

end BufferNode

/-- A call of `buffernode_write`, or a `buffernode_startread` with the `buffernode_readok` behind it. -/
inductive ZeroCopyOp where
  | write (data : List UInt8)
  | take (m : Nat)
  deriving DecidableEq, Repr

/-- A node with all bytes written to it and all bytes taken from it so far. -/
structure NodeRun where
  node : BufferNode
  put : List UInt8
  taken : List UInt8
  deriving DecidableEq, Repr

namespace NodeRun

def step (s : NodeRun) : ZeroCopyOp → Option NodeRun
  | .write data =>
    let (node, ok) := s.node.write data
    some { s with node := node, put := if ok then s.put ++ data else s.put }
  | .take m => (s.node.take m).map fun (node, d) => { s with node := node, taken := s.taken ++ d }

def run (s : NodeRun) : List ZeroCopyOp → Option NodeRun
  | [] => some s
  | op :: ops => (s.step op).bind fun s => s.run ops

structure Inv (size : Nat) (s : NodeRun) : Prop where
  counted : ∃ I O, s.node.toRing.Counted I O
  size_eq : s.node.size = size
  put_eq : s.put = s.taken ++ s.node.stored

variable {s : NodeRun} {size : Nat}

theorem Inv.step (h : Inv size s) (op : ZeroCopyOp) : ∃ s', s.step op = some s' ∧ Inv size s' := by
  obtain ⟨I, O, hc⟩ := h.counted
  cases op with
  | write data =>
    rcases Nat.lt_or_ge (O + s.node.size) (I + data.length) with hfull | hroom
    · refine ⟨s, ?_, h⟩
      simp only [NodeRun.step, BufferNode.write_full hc hfull, Bool.false_eq_true, if_false]
    · obtain ⟨hok, hc', hs', hsize⟩ := BufferNode.write_spec hc hroom
      refine ⟨{ s with node := (s.node.write data).1, put := s.put ++ data }, ?_, ⟨_, _, hc'⟩,
        hsize.trans h.size_eq, ?_⟩
      · simp only [NodeRun.step, hok, if_true]
      · rw [hs', h.put_eq, List.append_assoc]
  | take m =>
    obtain ⟨k, hk⟩ : ∃ k, k = min m (min (I - O) (s.node.size - O % s.node.size)) := ⟨_, rfl⟩
    have hle : O + k ≤ I := by
      have := hc.out_le
      omega
    obtain ⟨hc', hs'⟩ := BufferNode.readok_spec hc hle
    refine ⟨{ s with
        node := (s.node.readok k).1, taken := s.taken ++ Ring.window s.node.buf O k }, ?_,
      ⟨_, _, hc'⟩, ?_, ?_⟩
    · rw [NodeRun.step, BufferNode.take_eq hc hk]
      rfl
    · rw [BufferNode.readok_eq hc hle]
      exact h.size_eq
    · rw [h.put_eq, hs', List.append_assoc]

theorem Inv.run (h : Inv size s) (ops : List ZeroCopyOp) :
    ∃ s', s.run ops = some s' ∧ Inv size s' := by
  induction ops generalizing s with
  | nil => exact ⟨s, rfl, h⟩
  | cons op ops ih =>
    obtain ⟨s₁, hstep, h₁⟩ := h.step op
    obtain ⟨s₂, hrun, h₂⟩ := ih h₁
    refine ⟨s₂, ?_, h₂⟩
    rw [NodeRun.run, hstep]
    exact hrun

end NodeRun

/-- **Zero-copy reading** of a node, wherever its counters start and however often they go round: the
size is the least power of two that is large enough, writes succeed exactly when they fit and otherwise
change nothing, what was written is what was taken followed by what is stored, the regions offered are
stored bytes, and two of them are all there is. -/
theorem zero_copy_fifo {len c : Nat} (hlen : len < LONG_MAX) (hc : c < 2 ^ 32) (ops : List ZeroCopyOp) :
    ∃ s, NodeRun.run ⟨.newAt len c, [], []⟩ ops = some s ∧
      IsLeast {n | (∃ k, n = 2 ^ k) ∧ max 64 len ≤ n} s.node.size ∧
      s.node.buf.length = s.node.size ∧
      s.put = s.taken ++ s.node.stored ∧
      s.node.canread + s.node.canwrite = s.node.size ∧
      (∀ data, (s.node.write data).2 = true ↔ data.length ≤ s.node.canwrite) ∧
      (∀ data, (s.node.write data).2 = false → (s.node.write data).1 = s.node) ∧
      s.node.OffersStored ∧
      s.node.takeFull.takeFull.canread = 0 := by
  have hready := (BufferNode.newAt_ready hlen hc).counted
  have hstart : NodeRun.Inv (nextPower len) ⟨.newAt len c, [], []⟩ := by
    refine ⟨⟨_, _, hready⟩, rfl, ?_⟩
    rw [BufferNode.stored_eq hready, hready.stored_eq]
    show [] = [] ++ Ring.window _ c (c - c)
    rw [Nat.sub_self, Ring.window_zero, List.append_nil]
  obtain ⟨s, hrun, hinv⟩ := hstart.run ops
  obtain ⟨I, O, hs⟩ := hinv.counted
  have hO := hs.out_le
  have hI : I ≤ O + s.node.size := hs.inp_le
  obtain ⟨j, -, -, hleast⟩ := nextPower_spec hlen
  refine ⟨s, hrun, ?_, hs.buffer_length, hinv.put_eq, ?_, fun data => ?_, fun data => ?_,
    BufferNode.offersStored hs, BufferNode.takeFull_takeFull hs⟩
  · rw [hinv.size_eq]
    exact hleast
  · rw [BufferNode.canread_eq hs, BufferNode.canwrite_eq hs]
    omega
  · rw [BufferNode.canwrite_eq hs]
    rcases Nat.lt_or_ge (O + s.node.size) (I + data.length) with hfull | hroom
    · rw [BufferNode.write_full hs hfull]
      exact ⟨(fun h => by cases h), (by omega)⟩
    · exact ⟨fun _ => by omega, fun _ => (BufferNode.write_spec hs hroom).1⟩
  · intro hfail
    rcases Nat.lt_or_ge (O + s.node.size) (I + data.length) with hfull | hroom
    · rw [BufferNode.write_full hs hfull]
    · rw [(BufferNode.write_spec hs hroom).1] at hfail
      cases hfail

/-- Four bytes over the physical end, where the counters go round too. -/
theorem zero_copy_fifo_nearWrap :
    10 < LONG_MAX ∧
      ∃ s, NodeRun.run ⟨.newAt 10 (2 ^ 32 - 2), [], []⟩ [.write [1, 2, 3, 4], .take 9, .take 9] = some s ∧
        s.taken = [1, 2, 3, 4] ∧ s.node.inp = 2 ∧ s.put = s.taken ++ s.node.stored := by
  have hlen : 10 < LONG_MAX := by decide
  obtain ⟨s, hrun, -, -, hput, -⟩ := zero_copy_fifo hlen (c := 2 ^ 32 - 2) (by decide)
    [.write [1, 2, 3, 4], .take 9, .take 9]
  have hend : (NodeRun.run ⟨.newAt 10 (2 ^ 32 - 2), [], []⟩
      [.write [1, 2, 3, 4], .take 9, .take 9]).map (fun s => (s.taken, s.node.inp)) =
        some ([1, 2, 3, 4], 2) := by decide +kernel
  rw [hrun] at hend
  obtain ⟨htaken, hinp⟩ := Prod.mk.inj (Option.some.inj hend)
  exact ⟨hlen, s, hrun, htaken, hinp, hput⟩

/-! ## Copying reads -/

namespace BufferNode

/-- Repeated `buffernode_startread` and `buffernode_readok` until `n` bytes are taken; the first
argument bounds the repetitions. -/
def zeroCopy : Nat → BufferNode → Nat → Option (BufferNode × List UInt8)
  | _, node, 0 => some (node, [])
  | 0, _, _ + 1 => none
  | rounds + 1, node, n + 1 => do
    let (node', d) ← node.take (n + 1)
    let (node'', rest) ← zeroCopy rounds node' (n + 1 - d.length)
    return (node'', d ++ rest)

/-- The number of bytes from the oldest one to the physical end. -/
def rest (node : BufferNode) : Nat := node.size - node.out % node.size

/-- What `buffernode_read` is for. -/
def CopyAgrees (node : BufferNode) (n : Nat) : Prop :=
  (n ≤ node.canread → ∃ node' d, zeroCopy n node n = some (node', d) ∧ (node.read n).2 = .bytes d ∧
    (node.read n).1.inp = node'.inp ∧ (node.read n).1.out = node'.out) ∧
  (node.canread < n → node.read n = (node, .refused))

variable {node : BufferNode} {I O n len : Nat}

/-- On the node `buffernode_read` does what `buffernode_readok` does. -/
theorem read_node (node : BufferNode) (n : Nat) : (node.read n).1 = (node.readok n).1 := by
  unfold read readok
  dsimp only
  split <;> rfl

theorem readok_zero (h : node.toRing.Counted I O) : (node.readok 0).1 = node := by
  have hout : node.out = O % 2 ^ 32 := h.out_eq
  rw [readok_eq h (by have := h.out_le; omega)]
  simp only [Nat.add_zero, hout, Nat.mod_mod]
  rw [← hout]

theorem readok_readok (h : node.toRing.Counted I O) {k : Nat} (hk : k ≤ n) (hn : O + n ≤ I) :
    ((node.readok k).1.readok (n - k)).1 = (node.readok n).1 := by
  have hc := (readok_spec h (show O + k ≤ I by omega)).1
  rw [readok_eq hc (by omega), readok_eq h hn, readok_eq h (show O + k ≤ I by omega)]
  simp only [Nat.mod_add_mod]
  rw [Nat.add_assoc, Nat.add_sub_cancel' hk]

/-- What the zero-copy calls deliver. -/
theorem zeroCopy_eq {rounds : Nat} (h : node.toRing.Counted I O) (hn : O + n ≤ I) (hr : n ≤ rounds) :
    zeroCopy rounds node n = some ((node.readok n).1, Ring.window node.buf O n) := by
  induction rounds generalizing node O n with
  | zero =>
    obtain rfl : n = 0 := by omega
    rw [zeroCopy, readok_zero h, Ring.window_zero]
  | succ rounds ih =>
    cases n with
    | zero => rw [zeroCopy, readok_zero h, Ring.window_zero]
    | succ n =>
      have hrp : O % node.size < node.size := h.mod_lt O
      obtain ⟨k, hk⟩ : ∃ k, k = min (n + 1) (min (I - O) (node.size - O % node.size)) := ⟨_, rfl⟩
      have hkn : O + k ≤ I := by omega
      have hbuf : (node.readok k).1.buf = node.buf := by rw [readok_eq h hkn]
      have hnext := ih (readok_spec h hkn).1 (n := n + 1 - k) (by omega) (by omega)
      simp only [zeroCopy, take_eq h hk, Option.bind_eq_bind, Option.bind_some, Ring.window_length,
        hnext, hbuf, readok_readok h (show k ≤ n + 1 by omega) hn]
      rw [← Ring.window_add, Nat.add_sub_cancel' (show k ≤ n + 1 by omega)]
      rfl

theorem rest_eq (h : node.toRing.Counted I O) : node.rest = node.size - O % node.size := by
  rw [rest, out_mod h]

/-- What `buffernode_read` stores at `data`: behind the physical end the first bytes once more. -/
theorem read_eq (h : node.toRing.Counted I O) (hn : O + n ≤ I) :
    (node.read n).2 = if n ≤ node.rest then .bytes (Ring.window node.buf O n)
      else if node.rest < n - node.rest then .overlap
      else .bytes (Ring.window node.buf O node.rest ++ Ring.window node.buf O (n - node.rest)) := by
  have hI : I ≤ O + node.size := h.inp_le
  have hrp : O % node.size < node.size := h.mod_lt O
  have hsize : node.size < 2 ^ 32 := h.size_lt
  have hcount : sub32 node.inp node.out = I - O := h.count_eq
  have hmask : node.out &&& sub32 node.size 1 = O % node.size := h.rp_eq
  have hl : (if n < node.rest then n else node.rest) = min n node.rest := by
    rw [Nat.min_def]
    split <;> split <;> omega
  have hfirst : ∀ k, k ≤ node.rest →
      (node.buf.drop (O % node.size)).take k = Ring.window node.buf O k := by
    intro k hk
    rw [rest_eq h] at hk
    exact h.take_drop (show O % node.size + k ≤ node.size by omega)
  simp only [read, hcount, hmask, RingBuffer.sub32_eq hrp.le hsize, ← rest_eq h, hl,
    RingBuffer.sub32_eq (Nat.min_le_left n node.rest) (show n < 2 ^ 32 by omega)]
  rw [if_neg (show ¬ I - O < n by omega)]
  rcases le_or_gt n node.rest with hle | hgt
  · rw [if_pos hle, Nat.min_eq_left hle, Nat.sub_self, if_neg (Nat.not_lt_zero n), List.take_zero,
      List.append_nil, hfirst n hle]
  · rw [if_neg (show ¬ n ≤ node.rest by omega), Nat.min_eq_right hgt.le]
    split
    · rfl
    · rename_i hfits
      rw [List.take_take, Nat.min_eq_left (Nat.le_of_not_lt hfits), hfirst _ le_rfl,
        hfirst _ (Nat.le_of_not_lt hfits)]

/-- The bytes behind the physical end stand at the front. -/
theorem window_split (h : node.toRing.Counted I O) (hn : O + n ≤ I) (hgt : node.rest < n) :
    Ring.window node.buf O n = Ring.window node.buf O node.rest ++ node.buf.take (n - node.rest) := by
  have hI : I ≤ O + node.size := h.inp_le
  have hrp : O % node.size < node.size := h.mod_lt O
  have hrest := rest_eq h
  have hfront : (O + node.rest) % node.size = 0 := by
    rw [hrest]
    exact Ring.add_rest_mod (by omega) O
  have hwin := h.take_drop (c := O + node.rest) (n := n - node.rest)
    (show (O + node.rest) % node.size + _ ≤ node.size by omega)
  have hbuf : node.toRing.buffer = node.buf := rfl
  have hsize : node.toRing.size = node.size := rfl
  rw [hbuf, hsize, hfront, List.drop_zero] at hwin
  rw [hwin, ← Ring.window_add, Nat.add_sub_cancel' hgt.le]

/-- `buffernode_read` is right up to the physical end. Behind it, it is right by chance: the regions of
its second `memcpy` do not overlap and the bytes at the front are the first ones once more. -/
theorem copyAgrees_iff (h : node.toRing.Counted I O) :
    node.CopyAgrees n ↔ (n ≤ node.canread → n ≤ node.rest ∨ n ≤ 2 * node.rest ∧
      node.buf.take (n - node.rest) =
        (node.buf.drop (node.out % node.size)).take (n - node.rest)) := by
  have hO := h.out_le
  have hcan := canread_eq h
  have hrefused : node.canread < n → node.read n = (node, .refused) := fun hlt => if_pos hlt
  rw [CopyAgrees, and_iff_left hrefused]
  refine imp_congr_right fun hle => ?_
  have hn : O + n ≤ I := by omega
  have hzero := zeroCopy_eq h hn le_rfl
  have hrp : O % node.size < node.size := h.mod_lt O
  have hcopy : (∃ node' d, zeroCopy n node n = some (node', d) ∧ (node.read n).2 = .bytes d ∧
      (node.read n).1.inp = node'.inp ∧ (node.read n).1.out = node'.out) ↔
        (node.read n).2 = .bytes (Ring.window node.buf O n) := by
    constructor
    · rintro ⟨node', d, hz, hd, -⟩
      rw [hzero] at hz
      obtain ⟨rfl, rfl⟩ := Prod.mk.inj (Option.some.inj hz)
      exact hd
    · intro hd
      exact ⟨_, _, hzero, hd, by rw [read_node], by rw [read_node]⟩
  rw [hcopy, read_eq h hn]
  rcases le_or_gt n node.rest with hfit | hgt
  · rw [if_pos hfit]
    exact iff_of_true rfl (.inl hfit)
  · rw [if_neg (by omega)]
    split
    · rename_i hover
      exact iff_of_false (fun e => by cases e) (by omega)
    · rename_i hfits
      have hfirst : (node.buf.drop (node.out % node.size)).take (n - node.rest) =
          Ring.window node.buf O (n - node.rest) := by
        rw [out_mod h]
        have := rest_eq h
        exact h.take_drop (show O % node.size + (n - node.rest) ≤ node.size by omega)
      rw [window_split h hn hgt, ReadOut.bytes.injEq, List.append_cancel_left_eq, hfirst]
      constructor
      · intro heq
        exact .inr ⟨by omega, heq.symm⟩
      · rintro (hfit | ⟨-, heq⟩)
        · omega
        · exact heq.symm

end BufferNode

/-- A call of `buffernode_write`, `buffernode_read` or `buffernode_readok`. -/
inductive CopyOp where
  | write (data : List UInt8)
  | read (n : Nat)
  | readok (n : Nat)
  deriving DecidableEq, Repr

/-- The node behind a call. -/
def BufferNode.copyStep (node : BufferNode) : CopyOp → BufferNode
  | .write data => (node.write data).1
  | .read n => (node.read n).1
  | .readok n => (node.readok n).1

def BufferNode.copyRun (node : BufferNode) (ops : List CopyOp) : BufferNode := ops.foldl copyStep node

theorem BufferNode.copyRun_counted {node : BufferNode} {I O : Nat} (h : node.toRing.Counted I O)
    (ops : List CopyOp) : ∃ I O, (node.copyRun ops).toRing.Counted I O := by
  induction ops generalizing node I O with
  | nil => exact ⟨I, O, h⟩
  | cons op ops ih =>
    have hstep : ∃ I O, (node.copyStep op).toRing.Counted I O := by
      cases op with
      | write data => exact write_counted h data
      | read n =>
        rw [copyStep, read_node]
        exact readok_counted h n
      | readok n => exact readok_counted h n
    obtain ⟨I', O', h'⟩ := hstep
    exact ih h'

/-- **Copying and zero-copy reads** of a node agree in a state that the calls reach if and only if the
bytes asked for end before the physical end, or are too many, or the wrong ones are the right ones by
chance. -/
theorem copy_agrees_iff {len : Nat} (hlen : len < LONG_MAX) (ops : List CopyOp) (n : Nat) :
    ((BufferNode.new len).copyRun ops).CopyAgrees n ↔
      (n ≤ ((BufferNode.new len).copyRun ops).canread →
        n ≤ ((BufferNode.new len).copyRun ops).rest ∨
        n ≤ 2 * ((BufferNode.new len).copyRun ops).rest ∧
          ((BufferNode.new len).copyRun ops).buf.take
              (n - ((BufferNode.new len).copyRun ops).rest) =
            (((BufferNode.new len).copyRun ops).buf.drop
              (((BufferNode.new len).copyRun ops).out %
                ((BufferNode.new len).copyRun ops).size)).take
              (n - ((BufferNode.new len).copyRun ops).rest)) := by
  have hnew : (BufferNode.new len).toRing.Counted 0 0 :=
    (BufferNode.newAt_ready hlen (c := 0) (by decide)).counted
  obtain ⟨I, O, h⟩ := BufferNode.copyRun_counted hnew ops
  exact BufferNode.copyAgrees_iff h

/-- Eight bytes in a node of 64, four of them behind the physical end. -/
def straddle : List CopyOp :=
  [.write (List.replicate 60 0), .readok 60, .write [1, 2, 3, 4, 5, 6, 7, 8]]

theorem copy_agrees_iff_short : ((BufferNode.new 10).copyRun straddle).CopyAgrees 4 :=
  (copy_agrees_iff (by decide) straddle 4).mpr fun _ => .inl (by decide +kernel)

/-- Reading all eight of them gives the first four twice. -/
theorem read_repeats_front :
    (((BufferNode.new 10).copyRun straddle).read 8).2 = .bytes [1, 2, 3, 4, 1, 2, 3, 4] ∧
      ¬ ((BufferNode.new 10).copyRun straddle).CopyAgrees 8 := by
  have hread : (((BufferNode.new 10).copyRun straddle).read 8).2 = .bytes [1, 2, 3, 4, 1, 2, 3, 4] := by
    decide +kernel
  have hzero : (BufferNode.zeroCopy 8 ((BufferNode.new 10).copyRun straddle) 8).map Prod.snd =
      some [1, 2, 3, 4, 5, 6, 7, 8] := by
    decide +kernel
  refine ⟨hread, ?_⟩
  rintro ⟨hagree, -⟩
  obtain ⟨node', d, hz, hd, -⟩ := hagree (by decide +kernel)
  rw [hz] at hzero
  obtain rfl : d = [1, 2, 3, 4, 5, 6, 7, 8] := Option.some.inj hzero
  rw [hread] at hd
  cases hd

end HoNet
