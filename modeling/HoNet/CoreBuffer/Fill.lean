import HoNet.CoreBuffer.ZeroCopy

/-!
# Writing into a `buffer_node` in place

`buffernode_startwrite` offers a region and `buffernode_writeok` commits what the caller has stored
there; what that is does not matter here.

* `isGreatest_free` — the largest free region behind the stored bytes.
* `offersFree_iff`, `commits_iff` — when the two functions are right.
* `fill_runs_iff` — over whole runs, with the bound on the stored bytes.
-/

namespace HoNet

namespace BufferNode

/-- The lengths of the regions from `in` on that lie inside `buf` and overlap no stored byte. -/
def FreeLengths (node : BufferNode) : Set Nat :=
  {l | node.inp % node.size + l ≤ node.buf.length ∧
    ∀ p, node.inp % node.size ≤ p → p < node.inp % node.size + l → ¬ node.StoredAt p}

/-- What `buffernode_startwrite` is for. -/
structure OffersFree (node : BufferNode) : Prop where
  offset : node.canwrite ≠ 0 → node.startwrite.1 = some (node.inp % node.size)
  largest : IsGreatest node.FreeLengths node.startwrite.2
  nonempty : 0 < node.startwrite.2 ↔ node.canwrite ≠ 0

/-- What `buffernode_writeok` is for. -/
structure Commits (node : BufferNode) (sz : Nat) : Prop where
  succeeds : (node.writeok sz).2 = true ↔ sz ≤ node.canwrite
  refused : (node.writeok sz).2 = false → (node.writeok sz).1 = node

variable {node : BufferNode} {I O sz : Nat}

theorem inp_mod (h : node.toRing.Counted I O) : node.inp % node.size = I % node.size := h.inp_mod

theorem free_le (h : node.toRing.Counted I O) : I + (node.size - (I - O)) = O + node.size := by
  have hO := h.out_le
  have hI : I ≤ O + node.size := h.inp_le
  omega

/-- The free bytes up to the physical end are the largest free region. -/
theorem isGreatest_free (h : node.toRing.Counted I O) :
    IsGreatest node.FreeLengths (min (node.size - (I - O)) (node.size - I % node.size)) := by
  have hO := h.out_le
  have hfree := free_le h
  have hwp : I % node.size < node.size := h.mod_lt I
  have hlen : node.buf.length = node.size := h.buffer_length
  have hstored : ∀ p, node.StoredAt p ↔ ∃ c, O ≤ c ∧ c < I ∧ p = c % node.size :=
    fun p => h.storedAt_iff
  constructor
  · refine ⟨by rw [inp_mod h, hlen]; omega, fun p hle hlt => ?_⟩
    rw [inp_mod h] at hle hlt
    rw [hstored]
    rintro ⟨c, hOc, hcI, rfl⟩
    have hpos := Ring.add_mod_of_fits (c := I) (n := node.size) (j := c % node.size - I % node.size)
      (by omega)
    rw [Nat.add_sub_cancel' hle] at hpos
    exact Ring.mod_ne_of_lt (n := node.size) (show c < I + (c % node.size - I % node.size) by omega)
      (by omega) hpos.symm
  · rintro l ⟨hin, hnone⟩
    rw [inp_mod h, hlen] at hin
    by_contra hlarge
    -- the oldest byte stands behind the last free one
    have hgt : node.size - (I - O) < l := by omega
    have hpos : (I + (node.size - (I - O))) % node.size = I % node.size + (node.size - (I - O)) :=
      Ring.add_mod_of_fits (by omega)
    rw [hfree, Nat.add_mod_right] at hpos
    refine hnone (O % node.size) (by rw [inp_mod h]; omega) (by rw [inp_mod h]; omega) ?_
    rw [hstored]
    exact ⟨O, le_rfl, by omega, rfl⟩

/-- What `buffernode_startwrite` returns. -/
theorem startwrite_eq (h : node.toRing.Counted I O) :
    node.startwrite = if node.canwrite = 0 then (none, 0)
      else (some (I % node.size), if I % node.size < O % node.size then node.size - I % node.size - 1
        else sub32 node.out (I % node.size)) := by
  have hwp : I % node.size < node.size := h.mod_lt I
  have hsize : node.size < 2 ^ 32 := h.size_lt
  have hin : node.inp &&& sub32 node.size 1 = I % node.size := h.wp_eq
  have hout : node.out &&& sub32 node.size 1 = O % node.size := h.rp_eq
  simp only [startwrite, hin, hout, RingBuffer.sub32_eq hwp.le hsize,
    RingBuffer.sub32_eq (show 1 ≤ node.size - I % node.size by omega)
      (show node.size - I % node.size < 2 ^ 32 by omega)]
  rfl

theorem offersFree_of_length (h : node.toRing.Counted I O)
    (heq : node.startwrite.2 = min (node.size - (I - O)) (node.size - I % node.size)) :
    node.OffersFree := by
  have hwp : I % node.size < node.size := h.mod_lt I
  refine ⟨fun hne => ?_, heq ▸ isGreatest_free h, ?_⟩
  · rw [startwrite_eq h, if_neg hne, inp_mod h]
  · rw [heq, canwrite_eq h]
    omega

theorem sub32_eq_sub_iff {a b w : Nat} (hw : w < b) (hb : b < 2 ^ 32) (ha : a < 2 ^ 32) :
    sub32 a w = b - w ↔ a = b := by
  rcases Nat.lt_or_ge a w with hlt | hge
  · have hwrap : sub32 a w = a + (2 ^ 32 - w) := by
      unfold sub32
      exact Nat.mod_eq_of_lt (by omega)
    rw [hwrap]
    omega
  · rw [RingBuffer.sub32_eq hge ha]
    omega

/-- **`buffernode_startwrite`** is right if and only if the node is full, or the counter `out` is the
size itself, or the region ends at a last byte of `buf` that is stored. -/
theorem offersFree_iff (h : node.toRing.Counted I O) :
    node.OffersFree ↔ node.canwrite = 0 ∨ node.out = node.size ∨
      node.inp % node.size < node.out % node.size ∧ node.out % node.size + 1 = node.size := by
  have hO := h.out_le
  have hI : I ≤ O + node.size := h.inp_le
  have hwp : I % node.size < node.size := h.mod_lt I
  have hrp : O % node.size < node.size := h.mod_lt O
  have hsize : node.size < 2 ^ 32 := h.size_lt
  have hout : node.out < 2 ^ 32 := by
    rw [show node.out = O % 2 ^ 32 from h.out_eq]
    exact Nat.mod_lt O (by decide)
  have hfree := canwrite_eq h
  have hlength : node.OffersFree ↔
      node.startwrite.2 = min (node.size - (I - O)) (node.size - I % node.size) :=
    ⟨fun ho => ho.largest.unique (isGreatest_free h), offersFree_of_length h⟩
  rw [hlength, startwrite_eq h, inp_mod h, out_mod h]
  by_cases hfull : node.canwrite = 0
  · rw [if_pos hfull]
    exact iff_of_true (by simp only; omega) (.inl hfull)
  · rw [if_neg hfull, or_iff_right hfull]
    have hlt : I < O + node.size := by omega
    rcases Nat.lt_or_ge (I % node.size) (O % node.size) with hmod | hmod
    · have hround := Ring.add_eq_of_mod_lt hO hlt hmod
      have hne : node.out ≠ node.size := by
        intro e
        have hzero := out_mod h
        rw [e, Nat.mod_self] at hzero
        omega
      have hmin : min (node.size - (I - O)) (node.size - I % node.size) =
          O % node.size - I % node.size := by omega
      rw [if_pos hmod, or_iff_right hne, and_iff_right hmod, hmin]
      omega
    · have hround := Ring.eq_add_of_mod_le hO hlt hmod
      have hno : ¬ (I % node.size < O % node.size ∧ O % node.size + 1 = node.size) := by omega
      have hmin : min (node.size - (I - O)) (node.size - I % node.size) = node.size - I % node.size := by
        omega
      rw [if_neg (by omega), or_iff_left hno, hmin]
      exact sub32_eq_sub_iff hwp hsize hout

/-- **`buffernode_writeok`** is right if and only if it does not matter that it compares with the stored
bytes. -/
theorem commits_iff : node.Commits sz ↔
    sz ≤ node.canread ∧ sz ≤ node.canwrite ∨ node.canread < sz ∧ node.canwrite < sz := by
  have hret : (node.writeok sz).2 = true ↔ sz ≤ node.canread := by
    unfold writeok canread
    dsimp only
    split
    · rename_i hgt
      exact iff_of_false (fun e => by cases e) (by omega)
    · rename_i hle
      exact iff_of_true rfl (by omega)
  have hrefused : (node.writeok sz).2 = false → (node.writeok sz).1 = node := by
    unfold writeok
    dsimp only
    split
    · intro _
      rfl
    · intro hf
      cases hf
  constructor
  · intro hc
    have := hret.symm.trans hc.succeeds
    omega
  · intro hc
    exact ⟨hret.trans (by omega), hrefused⟩

theorem writeok_counted (h : node.toRing.Counted I O) (hle : sz ≤ node.canread)
    (hfree : sz ≤ node.canwrite) : (node.writeok sz).1.toRing.Counted (I + sz) O := by
  have hroom := free_le h
  have hO := h.out_le
  rw [canwrite_eq h] at hfree
  have hok : node.writeok sz = ({ node with inp := (node.inp + sz) % 2 ^ 32 }, true) :=
    if_neg (Nat.not_lt.mpr hle)
  rw [hok]
  exact ⟨h.size_eq, h.buffer_length, h.inp_add sz, h.out_eq, by omega,
    show I + sz ≤ O + node.size by omega⟩

end BufferNode

/-! ## Runs -/

/-- A call; `take m` is `buffernode_startread` and then `buffernode_readok` with at most `m` and at most
the returned length. -/
inductive FillOp where
  | write (data : List UInt8)
  | startwrite
  | writeok (sz : Nat)
  | read (n : Nat)
  | take (m : Nat)
  deriving DecidableEq, Repr

namespace BufferNode

/-- The node behind a call. -/
def fillStep (node : BufferNode) : FillOp → BufferNode
  | .write data => (node.write data).1
  | .startwrite => node
  | .writeok sz => (node.writeok sz).1
  | .read n => (node.read n).1
  | .take m => (node.readok (min m node.startread.2)).1

/-- The call does what it is for. -/
def FillOk (node : BufferNode) : FillOp → Prop
  | .startwrite => node.OffersFree
  | .writeok sz => node.Commits sz
  | _ => True

/-- All calls do what they are for, and there are never more stored bytes than the node has. -/
def FillRun (node : BufferNode) : List FillOp → Prop
  | [] => node.canread ≤ node.size
  | op :: ops => node.canread ≤ node.size ∧ node.FillOk op ∧ (node.fillStep op).FillRun ops

/-- The calls that the two functions can carry out. -/
def Fillable (node : BufferNode) : FillOp → Prop
  | .startwrite => node.canwrite = 0 ∨ node.out = node.size ∨
    node.inp % node.size < node.out % node.size ∧ node.out % node.size + 1 = node.size
  | .writeok sz =>
    sz ≤ node.canread ∧ sz ≤ node.canwrite ∨ node.canread < sz ∧ node.canwrite < sz
  | _ => True

def FillableRun (node : BufferNode) : List FillOp → Prop
  | [] => True
  | op :: ops => node.Fillable op ∧ (node.fillStep op).FillableRun ops

variable {node : BufferNode} {I O : Nat}

theorem fillOk_iff (h : node.toRing.Counted I O) (op : FillOp) : node.FillOk op ↔ node.Fillable op := by
  cases op with
  | startwrite => exact offersFree_iff h
  | writeok sz => exact commits_iff
  | write data | read n | take m => exact Iff.rfl

theorem fillStep_counted (h : node.toRing.Counted I O) {op : FillOp} (hop : node.Fillable op) :
    ∃ I O, (node.fillStep op).toRing.Counted I O := by
  cases op with
  | write data => exact write_counted h data
  | startwrite => exact ⟨I, O, h⟩
  | writeok sz =>
    rcases hop with ⟨hle, hfree⟩ | ⟨hgt, -⟩
    · exact ⟨_, _, writeok_counted h hle hfree⟩
    · have hsame : node.writeok sz = (node, false) := if_pos hgt
      rw [fillStep, hsame]
      exact ⟨I, O, h⟩
  | read n =>
    rw [fillStep, read_node]
    exact readok_counted h n
  | take m => exact readok_counted h _

theorem canread_le_size (h : node.toRing.Counted I O) : node.canread ≤ node.size := by
  have hI : I ≤ O + node.size := h.inp_le
  rw [canread_eq h]
  omega

theorem fillRun_iff (h : node.toRing.Counted I O) (ops : List FillOp) :
    node.FillRun ops ↔ node.FillableRun ops := by
  induction ops generalizing node I O with
  | nil => exact iff_of_true (canread_le_size h) trivial
  | cons op ops ih =>
    rw [FillRun, FillableRun, and_iff_right (canread_le_size h), fillOk_iff h]
    refine and_congr_right fun hop => ?_
    obtain ⟨I', O', h'⟩ := fillStep_counted h hop
    exact ih h'

end BufferNode

/-- **Zero-copy writing.** A run of calls on a new node is as it should be if and only if each
`buffernode_startwrite` and each `buffernode_writeok` in it is one that these functions can carry
out. -/
theorem fill_runs_iff {len : Nat} (hlen : len < LONG_MAX) (ops : List FillOp) :
    (BufferNode.new len).FillRun ops ↔ (BufferNode.new len).FillableRun ops := by
  have hnew : (BufferNode.new len).toRing.Counted 0 0 :=
    (BufferNode.newAt_ready hlen (c := 0) (by decide)).counted
  exact BufferNode.fillRun_iff hnew ops

/-- Half of a node is written in place, with `out` at the size. -/
theorem fill_runs_iff_half :
    (BufferNode.new 10).FillRun [.write (List.replicate 64 1), .read 64, .write (List.replicate 32 2),
      .startwrite, .writeok 32] := by
  refine (fill_runs_iff (by decide) _).mpr ⟨trivial, trivial, trivial, .inr (.inl ?_), .inl ?_, trivial⟩
  · decide +kernel
  · decide +kernel

/-- A new node offers nothing, and refuses the first byte committed; a full one takes one more. -/
theorem fresh_offers_nothing :
    ¬ (BufferNode.new 10).FillRun [.startwrite] ∧ ¬ (BufferNode.new 10).FillRun [.writeok 1] ∧
      ¬ (BufferNode.new 10).FillRun [.write (List.replicate 64 1), .writeok 1] := by
  refine ⟨?_, ?_, ?_⟩
  · rintro ⟨-, hoffers, -⟩
    exact absurd (hoffers.nonempty.mpr (by decide +kernel)) (by decide +kernel)
  · rintro ⟨-, hcommits, -⟩
    exact absurd (hcommits.succeeds.mpr (by decide +kernel)) (by decide +kernel)
  · rintro ⟨-, -, -, hcommits, -⟩
    exact absurd (hcommits.succeeds.mp (by decide +kernel)) (by decide +kernel)

end HoNet
