import HoNet.CoreBuffer.ZeroCopy
import HoNet.CoreSocket.Transfer

/-!
# The adaptive receive size of `coresocket.c`

With every receive `on_ev_recv` sets `read_size` to a weighted mean of itself and the number of bytes
received, and `ev_recv_start` makes the next node of that size. The weights are 7 and 1, but the sum is
divided by 4.

* `onEvRecv_adapts` — where the size is computed and where it goes.
* `readSize_grows` — from the first receive of four bytes on the size only grows.
* `averages_iff` — the sequences of receives for which it is a mean.
-/

namespace HoNet.CoreSocket

/-- `read_size` behind a receive of `sz` bytes. -/
def adapt (readSize sz : Nat) : Nat := ((7 * readSize + sz) % 2 ^ 32) >>> 2

theorem ok_bind {α β : Type} (a : α) (f : α → Except BufFault β) : (Except.ok a >>= f) = f a := rfl

/-- `on_ev_recv` hands the adapted size on to `ev_recv_start`. -/
theorem onEvRecv_adapts {s : Sock} {b sz io : Nat} {node : BufferNode} {mem : NodeMem}
    {readBuf : CoreBuffer} (hpos : 0 < sz) (hb : s.readOp.buffer = some b)
    (hget : s.mem.get b = .ok node) (hok : (node.readok sz).2 = true)
    (hpush : s.readBuf.pushback (s.mem.set b (node.readok sz).1) b = .ok (mem, readBuf)) :
    ∃ s' : Sock, s'.readSize = adapt s.readSize sz ∧
      s.onEvRecv sz 0 io = s'.evRecvStart io >>= fun r =>
        r.1.socketcheckDelref (if r.2 = 0 then 1 else 2) := by
  have hcond : (0 : Nat) = 0 ∧ sz > 0 := ⟨rfl, hpos⟩
  refine ⟨Sock.socketcheckAddref { s with
    mem := mem
    readBuf := readBuf
    rByte := (s.rByte + sz) % 2 ^ 32
    readSize := adapt s.readSize sz
    readOp := { s.readOp with buffer := none, ready := 0 } }, by rw [Sock.socketcheckAddref], ?_⟩
  unfold Sock.onEvRecv adapt
  rw [hb]
  dsimp only
  rw [hget, ok_bind, hok, if_neg (by decide), hpush, ok_bind]
  exact if_pos hcond

/-! ## Sequences of receives -/

/-- `read_size` behind the first `n` receives, the `i`-th one of `sz i` bytes. -/
def readSizes (sz : ℕ → ℕ) : ℕ → ℕ
  | 0 => 0
  | n + 1 => adapt (readSizes sz n) (sz n)

/-- What the smoothing is for, when no receive has more than `M` bytes: the size is at most `M`, its
computation never wraps, and no node is larger than one for `M` bytes. -/
structure Averages (sz : ℕ → ℕ) (M : ℕ) : Prop where
  bounded : ∀ n, readSizes sz n ≤ M
  exact : ∀ n, 7 * readSizes sz n + sz n < 2 ^ 32
  node_size : ∀ n, (BufferNode.new (readSizes sz n)).size ≤ nextPower M

variable {sz : ℕ → ℕ} {M : ℕ}

theorem adapt_eq {r x : ℕ} (h : 7 * r + x < 2 ^ 32) : adapt r x = (7 * r + x) / 4 := by
  rw [adapt, Nat.mod_eq_of_lt h, Nat.shiftRight_eq_div_pow]

/-- Receives of at most three bytes leave the size at 0. -/
theorem readSizes_zero (h : ∀ n, sz n ≤ 3) (n : ℕ) : readSizes sz n = 0 := by
  induction n with
  | zero => rfl
  | succ n ih =>
    have hn := h n
    rw [readSizes, ih, adapt_eq (by omega)]
    omega

/-- Behind a receive of four bytes or more every receive makes the size larger. -/
theorem readSizes_grows (hM : M < 2 ^ 28) (h : ∀ n, 0 < sz n ∧ sz n ≤ M)
    (hle : ∀ n, readSizes sz n ≤ M) {k : ℕ} (hk : 4 ≤ sz k) (j : ℕ) :
    1 + j ≤ readSizes sz (k + 1 + j) := by
  induction j with
  | zero =>
    have hr := hle k
    have hs := (h k).2
    rw [Nat.add_zero, readSizes, adapt_eq (by omega)]
    omega
  | succ j ih =>
    have hr := hle (k + 1 + j)
    have hs := h (k + 1 + j)
    rw [show k + 1 + (j + 1) = (k + 1 + j) + 1 from rfl, readSizes, adapt_eq (by omega)]
    omega

theorem nextPower_mono {a b : ℕ} (hab : a ≤ b) (hb : b < LONG_MAX) : nextPower a ≤ nextPower b := by
  obtain ⟨-, -, -, hleast⟩ := nextPower_spec (lt_of_le_of_lt hab hb)
  obtain ⟨-, -, -, ⟨hpow, hge⟩, -⟩ := nextPower_spec hb
  exact hleast.2 ⟨hpow, le_trans (max_le_max le_rfl hab) hge⟩

/-- **The receive size is an average** over a sequence of receives if and only if none of them has more
than three bytes. -/
theorem averages_iff (sz : ℕ → ℕ) {M : ℕ} (hM : M < 2 ^ 28) (h : ∀ n, 0 < sz n ∧ sz n ≤ M) :
    Averages sz M ↔ ∀ n, sz n ≤ 3 := by
  constructor
  · intro ha
    by_contra hlarge
    push Not at hlarge
    obtain ⟨k, hk⟩ := hlarge
    have hgrows := readSizes_grows hM h ha.bounded hk M
    have hbound := ha.bounded (k + 1 + M)
    omega
  · intro hsmall
    have hlong : M < LONG_MAX := lt_trans hM (by decide)
    refine ⟨fun n => ?_, fun n => ?_, fun n => ?_⟩
    · rw [readSizes_zero hsmall]
      exact Nat.zero_le M
    · have hn := hsmall n
      rw [readSizes_zero hsmall]
      omega
    · rw [readSizes_zero hsmall]
      exact nextPower_mono (Nat.zero_le M) hlong

theorem averages_iff_three : Averages (fun _ => 3) 3 :=
  (averages_iff (fun _ => 3) (by decide) fun _ => ⟨by decide, le_rfl⟩).mpr fun _ => le_rfl

/-- Four receives of four bytes each. -/
theorem four_bytes_not_averaged :
    readSizes (fun _ => 4) 4 = 8 ∧ ¬ Averages (fun _ => 4) 4 := by
  have hsize : readSizes (fun _ => 4) 4 = 8 := by decide +kernel
  refine ⟨hsize, fun ha => ?_⟩
  have hle := ha.bounded 4
  rw [hsize] at hle
  omega

end HoNet.CoreSocket
