import Mathlib.Data.List.Sort
import Mathlib.Data.Nat.Log
import Mathlib.Tactic

/-!
# The sorted array of `binary_arry.h`

`binary_arry` keeps its items in a block that `grown` doubles: `insert` looks for the position of the
key from the front and shifts what is behind it.

The block has `sizeof(item) * new_max` bytes, a product in the 32 bits of a `size_t`; where that is
smaller than what is stored, a write leaves the block. Running out of memory is not modelled, and the
result `true` of `insert`, the same on every path, is left out.

* `capacity` — the number of items `slot_max` has reached for a size hint and a number of items.
* `insert_step`, `insert_stuck` — what `insert` does while the block is large enough, and where it
  is not.
* `inserts_iff` — sortedness, permutation and bounds over every sequence of `insert`.
-/

namespace HoNet

/-- `binary_arry::item`. -/
structure Item (V : Type) where
  key : Int
  val : V
  deriving DecidableEq, Repr

namespace BinaryArry

/-- Where a call has no defined result: an `int` overflows, or an index is outside the block. -/
inductive Fault where
  | overflow
  | outOfBlock (i : Int)
  deriving DecidableEq, Repr

/-- The block that `slot` points to: the items that lie inside it, and for the statements about
bounds the indices that have been written. -/
structure Block (V : Type) where
  cells : List (Item V)
  written : List Nat
  deriving DecidableEq, Repr

def Block.read {V : Type} (b : Block V) (i : Nat) : Except Fault (Item V) :=
  match b.cells[i]? with
  | some x => .ok x
  | none => .error (.outOfBlock i)

def Block.write {V : Type} (b : Block V) (i : Nat) (x : Item V) : Except Fault (Block V) :=
  if i < b.cells.length then .ok ⟨b.cells.set i x, i :: b.written⟩ else .error (.outOfBlock i)

end BinaryArry

open BinaryArry

/-- `class binary_arry`. -/
structure BinaryArry (V : Type) where
  slotDef : Nat
  slot : Block V
  slotSz : Nat
  slotMax : Nat
  deriving DecidableEq, Repr

namespace BinaryArry

/-- `while (slot_def < sz) slot_def *= 2;`. The first argument is the number of doublings an `int`
has still room for. -/
def slotDefLoop (sz : Int) : Nat → Nat → Except Fault Nat
  | 0, slotDef => if (slotDef : Int) < sz then .error .overflow else .ok slotDef
  | rounds + 1, slotDef =>
    if (slotDef : Int) < sz then slotDefLoop sz rounds (slotDef * 2) else .ok slotDef

/-- `binary_arry::binary_arry`. -/
def new (V : Type) (sz : Int) : Except Fault (BinaryArry V) := do
  let slotDef ← slotDefLoop sz 29 2
  return ⟨slotDef, ⟨[], []⟩, 0, 0⟩

section Insert

variable {V : Type}

/-- The loop of `grown` from `i`, for the number of rounds left. -/
def copySlots (slot : Block V) : Nat → Nat → Block V → Except Fault (Block V)
  | 0, _, newslot => .ok newslot
  | rounds + 1, i, newslot => do
    let x ← slot.read i
    let newslot ← newslot.write i x
    copySlots slot rounds (i + 1) newslot

/-- How many items of `size` bytes lie inside the block that `malloc(sizeof(item)*new_max)` is asked
for. -/
def blockItems (size newMax : Nat) : Nat := size * newMax % 2 ^ 32 / size

/-- `for (p = 0; p < slot_sz&&slot[p].key < key; p++);` from `p`, for the number of items left. -/
def findPos (slot : Block V) (key : Int) : Nat → Nat → Except Fault Nat
  | 0, p => .ok p
  | rounds + 1, p => do
    let x ← slot.read p
    if x.key < key then findPos slot key rounds (p + 1) else .ok p

/-- `for (int i = slot_sz; i > p; i--) slot[i] = slot[i - 1];` from `i = p + rounds`. -/
def shiftUp (p : Nat) : Nat → Block V → Except Fault (Block V)
  | 0, slot => .ok slot
  | rounds + 1, slot => do
    let x ← slot.read (p + rounds)
    let slot ← slot.write (p + rounds + 1) x
    shiftUp p rounds slot

-- `sizeof(item)`, and the value whose bytes `memset` has set to zero.
variable (size : Nat) (zero : V)

def grown (a : BinaryArry V) : Except Fault (BinaryArry V) := do
  let newMax := if a.slotMax ≠ 0 then 2 * a.slotMax else a.slotDef
  if newMax < 2 ^ 31 then
    let newslot ← copySlots a.slot a.slotSz 0 ⟨.replicate (blockItems size newMax) ⟨0, zero⟩, []⟩
    return { a with slotMax := newMax, slot := newslot }
  else .error .overflow

/-- `insert` after the call of `grown`. -/
def put (a : BinaryArry V) (key : Int) (val : V) : Except Fault (BinaryArry V) := do
  let p ← findPos a.slot key a.slotSz 0
  let slot ← shiftUp p (a.slotSz - p) a.slot
  let slot ← slot.write p ⟨key, val⟩
  return { a with slot := slot, slotSz := a.slotSz + 1 }

def insert (a : BinaryArry V) (key : Int) (val : V) : Except Fault (BinaryArry V) := do
  let a ← (if a.slotSz + 1 > a.slotMax then a.grown size zero else .ok a)
  a.put key val

/-- The `insert` calls for the items of a list, on a new array with the given size hint. -/
def inserts (hint : Int) (kvs : List (Item V)) : Except Fault (BinaryArry V) := do
  let a ← new V hint
  kvs.foldlM (fun a kv => a.insert size zero kv.key kv.val) a

end Insert

section Contents

variable {V : Type}

/-- `slot[0..slot_sz)`. -/
def used (a : BinaryArry V) : List (Item V) := a.slot.cells.take a.slotSz

end Contents

section Loops

variable {V : Type} {slot newslot : Block V} {i m p : Nat} {x : Item V} {key : Int}

theorem Block.read_eq (h : i < slot.cells.length) : slot.read i = .ok slot.cells[i] := by
  rw [Block.read, List.getElem?_eq_getElem h]

theorem Block.write_eq (h : i < slot.cells.length) :
    slot.write i x = .ok ⟨slot.cells.set i x, i :: slot.written⟩ := by
  rw [Block.write, if_pos h]

theorem Block.write_error (h : slot.cells.length ≤ i) : slot.write i x = .error (.outOfBlock i) := by
  rw [Block.write, if_neg (Nat.not_lt.mpr h)]

theorem copySlots_succ (hi : i < slot.cells.length) :
    copySlots slot (m + 1) i newslot =
      if i < newslot.cells.length then
        copySlots slot m (i + 1) ⟨newslot.cells.set i slot.cells[i], i :: newslot.written⟩
      else .error (.outOfBlock i) := by
  rw [copySlots, Block.read_eq hi]
  by_cases hn : i < newslot.cells.length
  · rw [if_pos hn]
    simp only [Block.write_eq hn, bind, Except.bind]
  · rw [if_neg hn]
    simp only [Block.write_error (Nat.not_lt.mp hn), bind, Except.bind]

theorem copySlots_spec (slot newslot : Block V) (i m : Nat) (h : i + m ≤ slot.cells.length)
    (hn : i + m ≤ newslot.cells.length) :
    ∃ slot', copySlots slot m i newslot = .ok slot' ∧
      slot'.cells.length = newslot.cells.length ∧
      (∀ j, slot'.cells[j]? =
        if i ≤ j ∧ j < i + m then slot.cells[j]? else newslot.cells[j]?) ∧
      ∀ j ∈ slot'.written, j ∈ newslot.written ∨ j < i + m := by
  induction m generalizing i newslot with
  | zero =>
    refine ⟨newslot, rfl, rfl, fun j => ?_, fun j hj => .inl hj⟩
    rw [if_neg (by omega)]
  | succ m ih =>
    rw [copySlots_succ (by omega), if_pos (by omega)]
    obtain ⟨slot', hrun, hlen, hget, hwr⟩ := ih
      ⟨newslot.cells.set i slot.cells[i], i :: newslot.written⟩ (i + 1)
      (by omega) (by rw [List.length_set]; omega)
    refine ⟨slot', hrun, by rw [hlen, List.length_set], fun j => ?_, fun j hj => ?_⟩
    · rw [hget]
      by_cases hij : i = j
      · subst hij
        rw [if_neg (by omega), if_pos (by omega), List.getElem?_set_self (by omega),
          List.getElem?_eq_getElem (by omega)]
      · rw [List.getElem?_set_ne hij]
        exact ite_congr (propext (by omega)) (fun _ => rfl) fun _ => rfl
    · rcases hwr j hj with h | h
      · rcases List.mem_cons.mp h with rfl | h
        · exact .inr (by omega)
        · exact .inl h
      · exact .inr (by omega)

/-- Copying stops at the end of a new block that is too small. -/
theorem copySlots_error (slot newslot : Block V) (i m : Nat) (h : i + m ≤ slot.cells.length)
    (hi : i ≤ newslot.cells.length) (hn : newslot.cells.length < i + m) :
    ∃ f, copySlots slot m i newslot = .error f := by
  induction m generalizing i newslot with
  | zero => omega
  | succ m ih =>
    rw [copySlots_succ (by omega)]
    by_cases hlt : i < newslot.cells.length
    · rw [if_pos hlt]
      exact ih _ _ (by omega) (by rw [List.length_set]; omega) (by rw [List.length_set]; omega)
    · rw [if_neg hlt]
      exact ⟨_, rfl⟩

theorem findPos_eq (slot : Block V) (key : Int) (m p : Nat) (h : p + m ≤ slot.cells.length) :
    findPos slot key m p =
      .ok (p + (((slot.cells.drop p).take m).takeWhile fun x => decide (x.key < key)).length) := by
  induction m generalizing p with
  | zero => rw [findPos, List.take_zero]; rfl
  | succ m ih =>
    have hp : p < slot.cells.length := by omega
    rw [findPos, Block.read_eq hp, List.drop_eq_getElem_cons hp, List.take_succ_cons]
    simp only [bind, Except.bind, List.takeWhile_cons, decide_eq_true_eq]
    by_cases hk : slot.cells[p].key < key
    · rw [if_pos hk, if_pos hk, ih (p + 1) (by omega), List.length_cons]
      congr 1
      omega
    · rw [if_neg hk, if_neg hk]
      rfl

theorem shiftUp_succ (h : p + m < slot.cells.length) :
    shiftUp p (m + 1) slot =
      if p + m + 1 < slot.cells.length then
        shiftUp p m ⟨slot.cells.set (p + m + 1) slot.cells[p + m], (p + m + 1) :: slot.written⟩
      else .error (.outOfBlock (p + m + 1 : Nat)) := by
  rw [shiftUp, Block.read_eq h]
  by_cases hlt : p + m + 1 < slot.cells.length
  · rw [if_pos hlt]
    simp only [Block.write_eq hlt, bind, Except.bind]
  · rw [if_neg hlt]
    simp only [Block.write_error (Nat.not_lt.mp hlt), bind, Except.bind]

theorem shiftUp_spec (slot : Block V) (p m : Nat) (h : p + m < slot.cells.length) :
    ∃ slot', shiftUp p m slot = .ok slot' ∧ slot'.cells.length = slot.cells.length ∧
      (∀ i, slot'.cells[i]? = if p < i ∧ i ≤ p + m then slot.cells[i - 1]? else slot.cells[i]?) ∧
      ∀ j ∈ slot'.written, j ∈ slot.written ∨ j ≤ p + m := by
  induction m generalizing slot with
  | zero =>
    refine ⟨slot, rfl, rfl, fun i => ?_, fun j hj => .inl hj⟩
    rw [if_neg (by omega)]
  | succ m ih =>
    rw [shiftUp_succ (by omega), if_pos (by omega)]
    obtain ⟨slot', hrun, hlen, hget, hwr⟩ := ih
      ⟨slot.cells.set (p + m + 1) slot.cells[p + m], (p + m + 1) :: slot.written⟩
      (by rw [List.length_set]; omega)
    refine ⟨slot', hrun, by rw [hlen, List.length_set], fun i => ?_, fun j hj => ?_⟩
    · rw [hget]
      by_cases hi : p < i ∧ i ≤ p + m
      · rw [if_pos hi, if_pos (by omega), List.getElem?_set_ne (by omega)]
      · rw [if_neg hi]
        by_cases heq : i = p + m + 1
        · subst heq
          rw [if_pos (by omega), List.getElem?_set_self (by omega), Nat.add_sub_cancel,
            List.getElem?_eq_getElem (by omega)]
        · rw [if_neg (by omega), List.getElem?_set_ne (Ne.symm heq)]
    · rcases hwr j hj with h | h
      · rcases List.mem_cons.mp h with rfl | h
        · exact .inr (by omega)
        · exact .inl h
      · exact .inr (by omega)

end Loops

/-! ## One call -/

section Put

variable {V : Type} {a : BinaryArry V} {key : Int} {val : V}

/-- The order that `slot` is kept in. -/
def KeyLe (x y : Item V) : Prop := x.key ≤ y.key

instance : DecidableRel (KeyLe : Item V → Item V → Prop) :=
  fun x y => inferInstanceAs (Decidable (x.key ≤ y.key))

instance : Std.Total (KeyLe : Item V → Item V → Prop) := ⟨fun x y => Int.le_total x.key y.key⟩

instance : IsTrans (Item V) KeyLe := ⟨fun _ _ _ hxy hyz => Int.le_trans hxy hyz⟩

theorem not_keyLe {x y : Item V} : ¬ KeyLe x y ↔ y.key < x.key := Int.not_le

theorem takeWhile_keyLt (x : Item V) (l : List (Item V)) :
    (l.takeWhile fun y => decide (y.key < x.key)) = l.takeWhile fun y => decide (¬ KeyLe x y) := by
  simp only [not_keyLe]

/-- The items after `put`, one by one. -/
theorem getElem?_orderedInsert (x : Item V) (l : List (Item V)) (i : Nat) :
    (l.orderedInsert KeyLe x)[i]? =
      if i < (l.takeWhile fun y => decide (y.key < x.key)).length then l[i]?
      else if i = (l.takeWhile fun y => decide (y.key < x.key)).length then some x
      else l[i - 1]? := by
  rw [List.orderedInsert_eq_take_drop, takeWhile_keyLt]
  have hl := List.takeWhile_append_dropWhile (p := fun y => decide (¬ KeyLe x y)) (l := l)
  generalize (l.takeWhile fun y => decide (¬ KeyLe x y)) = front at hl ⊢
  generalize (l.dropWhile fun y => decide (¬ KeyLe x y)) = back at hl ⊢
  subst hl
  rcases lt_trichotomy i front.length with h | h | h
  · rw [if_pos h, List.getElem?_append_left h, List.getElem?_append_left h]
  · rw [if_neg (by omega), if_pos h, List.getElem?_append_right (by omega), h, Nat.sub_self,
      List.getElem?_cons_zero]
  · rw [if_neg (by omega), if_neg (by omega), List.getElem?_append_right (by omega),
      List.getElem?_append_right (by omega),
      show i - front.length = i - 1 - front.length + 1 by omega, List.getElem?_cons_succ]

/-- While there is room in the block, `put` inserts in order and writes up to index `slot_sz`. -/
theorem put_spec (key : Int) (val : V) (hsz : a.slotSz < a.slot.cells.length) :
    ∃ a', a.put key val = .ok a' ∧ a'.slotDef = a.slotDef ∧ a'.slotMax = a.slotMax ∧
      a'.slotSz = a.slotSz + 1 ∧ a'.slot.cells.length = a.slot.cells.length ∧
      a'.used = a.used.orderedInsert KeyLe ⟨key, val⟩ ∧
      ∀ j ∈ a'.slot.written, j ∈ a.slot.written ∨ j ≤ a.slotSz := by
  obtain ⟨front, hfront⟩ : ∃ l, l = a.used.takeWhile fun y => decide (y.key < key) := ⟨_, rfl⟩
  have hused : a.used.length = a.slotSz := by rw [used, List.length_take]; omega
  have hp : front.length ≤ a.slotSz := by
    rw [← hused, hfront]
    exact (List.takeWhile_sublist _).length_le
  have hfind : findPos a.slot key a.slotSz 0 = .ok front.length := by
    rw [findPos_eq _ _ _ _ (by omega), List.drop_zero, Nat.zero_add, hfront, used]
  obtain ⟨slot', hshift, hlen, hget, hwr⟩ := shiftUp_spec a.slot front.length
    (a.slotSz - front.length) (by omega)
  refine ⟨{ a with
    slot := ⟨slot'.cells.set front.length ⟨key, val⟩, front.length :: slot'.written⟩
    slotSz := a.slotSz + 1 }, ?_, rfl, rfl, rfl, ?_, ?_, ?_⟩
  · rw [put, hfind]
    simp only [bind, Except.bind, hshift, Block.write_eq (show front.length < slot'.cells.length by
      omega)]
    rfl
  · rw [List.length_set, hlen]
  · apply List.ext_getElem?
    intro i
    rw [getElem?_orderedInsert, ← hfront, used, used]
    dsimp only
    by_cases hi : i ≤ a.slotSz
    · rw [List.getElem?_take_of_lt (by omega)]
      rcases lt_trichotomy i front.length with h | h | h
      · rw [if_pos h, List.getElem?_set_ne (by omega), hget, if_neg (by omega),
          List.getElem?_take_of_lt (by omega)]
      · subst h
        rw [if_neg (by omega), if_pos rfl, List.getElem?_set_self (by omega)]
      · rw [if_neg (by omega), if_neg (by omega), List.getElem?_set_ne (by omega), hget,
          if_pos (by omega), List.getElem?_take_of_lt (by omega)]
    · rw [if_neg (by omega), if_neg (by omega), List.getElem?_eq_none (by
        rw [List.length_take]; omega), List.getElem?_eq_none (by rw [List.length_take]; omega)]
  · intro j hj
    rcases List.mem_cons.mp hj with rfl | hj
    · exact .inr hp
    · rcases hwr j hj with h | h
      · exact .inl h
      · exact .inr (by omega)

/-- With the block full, `put` writes behind it. -/
theorem put_error (hsz : a.slotSz = a.slot.cells.length) : ∃ f, a.put key val = .error f := by
  have hfind := findPos_eq a.slot key a.slotSz 0 (by omega)
  rw [put, hfind]
  generalize hpos : 0 + (List.takeWhile _ _).length = p
  have hp : p ≤ a.slotSz := by
    rw [← hpos, Nat.zero_add]
    refine (List.takeWhile_sublist _).length_le.trans ?_
    rw [List.length_take]
    exact Nat.min_le_left _ _
  simp only [bind, Except.bind]
  obtain heq | ⟨m, hm⟩ : a.slotSz - p = 0 ∨ ∃ m, a.slotSz - p = m + 1 := by
    rcases Nat.eq_zero_or_eq_succ_pred (a.slotSz - p) with h | h
    · exact .inl h
    · exact .inr ⟨_, h⟩
  · rw [heq, shiftUp]
    simp only [Block.write_error (show a.slot.cells.length ≤ p by omega)]
    exact ⟨_, rfl⟩
  · rw [hm, shiftUp_succ (by omega), if_neg (by omega)]
    exact ⟨_, rfl⟩

end Put

/-! ## Growth -/

/-- The least power of two that is at least 2, the size hint and the number of items: what
`slot_max` has grown to. -/
def capacity (hint : Int) (n : Nat) : Nat := 2 ^ max 1 (max (Nat.clog 2 hint.toNat) (Nat.clog 2 n))

/-- The block for `n` items is not larger than an `int` counts, and the bytes asked for hold them. -/
def Fits (size : Nat) (hint : Int) (n : Nat) : Prop :=
  n = 0 ∨ capacity hint n < 2 ^ 31 ∧ n * size ≤ size * capacity hint n % 2 ^ 32

section Growth

variable {V : Type} {size : Nat} {zero : V} {hint : Int} {n : Nat} {kvs : List (Item V)}
  {a : BinaryArry V}

theorem le_capacity (hint : Int) (n : Nat) : n ≤ capacity hint n :=
  (Nat.le_pow_clog Nat.one_lt_two n).trans
    (Nat.pow_le_pow_right Nat.zero_lt_two ((le_max_right _ _).trans (le_max_right _ _)))

/-- The capacity for one more item is the same one, or twice as large when it is used up. -/
theorem capacity_succ (hint : Int) (n : Nat) :
    capacity hint (n + 1) =
      if n < capacity hint n then capacity hint n else 2 * capacity hint n := by
  unfold capacity
  generalize Nat.clog 2 hint.toNat = h
  by_cases hn : n < 2 ^ max 1 (max h (Nat.clog 2 n))
  · rw [if_pos hn]
    have hle : Nat.clog 2 (n + 1) ≤ max 1 (max h (Nat.clog 2 n)) := Nat.clog_le_of_le_pow hn
    have hmono : Nat.clog 2 n ≤ Nat.clog 2 (n + 1) := Nat.clog_mono_right 2 (Nat.le_succ n)
    congr 1
    omega
  · rw [if_neg hn]
    have hle := Nat.le_pow_clog Nat.one_lt_two n
    have hexp : max 1 (max h (Nat.clog 2 n)) = Nat.clog 2 n := by
      refine le_antisymm ?_ ((le_max_right _ _).trans (le_max_right _ _))
      exact (Nat.pow_le_pow_iff_right Nat.one_lt_two).mp ((Nat.not_lt.mp hn).trans hle)
    have hpow : n = 2 ^ Nat.clog 2 n := le_antisymm hle (hexp ▸ Nat.not_lt.mp hn)
    -- one item more than a power of two needs the next one
    have hsucc : Nat.clog 2 (n + 1) = Nat.clog 2 n + 1 := by
      refine le_antisymm (Nat.clog_le_of_le_pow ?_) ((Nat.lt_clog_iff_pow_lt Nat.one_lt_two).mpr ?_)
      · have := Nat.one_le_two_pow (n := Nat.clog 2 n)
        rw [Nat.pow_succ]
        omega
      · omega
    rw [show max 1 (max h (Nat.clog 2 (n + 1))) = Nat.clog 2 n + 1 by omega, hexp, Nat.pow_succ]
    exact Nat.mul_comm _ _

theorem Fits.of_succ (h : Fits size hint (n + 1)) : Fits size hint n := by
  rcases Nat.eq_zero_or_pos n with h0 | h0
  · exact .inl h0
  obtain h | ⟨hmax, hbytes⟩ := h
  · omega
  rw [capacity_succ] at hmax hbytes
  by_cases hn : n < capacity hint n
  · rw [if_pos hn] at hmax hbytes
    exact .inr ⟨hmax, (Nat.mul_le_mul_right size (Nat.le_succ n)).trans hbytes⟩
  · rw [if_neg hn] at hmax hbytes
    have heq : capacity hint n = n := le_antisymm (Nat.not_lt.mp hn) (le_capacity hint n)
    rw [heq] at hmax hbytes
    refine .inr ⟨by omega, ?_⟩
    -- the block before was full, and smaller than what is stored now
    have hlt : size * n < 2 ^ 32 := by
      have hmod : size * (2 * n) % 2 ^ 32 < 2 ^ 32 := Nat.mod_lt _ (by decide)
      have : (n + 1) * size = size * n + size := by ring
      omega
    rw [heq, Nat.mod_eq_of_lt hlt, Nat.mul_comm]

/-- Handlers are stored in items of 8 bytes; blocks for `2 ^ 28` of them can be asked for. -/
theorem fits_handlers : Fits 8 hint n ↔ n = 0 ∨ hint ≤ 2 ^ 28 ∧ n ≤ 2 ^ 28 := by
  unfold Fits
  refine or_congr_right' fun hn => ?_
  have hexp : capacity hint n ≤ 2 ^ 28 ↔ hint ≤ 2 ^ 28 ∧ n ≤ 2 ^ 28 := by
    rw [capacity, Nat.pow_le_pow_iff_right Nat.one_lt_two, max_le_iff, max_le_iff,
      Nat.clog_le_iff_le_pow Nat.one_lt_two, Nat.clog_le_iff_le_pow Nat.one_lt_two]
    omega
  rw [← hexp]
  constructor
  · rintro ⟨-, hbytes⟩
    by_contra hlt
    have he : 29 ≤ max 1 (max (Nat.clog 2 hint.toNat) (Nat.clog 2 n)) :=
      (Nat.pow_lt_pow_iff_right Nat.one_lt_two).mp (Nat.not_le.mp hlt)
    -- the product is a multiple of `2 ^ 32`
    have hmod : 8 * capacity hint n % 2 ^ 32 = 0 := by
      refine Nat.mod_eq_zero_of_dvd ?_
      obtain ⟨d, hd⟩ := Nat.pow_dvd_pow 2 he
      exact ⟨d, by rw [capacity, hd]; ring⟩
    rw [hmod] at hbytes
    omega
  · intro hle
    have hcap := le_capacity hint n
    rw [Nat.mod_eq_of_lt (by omega)]
    exact ⟨by omega, by omega⟩

theorem fits_succ_iff (hs : 0 < size) :
    Fits size hint (n + 1) ↔
      capacity hint (n + 1) < 2 ^ 31 ∧ n < blockItems size (capacity hint (n + 1)) := by
  have hdiv : n < blockItems size (capacity hint (n + 1)) ↔
      (n + 1) * size ≤ size * capacity hint (n + 1) % 2 ^ 32 := Nat.le_div_iff_mul_le hs
  rw [hdiv, Fits]
  exact or_iff_right (Nat.succ_ne_zero n)

theorem blockItems_le (hs : 0 < size) (m : Nat) : blockItems size m ≤ m := by
  rw [blockItems]
  calc size * m % 2 ^ 32 / size ≤ size * m / size := Nat.div_le_div_right (Nat.mod_le _ _)
    _ = m := Nat.mul_div_cancel_left m hs

/-- The array after the `insert` calls for `kvs`. -/
structure Holds (size : Nat) (hint : Int) (kvs : List (Item V)) (a : BinaryArry V) : Prop where
  slotDef_eq : a.slotDef = capacity hint 0
  slotMax_eq : a.slotMax = if kvs.length = 0 then 0 else capacity hint kvs.length
  slotMax_lt : a.slotMax < 2 ^ 31
  slotSz_eq : a.slotSz = kvs.length
  length_eq : a.slot.cells.length = blockItems size a.slotMax
  slotSz_le : a.slotSz ≤ a.slot.cells.length
  sorted : a.used.Pairwise KeyLe
  perm : a.used.Perm kvs
  written_lt : ∀ j ∈ a.slot.written, j < a.slot.cells.length

/-- `insert` grows the array exactly when its capacity is used up. -/
theorem Holds.full_iff (h : Holds size hint kvs a) :
    a.slotSz + 1 > a.slotMax ↔ kvs.length = 0 ∨ capacity hint kvs.length ≤ kvs.length := by
  rw [h.slotSz_eq, h.slotMax_eq]
  split_ifs with h0 <;> omega

theorem Holds.newMax_eq (h : Holds size hint kvs a) (hfull : a.slotSz + 1 > a.slotMax) :
    (if a.slotMax ≠ 0 then 2 * a.slotMax else a.slotDef) = capacity hint (kvs.length + 1) := by
  rw [capacity_succ, h.slotMax_eq, h.slotDef_eq]
  by_cases h0 : kvs.length = 0
  · have hpos : 0 < capacity hint 0 := Nat.two_pow_pos _
    rw [if_pos h0, if_neg (by omega), h0, if_pos hpos]
  · have hle := (h.full_iff.mp hfull).resolve_left h0
    have hpos : 0 < capacity hint kvs.length := Nat.two_pow_pos _
    rw [if_neg h0, if_pos (by omega), if_neg (by omega)]

theorem Holds.slotMax_of_room (h : Holds size hint kvs a) (hroom : ¬ a.slotSz + 1 > a.slotMax) :
    a.slotMax = capacity hint (kvs.length + 1) := by
  rw [h.full_iff, not_or, Nat.not_le] at hroom
  rw [h.slotMax_eq, if_neg hroom.1, capacity_succ, if_pos hroom.2]

/-- The array as `put` finds it. -/
structure Grown (size : Nat) (hint : Int) (kvs : List (Item V)) (a a' : BinaryArry V) : Prop where
  slotDef_eq : a'.slotDef = a.slotDef
  slotMax_eq : a'.slotMax = capacity hint (kvs.length + 1)
  slotSz_eq : a'.slotSz = a.slotSz
  length_eq : a'.slot.cells.length = blockItems size a'.slotMax
  slotSz_le : a'.slotSz ≤ a'.slot.cells.length
  used_eq : a'.used = a.used
  written_lt : ∀ j ∈ a'.slot.written, j < a'.slot.cells.length

/-- `grown` copies the items into the block for one item more. -/
theorem grown_spec (zero : V) (h : Holds size hint kvs a) (hfull : a.slotSz + 1 > a.slotMax)
    (hmax : capacity hint (kvs.length + 1) < 2 ^ 31)
    (hroom : kvs.length ≤ blockItems size (capacity hint (kvs.length + 1))) :
    ∃ a', a.grown size zero = .ok a' ∧ Grown size hint kvs a a' := by
  have hsz := h.slotSz_eq
  have hle := h.slotSz_le
  obtain ⟨slot', hcopy, hlen, hget, hwr⟩ := copySlots_spec a.slot
    ⟨.replicate (blockItems size (capacity hint (kvs.length + 1))) ⟨0, zero⟩, []⟩ 0 a.slotSz
    (by omega) (by rw [List.length_replicate]; omega)
  rw [List.length_replicate] at hlen
  refine ⟨{ a with slotMax := capacity hint (kvs.length + 1), slot := slot' }, ?_, rfl, rfl, rfl,
    hlen, by dsimp only; omega, ?_, fun j hj => ?_⟩
  · rw [grown, h.newMax_eq hfull, if_pos hmax, hcopy]
    rfl
  · apply List.ext_getElem?
    intro i
    rw [used, used]
    dsimp only
    by_cases hi : i < a.slotSz
    · rw [List.getElem?_take_of_lt hi, List.getElem?_take_of_lt hi, hget, if_pos (by omega)]
    · rw [List.getElem?_take_eq_none (by omega), List.getElem?_take_eq_none (by omega)]
  · rcases hwr j hj with hj | hj
    · cases hj
    · dsimp only
      omega

theorem grown_error (zero : V) (h : Holds size hint kvs a) (hfull : a.slotSz + 1 > a.slotMax)
    (hstuck : 2 ^ 31 ≤ capacity hint (kvs.length + 1) ∨
      blockItems size (capacity hint (kvs.length + 1)) < kvs.length) :
    ∃ f, a.grown size zero = .error f := by
  rw [grown, h.newMax_eq hfull]
  by_cases hmax : capacity hint (kvs.length + 1) < 2 ^ 31
  · have hsz := h.slotSz_eq
    have hle := h.slotSz_le
    obtain ⟨f, hcopy⟩ := copySlots_error a.slot
      ⟨.replicate (blockItems size (capacity hint (kvs.length + 1))) ⟨0, zero⟩, []⟩ 0 a.slotSz
      (by omega) (Nat.zero_le _) (by rw [List.length_replicate]; omega)
    rw [if_pos hmax, hcopy]
    exact ⟨f, rfl⟩
  · rw [if_neg hmax]
    exact ⟨_, rfl⟩

/-- The items of one more call fit: `insert` adds it. -/
theorem insert_step (zero : V) (hs : 0 < size) (h : Holds size hint kvs a)
    (hfit : Fits size hint (kvs.length + 1)) (kv : Item V) :
    ∃ a', a.insert size zero kv.key kv.val = .ok a' ∧ Holds size hint (kvs ++ [kv]) a' := by
  obtain ⟨hmax, hroom⟩ := (fits_succ_iff hs).mp hfit
  obtain ⟨b, hb, hg⟩ : ∃ b,
      (if a.slotSz + 1 > a.slotMax then a.grown size zero else .ok a) = .ok b ∧
      Grown size hint kvs a b := by
    by_cases hfull : a.slotSz + 1 > a.slotMax
    · rw [if_pos hfull]
      exact grown_spec zero h hfull hmax hroom.le
    · rw [if_neg hfull]
      exact ⟨a, rfl, rfl, h.slotMax_of_room hfull, rfl, h.length_eq, h.slotSz_le, rfl, h.written_lt⟩
  have hsz : b.slotSz = kvs.length := hg.slotSz_eq.trans h.slotSz_eq
  have hlt : b.slotSz < b.slot.cells.length := by rw [hg.length_eq, hg.slotMax_eq, hsz]; exact hroom
  obtain ⟨a', hput, hdef, hmax', hsz', hlen, hused, hwr⟩ := put_spec kv.key kv.val hlt
  rw [hg.used_eq] at hused
  refine ⟨a', ?_, ?_, ?_, ?_, ?_, ?_, ?_, ?_, ?_, ?_⟩
  · rw [insert, hb]
    exact hput
  · rw [hdef, hg.slotDef_eq, h.slotDef_eq]
  · rw [hmax', hg.slotMax_eq, List.length_append, List.length_singleton, if_neg (by omega)]
  · rw [hmax', hg.slotMax_eq]
    exact hmax
  · rw [hsz', hsz, List.length_append, List.length_singleton]
  · rw [hlen, hg.length_eq, hmax']
  · omega
  · rw [hused]
    exact h.sorted.orderedInsert _ _
  · rw [hused]
    exact (List.perm_orderedInsert KeyLe _ _).trans
      ((h.perm.cons kv).trans (List.perm_append_singleton kv kvs).symm)
  · intro j hj
    rw [hlen]
    rcases hwr j hj with hj | hj
    · exact hg.written_lt j hj
    · omega

/-- They do not: `insert` leaves the block or overflows. -/
theorem insert_stuck (zero : V) (hs : 0 < size) (h : Holds size hint kvs a)
    (hfit : ¬ Fits size hint (kvs.length + 1)) (kv : Item V) :
    ∃ f, a.insert size zero kv.key kv.val = .error f := by
  rw [fits_succ_iff hs, not_and_or, Nat.not_lt, Nat.not_lt] at hfit
  rw [insert]
  by_cases hfull : a.slotSz + 1 > a.slotMax
  · rw [if_pos hfull]
    by_cases hstuck : 2 ^ 31 ≤ capacity hint (kvs.length + 1) ∨
        blockItems size (capacity hint (kvs.length + 1)) < kvs.length
    · obtain ⟨f, hf⟩ := grown_error zero h hfull hstuck
      rw [hf]
      exact ⟨f, rfl⟩
    · -- the new block has room for the old items only
      rw [not_or, Nat.not_le, Nat.not_lt] at hstuck
      obtain ⟨b, hb, hg⟩ := grown_spec zero h hfull hstuck.1 hstuck.2
      rw [hb]
      refine put_error ?_
      rw [hg.length_eq, hg.slotMax_eq, hg.slotSz_eq, h.slotSz_eq]
      omega
  · rw [if_neg hfull]
    have hmax := h.slotMax_of_room hfull
    have hlt := h.slotMax_lt
    have hle := h.slotSz_le
    refine put_error (le_antisymm hle ?_)
    rw [h.length_eq, hmax, h.slotSz_eq]
    exact hfit.resolve_left (by omega)

/-! ## Runs -/

/-- The constructor doubles up to the capacity of an empty array. -/
theorem slotDefLoop_eq (hint : Int) (rounds j : Nat) (h : rounds + j = 30) :
    slotDefLoop hint rounds (2 ^ j) =
      if hint ≤ 2 ^ 30 then .ok (2 ^ max j (Nat.clog 2 hint.toNat)) else .error .overflow := by
  have hlt : ∀ k : Nat, ((2 ^ k : Nat) : Int) < hint ↔ k < Nat.clog 2 hint.toNat := fun k => by
    rw [Nat.lt_clog_iff_pow_lt Nat.one_lt_two, Int.lt_toNat]
  induction rounds generalizing j with
  | zero =>
    obtain rfl : j = 30 := by omega
    rw [slotDefLoop]
    by_cases hh : hint ≤ 2 ^ 30
    · have hk : ¬ ((2 ^ 30 : Nat) : Int) < hint := by push_cast; omega
      rw [if_neg hk, if_pos hh, max_eq_left (Nat.not_lt.mp fun h => hk ((hlt 30).mpr h))]
    · have hk : ((2 ^ 30 : Nat) : Int) < hint := by push_cast; omega
      rw [if_pos hk, if_neg hh]
  | succ rounds ih =>
    rw [slotDefLoop]
    by_cases hj : ((2 ^ j : Nat) : Int) < hint
    · have hk := (hlt j).mp hj
      rw [if_pos hj, ← Nat.pow_succ, ih (j + 1) (by omega), max_eq_right hk, max_eq_right hk.le]
    · have hk := Nat.not_lt.mp fun h => hj ((hlt j).mpr h)
      have hle : (2 ^ j : Nat) ≤ 2 ^ 30 := Nat.pow_le_pow_right Nat.zero_lt_two (by omega)
      have hh : hint ≤ 2 ^ 30 := by
        have : ((2 ^ j : Nat) : Int) ≤ ((2 ^ 30 : Nat) : Int) := Int.ofNat_le.mpr hle
        push_cast at this hj
        omega
      rw [if_neg hj, if_pos hh, max_eq_left hk]

theorem new_eq :
    new V hint =
      if hint ≤ 2 ^ 30 then .ok ⟨capacity hint 0, ⟨[], []⟩, 0, 0⟩ else .error .overflow := by
  have hloop := slotDefLoop_eq hint 29 1 rfl
  rw [Nat.pow_one] at hloop
  have hcap : capacity hint 0 = 2 ^ max 1 (Nat.clog 2 hint.toNat) := by
    rw [capacity, Nat.clog_zero_right, Nat.max_zero]
  rw [new, hloop, hcap]
  split_ifs <;> rfl

theorem inserts_concat (kv : Item V) :
    inserts size zero hint (kvs ++ [kv]) =
      inserts size zero hint kvs >>= fun a => a.insert size zero kv.key kv.val := by
  rw [inserts, inserts]
  simp only [List.foldlM_append, List.foldlM_cons, List.foldlM_nil, bind_pure, bind_assoc]

theorem holds_new (size : Nat) (hint : Int) :
    Holds size hint ([] : List (Item V)) ⟨capacity hint 0, ⟨[], []⟩, 0, 0⟩ where
  slotDef_eq := rfl
  slotMax_eq := rfl
  slotMax_lt := Nat.two_pow_pos 31
  slotSz_eq := rfl
  length_eq := by rw [blockItems, Nat.mul_zero, Nat.zero_mod, Nat.zero_div]; rfl
  slotSz_le := Nat.le_refl 0
  sorted := List.Pairwise.nil
  perm := List.Perm.refl []
  written_lt := fun j hj => by cases hj

/-- Calls whose items fit build the array up. -/
theorem inserts_spec (zero : V) (hs : 0 < size) (hh : hint ≤ 2 ^ 30) (kvs : List (Item V))
    (hfit : Fits size hint kvs.length) :
    ∃ a, inserts size zero hint kvs = .ok a ∧ Holds size hint kvs a := by
  induction kvs using List.reverseRecOn with
  | nil =>
    refine ⟨_, ?_, holds_new size hint⟩
    rw [inserts, new_eq, if_pos hh]
    rfl
  | append_singleton kvs kv ih =>
    rw [List.length_append, List.length_singleton] at hfit
    obtain ⟨a, ha, hholds⟩ := ih hfit.of_succ
    obtain ⟨a', ha', hholds'⟩ := insert_step zero hs hholds hfit kv
    refine ⟨a', ?_, hholds'⟩
    rw [inserts_concat, ha]
    exact ha'

theorem inserts_stuck (zero : V) (hs : 0 < size) (kvs : List (Item V))
    (hfit : ¬ (hint ≤ 2 ^ 30 ∧ Fits size hint kvs.length)) :
    ∃ f, inserts size zero hint kvs = .error f := by
  by_cases hh : hint ≤ 2 ^ 30
  · rw [not_and] at hfit
    induction kvs using List.reverseRecOn with
    | nil => exact absurd (.inl rfl) (hfit hh)
    | append_singleton kvs kv ih =>
      rw [inserts_concat]
      by_cases hfit' : Fits size hint kvs.length
      · obtain ⟨a, ha, hholds⟩ := inserts_spec zero hs hh kvs hfit'
        rw [ha]
        rw [List.length_append, List.length_singleton] at hfit
        exact insert_stuck zero hs hholds (hfit hh) kv
      · obtain ⟨f, hf⟩ := ih fun _ => hfit'
        rw [hf]
        exact ⟨f, rfl⟩
  · rw [inserts, new_eq, if_neg hh]
    exact ⟨_, rfl⟩

/-- What `insert` is for: the array after the calls for `kvs`. -/
structure Conforms (kvs : List (Item V)) (a : BinaryArry V) : Prop where
  slotSz_eq : a.slotSz = kvs.length
  sorted : a.used.Pairwise KeyLe
  perm : a.used.Perm kvs
  slotSz_le : a.slotSz ≤ a.slotMax
  written_lt : ∀ i ∈ a.slot.written, i < a.slotMax

theorem Holds.conforms (hs : 0 < size) (h : Holds size hint kvs a) : Conforms kvs a := by
  have hle : a.slot.cells.length ≤ a.slotMax := h.length_eq ▸ blockItems_le hs a.slotMax
  exact ⟨h.slotSz_eq, h.sorted, h.perm, h.slotSz_le.trans hle,
    fun i hi => (h.written_lt i hi).trans_le hle⟩

/-- **Insertion.** For size hints up to `2 ^ 30` and fewer than `2 ^ 30` calls, the array is sorted,
holds what was inserted and was written within its bounds, if and only if there was no call or the
block that was asked for last has room for the items. -/
theorem inserts_iff (hs : 0 < size) (hh : hint ≤ 2 ^ 30) (hn : kvs.length < 2 ^ 30) :
    (∃ a, inserts size zero hint kvs = .ok a ∧ Conforms kvs a) ↔
      kvs = [] ∨ kvs.length * size ≤ size * capacity hint kvs.length % 2 ^ 32 := by
  have hmax : capacity hint kvs.length < 2 ^ 31 := by
    refine Nat.pow_lt_pow_right Nat.one_lt_two ?_
    have h1 : Nat.clog 2 hint.toNat ≤ 30 := Nat.clog_le_of_le_pow (by omega)
    have h2 : Nat.clog 2 kvs.length ≤ 30 := Nat.clog_le_of_le_pow (by omega)
    omega
  have hfits : Fits size hint kvs.length ↔
      kvs = [] ∨ kvs.length * size ≤ size * capacity hint kvs.length % 2 ^ 32 := by
    rw [Fits, List.length_eq_zero_iff]
    exact or_congr_right (and_iff_right hmax)
  rw [← hfits]
  constructor
  · rintro ⟨a, ha, -⟩
    by_contra hfit
    obtain ⟨f, hf⟩ := inserts_stuck zero hs kvs fun h => hfit h.2
    rw [hf] at ha
    cases ha
  · intro hfit
    obtain ⟨a, ha, hholds⟩ := inserts_spec zero hs hh kvs hfit
    exact ⟨a, ha, hholds.conforms hs⟩

end Growth

/-- Five handlers, two of them under one key. -/
def fiveHandlers : List (Item Nat) := [⟨5, 50⟩, ⟨1, 10⟩, ⟨9, 90⟩, ⟨5, 51⟩, ⟨3, 30⟩]

/-- The array has grown from 2 to 4 and to 8 items. -/
theorem inserts_iff_grown :
    ∃ a, inserts 8 0 0 fiveHandlers = .ok a ∧ a.slotMax = 8 ∧
      a.used = [⟨1, 10⟩, ⟨3, 30⟩, ⟨5, 51⟩, ⟨5, 50⟩, ⟨9, 90⟩] ∧ Conforms fiveHandlers a := by
  have hcap : capacity 0 fiveHandlers.length = 8 := by
    rw [capacity]
    rfl
  have hroom : fiveHandlers.length * 8 ≤ 8 * capacity 0 fiveHandlers.length % 2 ^ 32 := by
    rw [hcap]
    decide
  obtain ⟨a, ha, hconf⟩ : ∃ a, inserts 8 0 0 fiveHandlers = .ok a ∧ Conforms fiveHandlers a :=
    (inserts_iff (by decide) (by decide) (by decide)).mpr (.inr hroom)
  refine ⟨a, ha, ?_, ?_, hconf⟩
  all_goals
    obtain rfl := Except.ok.inj ha
    rfl

/-- With the size hint `2 ^ 29`, items of 8 bytes are written into a block of no bytes. -/
theorem hinted_array_overruns :
    ¬ ∃ a, inserts 8 0 (2 ^ 29) [(⟨7, 70⟩ : Item Nat)] = .ok a ∧ Conforms [⟨7, 70⟩] a := by
  rintro ⟨a, ha, -⟩
  have hno : ¬ ((2 : Int) ^ 29 ≤ 2 ^ 30 ∧ Fits 8 (2 ^ 29) [(⟨7, 70⟩ : Item Nat)].length) := by
    rw [fits_handlers]
    decide
  obtain ⟨f, hf⟩ := inserts_stuck 0 (by decide) [(⟨7, 70⟩ : Item Nat)] hno
  rw [hf] at ha
  cases ha

end BinaryArry

end HoNet
