import HoNet.Lib.Chain
import HoNet.Lib.Linked
import HoNet.RingBuffer

/-!
# `buffer.cpp`

`buffer_head` is a queue of `ring_buffer`s linked through their `next` fields. The buffers live at
addresses of a memory; `Holds` says which list of addresses a queue is.

* `holds_iff_deque` — the queue as a list with two ends.
* `Holds.pushBack`, `Holds.popFront_cons` — the two operations on the list.
-/

namespace HoNet

/-- The buffers at their addresses. -/
abbrev BufMem := Nat → RingBuffer

/-- `buffer_head` without its lock: every function runs under it. -/
structure BufferHead where
  head : Option Nat
  tail : Option Nat
  deriving DecidableEq, Repr, Inhabited

namespace BufferHead

def setNext (mem : BufMem) (p : Nat) (q : Option Nat) : BufMem :=
  Function.update mem p { mem p with next := q }

def pushBack (mem : BufMem) (wb : BufferHead) (b : Nat) : BufMem × BufferHead :=
  match wb.head, wb.tail with
  | none, _ => (mem, ⟨some b, some b⟩)
  | some h, some t => (setNext mem t (some b), ⟨some h, some b⟩)
  | some h, none => (mem, ⟨some h, none⟩)

def pushFront (mem : BufMem) (wb : BufferHead) (b : Nat) : BufMem × BufferHead :=
  (setNext mem b wb.head,
    match wb.head with
    | none => ⟨some b, some b⟩
    | some _ => ⟨some b, wb.tail⟩)

/-- The queue behind `pop_front` and the buffer it returns. -/
def popFront (mem : BufMem) (wb : BufferHead) : BufferHead × Option Nat :=
  match wb.head with
  | none => (⟨none, none⟩, none)
  | some b =>
    match (mem b).next with
    | none => (⟨none, none⟩, some b)
    | some n => (⟨some n, wb.tail⟩, some b)

/-- `clean` deletes every buffer. -/
def clean (_ : BufferHead) : BufferHead := ⟨none, none⟩

/-! ## The list of a queue -/

/-- The link out of a cell; the null link leads nowhere. -/
def link (mem : BufMem) : Option Nat → Option Nat
  | none => none
  | some p => (mem p).next

structure Holds (mem : BufMem) (wb : BufferHead) (q : List Nat) : Prop where
  path : Linked.Path (link mem) wb.head (q.map some) none
  tail_eq : wb.tail = q.getLast?
  nodup : q.Nodup

variable {mem mem' : BufMem} {wb : BufferHead} {q : List Nat} {b : Nat}

/-- A path over the links is a chain up to null. -/
theorem path_iff_chain {p : Option Nat} :
    Linked.Path (link mem) p (q.map some) none ↔ Linked.Chain (fun x => (mem x).next) p q none := by
  induction q generalizing p with
  | nil => exact Iff.rfl
  | cons x q ih => exact and_congr_right fun _ => ih

/-- The queue is a list with two ends; that no buffer is in it twice follows. -/
theorem holds_iff_deque :
    Holds mem wb q ↔ Linked.Deque (fun x => (mem x).next) wb.head wb.tail q := by
  constructor
  · intro h
    exact ⟨path_iff_chain.mp h.path, h.tail_eq⟩
  · intro h
    exact ⟨path_iff_chain.mpr h.chain, h.tail_eq, h.chain.nodup⟩

theorem holds_nil : Holds mem ⟨none, none⟩ [] := ⟨rfl, rfl, List.nodup_nil⟩

theorem Holds.head_none (h : Holds mem wb q) : wb.head = none ↔ q = [] :=
  (holds_iff_deque.mp h).head_none

/-- The list depends on the links of its members only. -/
theorem Holds.congr (h : Holds mem wb q) (hm : ∀ p ∈ q, (mem' p).next = (mem p).next) :
    Holds mem' wb q :=
  holds_iff_deque.mpr ((holds_iff_deque.mp h).congr hm)

theorem next_setNext (mem : BufMem) (p : Nat) (n : Option Nat) :
    (fun x => (setNext mem p n x).next) = Function.update (fun x => (mem x).next) p n := by
  funext x
  rcases eq_or_ne x p with rfl | hx
  · simp only [setNext, Function.update_self]
  · simp only [setNext, Function.update_of_ne hx]

/-- The two outcomes of `push_back` on a queue that is a list. -/
theorem pushBack_eq (h : Linked.Deque (fun x => (mem x).next) wb.head wb.tail q) (b : Nat) :
    q = [] ∧ wb.head = none ∧ pushBack mem wb b = (mem, ⟨some b, some b⟩) ∨
    ∃ t ∈ q, wb.tail = some t ∧
      pushBack mem wb b = (setNext mem t (some b), ⟨wb.head, some b⟩) := by
  unfold pushBack
  cases hhead : wb.head with
  | none => exact .inl ⟨h.head_none.mp hhead, rfl, rfl⟩
  | some hd =>
    have hq : q ≠ [] := by
      intro e
      rw [h.head_none.mpr e] at hhead
      cases hhead
    obtain ⟨t, ht⟩ := Option.ne_none_iff_exists'.mp fun e => hq (h.tail_none.mp e)
    refine .inr ⟨t, List.mem_of_getLast? (h.tail_eq.symm.trans ht), ht, ?_⟩
    rw [ht]

theorem deque_pushBack (h : Linked.Deque (fun x => (mem x).next) wb.head wb.tail q) (hb : b ∉ q)
    (hn : (mem b).next = none) :
    Linked.Deque (fun x => ((pushBack mem wb b).1 x).next) (pushBack mem wb b).2.head
      (pushBack mem wb b).2.tail (q ++ [b]) := by
  have hchain : Linked.Chain (fun p => (mem p).next) (some b) [b] none := ⟨rfl, hn⟩
  rcases pushBack_eq h b with ⟨rfl, -, heq⟩ | ⟨t, ht, htail, heq⟩
  · rw [heq]
    exact hchain.deque
  · rw [heq, next_setNext]
    rw [htail] at h
    exact h.append hchain (fun z hz => List.mem_singleton.mp hz ▸ hb) (List.cons_ne_nil _ _)

theorem Holds.pushBack (h : Holds mem wb q) (hb : b ∉ q) (hn : (mem b).next = none) :
    Holds (pushBack mem wb b).1 (pushBack mem wb b).2 (q ++ [b]) :=
  holds_iff_deque.mpr (deque_pushBack (holds_iff_deque.mp h) hb hn)

/-- `push_back` writes links only. -/
theorem pushBack_bytes (mem : BufMem) (wb : BufferHead) (b p : Nat) :
    ∃ n, (BufferHead.pushBack mem wb b).1 p = { mem p with next := n } := by
  simp only [BufferHead.pushBack]
  split
  · exact ⟨_, rfl⟩
  · rename_i t _ _
    by_cases hp : p = t
    · exact ⟨some b, by simp only [hp, setNext, Function.update_self]⟩
    · exact ⟨(mem p).next, by simp only [setNext, Function.update_of_ne hp]⟩
  · exact ⟨_, rfl⟩

theorem Holds.popFront_nil (h : Holds mem wb []) : popFront mem wb = (⟨none, none⟩, none) := by
  rw [popFront, h.head_none.mpr rfl]

theorem deque_popFront (h : Linked.Deque (fun x => (mem x).next) wb.head wb.tail (b :: q)) :
    (popFront mem wb).2 = some b ∧
      Linked.Deque (fun x => (mem x).next) (popFront mem wb).1.head (popFront mem wb).1.tail q := by
  obtain ⟨hhead, hrest⟩ := h.pop
  cases hnext : (mem b).next with
  | none =>
    rw [if_pos hnext, hnext] at hrest
    simp only [popFront, hhead, hnext]
    exact ⟨trivial, hrest⟩
  | some n =>
    rw [if_neg (by rw [hnext]; simp), hnext] at hrest
    simp only [popFront, hhead, hnext]
    exact ⟨trivial, hrest⟩

theorem Holds.popFront_cons (h : Holds mem wb (b :: q)) :
    (popFront mem wb).2 = some b ∧ Holds mem (popFront mem wb).1 q := by
  rw [holds_iff_deque] at h ⊢
  exact deque_popFront h

end BufferHead

end HoNet
