import HoNet.BufferHead

/-!
# A `buffer_head` as a double-ended list

Runs of `push_back`, `push_front` and `pop_front` over buffers that exist from the beginning, in any
state of their links. A popped buffer keeps its link, and `push_back` keeps it too.

* `Is.step` — one call on the list.
* `buffer_head_conforms_iff` — the runs in which the queue is the list.
-/

namespace HoNet.BufferHead

open Linked

/-! ## Runs -/

inductive HeadOp where
  | pushBack (b : Nat)
  | pushFront (b : Nat)
  | popFront
  deriving DecidableEq, Repr

namespace HeadOp

/-- The list behind a call. -/
def step (q : List Nat) : HeadOp → List Nat
  | .pushBack b => q ++ [b]
  | .pushFront b => b :: q
  | .popFront => q.tail

def result (q : List Nat) : HeadOp → Option Nat
  | .popFront => q.head?
  | _ => none

/-- What is pushed is not in the queue. -/
def Legal (q : List Nat) : HeadOp → Prop
  | .pushBack b | .pushFront b => b ∉ q
  | .popFront => True

end HeadOp

def LegalRun (q : List Nat) : List HeadOp → Prop
  | [] => True
  | op :: ops => op.Legal q ∧ LegalRun (op.step q) ops

/-- The call in the code; `none` when `push_back` follows a null `tail`. -/
def exec (mem : BufMem) (wb : BufferHead) : HeadOp → Option (BufMem × BufferHead × Option Nat)
  | .pushBack b =>
    if wb.head ≠ none ∧ wb.tail = none then none
    else some ((pushBack mem wb b).1, (pushBack mem wb b).2, none)
  | .pushFront b => some ((pushFront mem wb b).1, (pushFront mem wb b).2, none)
  | .popFront => some (mem, (popFront mem wb).1, (popFront mem wb).2)

/-- The chain from `head` is the list and ends in `tail`. -/
def Is (mem : BufMem) (wb : BufferHead) (q : List Nat) : Prop :=
  Deque (fun p => (mem p).next) wb.head wb.tail q

/-- Every call returns, with the result that the list gives, and the queue is the list throughout. -/
def Conforms (mem : BufMem) (wb : BufferHead) (q : List Nat) : List HeadOp → Prop
  | [] => Is mem wb q
  | op :: ops => Is mem wb q ∧ ∃ mem' wb', exec mem wb op = some (mem', wb', op.result q) ∧
    Conforms mem' wb' (op.step q) ops

/-- Whatever `push_back` is given has a null link. -/
def Unlinked (mem : BufMem) (wb : BufferHead) : List HeadOp → Prop
  | [] => True
  | op :: ops => (∀ b, op = .pushBack b → (mem b).next = none) ∧
    ∀ r ∈ exec mem wb op, Unlinked r.1 r.2.1 ops

/-! ## One call -/

variable {mem : BufMem} {wb : BufferHead} {q : List Nat} {b : Nat}

/-- The two outcomes of `push_back` on a queue that is a list. -/
theorem exec_pushBack (h : Is mem wb q) (b : Nat) :
    exec mem wb (.pushBack b) = some ((pushBack mem wb b).1, (pushBack mem wb b).2, none) ∧
      ((pushBack mem wb b).1 = mem ∨ ∃ t ∈ q, (pushBack mem wb b).1 = setNext mem t (some b)) := by
  have hexec : ¬ (wb.head ≠ none ∧ wb.tail = none) := by
    rintro ⟨hhead, htail⟩
    exact hhead (h.head_none.mpr (h.tail_none.mp htail))
  refine ⟨if_neg hexec, ?_⟩
  rcases pushBack_eq h b with ⟨-, -, heq⟩ | ⟨t, ht, -, heq⟩
  · exact .inl (congrArg Prod.fst heq)
  · exact .inr ⟨t, ht, congrArg Prod.fst heq⟩

theorem deque_pushFront (h : Is mem wb q) (hb : b ∉ q) :
    ∃ mem' wb', exec mem wb (.pushFront b) = some (mem', wb', none) ∧ Is mem' wb' (b :: q) := by
  refine ⟨_, _, rfl, ?_⟩
  have hhead : (pushFront mem wb b).2.head = some b := by
    unfold pushFront
    cases wb.head <;> rfl
  have htail : (pushFront mem wb b).2.tail = (b :: q).getLast? := by
    cases hwb : wb.head with
    | none =>
      rw [h.head_none.mp hwb]
      simp only [pushFront, hwb]
      rfl
    | some hd =>
      have hq : q ≠ [] := fun e => by
        rw [h.head_none.mpr e] at hwb
        cases hwb
      simp only [pushFront, hwb]
      rw [h.tail_eq, ← List.singleton_append, List.getLast?_append_of_ne_nil _ hq]
  refine ⟨⟨hhead, ?_⟩, htail⟩
  show Chain (fun p => (setNext mem b wb.head p).next) ((setNext mem b wb.head b).next) q none
  rw [next_setNext]
  have hfirst : (setNext mem b wb.head b).next = wb.head := by
    simp only [setNext, Function.update_self]
  rw [hfirst]
  refine h.chain.congr fun z hz => ?_
  have hzb : z ≠ b := fun e => hb (e ▸ hz)
  exact Function.update_of_ne hzb ..

theorem exec_popFront (h : Is mem wb q) :
    ∃ wb', exec mem wb .popFront = some (mem, wb', q.head?) ∧ Is mem wb' q.tail := by
  refine ⟨(popFront mem wb).1, ?_⟩
  cases q with
  | nil =>
    have hhead := h.head_none.mpr rfl
    simp only [exec, popFront, hhead]
    exact ⟨rfl, deque_nil⟩
  | cons x q =>
    obtain ⟨hret, hrest⟩ := deque_popFront h
    refine ⟨?_, hrest⟩
    rw [exec, hret]
    rfl

/-- A link that is not null is kept by `push_back`, behind the new `tail`. -/
theorem not_deque_pushBack (h : Is mem wb q) (hb : b ∉ q) (hn : (mem b).next ≠ none)
    {mem' : BufMem} {wb' : BufferHead} {r : Option Nat}
    (hexec : exec mem wb (.pushBack b) = some (mem', wb', r)) : ¬ Is mem' wb' (q ++ [b]) := by
  intro h'
  have hlast : (mem' b).next = none := (chain_concat.mp h'.chain).2
  obtain ⟨heq, hmem⟩ := exec_pushBack h b
  rw [heq] at hexec
  obtain ⟨rfl, -⟩ := Prod.mk.inj (Option.some.inj hexec)
  rcases hmem with hsame | ⟨t, ht, hset⟩
  · rw [hsame] at hlast
    exact hn hlast
  · have hbt : b ≠ t := fun e => hb (e ▸ ht)
    rw [hset] at hlast
    simp only [setNext, Function.update_of_ne hbt] at hlast
    exact hn hlast

/-! ## All calls -/

theorem Conforms.is {ops : List HeadOp} (h : Conforms mem wb q ops) : Is mem wb q := by
  cases ops with
  | nil => exact h
  | cons op ops => exact h.1

/-- A legal call that gives no linked buffer to `push_back` does what the list does. -/
theorem Is.step (h : Is mem wb q) {op : HeadOp} (hl : op.Legal q)
    (hn : ∀ b, op = .pushBack b → (mem b).next = none) :
    ∃ mem' wb', exec mem wb op = some (mem', wb', op.result q) ∧ Is mem' wb' (op.step q) := by
  cases op with
  | pushBack b => exact ⟨_, _, (exec_pushBack h b).1, deque_pushBack h hl (hn b rfl)⟩
  | pushFront b => exact deque_pushFront h hl
  | popFront =>
    obtain ⟨wb', hexec, h'⟩ := exec_popFront h
    exact ⟨mem, wb', hexec, h'⟩

theorem conforms_iff {ops : List HeadOp} (h : Is mem wb q) (hl : LegalRun q ops) :
    Conforms mem wb q ops ↔ Unlinked mem wb ops := by
  induction ops generalizing mem wb q with
  | nil => exact iff_of_true h trivial
  | cons op ops ih =>
    obtain ⟨hop, hops⟩ := hl
    by_cases hn : ∀ b, op = .pushBack b → (mem b).next = none
    · obtain ⟨mem', wb', hexec, h'⟩ := h.step hop hn
      rw [Unlinked, and_iff_right hn]
      constructor
      · rintro ⟨-, mem₂, wb₂, hexec₂, hrest⟩
        rw [hexec] at hexec₂
        obtain ⟨rfl, hw⟩ := Prod.mk.inj (Option.some.inj hexec₂)
        obtain ⟨rfl, -⟩ := Prod.mk.inj hw
        intro r hr
        obtain rfl := Option.some.inj (hexec.symm.trans hr)
        exact (ih h' hops).mp hrest
      · intro hrest
        exact ⟨h, mem', wb', hexec, (ih h' hops).mpr (hrest _ hexec)⟩
    · push Not at hn
      obtain ⟨b, rfl, hb⟩ := hn
      refine iff_of_false ?_ fun hu => hb (hu.1 b rfl)
      rintro ⟨-, mem', wb', hexec, hrest⟩
      exact not_deque_pushBack h hop hb hexec hrest.is

/-- **A `buffer_head` is a double-ended list** in a run in which nothing is pushed twice if and only if
every buffer given to `push_back` has a null link. -/
theorem buffer_head_conforms_iff (mem : BufMem) (ops : List HeadOp) (hl : LegalRun [] ops) :
    Conforms mem ⟨none, none⟩ [] ops ↔ Unlinked mem ⟨none, none⟩ ops :=
  conforms_iff deque_nil hl

/-- Buffers that were never in a queue. -/
def freshBuffers : BufMem := fun _ => ⟨none, [], 0, 0, 0⟩

/-- A buffer that was popped as the last one is pushed again. -/
theorem buffer_head_conforms_iff_last :
    Conforms freshBuffers ⟨none, none⟩ [] [.pushBack 0, .popFront, .pushBack 0] := by
  have hl : LegalRun [] [.pushBack 0, .popFront, .pushBack 0] :=
    ⟨List.not_mem_nil, trivial, List.not_mem_nil, trivial⟩
  refine (buffer_head_conforms_iff freshBuffers _ hl).mpr ⟨fun _ _ => rfl, fun r hr => ?_⟩
  obtain rfl := Option.some.inj hr
  refine ⟨fun _ _ => rfl, fun r hr => ?_⟩
  obtain rfl := Option.some.inj hr
  exact ⟨fun _ _ => rfl, fun _ _ => trivial⟩

/-- A buffer that was popped from in front of another one is pushed again: the chain goes round. -/
theorem popped_buffer_loops :
    LegalRun [] [.pushBack 0, .pushBack 1, .popFront, .pushBack 0] ∧
      ¬ Conforms freshBuffers ⟨none, none⟩ [] [.pushBack 0, .pushBack 1, .popFront, .pushBack 0] := by
  refine ⟨⟨List.not_mem_nil, show 1 ∉ [0] by decide, trivial, show 0 ∉ [1] by decide, trivial⟩, ?_⟩
  rintro ⟨-, mem₁, wb₁, h₁, -, mem₂, wb₂, h₂, -, mem₃, wb₃, h₃, his, mem₄, wb₄, h₄, hend⟩
  obtain ⟨rfl, hw₁⟩ := Prod.mk.inj (Option.some.inj h₁)
  obtain ⟨rfl, -⟩ := Prod.mk.inj hw₁
  obtain ⟨rfl, hw₂⟩ := Prod.mk.inj (Option.some.inj h₂)
  obtain ⟨rfl, -⟩ := Prod.mk.inj hw₂
  obtain ⟨rfl, hw₃⟩ := Prod.mk.inj (Option.some.inj h₃)
  obtain ⟨rfl, -⟩ := Prod.mk.inj hw₃
  refine not_deque_pushBack his (by decide) ?_ h₄ hend
  decide

end HoNet.BufferHead
