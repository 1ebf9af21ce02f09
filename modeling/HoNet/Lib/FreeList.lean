import HoNet.Lib.Chain
import Mathlib.Data.Multiset.AddSub
import Mathlib.Data.Multiset.UnionInter

/-!
# Free lists

Cells that were allocated and are not in use form a chain; the others are in somebody's hands.
Taking a cell from the chain, putting one into it, allocating and freeing keep every cell in one
hand or once in the chain.

* `FreeList.pop`, `FreeList.push` — moving a cell between the chain and a hand.
* `FreeList.link` — writing the link of a cell in a hand.
-/

namespace HoNet.Linked

variable {α : Type} {next : α → Option α} {head : Option α} {hands alive : Multiset α} {L : List α}
  {r : α}

/-- Every allocated cell is in one hand or once in the chain from `head`. -/
structure FreeList (next : α → Option α) (head : Option α) (hands alive : Multiset α) (L : List α) :
    Prop where
  chain : Chain next head L none
  alive_eq : alive = hands + L
  nodup : alive.Nodup

theorem FreeList.empty (next : α → Option α) : FreeList next none 0 0 [] :=
  ⟨rfl, rfl, Multiset.nodup_zero⟩

/-- A cell in a hand is not in the chain. -/
theorem FreeList.not_mem (h : FreeList next head hands alive L) (hr : r ∈ hands) : r ∉ L := by
  have hnd := h.nodup
  rw [h.alive_eq, Multiset.nodup_add] at hnd
  exact fun hm => Multiset.disjoint_left.mp hnd.2.2 hr (Multiset.mem_coe.mpr hm)

theorem FreeList.mem_alive (h : FreeList next head hands alive L) (hr : r ∈ hands) : r ∈ alive := by
  rw [h.alive_eq]
  exact Multiset.mem_add.mpr (.inl hr)

theorem FreeList.head_alive (h : FreeList next (some r) hands alive L) : r ∈ alive := by
  have hhead := h.chain.head_eq
  rw [h.alive_eq]
  exact Multiset.mem_add.mpr (.inr (Multiset.mem_coe.mpr (List.mem_of_head? hhead.symm)))

/-- **The first cell is taken.** -/
theorem FreeList.pop (h : FreeList next (some r) hands alive L) :
    FreeList next (next r) ({r} + hands) alive L.tail := by
  have hchain := h.chain
  cases L with
  | nil =>
    have hnone : some r = none := hchain
    cases hnone
  | cons x L =>
    obtain ⟨hx, hL⟩ := hchain
    obtain rfl : r = x := Option.some.inj hx
    refine ⟨hL, ?_, h.nodup⟩
    rw [h.alive_eq, ← Multiset.cons_coe, Multiset.add_cons, List.tail_cons, Multiset.singleton_add,
      Multiset.cons_add]

/-- **A cell is put in front**, with its link to what was the first one. -/
theorem FreeList.push (h : FreeList next head ({r} + hands) alive L) (hr : next r = head) :
    FreeList next (some r) hands alive (r :: L) := by
  refine ⟨⟨rfl, ?_⟩, ?_, h.nodup⟩
  · rw [hr]
    exact h.chain
  · rw [h.alive_eq, ← Multiset.cons_coe, Multiset.add_cons, Multiset.singleton_add,
      Multiset.cons_add]

theorem FreeList.malloc (h : FreeList next head hands alive L) (hr : r ∉ alive) :
    FreeList next head ({r} + hands) (r ::ₘ alive) L := by
  refine ⟨h.chain, ?_, Multiset.nodup_cons.mpr ⟨hr, h.nodup⟩⟩
  rw [h.alive_eq, Multiset.singleton_add, Multiset.cons_add]

variable [DecidableEq α]

theorem FreeList.free (h : FreeList next head ({r} + hands) alive L) :
    FreeList next head hands (alive.erase r) L := by
  refine ⟨h.chain, ?_, h.nodup.erase r⟩
  rw [h.alive_eq, Multiset.singleton_add, Multiset.cons_add, Multiset.erase_cons_head]

/-- **The link of a cell in a hand is written.** -/
theorem FreeList.link (h : FreeList next head hands alive L) (hr : r ∈ hands) (v : Option α) :
    FreeList (Function.update next r v) head hands alive L := by
  refine ⟨h.chain.congr fun x hx => ?_, h.alive_eq, h.nodup⟩
  have hne : x ≠ r := by
    rintro rfl
    exact h.not_mem hr hx
  exact Function.update_of_ne hne ..

end HoNet.Linked
