import Mathlib.Data.List.Basic
import Mathlib.Data.List.Nodup
import Mathlib.Logic.Function.Basic
import Mathlib.Tactic

/-!
# Null-terminated lists

Every cell has one link `next`, which may be null. `Chain next p L e` is the list of cells `L` that
begins at the link `p` and whose last link is `e`; `Deque next head tail L` is such a list up to null
with a pointer to either end.

* `Chain.unique`, `Chain.nodup` — a chain up to null is determined by its first link and has no cell
  twice.
* `Chain.splice` — linking a cell behind one of the chain.
* `Deque.append`, `Deque.prepend`, `Deque.pop` — linking a chain behind or in front, and moving the
  head on.
-/

namespace HoNet.Linked

variable {α : Type} {next next' : α → Option α} {p e : Option α} {x t : α} {L L' c q : List α}

def Chain (next : α → Option α) : Option α → List α → Option α → Prop
  | p, [], e => p = e
  | p, x :: L, e => p = some x ∧ Chain next (next x) L e

/-- A chain depends on the links of its cells only. -/
theorem Chain.congr (h : Chain next p L e) (hn : ∀ z ∈ L, next' z = next z) : Chain next' p L e := by
  induction L generalizing p with
  | nil => exact h
  | cons x L ih =>
    obtain ⟨hp, hL⟩ := h
    refine ⟨hp, ?_⟩
    rw [hn x List.mem_cons_self]
    exact ih hL fun z hz => hn z (List.mem_cons_of_mem _ hz)

theorem chain_append : Chain next p (L ++ L') e ↔ ∃ m, Chain next p L m ∧ Chain next m L' e := by
  induction L generalizing p with
  | nil =>
    constructor
    · intro h
      exact ⟨p, rfl, h⟩
    · rintro ⟨m, hp, h⟩
      obtain rfl : p = m := hp
      exact h
  | cons x L ih =>
    simp only [List.cons_append, Chain, ih]
    constructor
    · rintro ⟨hp, m, h, h'⟩
      exact ⟨m, ⟨hp, h⟩, h'⟩
    · rintro ⟨m, ⟨hp, h⟩, h'⟩
      exact ⟨hp, m, h, h'⟩

theorem chain_concat : Chain next p (L ++ [x]) e ↔ Chain next p L (some x) ∧ next x = e := by
  rw [chain_append]
  constructor
  · rintro ⟨m, h, rfl, hx⟩
    exact ⟨h, hx⟩
  · rintro ⟨h, hx⟩
    exact ⟨some x, h, rfl, hx⟩

/-- A chain up to null is determined by its first link. -/
theorem Chain.unique (h : Chain next p L none) (h' : Chain next p L' none) : L = L' := by
  induction L generalizing p L' with
  | nil =>
    cases L' with
    | nil => rfl
    | cons x L' =>
      have hp : p = none := h
      have hp' : p = some x := h'.1
      rw [hp] at hp'
      cases hp'
  | cons x L ih =>
    obtain ⟨hp, hL⟩ := h
    cases L' with
    | nil =>
      have hp' : p = none := h'
      rw [hp'] at hp
      cases hp
    | cons y L' =>
      obtain ⟨hp', hL'⟩ := h'
      obtain rfl : x = y := Option.some.inj (hp.symm.trans hp')
      rw [ih hL hL']

/-- It comes back to no cell. -/
theorem Chain.nodup (h : Chain next p L none) : L.Nodup := by
  induction L generalizing p with
  | nil => exact List.nodup_nil
  | cons x L ih =>
    refine List.nodup_cons.mpr ⟨fun hx => ?_, ih h.2⟩
    -- from the second `x` on the chain would be the whole of `L` again
    obtain ⟨A, B, rfl⟩ := List.append_of_mem hx
    obtain ⟨m, -, hm⟩ := chain_append.mp h.2
    have heq := hm.2.unique h.2
    have := congrArg List.length heq
    simp only [List.length_append, List.length_cons] at this
    omega

theorem Chain.head_eq (h : Chain next p L none) : p = L.head? := by
  cases L with
  | nil => exact h
  | cons x L => exact h.1

/-- The link of a cell is that to the next cell. -/
theorem Chain.next_eq (h : Chain next p (L ++ x :: L') none) : next x = L'.head? := by
  obtain ⟨m, -, -, hL'⟩ := chain_append.mp h
  exact hL'.head_eq

/-- Links do not leave the chain. -/
theorem Chain.next_mem (h : Chain next p L none) (hx : x ∈ L) (hn : next x = some t) : t ∈ L := by
  obtain ⟨A, B, rfl⟩ := List.append_of_mem hx
  rw [h.next_eq] at hn
  exact List.mem_append_right _ (List.mem_cons_of_mem _ (List.mem_of_head? hn))

/-! ## Lists with two ends -/

structure Deque (next : α → Option α) (head tail : Option α) (q : List α) : Prop where
  chain : Chain next head q none
  tail_eq : tail = q.getLast?

variable {head tail : Option α}

theorem deque_nil : Deque next none none [] := ⟨rfl, rfl⟩

theorem Deque.congr (h : Deque next head tail q) (hn : ∀ z ∈ q, next' z = next z) :
    Deque next' head tail q :=
  ⟨h.chain.congr hn, h.tail_eq⟩

theorem Deque.head_none (h : Deque next head tail q) : head = none ↔ q = [] := by
  rw [h.chain.head_eq, List.head?_eq_none_iff]

theorem Deque.tail_none (h : Deque next head tail q) : tail = none ↔ q = [] := by
  rw [h.tail_eq, List.getLast?_eq_none_iff]

/-- A chain as a list of its own. -/
theorem Chain.deque (h : Chain next p c none) : Deque next p c.getLast? c := ⟨h, rfl⟩

variable [DecidableEq α]

/-- The last link of a chain is set anew. -/
theorem Chain.relink (h : Chain next p (L ++ [x]) e) (hx : x ∉ L) (e' : Option α) :
    Chain (Function.update next x e') p (L ++ [x]) e' := by
  rw [chain_concat] at h ⊢
  refine ⟨h.1.congr fun z hz => ?_, Function.update_self ..⟩
  have hzx : z ≠ x := fun e => hx (e ▸ hz)
  exact Function.update_of_ne hzx ..

/-- **Linking in between.** A cell `r` is put behind the cell `x` and linked to what came next. -/
theorem Chain.splice {r : α} (h : Chain next p (L ++ x :: L') e) (hnd : (L ++ x :: L').Nodup)
    (hr : r ∉ L ++ x :: L') :
    Chain (Function.update (Function.update next x (some r)) r (next x)) p (L ++ x :: r :: L') e := by
  obtain ⟨m, hm, hx, hL'⟩ := chain_append.mp h
  obtain ⟨-, hnd', hdis⟩ := List.nodup_append.mp hnd
  rw [List.mem_append, List.mem_cons, not_or, not_or] at hr
  obtain ⟨hrL, hrx, hrL'⟩ := hr
  have hkeep : ∀ z, z ≠ r → z ≠ x →
      Function.update (Function.update next x (some r)) r (next x) z = next z := fun z hzr hzx => by
    rw [Function.update_of_ne hzr, Function.update_of_ne hzx]
  refine chain_append.mpr ⟨m, hm.congr fun z hz => ?_, hx, ?_, ?_⟩
  · refine hkeep z ?_ (hdis z hz x List.mem_cons_self)
    rintro rfl
    exact hrL hz
  · rw [Function.update_of_ne (Ne.symm hrx), Function.update_self]
  · rw [Function.update_self]
    refine hL'.congr fun z hz => hkeep z ?_ ?_
    · rintro rfl
      exact hrL' hz
    · rintro rfl
      exact (List.nodup_cons.mp hnd').1 hz

/-- **Linking behind.** A chain of other cells is put behind the last one. -/
theorem Deque.append (h : Deque next head (some t) q) (hc : Chain next p c none)
    (hdis : ∀ z ∈ c, z ∉ q) (hne : c ≠ []) :
    Deque (Function.update next t p) head c.getLast? (q ++ c) := by
  obtain ⟨q, rfl⟩ : ∃ q', q = q' ++ [t] := List.getLast?_eq_some_iff.mp h.tail_eq.symm
  have htq : t ∉ q := by
    have hnd := h.chain.nodup
    rw [List.nodup_append] at hnd
    exact fun hm => hnd.2.2 t hm t List.mem_cons_self rfl
  refine ⟨chain_append.mpr ⟨p, h.chain.relink htq p, hc.congr fun z hz => ?_⟩, ?_⟩
  · have hzt : z ≠ t := fun e => hdis z hz (by simp [e])
    exact Function.update_of_ne hzt ..
  · rw [List.getLast?_append_of_ne_nil _ hne]

/-- **Linking in front.** The last cell of a chain is linked to the head. -/
theorem Deque.prepend (h : Deque next head tail q) (hc : Chain next p (c ++ [x]) none)
    (hdis : ∀ z ∈ c ++ [x], z ∉ q) (hne : q ≠ []) :
    Deque (Function.update next x head) p tail (c ++ [x] ++ q) := by
  have hxc : x ∉ c := by
    have hnd := hc.nodup
    rw [List.nodup_append] at hnd
    exact fun hm => hnd.2.2 x hm x List.mem_cons_self rfl
  refine ⟨chain_append.mpr ⟨head, hc.relink hxc head, h.chain.congr fun z hz => ?_⟩, ?_⟩
  · have hzx : z ≠ x := fun e => hdis x (by simp) (e ▸ hz)
    exact Function.update_of_ne hzx ..
  · rw [h.tail_eq, List.getLast?_append_of_ne_nil _ hne]

omit [DecidableEq α] in
/-- **Moving the head on.** -/
theorem Deque.pop (h : Deque next head tail (x :: q)) :
    head = some x ∧ Deque next (next x) (if next x = none then none else tail) q := by
  obtain ⟨hhead, hq⟩ := h.chain
  refine ⟨hhead, hq, ?_⟩
  have htail := h.tail_eq
  cases q with
  | nil =>
    have hnext : next x = none := hq
    rw [if_pos hnext]
    rfl
  | cons y q =>
    have hnext : next x = some y := hq.1
    rw [if_neg (by rw [hnext]; simp), htail, List.getLast?_cons_cons]

end HoNet.Linked
