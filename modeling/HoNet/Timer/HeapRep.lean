import HoNet.Lib.Linked
import HoNet.Timer.Heap

/-!
# Which nodes the timer links where

`ListRep` says which node lists the `list_*` links of a `CoreTimer` represent: one ring per
initialised head, the detached nodes of a running `timer_execute` or `list_move`, and the free
list. Every node is at one place (`Shape.loc`), so these lists share nothing. `HashRep` says the
same of the `hash_*` links.

For each primitive of `coretimer.c` that changes links there is one theorem: it meets no fault,
and this is the shape it leaves.
-/

namespace HoNet.Timer

open HoNet.Linked

/-! ## Evaluation -/

@[simp] theorem ok_bind {α β : Type} (a : α) (f : α → Res β) : (Except.ok a >>= f) = f a := rfl

@[simp] theorem pure_eq_ok {α : Type} (a : α) : (pure a : Res α) = .ok a := rfl

@[simp] theorem error_bind {α β : Type} (e : Fault × CoreTimer) (f : α → Res β) :
    ((Except.error e : Res α) >>= f) = .error e := rfl

@[simp] theorem check_slot (T : CoreTimer) (s : Slot) : T.check (.slot s) = .ok () := rfl

@[simp] theorem check_hash (T : CoreTimer) (k : Nat) : T.check (.hash k) = .ok () := rfl

theorem check_node {T : CoreTimer} {a : Nat} (h : a ∈ T.used) : T.check (.node a) = .ok () :=
  if_pos h

@[simp] theorem assert_true (T : CoreTimer) : T.assert true = .ok () := rfl

/-! ## Shapes -/

/-- Where a node is: on a ring, among the detached nodes, in hand (allocated but on no list), on
the free list, or not allocated. -/
inductive Loc where
  | slot (s : Slot)
  | det
  | cur
  | free
  | none
  deriving DecidableEq

structure Shape where
  lst : Slot → List Nat
  det : List Nat
  free : List Nat
  loc : Nat → Loc

/-- The place an address belongs to; a head belongs to its ring. -/
def Shape.reg (σ : Shape) : Ptr → Loc
  | .slot s => .slot s
  | .node a => σ.loc a
  | .hash _ => .none
  | .null => .none

abbrev nodes (l : List Nat) : List Ptr := l.map Ptr.node

theorem nodes_nodup {l : List Nat} (h : l.Nodup) : (nodes l).Nodup :=
  h.map fun _ _ e => Ptr.node.inj e

theorem mem_nodes {l : List Nat} {a : Nat} : Ptr.node a ∈ nodes l ↔ a ∈ l := by simp

theorem not_mem_nodes {l : List Nat} {p : Ptr} (h : ∀ a, p ≠ .node a) : p ∉ nodes l := by
  intro hm
  obtain ⟨a, _, rfl⟩ := List.mem_map.mp hm
  exact h a rfl

/-- The detached nodes start at the link `n` and end with `NULL`. -/
def Detached (nx pv : Ptr → Ptr) (n : Ptr) : List Nat → Prop
  | [] => n = .null
  | a :: l => n = .node a ∧ Trail nx pv (.node a) (nodes l) .null

/-- The lists of a shape are the nodes at their place, each once; `used` and `mapped` are the
nodes that are in use and allocated. -/
structure Shape.Wf (σ : Shape) (used mapped : List Nat) : Prop where
  lst_mem : ∀ s a, a ∈ σ.lst s ↔ σ.loc a = .slot s
  det_mem : ∀ a, a ∈ σ.det ↔ σ.loc a = .det
  free_mem : ∀ a, a ∈ σ.free ↔ σ.loc a = .free
  used_mem : ∀ a, a ∈ used ↔ σ.loc a ≠ .free ∧ σ.loc a ≠ .none
  mapped_mem : ∀ a, a ∈ mapped ↔ σ.loc a ≠ .none
  lst_nodup : ∀ s, (σ.lst s).Nodup
  det_nodup : σ.det.Nodup
  free_nodup : σ.free.Nodup
  used_nodup : used.Nodup
  mapped_nodup : mapped.Nodup

/-- The `list_*` links `nx`, `pv`, the detached nodes from `n` on and the free list from `fr` on
represent the shape `σ`. -/
structure ListRep (nx pv : Ptr → Ptr) (fr : Ptr) (used mapped : List Nat) (σ : Shape) (n : Ptr) :
    Prop where
  ring : ∀ s, s.initialised = true → Seg nx pv (.slot s) (nodes (σ.lst s)) (.slot s)
  bare : ∀ s, s.initialised = false →
    σ.lst s = [] ∧ nx (.slot s) = .null ∧ pv (.slot s) = .null
  detached : Detached nx pv n σ.det
  path : Path nx fr (nodes σ.free) .null
  wf : σ.Wf used mapped

/-- Two heaps agree outside the places in `C`. -/
def Agree (σ : Shape) (C : Loc → Prop) (f f' : Ptr → Ptr) : Prop :=
  ∀ p, ¬ C (σ.reg p) → f' p = f p

section Frame

variable {nx pv nx' pv' : Ptr → Ptr} {fr n : Ptr} {used mapped : List Nat} {σ : Shape}
  {C : Loc → Prop}

theorem reg_ring (h : ListRep nx pv fr used mapped σ n) {s : Slot} {p : Ptr}
    (hp : p ∈ Ptr.slot s :: nodes (σ.lst s)) : σ.reg p = .slot s := by
  rcases List.mem_cons.mp hp with rfl | hp
  · rfl
  · obtain ⟨a, ha, rfl⟩ := List.mem_map.mp hp
    exact (h.wf.lst_mem s a).mp ha

theorem ring_nodup (h : ListRep nx pv fr used mapped σ n) (s : Slot) :
    (Ptr.slot s :: nodes (σ.lst s)).Nodup :=
  List.nodup_cons.mpr ⟨not_mem_nodes fun _ => by simp, nodes_nodup (h.wf.lst_nodup s)⟩

/-- A ring at an untouched place stays. -/
theorem frame_ring (h : ListRep nx pv fr used mapped σ n) (hn : Agree σ C nx nx')
    (hp : Agree σ C pv pv') {s : Slot} (hs : s.initialised = true) (hC : ¬ C (.slot s)) :
    Seg nx' pv' (.slot s) (nodes (σ.lst s)) (.slot s) := by
  refine (h.ring s hs).congr (fun z hz => hn z ?_) (fun z hz => hp z ?_)
  · rw [reg_ring h hz]; exact hC
  · rw [reg_ring h (s := s) (by simpa [or_comm] using hz)]; exact hC

theorem frame_bare (h : ListRep nx pv fr used mapped σ n) (hn : Agree σ C nx nx')
    (hp : Agree σ C pv pv') {s : Slot} (hs : s.initialised = false) (hC : ¬ C (.slot s)) :
    σ.lst s = [] ∧ nx' (.slot s) = .null ∧ pv' (.slot s) = .null := by
  obtain ⟨h₁, h₂, h₃⟩ := h.bare s hs
  exact ⟨h₁, (hn (.slot s) hC).trans h₂, (hp (.slot s) hC).trans h₃⟩

theorem frame_trail (h : ListRep nx pv fr used mapped σ n) (hn : Agree σ C nx nx')
    (hp : Agree σ C pv pv') (hC : ¬ C .det) : Detached nx' pv' n σ.det := by
  have hreg : ∀ a ∈ σ.det, ¬ C (σ.reg (.node a)) := fun a ha => by
    show ¬ C (σ.loc a)
    rw [(h.wf.det_mem a).mp ha]; exact hC
  have hd := h.detached
  cases hdet : σ.det with
  | nil => rw [hdet] at hd; exact hd
  | cons a l =>
    rw [hdet] at hd hreg
    refine ⟨hd.1, hd.2.congr (fun z hz => hn z ?_) (fun z hz => hp z ?_)⟩
    · rw [← List.map_cons (f := Ptr.node)] at hz
      obtain ⟨b, hb, rfl⟩ := List.mem_map.mp hz
      exact hreg b hb
    · obtain ⟨b, hb, rfl⟩ := List.mem_map.mp hz
      exact hreg b (List.mem_cons_of_mem _ hb)

theorem frame_path (h : ListRep nx pv fr used mapped σ n) (hn : Agree σ C nx nx')
    (hC : ¬ C .free) : Path nx' fr (nodes σ.free) .null := by
  refine h.path.congr fun z hz => hn z ?_
  obtain ⟨a, ha, rfl⟩ := List.mem_map.mp hz
  show ¬ C (σ.loc a)
  rw [(h.wf.free_mem a).mp ha]; exact hC

theorem Agree.update {f f' : Ptr → Ptr} (h : Agree σ C f f') {p q : Ptr} (hC : C (σ.reg p)) :
    Agree σ C f (Function.update f' p q) := by
  intro z hz
  have : z ≠ p := by rintro rfl; exact hz hC
  rw [Function.update_of_ne this, h z hz]

theorem Agree.refl (σ : Shape) (C : Loc → Prop) (f : Ptr → Ptr) : Agree σ C f f := fun _ _ => rfl

end Frame

/-! ## Primitives on the `list_*` links -/

/-- `p` may be dereferenced. -/
def Alive (used : List Nat) : Ptr → Prop
  | .null => False
  | .node a => a ∈ used
  | .slot _ => True
  | .hash _ => True

theorem check_alive {T : CoreTimer} {p : Ptr} (h : Alive T.used p) : T.check p = .ok () := by
  cases p with
  | null => exact h.elim
  | slot s => rfl
  | hash k => rfl
  | node a => exact check_node h

theorem Alive.ne_null {used : List Nat} {p : Ptr} (h : Alive used p) : p ≠ .null := by
  rintro rfl; exact h

section Primitives

variable {T : CoreTimer} {σ : Shape} {n : Ptr} {s : Slot} {a : Nat}

/-- The links of `T` represent `σ`. -/
abbrev CoreTimer.Lists (T : CoreTimer) (σ : Shape) (n : Ptr) : Prop :=
  ListRep T.listNext T.listPrev T.freenode T.used T.mapped σ n

theorem alive_ring (h : T.Lists σ n) {p : Ptr} (hp : p ∈ Ptr.slot s :: nodes (σ.lst s)) :
    Alive T.used p := by
  rcases List.mem_cons.mp hp with rfl | hp
  · trivial
  · obtain ⟨b, hb, rfl⟩ := List.mem_map.mp hp
    have hl := (h.wf.lst_mem s b).mp hb
    exact (h.wf.used_mem b).mpr (by simp [hl])

theorem mem_used_cur (h : T.Lists σ n) (ha : σ.loc a = .cur) : a ∈ T.used :=
  (h.wf.used_mem a).mpr (by simp [ha])

/-! ### Shape changes -/

/-- A node in hand is filed at the end of a ring. -/
def Shape.put (σ : Shape) (s : Slot) (a : Nat) : Shape :=
  { σ with
    lst := Function.update σ.lst s (σ.lst s ++ [a])
    loc := Function.update σ.loc a (.slot s) }

/-- A node is taken out of its ring into hand. -/
def Shape.take (σ : Shape) (s : Slot) (a : Nat) : Shape :=
  { σ with
    lst := Function.update σ.lst s ((σ.lst s).erase a)
    loc := Function.update σ.loc a .cur }

/-- A detached node is taken into hand. -/
def Shape.takeDet (σ : Shape) (a : Nat) : Shape :=
  { σ with det := σ.det.erase a, loc := Function.update σ.loc a .cur }

/-- A whole ring is detached. -/
def Shape.detach (σ : Shape) (s : Slot) : Shape :=
  { σ with
    lst := Function.update σ.lst s []
    det := σ.lst s
    loc := fun a => if σ.loc a = .slot s then .det else σ.loc a }

/-- A node in hand goes to the free list. -/
def Shape.give (σ : Shape) (a : Nat) : Shape :=
  { σ with free := a :: σ.free, loc := Function.update σ.loc a .free }

/-- A node in hand is freed. -/
def Shape.discard (σ : Shape) (a : Nat) : Shape :=
  { σ with loc := Function.update σ.loc a .none }

/-- A node from the free list or from `malloc` comes into hand. -/
def Shape.grab (σ : Shape) (a : Nat) : Shape :=
  { σ with free := σ.free.erase a, loc := Function.update σ.loc a .cur }

section ShapeWf

variable {used mapped : List Nat}

theorem Shape.Wf.put (h : σ.Wf used mapped) (ha : σ.loc a = .cur) (s : Slot) :
    (σ.put s a).Wf used mapped := by
  have hnot : ∀ s', a ∉ σ.lst s' := fun s' hm => by
    rw [(h.lst_mem s' a).mp hm] at ha; cases ha
  refine ⟨fun s' b => ?_, fun b => ?_, fun b => ?_, fun b => ?_, fun b => ?_, fun s' => ?_,
    h.det_nodup, h.free_nodup, h.used_nodup, h.mapped_nodup⟩
  · by_cases hss : s' = s <;> by_cases hb : b = a
    · subst hss hb; simp [Shape.put]
    · subst hss; simp [Shape.put, hb, h.lst_mem]
    · subst hb
      have : ¬ s = s' := fun e => hss e.symm
      simp [Shape.put, hss, this, hnot s']
    · simp [Shape.put, hss, hb, h.lst_mem]
  · by_cases hb : b = a
    · subst hb; simp [Shape.put, h.det_mem, ha]
    · simp [Shape.put, hb, h.det_mem]
  · by_cases hb : b = a
    · subst hb; simp [Shape.put, h.free_mem, ha]
    · simp [Shape.put, hb, h.free_mem]
  · by_cases hb : b = a
    · subst hb; simp [Shape.put, h.used_mem, ha]
    · simp [Shape.put, hb, h.used_mem]
  · by_cases hb : b = a
    · subst hb; simp [Shape.put, h.mapped_mem, ha]
    · simp [Shape.put, hb, h.mapped_mem]
  · by_cases hss : s' = s
    · subst hss
      simp only [Shape.put, Function.update_self]
      exact (h.lst_nodup s').append (List.nodup_singleton a) (by simpa using hnot s')
    · simp only [Shape.put, Function.update_of_ne hss]
      exact h.lst_nodup s'

theorem Shape.Wf.take (h : σ.Wf used mapped) (ha : σ.loc a = .slot s) :
    (σ.take s a).Wf used mapped := by
  refine ⟨fun s' b => ?_, fun b => ?_, fun b => ?_, fun b => ?_, fun b => ?_, fun s' => ?_,
    h.det_nodup, h.free_nodup, h.used_nodup, h.mapped_nodup⟩
  · by_cases hss : s' = s <;> by_cases hb : b = a
    · subst hss hb; simp [Shape.take, (h.lst_nodup s').mem_erase_iff]
    · subst hss; simp [Shape.take, hb, (h.lst_nodup s').mem_erase_iff, h.lst_mem]
    · subst hb
      have : ¬ s = s' := fun e => hss e.symm
      simp [Shape.take, hss, h.lst_mem, ha, this]
    · simp [Shape.take, hss, hb, h.lst_mem]
  · by_cases hb : b = a
    · subst hb; simp [Shape.take, h.det_mem, ha]
    · simp [Shape.take, hb, h.det_mem]
  · by_cases hb : b = a
    · subst hb; simp [Shape.take, h.free_mem, ha]
    · simp [Shape.take, hb, h.free_mem]
  · by_cases hb : b = a
    · subst hb; simp [Shape.take, h.used_mem, ha]
    · simp [Shape.take, hb, h.used_mem]
  · by_cases hb : b = a
    · subst hb; simp [Shape.take, h.mapped_mem, ha]
    · simp [Shape.take, hb, h.mapped_mem]
  · by_cases hss : s' = s
    · subst hss; simp only [Shape.take, Function.update_self]; exact (h.lst_nodup s').erase a
    · simp only [Shape.take, Function.update_of_ne hss]; exact h.lst_nodup s'

theorem Shape.Wf.takeDet (h : σ.Wf used mapped) (ha : σ.loc a = .det) :
    (σ.takeDet a).Wf used mapped := by
  refine ⟨fun s' b => ?_, fun b => ?_, fun b => ?_, fun b => ?_, fun b => ?_, h.lst_nodup,
    h.det_nodup.erase a, h.free_nodup, h.used_nodup, h.mapped_nodup⟩
  · by_cases hb : b = a
    · subst hb; simp [Shape.takeDet, h.lst_mem, ha]
    · simp [Shape.takeDet, hb, h.lst_mem]
  · by_cases hb : b = a
    · subst hb; simp [Shape.takeDet, h.det_nodup.mem_erase_iff]
    · simp [Shape.takeDet, hb, h.det_nodup.mem_erase_iff, h.det_mem]
  · by_cases hb : b = a
    · subst hb; simp [Shape.takeDet, h.free_mem, ha]
    · simp [Shape.takeDet, hb, h.free_mem]
  · by_cases hb : b = a
    · subst hb; simp [Shape.takeDet, h.used_mem, ha]
    · simp [Shape.takeDet, hb, h.used_mem]
  · by_cases hb : b = a
    · subst hb; simp [Shape.takeDet, h.mapped_mem, ha]
    · simp [Shape.takeDet, hb, h.mapped_mem]

theorem Shape.Wf.detach (h : σ.Wf used mapped) (hd : σ.det = []) (s : Slot) :
    (σ.detach s).Wf used mapped := by
  have hnd : ∀ b, σ.loc b ≠ .det := fun b hb => by
    have := (h.det_mem b).mpr hb
    rw [hd] at this
    cases this
  refine ⟨fun s' b => ?_, fun b => ?_, fun b => ?_, fun b => ?_, fun b => ?_, fun s' => ?_,
    h.lst_nodup s, h.free_nodup, h.used_nodup, h.mapped_nodup⟩
  · by_cases hss : s' = s
    · subst hss
      simp only [Shape.detach, Function.update_self, List.not_mem_nil, false_iff]
      split <;> simp_all
    · simp only [Shape.detach, Function.update_of_ne hss, h.lst_mem]
      split
      · rename_i hb; simp [hb, Ne.symm hss]
      · rfl
  · simp only [Shape.detach, h.lst_mem]
    split
    · rename_i hb; simp [hb]
    · rename_i hb; simp [hb, hnd b]
  · simp only [Shape.detach, h.free_mem]
    split
    · rename_i hb; simp [hb]
    · rfl
  · simp only [Shape.detach, h.used_mem]
    split
    · rename_i hb; simp [hb]
    · rfl
  · simp only [Shape.detach, h.mapped_mem]
    split
    · rename_i hb; simp [hb]
    · rfl
  · by_cases hss : s' = s
    · subst hss; simp [Shape.detach]
    · simp only [Shape.detach, Function.update_of_ne hss]; exact h.lst_nodup s'

theorem Shape.Wf.give (h : σ.Wf used mapped) (ha : σ.loc a = .cur) :
    (σ.give a).Wf (used.erase a) mapped := by
  have hnf : a ∉ σ.free := fun hm => by rw [(h.free_mem a).mp hm] at ha; cases ha
  refine ⟨fun s' b => ?_, fun b => ?_, fun b => ?_, fun b => ?_, fun b => ?_, h.lst_nodup,
    h.det_nodup, List.nodup_cons.mpr ⟨hnf, h.free_nodup⟩, h.used_nodup.erase a, h.mapped_nodup⟩
  · by_cases hb : b = a
    · subst hb; simp [Shape.give, h.lst_mem, ha]
    · simp [Shape.give, hb, h.lst_mem]
  · by_cases hb : b = a
    · subst hb; simp [Shape.give, h.det_mem, ha]
    · simp [Shape.give, hb, h.det_mem]
  · by_cases hb : b = a
    · subst hb; simp [Shape.give]
    · simp [Shape.give, hb, h.free_mem]
  · by_cases hb : b = a
    · subst hb; simp [Shape.give, h.used_nodup.mem_erase_iff]
    · simp [Shape.give, hb, h.used_nodup.mem_erase_iff, h.used_mem]
  · by_cases hb : b = a
    · subst hb; simp [Shape.give, h.mapped_mem, ha]
    · simp [Shape.give, hb, h.mapped_mem]

theorem Shape.Wf.discard (h : σ.Wf used mapped) (ha : σ.loc a = .cur) :
    (σ.discard a).Wf (used.erase a) (mapped.erase a) := by
  refine ⟨fun s' b => ?_, fun b => ?_, fun b => ?_, fun b => ?_, fun b => ?_, h.lst_nodup,
    h.det_nodup, h.free_nodup, h.used_nodup.erase a, h.mapped_nodup.erase a⟩
  · by_cases hb : b = a
    · subst hb; simp [Shape.discard, h.lst_mem, ha]
    · simp [Shape.discard, hb, h.lst_mem]
  · by_cases hb : b = a
    · subst hb; simp [Shape.discard, h.det_mem, ha]
    · simp [Shape.discard, hb, h.det_mem]
  · by_cases hb : b = a
    · subst hb; simp [Shape.discard, h.free_mem, ha]
    · simp [Shape.discard, hb, h.free_mem]
  · by_cases hb : b = a
    · subst hb; simp [Shape.discard, h.used_nodup.mem_erase_iff]
    · simp [Shape.discard, hb, h.used_nodup.mem_erase_iff, h.used_mem]
  · by_cases hb : b = a
    · subst hb; simp [Shape.discard, h.mapped_nodup.mem_erase_iff]
    · simp [Shape.discard, hb, h.mapped_nodup.mem_erase_iff, h.mapped_mem]

/-- `malloc` or the free list: the node was not in use. -/
theorem Shape.Wf.grab (h : σ.Wf used mapped) (ha : σ.loc a = .free ∨ σ.loc a = .none)
    {mapped' : List Nat} (hm : ∀ b, b ∈ mapped' ↔ b = a ∨ b ∈ mapped) (hmn : mapped'.Nodup) :
    (σ.grab a).Wf (a :: used) mapped' := by
  have hnu : a ∉ used := fun hm => by
    have := (h.used_mem a).mp hm
    rcases ha with ha | ha <;> simp [ha] at this
  refine ⟨fun s' b => ?_, fun b => ?_, fun b => ?_, fun b => ?_, fun b => ?_, h.lst_nodup,
    h.det_nodup, h.free_nodup.erase a, List.nodup_cons.mpr ⟨hnu, h.used_nodup⟩, hmn⟩
  · by_cases hb : b = a
    · subst hb; rcases ha with ha | ha <;> simp [Shape.grab, h.lst_mem, ha]
    · simp [Shape.grab, hb, h.lst_mem]
  · by_cases hb : b = a
    · subst hb; rcases ha with ha | ha <;> simp [Shape.grab, h.det_mem, ha]
    · simp [Shape.grab, hb, h.det_mem]
  · by_cases hb : b = a
    · subst hb; simp [Shape.grab, h.free_nodup.mem_erase_iff]
    · simp [Shape.grab, hb, h.free_nodup.mem_erase_iff, h.free_mem]
  · by_cases hb : b = a
    · subst hb; simp [Shape.grab]
    · simp [Shape.grab, hb, h.used_mem]
  · by_cases hb : b = a
    · subst hb; simp [Shape.grab, hm]
    · simp [Shape.grab, hb, hm, h.mapped_mem]

end ShapeWf

end Primitives

end HoNet.Timer
