import HoNet.CoreBuffer
import HoNet.Lib.Chain

/-!
# A `corebuffer` as a double-ended list

`Spec` is the list a queue stands for, with the links of the nodes that are not in it, which belong to
the caller. A push takes a chain of such nodes; a popped node belongs to the caller again and stands on
its own.

* `chainLoop_eq` — the walk along a chain.
* `Agrees.pushback`, `Agrees.pushfront` — the two pushes do what the list does.
* `queue_conforms_iff` — the runs in which the queue is the list.
-/

namespace HoNet

open Linked

/-- The link out of a node. -/
def NodeMem.nextOf (mem : NodeMem) (p : Nat) : Option Nat := (mem.node p).bind BufferNode.next

/-- There is a node at an address. -/
def NodeMem.Alive (mem : NodeMem) (p : Nat) : Prop := (mem.node p).isSome = true

/-- Addresses have 32 bits. -/
structure NodeMem.Ok (mem : NodeMem) : Prop where
  below : ∀ p, mem.Alive p → p < mem.brk
  brk_lt : mem.brk < 2 ^ 32

namespace CoreBuffer

/-! ## The list -/

/-- What a caller does: it links a node of its own, pushes the nodes of a chain, or pops a node. -/
inductive QueueOp where
  | link (p : Nat) (n : Option Nat)
  | pushback (c : List Nat)
  | pushfront (c : List Nat)
  | popfront
  deriving DecidableEq, Repr

/-- The list, and the links out of the caller's nodes. -/
structure Spec where
  links : Nat → Option Nat
  queue : List Nat

namespace Spec

def step (s : Spec) : QueueOp → Spec
  | .link p n => { s with links := Function.update s.links p n }
  | .pushback c => { s with queue := s.queue ++ c }
  | .pushfront c => { s with queue := c ++ s.queue }
  | .popfront =>
    match s.queue with
    | [] => s
    | p :: q => ⟨Function.update s.links p none, q⟩

/-- What a call returns. -/
def result (s : Spec) : QueueOp → Option Nat
  | .popfront => s.queue.head?
  | _ => none

/-- The caller's obligations: what it links and pushes is its own, and what it pushes is a chain. -/
def Legal (alive : Nat → Prop) (s : Spec) : QueueOp → Prop
  | .link p _ => alive p ∧ p ∉ s.queue
  | .pushback c | .pushfront c =>
    c ≠ [] ∧ Chain s.links c.head? c none ∧ ∀ p ∈ c, alive p ∧ p ∉ s.queue
  | .popfront => True

def LegalRun (alive : Nat → Prop) (s : Spec) : List QueueOp → Prop
  | [] => True
  | op :: ops => s.Legal alive op ∧ (s.step op).LegalRun alive ops

/-- Nothing is ever popped from a list that is not empty. -/
def PopsNothing (s : Spec) : List QueueOp → Prop
  | [] => True
  | op :: ops => (op = .popfront → s.queue = []) ∧ (s.step op).PopsNothing ops

end Spec

/-! ## The queue -/

/-- The call in the code. -/
def exec (mem : NodeMem) (b : CoreBuffer) :
    QueueOp → Except BufFault (NodeMem × CoreBuffer × Option Nat)
  | .link p n => do
    let node ← mem.get p
    return (mem.set p { node with next := n }, b, none)
  | .pushback [] | .pushfront [] => .ok (mem, b, none)
  | .pushback (p :: _) => do
    let (mem, b) ← b.pushback mem p
    return (mem, b, none)
  | .pushfront (p :: _) => do
    let (mem, b) ← b.pushfront mem p
    return (mem, b, none)
  | .popfront => do
    let (b, p) ← b.popfront mem
    return (mem, b, p)

/-- The queue is the list: `head`, `tail` and the links, and `count`; and the caller's nodes have the
links that the caller knows of. -/
structure Agrees (mem : NodeMem) (b : CoreBuffer) (s : Spec) : Prop where
  deque : Deque mem.nextOf b.head b.tail s.queue
  count_eq : b.count = s.queue.length
  alive : ∀ p ∈ s.queue, mem.Alive p
  links : ∀ p, mem.Alive p → p ∉ s.queue → mem.nextOf p = s.links p

/-- Every call returns, with the result that the list gives, and the queue is the list throughout. -/
def Conforms (mem : NodeMem) (b : CoreBuffer) (s : Spec) : List QueueOp → Prop
  | [] => Agrees mem b s
  | op :: ops => Agrees mem b s ∧ ∃ mem' b', exec mem b op = .ok (mem', b', s.result op) ∧
    Conforms mem' b' (s.step op) ops

/-! ## One call -/

variable {mem mem' : NodeMem} {b : CoreBuffer} {s : Spec} {p t count : Nat} {c : List Nat}

theorem get_alive (h : mem.Alive p) : ∃ node, mem.get p = .ok node ∧ mem.node p = some node := by
  obtain ⟨node, hnode⟩ := Option.isSome_iff_exists.mp h
  exact ⟨node, by rw [NodeMem.get, hnode], hnode⟩

theorem nextOf_eq {node : BufferNode} (h : mem.node p = some node) : mem.nextOf p = node.next := by
  rw [NodeMem.nextOf, h]
  rfl

theorem nextOf_set (mem : NodeMem) (p : Nat) (node : BufferNode) :
    (mem.set p node).nextOf = Function.update mem.nextOf p node.next := by
  funext x
  rcases eq_or_ne x p with rfl | hx
  · simp [NodeMem.nextOf, NodeMem.set]
  · simp [NodeMem.nextOf, NodeMem.set, Function.update_of_ne hx]

theorem alive_set (h : mem.Alive p) (node : BufferNode) (x : Nat) :
    (mem.set p node).Alive x ↔ mem.Alive x := by
  rcases eq_or_ne x p with rfl | hx
  · exact iff_of_true (by simp [NodeMem.Alive, NodeMem.set]) h
  · simp [NodeMem.Alive, NodeMem.set, Function.update_of_ne hx]

theorem Ok.set (h : mem.Ok) (hp : mem.Alive p) (node : BufferNode) : (mem.set p node).Ok :=
  ⟨fun x hx => h.below x ((alive_set hp node x).mp hx), h.brk_lt⟩

/-- There are no more nodes than addresses. -/
theorem length_le_brk (hmem : mem.Ok) (hnd : c.Nodup) (hal : ∀ x ∈ c, mem.Alive x) :
    c.length ≤ mem.brk := by
  have hsub : c ⊆ List.range mem.brk := fun x hx => List.mem_range.mpr (hmem.below x (hal x hx))
  have hle := (hnd.subperm hsub).length_le
  rwa [List.length_range] at hle

theorem chainLoop_last {rounds : Nat} {node : BufferNode} (hget : mem.get p = .ok node)
    (hnext : node.next = none) : chainLoop mem (rounds + 1) p count = .ok (p, count) := by
  simp only [chainLoop, hget, hnext, bind, Except.bind, pure, Except.pure]

theorem chainLoop_next {rounds q : Nat} {node : BufferNode} (hget : mem.get p = .ok node)
    (hnext : node.next = some q) :
    chainLoop mem (rounds + 1) p count = chainLoop mem rounds q (count + 1) := by
  simp only [chainLoop, hget, hnext, bind, Except.bind]

/-- The loop finds the last node of a chain and counts its nodes. -/
theorem chainLoop_eq {rounds : Nat} (hc : Chain mem.nextOf (some p) c none) (hal : ∀ x ∈ c, mem.Alive x)
    (hr : c.length ≤ rounds) (ht : c.getLast? = some t) :
    chainLoop mem rounds p count = .ok (t, count + c.length - 1) := by
  induction c generalizing p count rounds with
  | nil => cases ht
  | cons x c ih =>
    obtain ⟨hx, hrest⟩ := hc
    obtain rfl : p = x := Option.some.inj hx
    rw [List.length_cons] at hr
    obtain ⟨rounds, rfl⟩ : ∃ r, rounds = r + 1 := ⟨rounds - 1, by omega⟩
    obtain ⟨node, hget, hnode⟩ := get_alive (hal p List.mem_cons_self)
    rw [nextOf_eq hnode] at hrest
    cases c with
    | nil =>
      obtain rfl : p = t := Option.some.inj ht
      exact chainLoop_last hget hrest
    | cons y c =>
      have hnext : node.next = some y := hrest.1
      rw [hnext] at hrest
      rw [List.getLast?_cons_cons] at ht
      rw [chainLoop_next hget hnext, ih hrest (fun z hz => hal z (List.mem_cons_of_mem _ hz))
        (by omega) ht, List.length_cons, List.length_cons, List.length_cons]
      congr 2
      omega

/-- What a legal push finds: its chain in the memory, the last node of it, and room in the counter. -/
structure Pushes (mem : NodeMem) (b : CoreBuffer) (s : Spec) (p t : Nat) (c : List Nat) : Prop where
  chain : Chain mem.nextOf (some p) c none
  last : c.getLast? = some t
  loop : chainLoop mem (mem.brk + 1) p 1 = .ok (t, c.length)
  apart : ∀ x ∈ c, x ∉ s.queue
  alive : ∀ x ∈ c, mem.Alive x
  counted : (b.count + c.length) % 2 ^ 32 = s.queue.length + c.length

theorem Agrees.pushes (h : Agrees mem b s) (hmem : mem.Ok) (hne : c ≠ [])
    (hc : Chain s.links c.head? c none) (hown : ∀ x ∈ c, mem.Alive x ∧ x ∉ s.queue) :
    ∃ p rest t, c = p :: rest ∧ Pushes mem b s p t c := by
  obtain ⟨p, rest, rfl⟩ := List.exists_cons_of_ne_nil hne
  obtain ⟨t, ht⟩ : ∃ t, (p :: rest).getLast? = some t :=
    Option.ne_none_iff_exists'.mp (by simp)
  have hchain : Chain mem.nextOf (some p) (p :: rest) none :=
    hc.congr fun x hx => h.links x (hown x hx).1 (hown x hx).2
  have hal := fun x hx => (hown x hx).1
  have hlen := length_le_brk hmem hchain.nodup hal
  -- queue and chain together have no node twice
  have hnd : (s.queue ++ p :: rest).Nodup := by
    refine List.nodup_append.mpr ⟨h.deque.chain.nodup, hchain.nodup, ?_⟩
    rintro x hx y hy rfl
    exact (hown x hy).2 hx
  have hall := length_le_brk hmem hnd fun x hx =>
    (List.mem_append.mp hx).elim (h.alive x) (hal x)
  have hbrk := hmem.brk_lt
  rw [List.length_append] at hall
  refine ⟨p, rest, t, rfl, hchain, ht, ?_, fun x hx => (hown x hx).2, hal, ?_⟩
  · rw [chainLoop_eq hchain hal (by omega) ht]
    congr 2
    omega
  · rw [h.count_eq]
    exact Nat.mod_eq_of_lt (by omega)

/-- A push onto the empty queue. -/
theorem Agrees.pushEmpty (h : Agrees mem b s) (hp : Pushes mem b s p t c) (he : s.queue = []) :
    Agrees mem ⟨some p, some t, (b.count + c.length) % 2 ^ 32⟩ ⟨s.links, c⟩ := by
  refine ⟨⟨hp.chain, hp.last.symm⟩, ?_, hp.alive, fun x hx hxc => ?_⟩
  · rw [hp.counted, he, List.length_nil, Nat.zero_add]
  · exact h.links x hx (by rw [he]; exact List.not_mem_nil)

theorem Agrees.pushback (h : Agrees mem b s) (hmem : mem.Ok)
    (hl : s.Legal mem.Alive (.pushback c)) :
    ∃ mem' b', exec mem b (.pushback c) = .ok (mem', b', none) ∧ mem'.Ok ∧
      (∀ x, mem'.Alive x ↔ mem.Alive x) ∧ Agrees mem' b' (s.step (.pushback c)) := by
  obtain ⟨hne, hc, hown⟩ := hl
  obtain ⟨p, rest, t, rfl, hp⟩ := h.pushes hmem hne hc hown
  cases hhead : b.head with
  | none =>
    have hempty := h.deque.head_none.mp hhead
    refine ⟨mem, ⟨some p, some t, (b.count + (p :: rest).length) % 2 ^ 32⟩, ?_, hmem,
      fun _ => Iff.rfl, ?_⟩
    · simp only [exec, CoreBuffer.pushback, hp.loop, hhead, bind, Except.bind, pure, Except.pure]
    · rw [Spec.step, hempty, List.nil_append]
      exact h.pushEmpty hp hempty
  | some head =>
    have hq : s.queue ≠ [] := fun e => by
      rw [h.deque.head_none.mpr e] at hhead
      cases hhead
    obtain ⟨last, hlast⟩ := Option.ne_none_iff_exists'.mp fun e => hq (h.deque.tail_none.mp e)
    have hmemq : last ∈ s.queue := List.mem_of_getLast? (h.deque.tail_eq.symm.trans hlast)
    have hal := h.alive last hmemq
    obtain ⟨node, hget, -⟩ := get_alive hal
    refine ⟨mem.set last { node with next := some p },
      ⟨some head, some t, (b.count + (p :: rest).length) % 2 ^ 32⟩, ?_, Ok.set hmem hal _,
      alive_set hal _, ?_⟩
    · simp only [exec, CoreBuffer.pushback, hp.loop, hhead, hlast, hget, bind, Except.bind, pure,
        Except.pure]
    · have hdeque := h.deque
      rw [hlast] at hdeque
      refine ⟨?_, ?_, fun x hx => ?_, fun x hx hxq => ?_⟩
      · rw [nextOf_set, ← hhead, ← hp.last]
        exact hdeque.append hp.chain hp.apart hne
      · rw [hp.counted]
        exact List.length_append.symm
      · rw [alive_set hal]
        exact (List.mem_append.mp hx).elim (h.alive x) (hp.alive x)
      · have hxq' : x ∉ s.queue := fun hm => hxq (List.mem_append_left _ hm)
        have hxl : x ≠ last := fun e => hxq' (e ▸ hmemq)
        rw [nextOf_set, Function.update_of_ne hxl]
        exact h.links x ((alive_set hal _ x).mp hx) hxq'

theorem Agrees.pushfront (h : Agrees mem b s) (hmem : mem.Ok)
    (hl : s.Legal mem.Alive (.pushfront c)) :
    ∃ mem' b', exec mem b (.pushfront c) = .ok (mem', b', none) ∧ mem'.Ok ∧
      (∀ x, mem'.Alive x ↔ mem.Alive x) ∧ Agrees mem' b' (s.step (.pushfront c)) := by
  obtain ⟨hne, hc, hown⟩ := hl
  obtain ⟨p, rest, t, rfl, hp⟩ := h.pushes hmem hne hc hown
  cases htail : b.tail with
  | none =>
    have hempty := h.deque.tail_none.mp htail
    refine ⟨mem, ⟨some p, some t, (b.count + (p :: rest).length) % 2 ^ 32⟩, ?_, hmem,
      fun _ => Iff.rfl, ?_⟩
    · simp only [exec, CoreBuffer.pushfront, hp.loop, htail, bind, Except.bind, pure, Except.pure]
    · rw [Spec.step, hempty, List.append_nil]
      exact h.pushEmpty hp hempty
  | some last =>
    have hq : s.queue ≠ [] := fun e => by
      rw [h.deque.tail_none.mpr e] at htail
      cases htail
    obtain ⟨front, hfront⟩ := List.getLast?_eq_some_iff.mp hp.last
    have htc : t ∈ p :: rest := List.mem_of_getLast? hp.last
    have hal := hp.alive t htc
    obtain ⟨node, hget, -⟩ := get_alive hal
    refine ⟨mem.set t { node with next := b.head },
      ⟨some p, some last, (b.count + (p :: rest).length) % 2 ^ 32⟩, ?_, Ok.set hmem hal _,
      alive_set hal _, ?_⟩
    · simp only [exec, CoreBuffer.pushfront, hp.loop, htail, hget, bind, Except.bind, pure, Except.pure]
    · refine ⟨?_, ?_, fun x hx => ?_, fun x hx hxq => ?_⟩
      · have hchain := hp.chain
        have hapart := hp.apart
        rw [hfront] at hchain hapart
        rw [nextOf_set, ← htail, Spec.step, hfront]
        exact h.deque.prepend hchain hapart hq
      · rw [hp.counted, Nat.add_comm]
        exact List.length_append.symm
      · rw [alive_set hal]
        exact (List.mem_append.mp hx).elim (hp.alive x) (h.alive x)
      · have hxc : x ∉ p :: rest := fun hm => hxq (List.mem_append_left _ hm)
        have hxt : x ≠ t := fun e => hxc (e ▸ htc)
        rw [nextOf_set, Function.update_of_ne hxt]
        exact h.links x ((alive_set hal _ x).mp hx) fun hm => hxq (List.mem_append_right _ hm)

theorem Agrees.link {n : Option Nat} (h : Agrees mem b s) (hmem : mem.Ok)
    (hl : s.Legal mem.Alive (.link p n)) :
    ∃ mem' b', exec mem b (.link p n) = .ok (mem', b', none) ∧ mem'.Ok ∧
      (∀ x, mem'.Alive x ↔ mem.Alive x) ∧ Agrees mem' b' (s.step (.link p n)) := by
  obtain ⟨hal, hpq⟩ := hl
  obtain ⟨node, hget, -⟩ := get_alive hal
  refine ⟨mem.set p { node with next := n }, b, ?_, Ok.set hmem hal _, alive_set hal _, ?_⟩
  · simp only [exec, hget, bind, Except.bind, pure, Except.pure]
  · refine ⟨?_, h.count_eq, fun x hx => (alive_set hal _ x).mpr (h.alive x hx), fun x hx hxq => ?_⟩
    · rw [nextOf_set]
      refine h.deque.congr fun z hz => ?_
      have hzp : z ≠ p := fun e => hpq (e ▸ hz)
      exact Function.update_of_ne hzp ..
    · show _ = Function.update s.links p n x
      rw [nextOf_set]
      rcases eq_or_ne x p with rfl | hxp
      · rw [Function.update_self, Function.update_self]
      · rw [Function.update_of_ne hxp, Function.update_of_ne hxp]
        exact h.links x ((alive_set hal _ x).mp hx) hxq

/-- Popping from the empty queue. -/
theorem Agrees.popEmpty (h : Agrees mem b s) (he : s.queue = []) :
    exec mem b .popfront = .ok (mem, b, s.result .popfront) ∧ s.step .popfront = s := by
  have hcount : b.count = 0 := by rw [h.count_eq, he, List.length_nil]
  refine ⟨?_, by rw [Spec.step, he]⟩
  simp only [exec, popfront_empty hcount, bind, Except.bind, pure, Except.pure, Spec.result, he,
    List.head?_nil]

/-- `corebuffer_popfront` hands out the head but leaves `count` as it was. -/
theorem popfront_count {o : Option Nat} {b' : CoreBuffer} (h : exec mem b .popfront = .ok (mem', b', o)) :
    b'.count = b.count := by
  simp only [exec, popfront] at h
  split at h
  · simp only [bind, Except.bind, pure, Except.pure, Except.ok.injEq, Prod.mk.injEq] at h
    rw [← h.2.1]
  · split at h
    · cases h
    · rename_i node _
      cases hget : mem.get node with
      | error e =>
        rw [hget] at h
        cases h
      | ok n =>
        rw [hget] at h
        simp only [bind, Except.bind, pure, Except.pure, Except.ok.injEq, Prod.mk.injEq] at h
        rw [← h.2.1]

/-- A legal call other than a pop from a list with nodes in it does what the list does. -/
theorem Agrees.step (h : Agrees mem b s) (hmem : mem.Ok) {op : QueueOp} (hl : s.Legal mem.Alive op)
    (hpop : op = .popfront → s.queue = []) :
    ∃ mem' b', exec mem b op = .ok (mem', b', s.result op) ∧ mem'.Ok ∧
      (∀ x, mem'.Alive x ↔ mem.Alive x) ∧ Agrees mem' b' (s.step op) := by
  cases op with
  | link p n => exact h.link hmem hl
  | pushback c => exact h.pushback hmem hl
  | pushfront c => exact h.pushfront hmem hl
  | popfront =>
    obtain ⟨hexec, hstep⟩ := h.popEmpty (hpop rfl)
    refine ⟨mem, b, hexec, hmem, fun _ => Iff.rfl, ?_⟩
    rw [hstep]
    exact h

/-- After a pop from a list with nodes in it, the queue is not the list any more. -/
theorem Agrees.not_pop (h : Agrees mem b s) (hne : s.queue ≠ []) {b' : CoreBuffer} {o : Option Nat}
    (hexec : exec mem b .popfront = .ok (mem', b', o)) : ¬ Agrees mem' b' (s.step .popfront) := by
  intro h'
  obtain ⟨x, q, hq⟩ := List.exists_cons_of_ne_nil hne
  have hcount := h.count_eq
  have hcount' := h'.count_eq
  rw [popfront_count hexec, hcount, Spec.step, hq, List.length_cons] at hcount'
  exact absurd hcount' (Nat.succ_ne_self q.length)

theorem Conforms.agrees {ops : List QueueOp} (h : Conforms mem b s ops) : Agrees mem b s := by
  cases ops with
  | nil => exact h
  | cons op ops => exact h.1

theorem conforms_iff {alive : Nat → Prop} {ops : List QueueOp} (h : Agrees mem b s) (hmem : mem.Ok)
    (hal : ∀ x, mem.Alive x ↔ alive x) (hl : s.LegalRun alive ops) :
    Conforms mem b s ops ↔ s.PopsNothing ops := by
  obtain rfl : mem.Alive = alive := funext fun x => propext (hal x)
  induction ops generalizing mem b s with
  | nil => exact iff_of_true h trivial
  | cons op ops ih =>
    obtain ⟨hop, hops⟩ := hl
    by_cases hpop : op = .popfront → s.queue = []
    · obtain ⟨mem', b', hexec, hmem', hal', h'⟩ := h.step hmem hop hpop
      have hsame : mem'.Alive = mem.Alive := funext fun x => propext (hal' x)
      rw [Spec.PopsNothing, and_iff_right hpop,
        ← ih h' hmem' (fun _ => Iff.rfl) (by rwa [hsame])]
      constructor
      · rintro ⟨-, mem₂, b₂, hexec₂, hrest⟩
        rw [hexec] at hexec₂
        obtain ⟨rfl, hb, -⟩ : mem' = mem₂ ∧ b' = b₂ ∧ True := by
          simpa using hexec₂
        rwa [hb]
      · intro hrest
        exact ⟨h, mem', b', hexec, hrest⟩
    · push Not at hpop
      obtain ⟨rfl, hne⟩ := hpop
      refine iff_of_false ?_ fun hp => hne (hp.1 rfl)
      rintro ⟨-, mem', b', hexec, hrest⟩
      exact h.not_pop hne hexec hrest.agrees

/-- **A `corebuffer` is a double-ended list** in a run of legal calls if and only if nothing is ever
popped from it. -/
theorem queue_conforms_iff (mem : NodeMem) (hmem : mem.Ok) (ops : List QueueOp)
    (hl : Spec.LegalRun mem.Alive ⟨mem.nextOf, []⟩ ops) :
    Conforms mem .init ⟨mem.nextOf, []⟩ ops ↔ Spec.PopsNothing ⟨mem.nextOf, []⟩ ops := by
  have hinit : Agrees mem .init ⟨mem.nextOf, []⟩ :=
    ⟨deque_nil, rfl, fun x hx => absurd hx List.not_mem_nil, fun _ _ _ => rfl⟩
  exact conforms_iff hinit hmem (fun _ => Iff.rfl) hl

/-- Three nodes, the first two of them linked. -/
def threeNodes : NodeMem :=
  ⟨fun p => if p < 3 then some { BufferNode.new 0 with next := if p = 0 then some 1 else none } else none,
    3⟩

theorem threeNodes_ok : threeNodes.Ok := by
  refine ⟨fun p hp => ?_, by decide⟩
  by_contra hge
  have hnone : threeNodes.node p = none := if_neg hge
  rw [NodeMem.Alive, hnone] at hp
  cases hp

/-- A chain of two nodes and one node in front of it. -/
theorem queue_conforms_iff_pushes :
    Conforms threeNodes .init ⟨threeNodes.nextOf, []⟩
      [.popfront, .pushback [0, 1], .pushfront [2]] := by
  have hl : Spec.LegalRun threeNodes.Alive ⟨threeNodes.nextOf, []⟩
      [.popfront, .pushback [0, 1], .pushfront [2]] := by
    refine ⟨trivial, ⟨by decide, ⟨rfl, rfl, rfl⟩, ?_⟩, ⟨by decide, ⟨rfl, rfl⟩, ?_⟩, trivial⟩
    · intro p hp
      simp only [List.mem_cons, List.not_mem_nil, or_false] at hp
      rcases hp with rfl | rfl
      · exact ⟨rfl, List.not_mem_nil⟩
      · exact ⟨rfl, List.not_mem_nil⟩
    · intro p hp
      obtain rfl := List.mem_singleton.mp hp
      exact ⟨rfl, by decide⟩
  refine (queue_conforms_iff threeNodes threeNodes_ok _ hl).mpr ⟨fun _ => rfl, ?_, ?_, trivial⟩
  · intro h
    cases h
  · intro h
    cases h

/-- One node is pushed and popped. `count` is still 1, and the next pop reads the `next` of `NULL`. -/
theorem second_pop_null :
    Spec.LegalRun threeNodes.Alive ⟨threeNodes.nextOf, []⟩ [.pushback [2], .popfront, .popfront] ∧
      exec threeNodes .init (.pushback [2]) = .ok (threeNodes, ⟨some 2, some 2, 1⟩, none) ∧
      exec threeNodes ⟨some 2, some 2, 1⟩ .popfront = .ok (threeNodes, ⟨none, none, 1⟩, some 2) ∧
      exec threeNodes ⟨none, none, 1⟩ .popfront = .error .nullDeref ∧
      ¬ Conforms threeNodes .init ⟨threeNodes.nextOf, []⟩ [.pushback [2], .popfront, .popfront] := by
  have hpush : exec threeNodes .init (.pushback [2]) =
      .ok (threeNodes, ⟨some 2, some 2, 1⟩, none) := rfl
  refine ⟨⟨⟨by decide, ⟨rfl, rfl⟩, ?_⟩, trivial, trivial, trivial⟩, hpush, rfl, rfl, ?_⟩
  · intro p hp
    obtain rfl := List.mem_singleton.mp hp
    exact ⟨rfl, List.not_mem_nil⟩
  · rintro ⟨-, mem', b', hexec, hagrees, mem₂, b₂, hpop, hrest⟩
    exact hagrees.not_pop (by decide) hpop hrest.agrees

end CoreBuffer

end HoNet
