import HoNet.RingBuffer
import Mathlib.Logic.Function.Basic

/-!
# `corebuffer.c`

The byte queues of the C socket server. A `buffer_node` is a ring of bytes with two 32-bit counters
that run freely; a `corebuffer` is a list of nodes linked through their `next` fields, with a count.

* `BufferNode.startread`, `BufferNode.startwrite` — the regions a node offers to read from and to
  write to.
* `startwrite_new` — a fresh node offers nothing to write to.
* `popfront_empty` — a queue that was never filled.
-/

namespace HoNet

/-! ## Nodes -/

/-- The loop of `next_power`. 25 doublings lead from 64 to `2 ^ 31`, past every size below
`LONG_MAX`. -/
def nextPowerLoop : Nat → Nat → Nat → Nat
  | 0, i, _ => i
  | rounds + 1, i, sz => if i < sz then nextPowerLoop rounds (i * 2 % 2 ^ 32) sz else i

def LONG_MAX : Nat := 2 ^ 31 - 1

def nextPower (sz : Nat) : Nat := if sz ≥ LONG_MAX then LONG_MAX else nextPowerLoop 25 64 sz

/-- `struct buffer_node`; `next` is an address. -/
structure BufferNode where
  next : Option Nat
  size : Nat
  inp : Nat
  out : Nat
  buf : List UInt8
  deriving DecidableEq, Repr

namespace BufferNode

/-- `buffernode_new`; what `malloc` returns is not read before it is written and stands as zeros. -/
def new (len : Nat) : BufferNode :=
  let len := nextPower len
  ⟨none, len, 0, 0, List.replicate len 0⟩

/-- `buffernode_canread`. -/
def canread (node : BufferNode) : Nat := sub32 node.inp node.out

/-- `buffernode_canwrite`. -/
def canwrite (node : BufferNode) : Nat := sub32 node.size (sub32 node.inp node.out)

/-- `buffernode_write`, and whether it returns 0. -/
def write (node : BufferNode) (data : List UInt8) : BufferNode × Bool :=
  let sz := data.length
  let all := sub32 node.size (sub32 node.inp node.out)
  if all < sz then (node, false)
  else
    let wp := node.inp &&& sub32 node.size 1
    let l := if sz < sub32 node.size wp then sz else sub32 node.size wp
    let buf := memcpy node.buf wp (data.take l)
    let buf := memcpy buf 0 (data.drop l)
    ({ node with buf := buf, inp := (node.inp + sz) % 2 ^ 32 }, true)

/-- What `buffernode_read` leaves at `data`: nothing when it returns -1, else bytes, unless its second
`memcpy` is called with regions that overlap. -/
inductive ReadOut where
  | refused
  | bytes (data : List UInt8)
  | overlap
  deriving DecidableEq, Repr

/-- `buffernode_read`; its second `memcpy` goes from `data` to `data + l`. -/
def read (node : BufferNode) (sz : Nat) : BufferNode × ReadOut :=
  let all := sub32 node.inp node.out
  if all < sz then (node, .refused)
  else
    let rp := node.out &&& sub32 node.size 1
    let l := if sz < sub32 node.size rp then sz else sub32 node.size rp
    let data := (node.buf.drop rp).take l
    ({ node with out := (node.out + sz) % 2 ^ 32 },
      if l < sub32 sz l then .overlap else .bytes (data ++ data.take (sub32 sz l)))

/-- `buffernode_startread`: the offset stored in `*ptr`, if it is set, and the length returned. -/
def startread (node : BufferNode) : Option Nat × Nat :=
  let all := sub32 node.inp node.out
  if all = 0 then (none, 0)
  else
    let inp := node.inp % node.size
    let out := node.out % node.size
    (some out, if inp > out then inp - out else sub32 node.size out)

/-- `buffernode_readok`, and whether it returns 0. -/
def readok (node : BufferNode) (sz : Nat) : BufferNode × Bool :=
  let all := sub32 node.inp node.out
  if sz > all then (node, false)
  else ({ node with out := (node.out + sz) % 2 ^ 32 }, true)

/-- `buffernode_startwrite`: the offset stored in `*ptr`, if it is set, and the length returned. The
second length is `node->out - in`, with the counter itself. -/
def startwrite (node : BufferNode) : Option Nat × Nat :=
  let all := sub32 node.size (sub32 node.inp node.out)
  if all = 0 then (none, 0)
  else
    let inp := node.inp &&& sub32 node.size 1
    let out := node.out &&& sub32 node.size 1
    (some inp, if inp < out then sub32 (sub32 node.size inp) 1 else sub32 node.out inp)

/-- `buffernode_writeok`, and whether it returns 0; the bound is that of `buffernode_readok`. -/
def writeok (node : BufferNode) (sz : Nat) : BufferNode × Bool :=
  let all := sub32 node.inp node.out
  if sz > all then (node, false)
  else ({ node with inp := (node.inp + sz) % 2 ^ 32 }, true)

/-- The bytes between the counters. -/
def stored (node : BufferNode) : List UInt8 :=
  (List.range node.canread).map fun i => node.buf.getD ((node.out + i) % node.size) 0

/-- A node whose counters are 0 offers nothing to write to. -/
theorem startwrite_zero {node : BufferNode} (hin : node.inp = 0) (hout : node.out = 0) :
    node.startwrite.2 = 0 := by
  unfold startwrite
  dsimp only
  split
  · rfl
  · rw [hin, hout, Nat.zero_and, if_neg (Nat.lt_irrefl 0)]
    decide

/-- **A fresh node offers nothing to write to**, whatever its size. -/
theorem startwrite_new (len : Nat) : (new len).startwrite.2 = 0 :=
  startwrite_zero rfl rfl

end BufferNode

/-! ## Memory -/

inductive BufFault where
  | nullDeref
  | released
  | assertion
  | diverges
  deriving DecidableEq, Repr

/-- The nodes at their addresses; `brk` is the next address that `malloc` returns. -/
structure NodeMem where
  node : Nat → Option BufferNode
  brk : Nat

namespace NodeMem

def alloc (mem : NodeMem) (node : BufferNode) : NodeMem × Nat :=
  (⟨Function.update mem.node mem.brk (some node), mem.brk + 1⟩, mem.brk)

/-- Accessing the node at an address. -/
def get (mem : NodeMem) (p : Nat) : Except BufFault BufferNode :=
  match mem.node p with
  | some node => .ok node
  | none => .error .released

def set (mem : NodeMem) (p : Nat) (node : BufferNode) : NodeMem :=
  { mem with node := Function.update mem.node p (some node) }

/-- `buffernode_delete`. -/
def delete (mem : NodeMem) (p : Nat) : NodeMem :=
  { mem with node := Function.update mem.node p none }

end NodeMem

/-! ## Queues -/

/-- `struct corebuffer` without its lock: `LOCK` and `UNLOCK` are empty macros. -/
structure CoreBuffer where
  head : Option Nat
  tail : Option Nat
  count : Nat
  deriving DecidableEq, Repr

namespace CoreBuffer

/-- `corebuffer_init`. -/
def init : CoreBuffer := ⟨none, none, 0⟩

/-- The loop at the start of the two pushes: the last node of a chain and its number of nodes. -/
def chainLoop (mem : NodeMem) : Nat → Nat → Nat → Except BufFault (Nat × Nat)
  | 0, _, _ => .error .diverges
  | rounds + 1, tail, count => do
    let node ← mem.get tail
    match node.next with
    | some next => chainLoop mem rounds next (count + 1)
    | none => return (tail, count)

/-- `corebuffer_pushback` and `corebuffer_pushback_safe`. -/
def pushback (mem : NodeMem) (b : CoreBuffer) (node : Nat) : Except BufFault (NodeMem × CoreBuffer) := do
  let (tail, count) ← chainLoop mem (mem.brk + 1) node 1
  match b.head with
  | none => return (mem, ⟨some node, some tail, (b.count + count) % 2 ^ 32⟩)
  | some head =>
    match b.tail with
    | none => .error .nullDeref
    | some last =>
      let n ← mem.get last
      return (mem.set last { n with next := some node },
        ⟨some head, some tail, (b.count + count) % 2 ^ 32⟩)

/-- `corebuffer_pushfront` and `corebuffer_pushfront_safe`. -/
def pushfront (mem : NodeMem) (b : CoreBuffer) (node : Nat) : Except BufFault (NodeMem × CoreBuffer) := do
  let (tail, count) ← chainLoop mem (mem.brk + 1) node 1
  match b.tail with
  | none => return (mem, ⟨some node, some tail, (b.count + count) % 2 ^ 32⟩)
  | some last =>
    let n ← mem.get tail
    return (mem.set tail { n with next := b.head },
      ⟨some node, some last, (b.count + count) % 2 ^ 32⟩)

/-- `corebuffer_popfront` and `corebuffer_popfront_safe`; neither lowers `count`. -/
def popfront (mem : NodeMem) (b : CoreBuffer) : Except BufFault (CoreBuffer × Option Nat) :=
  if b.count = 0 then .ok (b, none)
  else
    match b.head with
    | none => .error .nullDeref
    | some node => do
      let n ← mem.get node
      return ({ b with head := n.next, tail := if n.next = none then none else b.tail }, some node)

/-- The addresses on the list, from `p` on. -/
def nodesLoop (mem : NodeMem) : Nat → Option Nat → List Nat
  | 0, _ => []
  | _ + 1, none => []
  | rounds + 1, some p => p :: nodesLoop mem rounds ((mem.node p).bind BufferNode.next)

/-- The bytes that can be read from the nodes of a queue, in their order. -/
def readable (mem : NodeMem) (b : CoreBuffer) : List UInt8 :=
  (nodesLoop mem (mem.brk + 1) b.head).flatMap fun p => ((mem.node p).map BufferNode.stored).getD []

theorem popfront_empty {mem : NodeMem} {b : CoreBuffer} (h : b.count = 0) :
    popfront mem b = .ok (b, none) := by
  rw [popfront, if_pos h]

end CoreBuffer

end HoNet
