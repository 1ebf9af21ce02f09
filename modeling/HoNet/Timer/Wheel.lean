import HoNet.Timer.Place
import Mathlib.Logic.Function.Basic

/-!
# The timing wheel of `coretimer.c` over slot lists

Every list head of `t[256]` and `n[4][64]` and every hash chain is taken as the sequence of nodes
it links, initially empty; `list_add` appends, `list_clear` empties, `delfrom_list` removes.
Everything else follows the source: ids and expiries are 32-bit, `assert(0)` in `addto_list` stops
the program (`aborted`), and a running callback may call `coretimer_add`.

The free list and the counters `free_cnt` and `use_cnt` only recycle memory and have no effect on
which timer runs when; the pointer-level model carries them.

`log` is a history variable: what the program did so far, oldest first.
-/

namespace HoNet.Timer

/-- `#define TIMER_HASH_SIZE (1<<10)`. -/
def TIMER_HASH_SIZE : Nat := 1 <<< 10

/-- `#define HASH(id) (id & (TIMER_HASH_SIZE-1))`. -/
def HASH (id : Nat) : Nat := id &&& (TIMER_HASH_SIZE - 1)

/-- `struct timer_node` without its links. `seq` counts the additions and stands for the node's
address: two nodes are the same node iff they have the same `seq`. -/
structure TimerNode where
  u : Nat
  call : Nat
  expire : Nat
  id : Nat
  seq : Nat
  deriving DecidableEq, Repr

/-- What happened: a node was filed at `time` for a wait, a node was unlinked by `coretimer_del`,
the clock became `time`, a callback was called, a call of `timer_tick` returned. -/
inductive Event where
  | add (n : TimerNode) (time wait : Nat)
  | del (n : TimerNode)
  | tick (time : Nat)
  | run (n : TimerNode)
  | tock
  deriving DecidableEq, Repr

/-- The arguments of one `coretimer_add`. -/
structure AddReq where
  call : Nat
  ctx : Nat
  wait : Nat
  deriving DecidableEq, Repr

/-- `struct core_timer`, with its list heads as sequences. -/
structure Wheel where
  slots : Slot → List TimerNode
  h : Nat → List TimerNode
  index : Nat
  time : Nat
  added : Nat
  aborted : Bool
  log : List Event

/-- `coretimer_new`, every list empty. -/
def coretimerNew : Wheel := ⟨fun _ => [], fun _ => [], 0, 0, 0, false, []⟩

/-- A timer at time `t`, every list empty. -/
def startAt (t : Nat) : Wheel := { coretimerNew with time := t }

/-- `wait = wait / TIME_SLOT_LEN; wait = wait ? wait : 1;` -/
def waitTicks (wait : Nat) : Nat := if wait / TIME_SLOT_LEN ≠ 0 then wait / TIME_SLOT_LEN else 1

theorem waitTicks_eq_max (wait : Nat) : waitTicks wait = max 1 (wait / 10) := by
  unfold waitTicks
  split <;> rename_i h <;> simp only [TIME_SLOT_LEN] at h ⊢ <;> omega

theorem waitTicks_pos (wait : Nat) : 0 < waitTicks wait := by
  rw [waitTicks_eq_max]; omega

namespace Wheel

def record (w : Wheel) (e : Event) : Wheel := { w with log := w.log ++ [e] }

def addtoList (w : Wheel) (r : TimerNode) : Wheel :=
  if w.aborted then w
  else if r.expire < w.time then { w with aborted := true }
  else
    let s := place r.expire w.time
    { w with slots := Function.update w.slots s (w.slots s ++ [r]) }

/-- New nodes go to the front of their chain. -/
def addtoHash (w : Wheel) (r : TimerNode) : Wheel :=
  if w.aborted then w
  else { w with h := Function.update w.h (HASH r.id) (r :: w.h (HASH r.id)) }

def delfromList (w : Wheel) (r : TimerNode) : Wheel :=
  { w with slots := fun s => (w.slots s).erase r }

def delfromHash (w : Wheel) (r : TimerNode) : Wheel :=
  { w with h := fun k => (w.h k).erase r }

def coretimerAdd (w : Wheel) (a : AddReq) : Wheel :=
  if w.aborted then w
  else
    let id := (w.index + 1) % 2 ^ 32
    let r : TimerNode :=
      { call := a.call, u := a.ctx, id := id, expire := (w.time + waitTicks a.wait) % 2 ^ 32,
        seq := w.added }
    let w := { w with index := id, added := w.added + 1 }
    ((w.record (.add r w.time a.wait)).addtoList r).addtoHash r

/-- The node `coretimer_add` files. -/
def filed (w : Wheel) (a : AddReq) : TimerNode :=
  { call := a.call, u := a.ctx, id := (w.index + 1) % 2 ^ 32,
    expire := (w.time + waitTicks a.wait) % 2 ^ 32, seq := w.added }

def coretimerDel (w : Wheel) (id : Nat) : Wheel :=
  if w.aborted then w
  else
    match (w.h (HASH id)).find? (fun r => r.id = id) with
    | none => w
    | some r => ((w.delfromList r).delfromHash r).record (.del r)

/-- The `while (r)` loop of `timer_execute` over the detached nodes. `cb` lists, callback by
callback, the additions each of them makes; the rest of it is handed on. -/
def executeLoop : List TimerNode → List (List AddReq) → Wheel → Wheel × List (List AddReq)
  | [], cb, w => (w, cb)
  | r :: rest, cb, w =>
    if w.aborted then (w, cb)
    else
      let w := (w.delfromHash r).record (.run r)
      executeLoop rest cb.tail ((cb.headD []).foldl coretimerAdd w)

def timerExecute (w : Wheel) (cb : List (List AddReq)) : Wheel × List (List AddReq) :=
  let idx := w.time &&& TIME_NEAR_MASK
  let r := w.slots (.near idx)
  executeLoop r cb { w with slots := Function.update w.slots (.near idx) [] }

def listMove (w : Wheel) (level idx : Nat) : Wheel :=
  let r := w.slots (.level level idx)
  r.foldl addtoList { w with slots := Function.update w.slots (.level level idx) [] }

def timerShift (w : Wheel) : Wheel :=
  if w.aborted then w
  else
    let ct := (w.time + 1) % 2 ^ 32
    let w := { w with time := ct }.record (.tick ct)
    match shiftMove ct with
    | .move level idx => listMove w level idx
    | .noMove => w
    | .turning => w

def timerTick (w : Wheel) (cb : List (List AddReq)) : Wheel :=
  let (w, cb) := w.timerExecute cb
  let w := w.timerShift
  let (w, _) := w.timerExecute cb
  w.record .tock

end Wheel

/-- One call on the timer from outside a callback; a tick carries the additions its callbacks
make. -/
inductive Op where
  | add (a : AddReq)
  | del (id : Nat)
  | tick (cb : List (List AddReq))
  deriving DecidableEq, Repr

def Wheel.step (w : Wheel) : Op → Wheel
  | .add a => w.coretimerAdd a
  | .del id => w.coretimerDel id
  | .tick cb => if w.aborted then w else w.timerTick cb

/-- A run from `coretimer_new`. -/
def runWheel (ops : List Op) : Wheel := ops.foldl Wheel.step coretimerNew

/-! ## The flat timer list -/

/-- The abstract timer: the live timers in the order of their addition. -/
structure Flat where
  live : List TimerNode
  time : Nat
  added : Nat
  log : List Event

namespace Flat

def new : Flat := ⟨[], 0, 0, []⟩

def startAt (t : Nat) : Flat := ⟨[], t, 0, []⟩

/-- The node the next addition creates. -/
def node (f : Flat) (a : AddReq) : TimerNode :=
  { call := a.call, u := a.ctx, id := f.added + 1, expire := f.time + max 1 (a.wait / 10),
    seq := f.added }

def add (f : Flat) (a : AddReq) : Flat :=
  { f with
    live := f.live ++ [f.node a]
    added := f.added + 1
    log := f.log ++ [.add (f.node a) f.time a.wait] }

def del (f : Flat) (id : Nat) : Flat :=
  match f.live.find? (fun r => r.id = id) with
  | none => f
  | some r => { f with live := f.live.erase r, log := f.log ++ [.del r] }

def runDue : List TimerNode → List (List AddReq) → Flat → Flat
  | [], _, f => f
  | r :: rest, cb, f =>
    runDue rest cb.tail
      ((cb.headD []).foldl add { f with live := f.live.erase r, log := f.log ++ [.run r] })

/-- Advance the clock and run every timer due at the new time, in the order of addition. -/
def tick (f : Flat) (cb : List (List AddReq)) : Flat :=
  let now := (f.time + 1) % 2 ^ 32
  let f := { f with time := now, log := f.log ++ [.tick now] }
  let f := runDue (f.live.filter (fun n => n.expire = now)) cb f
  { f with log := f.log ++ [.tock] }

def step (f : Flat) : Op → Flat
  | .add a => f.add a
  | .del id => f.del id
  | .tick cb => f.tick cb

end Flat

def runFlat (ops : List Op) : Flat := ops.foldl Flat.step Flat.new

end HoNet.Timer
