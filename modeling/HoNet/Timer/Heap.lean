import HoNet.Timer.Wheel

/-!
# The timer of `coretimer.c`, pointer by pointer

Nodes are threaded on two intrusive rings (`list_*`, `hash_*`) and on a free list that reuses
`list_next`. This model keeps every link. A list head is an address of its own; `used` are the
nodes handed out by `timernode_alloc` and not given back to `timernode_dealloc`, `mapped` those
that `malloc` gave and `free` has not taken back.

Following or writing a link through `NULL`, or of a released node, stops the run with a `Fault`
that carries the state it happened in; so does a failing `assert`.

`timer_execute` releases the lock around each callback, so `coretimer_add` and `coretimer_del` are
admitted there: the machine (`Config.step`) rests between two calls (`idle`) or inside the callback
of `r`, with `n` cached as the next node (`inCall`).
-/

namespace HoNet.Timer

/-- Addresses: `NULL`, `&timer->t[i]` or `&timer->n[l][i]`, `&timer->h[k]`, an allocated node. -/
inductive Ptr where
  | null
  | slot (s : Slot)
  | hash (k : Nat)
  | node (a : Nat)
  deriving DecidableEq, Repr

inductive Fault where
  | nullDeref
  | released
  | assertion
  | badFree
  | diverges
  deriving DecidableEq, Repr

/-- What the timer did, by the number of the addition a node stems from. -/
inductive HeapEvent where
  | run (seq : Nat)
  | del (seq : Nat)
  deriving DecidableEq, Repr

/-- A list head handed to `list_add` by `addto_list` or to `list_clear` by `list_move`, with the
links at that moment. -/
structure Handed where
  listNext : Ptr → Ptr
  listPrev : Ptr → Ptr
  head : Ptr

/-- `struct core_timer` with the nodes it reaches; `used`, `mapped`, `seq`, `added`, `log` and
`handed` are history variables. -/
structure CoreTimer where
  listPrev : Ptr → Ptr
  listNext : Ptr → Ptr
  hashPrev : Ptr → Ptr
  hashNext : Ptr → Ptr
  expire : Ptr → Nat
  id : Ptr → Nat
  call : Ptr → Nat
  u : Ptr → Nat
  index : Nat
  time : Nat
  freenode : Ptr
  freeCnt : Nat
  useCnt : Nat
  used : List Nat
  mapped : List Nat
  seq : Ptr → Nat
  added : Nat
  log : List HeapEvent
  handed : List Handed

abbrev Res (α : Type) := Except (Fault × CoreTimer) α

/-- The heads whose links `coretimer_new` sets: `t[256]` and `n[0..2][64]`; its loop over the
levels is `for (i = 0; i < 3; i++)`. -/
def Slot.initialised : Slot → Bool
  | .near i => decide (i < TIME_NEAR)
  | .level l i => decide (l < 3 ∧ i < TIME_LEVEL)

/-- A head links to itself after initialisation; everything else is zero from `memset`. -/
def listInit : Ptr → Ptr
  | .slot s => if s.initialised then .slot s else .null
  | _ => .null

def hashInit : Ptr → Ptr
  | .hash k => if k < TIMER_HASH_SIZE then .hash k else .null
  | _ => .null

def CoreTimer.new : CoreTimer where
  listPrev := listInit
  listNext := listInit
  hashPrev := hashInit
  hashNext := hashInit
  expire := fun _ => 0
  id := fun _ => 0
  call := fun _ => 0
  u := fun _ => 0
  index := 0
  time := 0
  freenode := .null
  freeCnt := 0
  useCnt := 0
  used := []
  mapped := []
  seq := fun _ => 0
  added := 0
  log := []
  handed := []

namespace CoreTimer

/-- Accessing a field of the node at `p`. -/
def check (T : CoreTimer) : Ptr → Res Unit
  | .null => .error (.nullDeref, T)
  | .node a => if a ∈ T.used then .ok () else .error (.released, T)
  | .slot _ => .ok ()
  | .hash _ => .ok ()

def getListPrev (T : CoreTimer) (p : Ptr) : Res Ptr := do T.check p; pure (T.listPrev p)
def getListNext (T : CoreTimer) (p : Ptr) : Res Ptr := do T.check p; pure (T.listNext p)
def getHashPrev (T : CoreTimer) (p : Ptr) : Res Ptr := do T.check p; pure (T.hashPrev p)
def getHashNext (T : CoreTimer) (p : Ptr) : Res Ptr := do T.check p; pure (T.hashNext p)

def setListPrev (T : CoreTimer) (p q : Ptr) : Res CoreTimer := do
  T.check p
  pure { T with listPrev := Function.update T.listPrev p q }

def setListNext (T : CoreTimer) (p q : Ptr) : Res CoreTimer := do
  T.check p
  pure { T with listNext := Function.update T.listNext p q }

def setHashPrev (T : CoreTimer) (p q : Ptr) : Res CoreTimer := do
  T.check p
  pure { T with hashPrev := Function.update T.hashPrev p q }

def setHashNext (T : CoreTimer) (p q : Ptr) : Res CoreTimer := do
  T.check p
  pure { T with hashNext := Function.update T.hashNext p q }

def assert (T : CoreTimer) (b : Bool) : Res Unit := if b then .ok () else .error (.assertion, T)

/-- `timernode_alloc`; `addr` is what `malloc` returns when the free list is empty. -/
def timernodeAlloc (T : CoreTimer) (addr : Nat) : CoreTimer × Ptr :=
  let T := { T with useCnt := (T.useCnt + 1) % 2 ^ 32 }
  match T.freenode with
  | .node a =>
    ({ T with
      freenode := T.listNext (.node a)
      freeCnt := (T.freeCnt + (2 ^ 32 - 1)) % 2 ^ 32
      used := a :: T.used }, .node a)
  | _ => ({ T with used := addr :: T.used, mapped := addr :: T.mapped }, .node addr)

/-- `timernode_dealloc`: back to the free list while that is short, else to `free`. -/
def timernodeDealloc (T : CoreTimer) (p : Ptr) : Res CoreTimer :=
  match p with
  | .node a =>
    if a ∈ T.used then
      let useCnt := (T.useCnt + (2 ^ 32 - 1)) % 2 ^ 32
      let use := useCnt >>> 3
      let use := if use ≠ 0 then use else 1
      let T := { T with useCnt := useCnt, used := T.used.erase a }
      if T.freeCnt ≥ use then .ok { T with mapped := T.mapped.erase a }
      else
        .ok { T with
          listNext := Function.update T.listNext (.node a) T.freenode
          freenode := .node a
          freeCnt := (T.freeCnt + 1) % 2 ^ 32 }
    else .error (.released, T)
  | _ => .error (.badFree, T)

def listAdd (T : CoreTimer) (list r : Ptr) : Res CoreTimer := do
  T.assert ((← T.getListPrev r) = .null)
  T.assert ((← T.getListNext r) = .null)
  let T ← T.setListPrev r (← T.getListPrev list)
  let T ← T.setListNext (← T.getListPrev r) r
  let T ← T.setListNext r list
  T.setListPrev (← T.getListNext r) r

def delfromList (T : CoreTimer) (r : Ptr) : Res CoreTimer := do
  T.assert ((← T.getHashPrev r) ≠ .null)
  T.assert ((← T.getHashNext r) ≠ .null)
  let T ← T.setListNext (← T.getListPrev r) (← T.getListNext r)
  let T ← T.setListPrev (← T.getListNext r) (← T.getListPrev r)
  let T ← T.setListPrev r .null
  T.setListNext r .null

def addtoHash (T : CoreTimer) (r : Ptr) : Res CoreTimer := do
  T.assert ((← T.getHashPrev r) = .null)
  T.assert ((← T.getHashNext r) = .null)
  let head := Ptr.hash (HASH (T.id r))
  let T ← T.setHashNext r (← T.getHashNext head)
  let T ← T.setHashPrev (← T.getHashNext r) r
  let T ← T.setHashPrev r head
  T.setHashNext (← T.getHashPrev r) r

def delfromHash (T : CoreTimer) (r : Ptr) : Res CoreTimer := do
  T.assert ((← T.getHashPrev r) ≠ .null)
  T.assert ((← T.getHashNext r) ≠ .null)
  let T ← T.setHashNext (← T.getHashPrev r) (← T.getHashNext r)
  let T ← T.setHashPrev (← T.getHashNext r) (← T.getHashPrev r)
  let T ← T.setHashPrev r .null
  T.setHashNext r .null

/-- `list_clear`: the detached nodes start at the returned link. -/
def listClear (T : CoreTimer) (list : Ptr) : Res (CoreTimer × Ptr) := do
  let node ← T.getListNext list
  if node = list then return (T, .null)
  let T ← T.setListPrev node .null
  let T ← T.setListNext (← T.getListPrev list) .null
  let T ← T.setListPrev list list
  let T ← T.setListNext list list
  return (T, node)

def hand (T : CoreTimer) (head : Ptr) : CoreTimer :=
  { T with handed := T.handed ++ [⟨T.listNext, T.listPrev, head⟩] }

def addtoList (T : CoreTimer) (r : Ptr) : Res CoreTimer := do
  T.check r
  T.assert (¬ T.expire r < T.time)
  let head := Ptr.slot (place (T.expire r) T.time)
  (T.hand head).listAdd head r

/-- The node `coretimer_add` fills in. -/
def fill (T : CoreTimer) (r : Ptr) (a : AddReq) : CoreTimer :=
  let index := (T.index + 1) % 2 ^ 32
  { T with
    index := index
    call := Function.update T.call r a.call
    u := Function.update T.u r a.ctx
    id := Function.update T.id r index
    expire := Function.update T.expire r ((T.time + waitTicks a.wait) % 2 ^ 32)
    hashNext := Function.update T.hashNext r .null
    hashPrev := Function.update T.hashPrev r .null
    listNext := Function.update T.listNext r .null
    listPrev := Function.update T.listPrev r .null
    seq := Function.update T.seq r T.added
    added := T.added + 1 }

def coretimerAdd (T : CoreTimer) (a : AddReq) (addr : Nat) : Res CoreTimer := do
  let (T, r) := T.timernodeAlloc addr
  let T := T.fill r a
  let T ← T.addtoList r
  T.addtoHash r

/-- The search loop of `coretimer_del` from `r`; the first argument bounds the rounds. -/
def lookupLoop (T : CoreTimer) (id : Nat) (head : Ptr) : Nat → Ptr → Res (Option Ptr)
  | 0, _ => .error (.diverges, T)
  | rounds + 1, r =>
    if r = head then .ok none
    else do
      T.check r
      if T.id r = id then return some r
      lookupLoop T id head rounds (T.hashNext r)

/-- The node `coretimer_del` finds for an id. -/
def lookup (T : CoreTimer) (id : Nat) : Res (Option Ptr) :=
  let head := Ptr.hash (HASH id)
  T.lookupLoop id head (T.used.length + 1) (T.hashNext head)

def coretimerDel (T : CoreTimer) (id : Nat) : Res CoreTimer := do
  match ← T.lookup id with
  | none => return T
  | some r =>
    let T ← T.delfromList r
    let T ← T.delfromHash r
    let T ← T.timernodeDealloc r
    return { T with log := T.log ++ [.del (T.seq r)] }

/-- The `while (r)` loop of `list_move`; the first argument bounds the rounds. -/
def moveLoop : Nat → CoreTimer → Ptr → Res CoreTimer
  | 0, T, _ => .error (.diverges, T)
  | rounds + 1, T, r =>
    if r = .null then .ok T
    else do
      let n ← T.getListNext r
      let T ← T.setListPrev r .null
      let T ← T.setListNext r .null
      let T ← T.addtoList r
      moveLoop rounds T n

def listMove (T : CoreTimer) (level idx : Nat) : Res CoreTimer := do
  let head := Ptr.slot (.level level idx)
  let (T, r) ← (T.hand head).listClear head
  moveLoop (T.used.length + 1) T r

def timerShift (T : CoreTimer) : Res CoreTimer :=
  let ct := (T.time + 1) % 2 ^ 32
  let T := { T with time := ct }
  match shiftMove ct with
  | .move level idx => T.listMove level idx
  | .noMove => .ok T
  | .turning => .error (.diverges, T)

end CoreTimer

/-! ## The machine -/

/-- The first or the second `timer_execute` of a tick. -/
inductive Phase where
  | first
  | second
  deriving DecidableEq, Repr

inductive Control where
  | idle
  | inCall (phase : Phase) (r n : Ptr)
  deriving DecidableEq, Repr

structure Config where
  timer : CoreTimer
  ctl : Control

namespace Config

/-- One round of the loop of `timer_execute` up to the call, or what follows the loop in the second
`timer_execute`. -/
def executeSecond (T : CoreTimer) (r : Ptr) : Res Config :=
  if r = .null then .ok ⟨T, .idle⟩
  else do
    let n ← T.getListNext r
    let T ← T.delfromHash r
    return ⟨{ T with log := T.log ++ [.run (T.seq r)] }, .inCall .second r n⟩

/-- As `executeSecond` for the first `timer_execute`, which `timer_shift` and the second follow. -/
def executeFirst (T : CoreTimer) (r : Ptr) : Res Config :=
  if r = .null then do
    let T ← T.timerShift
    let (T, r) ← T.listClear (.slot (.near (T.time &&& TIME_NEAR_MASK)))
    executeSecond T r
  else do
    let n ← T.getListNext r
    let T ← T.delfromHash r
    return ⟨{ T with log := T.log ++ [.run (T.seq r)] }, .inCall .first r n⟩

/-- A call on the timer (from anywhere, also from inside a callback), a tick, the return of the
running callback. -/
inductive Label where
  | add (a : AddReq) (addr : Nat)
  | del (id : Nat)
  | tick
  | ret
  deriving DecidableEq, Repr

/-- One step of the machine; a label that is not enabled changes nothing. -/
def step (c : Config) : Label → Res Config
  | .add a addr =>
    -- `malloc` does not return an address that is in use
    if addr ∈ c.timer.mapped then .ok c
    else do
      let T ← c.timer.coretimerAdd a addr
      return ⟨T, c.ctl⟩
  | .del id => do
    let T ← c.timer.coretimerDel id
    return ⟨T, c.ctl⟩
  | .tick =>
    match c.ctl with
    | .idle => do
      let T := c.timer
      let (T, r) ← T.listClear (.slot (.near (T.time &&& TIME_NEAR_MASK)))
      executeFirst T r
    | .inCall _ _ _ => .ok c
  | .ret =>
    match c.ctl with
    | .idle => .ok c
    | .inCall phase r n => do
      let T ← c.timer.timernodeDealloc r
      match phase with
      | .first => executeFirst T n
      | .second => executeSecond T n

def new : Config := ⟨CoreTimer.new, .idle⟩

/-- A run from `coretimer_new`: the configuration it reaches or the fault it ends in. -/
def run (ls : List Label) : Res Config := ls.foldlM step new

end Config

end HoNet.Timer
