import HoNet.Lib.Pool

/-!
# The socket server of `coresocket.c`

The slot table with the threads that execute `start_listen`, `start_connet`, `start_close` and the
completion handlers. Every interlocked operation and every I/O call is one step; reserving a slot and
setting it up until its type is stored is one step too. Nobody else knows its id; assumed is that no call
with another id of the same hash takes its reference in between, where `reserve_id` and `new_fd` store
`pending = 1` over it.

What an I/O call will return is part of the call or the event that begins a thread. A failed assertion
(`assert(wsa.len)` of `ev_recv_start` and the `assert(0)` behind `resetfd` are on the way) does not stop a
thread: a build that checks them stops earlier. The field `newsock` of a context and the address buffer
it shares its memory with are kept apart, and the received bytes are left out.
-/

namespace HoNet.CoreSocket

open HoNet.Pool

inductive SocketType where
  | invalid
  | reserve
  | plisten
  | listen
  | connecting
  | connected
  | halfclose
  | paccept
  | bind
  deriving DecidableEq, Repr

/-- `read_op` and `write_op`. -/
inductive Ctx where
  | read
  | write
  deriving DecidableEq, Repr

/-- The handlers of a connection in `read_op.call`. -/
inductive ReadCall where
  | eventConnect
  | onEvRecv
  deriving DecidableEq, Repr

structure Slot where
  id : Int
  type : SocketType
  pending : Int
  closing : Bool
  rdReady : Int
  wrReady : Int
  call : ReadCall
  /-- Outstanding `ConnectEx` and `WSARecv` operations. -/
  io : Nat
  /-- Outstanding `AcceptEx` operations with their contexts and the slots of `newsock`. -/
  accepts : List (Ctx × Nat)
  /-- The reference of the owner has not been released yet. -/
  owner : Bool
  deriving DecidableEq, Repr

structure Server where
  allocId : Nat
  slot : Nat → Slot
  /-- The slots as they were when `socketcheck_delref` entered `force_close` for them. -/
  entered : List Slot

def Server.set (s : Server) (i : Nat) (f : Slot → Slot) : Server :=
  { s with slot := Function.update s.slot i (f (s.slot i)) }

def maxSocket : Nat := 2 ^ 16

/-- `HASH_ID`. -/
def hashId (id : Int) : Nat := (id % 2 ^ 16).toNat

/-- A 32-bit value as a `LONG`. -/
def toLong (x : Nat) : Int := if x < 2 ^ 31 then x else x - 2 ^ 32

/-- The counter after the increment of `reserve_id`. -/
def nextAlloc (a : Nat) : Nat :=
  let a := (a + 1) % 2 ^ 32
  if toLong a < 0 then (a + 0x7fffffff) % 2 ^ 32 else a

/-- `reserve_id` with the rounds left. -/
def reserveId : Nat → Server → Server × Int
  | 0, s => (s, -1)
  | n + 1, s =>
    let s := { s with allocId := nextAlloc s.allocId }
    let id := toLong s.allocId
    if (s.slot (hashId id)).type = .invalid then
      (s.set (hashId id) fun sl => { sl with type := .reserve, id := id, pending := 1 }, id)
    else reserveId n s

/-- `new_fd(reserve_id(), ..)` and the store of the type, without a foreign id in between: the slot,
unless `append_socket` fails. -/
def openSlot (s : Server) (append : Bool) (type : SocketType) : Server × Option Nat :=
  let (s, id) := reserveId maxSocket s
  if append then
    (s.set (hashId id) fun sl => { sl with id := id, pending := 1, type := type, owner := true },
      some (hashId id))
  else (s.set (hashId id) fun sl => { sl with type := .invalid }, none)

/-- What happens to the calls of `ev_listen_start`. -/
inductive ListenIo where
  | ok
  | noSocket
  | noAppend
  | noAccept
  deriving DecidableEq, Repr

/-- What happens to the calls of `start_connet` behind `bind`. -/
inductive ConnectIo where
  | ok
  | noAppend
  | noConnect
  deriving DecidableEq, Repr

/-- Who runs `ev_listen_start`: `start_listen` for its first or its second context, or
`on_ev_listen`. -/
inductive Lister where
  | first (io : ListenIo)
  | second
  | again
  deriving DecidableEq, Repr

/-- What the caller of `socketcheck_delref` does next. -/
inductive After where
  | done
  | second (i : Nat) (io : ListenIo)
  | relisten (i : Nat) (ctx : Ctx) (io : ListenIo)
  deriving DecidableEq, Repr

/-- Who drops the owner's reference with its own: `start_close`, or `start_listen` when it fails. -/
inductive Releaser where
  | closer
  | listener
  deriving DecidableEq, Repr

inductive Pc where
  /-- `start_listen`. -/
  | lisOpen (append : Bool) (io io₂ : ListenIo)
  /-- `ev_listen_start` between `socketcheck_addref` and `socketcheck_delref`. -/
  | lisAdd (c : Lister) (i : Nat) (ctx : Ctx) (io : ListenIo)
  | lisSock (c : Lister) (i : Nat) (ctx : Ctx) (io : ListenIo)
  | lisAccept (c : Lister) (i : Nat) (ctx : Ctx) (io : ListenIo) (j : Nat)
  /-- `start_connet`. -/
  | conOpen (io : ConnectIo)
  | conInc (i : Nat) (io : ConnectIo)
  | conEx (i : Nat) (io : ConnectIo)
  /-- `event_connect`, `on_ev_recv`. -/
  | connDone (i : Nat) (ok recv : Bool)
  | recvDone (i : Nat) (ok recv : Bool)
  /-- `ev_recv_start` between `socketcheck_addref` and `socketcheck_delref`. -/
  | recvAdd (i : Nat) (k : After) (recv : Bool)
  | recvArm (i : Nat) (k : After) (recv : Bool)
  | recvCall (i : Nat) (k : After) (recv : Bool)
  /-- `on_ev_listen`. -/
  | accDone (i : Nat) (ctx : Ctx) (j : Nat) (ok recv : Bool) (io : ListenIo)
  | accInc (i : Nat) (ctx : Ctx) (j : Nat) (recv : Bool) (io : ListenIo)
  | accReady (i : Nat) (ctx : Ctx) (io : ListenIo)
  /-- `start_close`. -/
  | grub (id : Int)
  | grubCheck (id : Int)
  | closeType (i : Nat)
  | closeTest (i : Nat)
  | closeSet (i : Nat)
  /-- `socketcheck_delref` and `force_close`. -/
  | delref (i ref : Nat) (k : After)
  | release (i : Nat) (r : Releaser)
  | fcRead (i : Nat) (k : After)
  | fcWrite (i : Nat) (k : After)
  deriving DecidableEq, Repr

/-! ## The steps -/

def addref (s : Server) (i : Nat) : Server :=
  if (s.slot i).type ≠ .invalid then s.set i fun sl => { sl with pending := sl.pending + 1 } else s

def setReady (ctx : Ctx) (v : Int) (sl : Slot) : Slot :=
  match ctx with
  | .read => { sl with rdReady := v }
  | .write => { sl with wrReady := v }

def resume : After → Option Pc
  | .done => none
  | .second i io => some (.lisAdd .second i .write io)
  | .relisten i ctx io => some (.accReady i ctx io)

/-- `socketcheck_delref`; `f` is what the step does to the slot beside the counter. -/
def delref (s : Server) (i ref : Nat) (f : Slot → Slot) (k : After) : Server × Option Pc :=
  let old := (s.slot i).pending
  let s := s.set i fun sl => f { sl with pending := old - ref }
  if old ≤ ref then ({ s with entered := s.slot i :: s.entered }, some (.fcRead i k))
  else (s, resume k)

/-- `ev_listen_start` has failed: both callers drop two references. -/
def lisFailed : Lister → Nat → Pc
  | .first _, i => .release i .listener
  | .second, i => .delref i 2 .done
  | .again, i => .delref i 2 .done

/-- `ev_listen_start` has succeeded. -/
def lisStarted : Lister → Nat → Pc
  | .first io₂, i => .delref i 1 (.second i io₂)
  | .second, i => .delref i 1 .done
  | .again, i => .delref i 1 .done

def closable (t : SocketType) : Bool :=
  t == .plisten || t == .listen || t == .connecting || t == .connected || t == .paccept

def next (s : Server) : Pc → Server × Option Pc
  | .lisOpen append io io₂ =>
    match openSlot s append .listen with
    | (s, none) => (s, none)
    | (s, some i) => (s, some (.lisAdd (.first io₂) i .read io))
  | .lisAdd c i ctx io => (addref s i, some (.lisSock c i ctx io))
  | .lisSock c i ctx io =>
    if io = .noSocket then (s.set i (setReady ctx 0), some (lisFailed c i))
    else
      match openSlot s (io ≠ .noAppend) .plisten with
      | (s, none) => (s.set i (setReady ctx 0), some (lisFailed c i))
      | (s, some j) => (s.set i (setReady ctx 1), some (.lisAccept c i ctx io j))
  | .lisAccept c i ctx io j =>
    if io = .noAccept then (s.set i (setReady ctx 0), some (lisFailed c i))
    else
      (s.set i fun sl => { setReady ctx 1 sl with accepts := (ctx, j) :: sl.accepts },
        some (lisStarted c i))
  | .conOpen io =>
    match openSlot s (io ≠ .noAppend) .connecting with
    | (s, none) => (s, none)
    | (s, some i) =>
      (s.set i fun sl => { sl with rdReady := 1, call := .eventConnect }, some (.conInc i io))
  | .conInc i io =>
    (s.set i fun sl => { sl with pending := sl.pending + 1 }, some (.conEx i io))
  -- When `ConnectEx` fails its reference is kept.
  | .conEx i io => if io = .noConnect then (s, none) else (s.set i fun sl => { sl with io := sl.io + 1 }, none)
  | .connDone i ok recv =>
    if ok then (s.set i fun sl => { sl with rdReady := 0, type := .connected }, some (.recvAdd i .done recv))
    else (s.set i fun sl => { sl with rdReady := 0 }, some (.delref i 1 .done))
  | .recvDone i ok recv =>
    if ok then (s.set i fun sl => { sl with rdReady := 0 }, some (.recvAdd i .done recv))
    else (s, some (.delref i 1 .done))
  | .recvAdd i k recv => (addref s i, some (.recvArm i k recv))
  | .recvArm i k recv =>
    (s.set i fun sl => { sl with rdReady := 1, call := .onEvRecv }, some (.recvCall i k recv))
  | .recvCall i k recv =>
    if recv then (s.set i fun sl => { sl with io := sl.io + 1 }, some (.delref i 1 k))
    else (s.set i fun sl => { sl with rdReady := 0 }, some (.delref i 2 k))
  | .accDone i ctx j ok recv io =>
    if ok then (s.set j fun sl => { sl with type := .paccept }, some (.accInc i ctx j recv io))
    else (s, some (.accReady i ctx io))
  | .accInc i ctx j recv io =>
    (s.set j fun sl => { sl with pending := sl.pending + 1 }, some (.recvAdd j (.relisten i ctx io) recv))
  | .accReady i ctx io => (s.set i (setReady ctx 0), some (.lisAdd .again i ctx io))
  | .grub id =>
    (s.set (hashId id) fun sl => { sl with pending := sl.pending + 1 }, some (.grubCheck id))
  | .grubCheck id =>
    if (s.slot (hashId id)).type ≠ .invalid ∧ (s.slot (hashId id)).id = id then
      (s, some (.closeType (hashId id)))
    else (s, some (.delref (hashId id) 1 .done))
  | .closeType i => (s, if closable (s.slot i).type then some (.closeTest i) else none)
  | .closeTest i => (s, some (if (s.slot i).closing then .delref i 1 .done else .closeSet i))
  | .closeSet i => (s.set i fun sl => { sl with closing := true }, some (.release i .closer))
  | .delref i ref k => delref s i ref id k
  | .release i _ => delref s i 2 (fun sl => { sl with owner := false }) .done
  | .fcRead i k =>
    (s.set i fun sl => { sl with rdReady := if sl.rdReady = 1 then 0 else sl.rdReady },
      some (.fcWrite i k))
  -- `resetfd` does nothing but assert.
  | .fcWrite i k =>
    (s.set i fun sl => { sl with wrReady := if sl.wrReady = 1 then 0 else sl.wrReady }, resume k)

/-- A call of the interface, or the completion of an outstanding operation. -/
inductive Start : Server → Server → Pc → Prop
  | startListen (s : Server) (append : Bool) (io io₂ : ListenIo) : Start s s (.lisOpen append io io₂)
  | startConnet (s : Server) (io : ConnectIo) : Start s s (.conOpen io)
  | startClose (s : Server) (id : Int) : Start s s (.grub id)
  | connected (s : Server) (i : Nat) (ok recv : Bool) (hio : 0 < (s.slot i).io)
    (hc : (s.slot i).call = .eventConnect) :
    Start s (s.set i fun sl => { sl with io := sl.io - 1 }) (.connDone i ok recv)
  | received (s : Server) (i : Nat) (ok recv : Bool) (hio : 0 < (s.slot i).io)
    (hc : (s.slot i).call = .onEvRecv) :
    Start s (s.set i fun sl => { sl with io := sl.io - 1 }) (.recvDone i ok recv)
  | accepted (s : Server) (i : Nat) (ctx : Ctx) (j : Nat) (ok recv : Bool) (io : ListenIo)
    (ha : (ctx, j) ∈ (s.slot i).accepts) :
    Start s (s.set i fun sl => { sl with accepts := sl.accepts.erase (ctx, j) })
      (.accDone i ctx j ok recv io)

def program : Program Server Pc := ⟨next, Start⟩

end HoNet.CoreSocket
