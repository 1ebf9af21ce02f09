import HoNet.BufferHead
import HoNet.Lib.Pool

/-!
# A connection of `socketserver.cpp`

One socket of `socket_server` with the threads that execute `start_connet`, `start_send`,
`start_close` and the completion handlers on it. Every interlocked operation, every access of a
queue and every access of a field that threads share is one step. No I/O call fails.

A program counter `Pc` names the statement a thread executes next; `next` executes it. What the
system adds is in `Start`: calls of the interface and completions of outstanding operations. The
received bytes and the callback that parses them are left out but for what it returned. `pending` and
`ready` are integers: no run without 2^31 references that are never dropped wraps a `long`.

* `balance_next`, `balance_start` — how a step changes what `pending` has in excess of the references
  that are accounted for.
-/

namespace HoNet.SocketServer

open HoNet.Pool

inductive SocketType where
  | invalid
  | reserve
  | plisten
  | listen
  | connecting
  | connected
  | halfclose
  | paccept
  | bind
  deriving DecidableEq, Repr

/-- The handlers a read event can have in `call`. -/
inductive ReadCall where
  | eventConnect
  | onEvRecv
  deriving DecidableEq, Repr

/-- The socket, its two events, the buffers and what is outstanding at the system. -/
structure Conn where
  id : Nat
  type : SocketType
  pending : Int
  closing : Bool
  /-- `op[socket_ev_read]`. -/
  rdCall : ReadCall
  rdReady : Int
  /-- `op[socket_ev_write]`. -/
  ready : Int
  b : Option Nat
  wb : BufferHead
  wByte : Nat
  mem : BufMem
  /-- The address the next `new ring_buffer` returns. -/
  fresh : Nat
  /-- Outstanding `ConnectEx` and `WSARecv` operations. -/
  reads : Nat
  /-- Outstanding `WSASend` operations with the bytes they were given. -/
  sends : List (List UInt8)
  /-- The id `start_connet` has handed out; 0 before that. -/
  given : Nat
  /-- The owner's reference has not been released by `start_close` yet. -/
  owner : Bool
  /-- The payloads in the order of `push_back`. -/
  pushed : List UInt8
  /-- The bytes reported as sent. -/
  sent : List UInt8

/-- Who runs `ev_send_start`. -/
inductive SendCaller where
  | startSend
  | onEvSend
  deriving DecidableEq, Repr

inductive SendError where
  | noError
  | ioPending
  | buffEmpty
  deriving DecidableEq, Repr

/-- What a thread does once `grub_socket` has succeeded. -/
inductive Request where
  | send (data : List UInt8)
  | close
  deriving DecidableEq, Repr

inductive Pc where
  /-- `start_connet`: `reserve_id` and `new_fd`, the fields, the reference, `ConnectEx`. -/
  | connReserve (id : Nat)
  | connType (id : Nat)
  | connInc (id : Nat)
  | connEx (id : Nat)
  /-- `grub_socket` in `start_send` and `start_close`. -/
  | grub (id : Nat) (req : Request)
  | grubCheck (id : Nat) (req : Request)
  | push (data : List UInt8)
  /-- `ev_send_start`. -/
  | cas (c : SendCaller)
  | incReady (c : SendCaller)
  | loadB (c : SendCaller)
  | pop (c : SendCaller)
  | decReady (c : SendCaller)
  | storeB (c : SendCaller) (x : Nat)
  | readBuf (c : SendCaller)
  | wsaSend (c : SendCaller) (chunk : List UInt8)
  | sendRet (c : SendCaller) (e : SendError)
  /-- `on_ev_send` up to its call of `ev_send_start`. -/
  | sentLoad (sz : Nat)
  | sentReadOk (x sz : Nat)
  | sentEmpty (x : Nat)
  | sentClear
  | sentReset
  | sentGuard
  /-- `event_connect` and `on_ev_recv` up to `ev_recv_start`. -/
  | connDone
  | connGuard
  | recvDone (sz : Nat) (parsed : Bool)
  | recvGuard
  /-- `ev_recv_start` and the rest of its caller. -/
  | recvArm (c : ReadCall)
  | wsaRecv (c : ReadCall)
  | recvRet (c : ReadCall)
  /-- `start_close`. -/
  | closeType
  | closeTest
  | closeSet
  | closeDrop
  /-- `inner_close` and `force_close`. -/
  | innerClose (ref : Nat)
  | fcRead
  | fcWrite
  | fcReset
  deriving DecidableEq, Repr

/-- `socket::reset`. -/
def reset (s : Conn) : Conn :=
  { s with
    id := 0, type := .reserve, rdCall := .eventConnect, rdReady := 0, ready := 0, b := none,
    pending := 0, closing := false, wByte := 0, wb := s.wb.clean }

def closable (t : SocketType) : Bool :=
  t == .plisten || t == .listen || t == .connecting || t == .connected || t == .paccept

/-- `inner_close(s, ref)`: `InterlockedExchangeAdd` returns the old value. -/
def innerClose (s : Conn) (ref : Nat) : Conn × Option Pc :=
  ({ s with pending := s.pending - ref }, if s.pending ≤ ref then some .fcRead else none)

/-- `InterlockedIncrement(&s->pending) == 2` at the end of a handler. -/
def guard (s : Conn) (go : Pc) : Conn × Option Pc :=
  ({ s with pending := s.pending + 1 }, some (if s.pending + 1 = 2 then .innerClose 2 else go))

/-- One step of a thread. A failed assertion or a null pointer stops the thread where it is. -/
def next (s : Conn) : Pc → Conn × Option Pc
  | .connReserve id =>
    ({ s with type := .invalid, id := id, pending := 1, owner := true }, some (.connType id))
  | .connType id =>
    ({ s with type := .connecting, rdCall := .eventConnect, rdReady := 1 }, some (.connInc id))
  | .connInc id => ({ s with pending := s.pending + 1 }, some (.connEx id))
  | .connEx id => ({ s with reads := s.reads + 1, given := id }, none)
  | .grub id req => ({ s with pending := s.pending + 1 }, some (.grubCheck id req))
  | .grubCheck id req =>
    if s.type ≠ .invalid ∧ s.id = id then
      match req with
      | .send data => (s, some (.push data))
      | .close => (s, some .closeType)
    else (s, some (.innerClose 1))
  | .push data =>
    let mem := Function.update s.mem s.fresh (RingBuffer.ofData data)
    let (mem, wb) := s.wb.pushBack mem s.fresh
    ({ s with mem := mem, wb := wb, fresh := s.fresh + 1, pushed := s.pushed ++ data },
      some (.cas .startSend))
  | .cas c =>
    if s.ready = 0 then ({ s with ready := 1 }, some (.loadB c)) else (s, some (.incReady c))
  | .incReady c =>
    ({ s with ready := s.ready + 1 },
      some (if s.ready + 1 ≠ 1 then .sendRet c .ioPending else .loadB c))
  | .loadB c => (s, some (if s.b = none then .pop c else .readBuf c))
  | .pop c =>
    match s.wb.popFront s.mem with
    | (wb, none) => ({ s with wb := wb }, some (.decReady c))
    | (wb, some x) => ({ s with wb := wb }, some (.storeB c x))
  | .decReady c =>
    ({ s with ready := s.ready - 1 },
      some (if s.ready - 1 > 0 then .loadB c else .sendRet c .buffEmpty))
  | .storeB c x => ({ s with b := some x }, some (.readBuf c))
  | .readBuf c =>
    match s.b with
    | none => (s, some (.readBuf c))
    | some x =>
      match (s.mem x).readbuffer with
      | none => (s, some (.readBuf c))
      | some r => (s, some (.wsaSend c ((s.mem x).region r)))
  | .wsaSend c chunk => ({ s with sends := chunk :: s.sends }, some (.sendRet c .noError))
  | .sendRet .startSend _ => (s, none)
  | .sendRet .onEvSend _ => ({ s with pending := s.pending - 1 }, none)
  | .sentLoad sz =>
    match s.b with
    | none => (s, some (.sentLoad sz))
    | some x => (s, some (.sentReadOk x sz))
  | .sentReadOk x sz =>
    if sz ≤ sub32 (s.mem x).inp (s.mem x).out then
      ({ s with
          mem := Function.update s.mem x ((s.mem x).readOk sz)
          wByte := (s.wByte + sz) % 2 ^ 32 },
        some (.sentEmpty x))
    else (s, some (.sentReadOk x sz))
  | .sentEmpty x => (s, some (if (s.mem x).empty then .sentClear else .sentReset))
  | .sentClear => ({ s with b := none }, some .sentReset)
  | .sentReset => ({ s with ready := 0 }, some .sentGuard)
  | .sentGuard => guard s (.cas .onEvSend)
  | .connDone => ({ s with type := .connected, rdReady := 0 }, some .connGuard)
  | .connGuard => guard s (.recvArm .eventConnect)
  | .recvDone sz parsed =>
    if sz = 0 then (s, some (.innerClose 1))
    else if parsed then ({ s with rdReady := 0 }, some .recvGuard)
    else ({ s with rdReady := 0 }, some (.innerClose 1))
  | .recvGuard => guard s (.recvArm .onEvRecv)
  | .recvArm c =>
    if s.rdReady = 0 then
      ({ s with rdCall := .onEvRecv, rdReady := 1 }, some (.wsaRecv c))
    else (s, some (.recvArm c))
  | .wsaRecv c => ({ s with reads := s.reads + 1 }, some (.recvRet c))
  -- `event_connect` returns here; only `on_ev_recv` drops the reference it took.
  | .recvRet .eventConnect => (s, none)
  | .recvRet .onEvRecv => ({ s with pending := s.pending - 1 }, none)
  | .closeType => (s, if closable s.type then some .closeTest else none)
  | .closeTest => (s, some (if s.closing then .innerClose 1 else .closeSet))
  | .closeSet => ({ s with closing := true }, some .closeDrop)
  | .closeDrop => innerClose { s with owner := false } 2
  | .innerClose ref => innerClose s ref
  | .fcRead => ({ s with rdReady := if s.rdReady = 1 then 0 else s.rdReady }, some .fcWrite)
  | .fcWrite => ({ s with ready := if s.ready = 1 then 0 else s.ready }, some .fcReset)
  | .fcReset => (reset s, none)

/-- A call of the interface with the id handed out, or the completion of an operation. A payload and
the copy that `start_send` makes of it are in the memory of one 32-bit process. -/
inductive Start : Conn → Conn → Pc → Prop
  | startSend (s : Conn) (data : List UInt8) (hid : s.given ≠ 0) (hne : data ≠ [])
    (hlen : data.length < 2 ^ 31) : Start s s (.grub s.given (.send data))
  | startClose (s : Conn) (hid : s.given ≠ 0) : Start s s (.grub s.given .close)
  | connected (s : Conn) (hr : 0 < s.reads) (hc : s.rdCall = .eventConnect) :
    Start s { s with reads := s.reads - 1 } .connDone
  | received (s : Conn) (sz : Nat) (parsed : Bool) (hr : 0 < s.reads) (hc : s.rdCall = .onEvRecv) :
    Start s { s with reads := s.reads - 1 } (.recvDone sz parsed)
  | sentOut (s : Conn) (chunk : List UInt8) (sz : Nat) (hs : chunk ∈ s.sends) (hpos : 0 < sz)
    (hle : sz ≤ chunk.length) :
    Start s { s with sends := s.sends.erase chunk, sent := s.sent ++ chunk.take sz }
      (.sentLoad sz)

def program : Program Conn Pc := ⟨next, Start⟩

/-! ## References -/

/-- The references `ev_send_start` is entered with. -/
def SendCaller.refs : SendCaller → ℤ
  | .startSend => 1
  | .onEvSend => 2

/-- The references on the socket that a thread holds: the one of the operation whose completion it
handles, and its own. -/
def Pc.refs : Pc → ℤ
  | .connReserve _ | .connType _ | .connInc _ => 0
  | .connEx _ => 1
  | .grub _ _ => 0
  | .grubCheck _ _ | .push _ => 1
  | .cas c | .incReady c | .loadB c | .pop c | .decReady c | .storeB c _ | .readBuf c
  | .wsaSend c _ => c.refs
  | .sendRet c .noError => c.refs - 1
  | .sendRet c _ => c.refs
  | .sentLoad _ | .sentReadOk _ _ | .sentEmpty _ | .sentClear | .sentReset | .sentGuard => 1
  | .connDone | .connGuard | .recvDone _ _ | .recvGuard => 1
  | .recvArm _ | .wsaRecv _ => 2
  | .recvRet _ => 1
  | .closeType | .closeTest | .closeSet | .closeDrop => 1
  | .innerClose ref => ref
  | .fcRead | .fcWrite | .fcReset => 0

theorem Pc.refs_nonneg (p : Pc) : 0 ≤ p.refs := by
  cases p <;> simp [Pc.refs, SendCaller.refs] <;> grind [SendCaller, SendError]

/-- What `pending` counts beside the owner and the outstanding operations. -/
def excess (s : Conn) : ℤ :=
  s.pending - s.reads - s.sends.length - s.owner.toNat

/-- The references that a step forgets to drop, or drops without holding them. -/
def leak (s : Conn) : Pc → ℤ
  | .sendRet _ .noError => 0
  | .sendRet _ _ => 1
  | .recvRet .eventConnect => 1
  | .closeType => if closable s.type then 0 else 1
  | .closeDrop => if s.owner then 0 else -1
  | _ => 0

/-- **Balance of a step.** But for the first and the last statement of a socket's life, every step
changes `pending` by the references it takes and drops and by what it leaks. -/
theorem balance_next (s : Conn) (p : Pc) (hres : ∀ id, p ≠ .connReserve id) (hfc : p ≠ .fcReset) :
    excess (next s p).1 - (next s p).2.elim 0 Pc.refs = excess s - p.refs + leak s p := by
  cases p with
  | connReserve id => exact absurd rfl (hres id)
  | fcReset => exact absurd rfl hfc
  | connType id | storeB c x | sentClear | sentReset | connDone | closeSet | fcRead
  | fcWrite => simp [next, excess, Pc.refs, leak]
  | push data => simp [next, excess, Pc.refs, SendCaller.refs, leak]
  | connInc id | connEx id | grub id req | wsaSend c chunk | wsaRecv c =>
    simp [next, excess, Pc.refs, leak]
    ring
  | grubCheck id req =>
    simp only [next]
    split
    · cases req <;> simp [Pc.refs, leak]
    · simp [Pc.refs, leak]
  | cas c | incReady c | loadB c | decReady c | sentEmpty x | closeTest =>
    simp only [next]
    split <;> simp [excess, Pc.refs, leak]
  | pop c =>
    rcases h : s.wb.popFront s.mem with ⟨wb, _ | x⟩ <;> simp [next, h, excess, Pc.refs, leak]
  | readBuf c =>
    cases hb : s.b with
    | none => simp [next, hb, Pc.refs, leak]
    | some x => cases hr : (s.mem x).readbuffer <;> simp [next, hb, hr, Pc.refs, leak]
  | sendRet c e =>
    cases c <;> cases e <;> simp [next, excess, Pc.refs, SendCaller.refs, leak] <;> ring
  | sentLoad sz => cases hb : s.b <;> simp [next, hb, Pc.refs, leak]
  | sentReadOk x sz =>
    simp only [next]
    split <;> simp [excess, Pc.refs, leak]
  | sentGuard | connGuard | recvGuard =>
    simp only [next, guard]
    split <;> (simp [excess, Pc.refs, SendCaller.refs, leak]; ring)
  | recvDone sz parsed =>
    simp only [next]
    split
    · simp [Pc.refs, leak]
    · cases parsed <;> simp [excess, Pc.refs, leak]
  | recvArm c =>
    simp only [next]
    split <;> simp [excess, Pc.refs, leak]
  | recvRet c =>
    cases c with
    | eventConnect => simp [next, Pc.refs, leak]
    | onEvRecv =>
      simp [next, excess, Pc.refs, leak]
      ring
  | closeType =>
    cases h : closable s.type <;> simp [next, h, Pc.refs, leak]
  | closeDrop =>
    cases ho : s.owner <;> by_cases hp : s.pending ≤ 2 <;>
      simp [next, innerClose, excess, Pc.refs, leak, ho, hp] <;> ring
  | innerClose ref =>
    by_cases hp : s.pending ≤ ref <;> simp [next, innerClose, excess, Pc.refs, leak, hp] <;> ring

/-- A completion turns an outstanding operation into a thread that holds its reference. -/
theorem balance_start {s s' : Conn} {p : Pc} (h : Start s s' p) :
    excess s' - p.refs = excess s := by
  cases h with
  | startSend data hid hne hlen => simp [Pc.refs]
  | startClose hid => simp [Pc.refs]
  | connected hr hc =>
    simp only [excess, Pc.refs, Nat.cast_sub (Nat.succ_le_of_lt hr), Nat.cast_one]
    ring
  | received sz parsed hr hc =>
    simp only [excess, Pc.refs, Nat.cast_sub (Nat.succ_le_of_lt hr), Nat.cast_one]
    ring
  | sentOut chunk sz hs hpos hle =>
    have := List.length_pos_of_mem hs
    simp only [excess, Pc.refs, List.length_erase_of_mem hs, Nat.cast_sub (Nat.succ_le_of_lt this),
      Nat.cast_one]
    ring

end HoNet.SocketServer
