import HoNet.Lib.Simulation
import HoNet.SocketServer.SendProtocol

/-!
# The receiving side of a connection

What `Conn` leaves out: the buffer of the read event, the queue `rb`, the regions given to `WSARecv`
and the messages for the logic. `on_ev_recv` counts the bytes that came into the buffer, queues it and
calls `default_protocol`, which pops it again and makes a `logic_recv` of it; `ev_recv_start` makes a
new buffer of 128 bytes. Buffers of this side live in a memory of their own. Assumed is that no call of
the system and no `post` fails and that no completion reports an error.

* `simulates` — seen without the bytes this is `Conn`.
* `Inv` — one reader, and every byte that arrived is in a message or in the hands of the reader.
* `receive_exact` — the messages over whole runs.
* `end_to_end` — two connected sockets: what arrives at one end was sent at the other.
-/

namespace HoNet.SocketServer.Duplex

open HoNet.Pool

/-- What `event_connect` and `on_ev_recv` post to the logic. -/
inductive Msg where
  | connect (id : Nat)
  | recv (id : Nat) (buffer : Option Nat)
  | socketerr (id : Nat)
  deriving DecidableEq, Repr

/-- A region of a buffer, as it is given to `WSARecv`. -/
structure WsaBuf where
  addr : Nat
  off : Nat
  len : Nat
  deriving DecidableEq, Repr

/-- The fields of the receiving side. -/
structure Side where
  /-- `op[socket_ev_read].b`. -/
  rdB : Option Nat
  rb : BufferHead
  rByte : Nat
  rmem : BufMem
  /-- The address the next `new ring_buffer` of this side returns. -/
  rfresh : Nat
  /-- The regions of the outstanding `WSARecv` operations. -/
  wsa : List WsaBuf
  posted : List Msg
  /-- The bytes of each completion. -/
  arrivals : List (List UInt8)

structure Link extends Side where
  conn : Conn

inductive Pc where
  /-- A statement of the model without the bytes. -/
  | conn (p : SocketServer.Pc)
  | reportConnect
  /-- `on_ev_recv`. -/
  | reportErr
  | writeOk (sz : Nat)
  | pushBack (sz : Nat)
  | count (sz : Nat)
  | parse (sz : Nat)
  | report (sz : Nat) (m : Msg)
  /-- `ev_recv_start` behind `ev->ready = 1`. -/
  | create (c : ReadCall)
  | offer (c : ReadCall)
  | issue (c : ReadCall) (r : WsaBuf)
  deriving DecidableEq, Repr

/-- The statement in the model without the bytes. -/
def Pc.view : Pc → SocketServer.Pc
  | .conn p => p
  | .reportConnect => .connDone
  | .reportErr => .recvDone 0 true
  | .writeOk sz | .pushBack sz | .count sz | .parse sz | .report sz _ => .recvDone sz true
  | .create c | .offer c | .issue c _ => .wsaRecv c

/-- `WSARecv` comes behind the new buffer. -/
def enter : SocketServer.Pc → Pc
  | .wsaRecv c => .create c
  | p => .conn p

/-- `ring_buffer::ring_buffer()`. -/
def newBuffer : RingBuffer := RingBuffer.init ⟨none, [], 0, 0, 0⟩ 128

/-- One step of a thread. A failed assertion or a null pointer stops the thread where it is. -/
def next (s : Link) : Pc → Link × Option Pc
  | .conn .fcReset =>
    ({ s with conn := reset s.conn, rdB := none, rb := s.rb.clean, rByte := 0 }, none)
  | .conn p => ({ s with conn := (SocketServer.next s.conn p).1 },
      (SocketServer.next s.conn p).2.map enter)
  | .reportConnect => ({ s with posted := s.posted ++ [.connect s.conn.id] }, some (.conn .connDone))
  | .reportErr =>
    ({ s with posted := s.posted ++ [.socketerr s.conn.id] }, some (.conn (.recvDone 0 true)))
  | .writeOk sz =>
    match s.rdB with
    | none => (s, some (.writeOk sz))
    | some x =>
      match (s.rmem x).writeOk sz with
      | none => (s, some (.writeOk sz))
      | some b => ({ s with rmem := Function.update s.rmem x b }, some (.pushBack sz))
  | .pushBack sz =>
    match s.rdB with
    | none => (s, some (.pushBack sz))
    | some x =>
      let (rmem, rb) := s.rb.pushBack s.rmem x
      ({ s with rmem := rmem, rb := rb }, some (.count sz))
  | .count sz => ({ s with rByte := (s.rByte + sz) % 2 ^ 32, rdB := none }, some (.parse sz))
  -- `default_protocol` always returns true.
  | .parse sz =>
    let (rb, b) := s.rb.popFront s.rmem
    ({ s with rb := rb }, some (.report sz (.recv s.conn.id b)))
  | .report sz m => ({ s with posted := s.posted ++ [m] }, some (.conn (.recvDone sz true)))
  | .create c =>
    if s.rdB = none then
      ({ s with
          rmem := Function.update s.rmem s.rfresh newBuffer, rdB := some s.rfresh
          rfresh := s.rfresh + 1 },
        some (.offer c))
    else (s, some (.create c))
  | .offer c =>
    match s.rdB with
    | none => (s, some (.offer c))
    | some x =>
      match (s.rmem x).writebuffer with
      | none => (s, some (.offer c))
      | some (off, len) => (s, some (.issue c ⟨x, off, len⟩))
  | .issue c r =>
    ({ s with conn := (SocketServer.next s.conn (.wsaRecv c)).1, wsa := r :: s.wsa },
      some (.conn (.recvRet c)))

/-- The system has stored `data` in a region. -/
def Link.stored (s : Link) (r : WsaBuf) (data : List UInt8) : BufMem :=
  Function.update s.rmem r.addr
    { s.rmem r.addr with buffer := memcpy (s.rmem r.addr).buffer r.off data }

/-- A call of the interface, or the completion of an operation; no bytes come when the other end has
closed. -/
inductive Start : Link → Link → Pc → Prop
  | startSend (s : Link) (data : List UInt8) (hid : s.conn.given ≠ 0) (hne : data ≠ [])
    (hlen : data.length < 2 ^ 31) : Start s s (.conn (.grub s.conn.given (.send data)))
  | startClose (s : Link) (hid : s.conn.given ≠ 0) : Start s s (.conn (.grub s.conn.given .close))
  | connected (s : Link) (hr : 0 < s.conn.reads) (hc : s.conn.rdCall = .eventConnect) :
    Start s { s with conn := { s.conn with reads := s.conn.reads - 1 } } .reportConnect
  | received (s : Link) (r : WsaBuf) (data : List UInt8) (hr : 0 < s.conn.reads)
    (hc : s.conn.rdCall = .onEvRecv) (hw : r ∈ s.wsa) (hne : data ≠ []) (hlen : data.length ≤ r.len) :
    Start s
      { s with
        conn := { s.conn with reads := s.conn.reads - 1 }, wsa := s.wsa.erase r
        rmem := s.stored r data, arrivals := s.arrivals ++ [data] }
      (.writeOk data.length)
  | closed (s : Link) (r : WsaBuf) (hr : 0 < s.conn.reads) (hc : s.conn.rdCall = .onEvRecv)
    (hw : r ∈ s.wsa) :
    Start s { s with conn := { s.conn with reads := s.conn.reads - 1 }, wsa := s.wsa.erase r }
      .reportErr
  | sentOut (s : Link) (chunk : List UInt8) (sz : Nat) (hs : chunk ∈ s.conn.sends) (hpos : 0 < sz)
    (hle : sz ≤ chunk.length) :
    Start s
      { s with conn :=
        { s.conn with sends := s.conn.sends.erase chunk, sent := s.conn.sent ++ chunk.take sz } }
      (.conn (.sentLoad sz))

def program : Program Link Pc := ⟨next, Start⟩

/-- No thread begins a `start_close`. -/
def noClose (_ : Link) (p : Pc) (_ : Multiset Pc) : Prop := ∀ id, p ≠ .conn (.grub id .close)

/-! ## Seen without the bytes -/

theorem enter_view (p : SocketServer.Pc) : (enter p).view = p := by
  cases p <;> rfl

theorem map_enter_view (o : Option SocketServer.Pc) : (o.map enter).map Pc.view = o := by
  cases o with
  | none => rfl
  | some p => exact congrArg some (enter_view p)

/-- The steps that are seen are those of the model without the bytes. -/
theorem next_conn (s : Link) (p : SocketServer.Pc) :
    SocketServer.next s.conn p = ((next s (.conn p)).1.conn, (next s (.conn p)).2.map Pc.view) := by
  cases p <;> first | rfl | exact Prod.ext rfl (map_enter_view _).symm

theorem simulates : Simulates program noClose SocketServer.program SocketServer.noClose Link.conn
    Pc.view where
  thread s p R hok := by
    cases p with
    | conn p =>
      refine .inr ⟨?_, next_conn s p⟩
      rintro id rfl
      exact hok id rfl
    | issue c r =>
      refine .inr ⟨?_, rfl⟩
      rintro id ⟨⟩
    | reportConnect | reportErr | count sz | parse sz | report sz m => exact .inl ⟨rfl, rfl⟩
    | writeOk sz =>
      left
      simp only [program, next]
      split
      · exact ⟨rfl, rfl⟩
      · split <;> exact ⟨rfl, rfl⟩
    | pushBack sz =>
      left
      simp only [program, next]
      split <;> exact ⟨rfl, rfl⟩
    | create c =>
      left
      simp only [program, next]
      split <;> exact ⟨rfl, rfl⟩
    | offer c =>
      left
      simp only [program, next]
      split
      · exact ⟨rfl, rfl⟩
      · split <;> exact ⟨rfl, rfl⟩
  start s s' p h := by
    cases h with
    | startSend data hid hne hlen => exact .startSend _ data hid hne hlen
    | startClose hid => exact .startClose _ hid
    | connected hr hc => exact .connected _ hr hc
    | received r data hr hc hw hne hlen => exact .received _ data.length true hr hc
    | closed r hr hc hw => exact .received _ 0 true hr hc
    | sentOut chunk sz hs hpos hle => exact .sentOut _ chunk sz hs hpos hle

/-! ## The buffers -/

/-- A buffer of this side that `data` came into. -/
def filled (data : List UInt8) : RingBuffer :=
  { newBuffer with buffer := memcpy newBuffer.buffer 0 data, inp := data.length }

theorem newBuffer_writebuffer : newBuffer.writebuffer = some (0, 127) := by
  decide +kernel

theorem filled_content {data : List UInt8} : (filled data).content = data := by
  have hbuf : (filled data).buffer = data ++ newBuffer.buffer.drop data.length := by
    simp only [filled, memcpy, List.take_zero, List.nil_append, Nat.zero_add]
  have hinp : (filled data).inp = data.length := rfl
  have hout : (filled data).out = 0 := rfl
  rw [RingBuffer.content, hbuf, hinp, hout, List.drop_zero, List.take_left]

/-- `write_ok` behind a completion. -/
theorem writeOk_filled {data : List UInt8} (hlen : data.length ≤ 127) :
    ({ newBuffer with buffer := memcpy newBuffer.buffer 0 data } : RingBuffer).writeOk data.length =
      some (filled data) := by
  have hfree : sub32 newBuffer.size (sub32 newBuffer.inp newBuffer.out) = 128 := by decide +kernel
  have hinp : (newBuffer.inp + data.length) % 2 ^ 32 = data.length := by
    rw [show newBuffer.inp = 0 from rfl, Nat.zero_add]
    exact Nat.mod_eq_of_lt (by omega)
  simp only [RingBuffer.writeOk, hfree, hinp]
  exact if_pos (by omega)

/-! ## Messages -/

def Msg.buffer : Msg → Option Nat
  | .recv _ b => b
  | .connect _ | .socketerr _ => none

/-- The bytes a `logic_recv` carries, as they can be read in the memory now. -/
def Msg.bytes (mem : BufMem) : Msg → Option (List UInt8)
  | .recv _ b => some (b.elim [] fun x => (mem x).content)
  | .connect _ | .socketerr _ => none

def contents (s : Side) : List (List UInt8) := s.posted.filterMap (Msg.bytes s.rmem)

/-- The messages depend on their own buffers only. -/
theorem filterMap_bytes_update {posted : List Msg} {mem : BufMem} {x : Nat} (b : RingBuffer)
    (h : ∀ m ∈ posted, m.buffer ≠ some x) :
    posted.filterMap (Msg.bytes (Function.update mem x b)) = posted.filterMap (Msg.bytes mem) := by
  refine List.filterMap_congr fun m hm => ?_
  cases m with
  | connect id | socketerr id => rfl
  | recv id o =>
    cases o with
    | none => rfl
    | some y =>
      have hne : y ≠ x := by
        rintro rfl
        exact h _ hm rfl
      simp only [Msg.bytes, Option.elim_some, Function.update_of_ne hne]

/-! ## The reader -/

/-- The thread executes a handler of the read event and has not given the event to `WSARecv` yet. -/
def Pc.reading : Pc → Bool
  | .conn (.connDone) | .conn (.connGuard) | .conn (.recvDone _ _) | .conn (.recvGuard)
  | .conn (.recvArm _) | .conn (.wsaRecv _) => true
  | .conn _ => false
  | _ => true

def readersIn (T : Multiset Pc) : Nat := T.countP fun p => p.reading = true

variable {s s' : Link} {T R : Multiset Pc} {p q : Pc}

theorem readersIn_reader (hp : p.reading = true) : readersIn (p ::ₘ T) = readersIn T + 1 :=
  Multiset.countP_cons_of_pos (p := fun p : Pc => p.reading = true) T hp

theorem readersIn_other (hp : p.reading = false) : readersIn (p ::ₘ T) = readersIn T :=
  Multiset.countP_cons_of_neg (p := fun p : Pc => p.reading = true) T (by simp [hp])

theorem readersIn_zero (h : readersIn T = 0) : ∀ p ∈ T, p.reading = false :=
  fun p hp => by simpa using Multiset.countP_eq_zero.mp h p hp

/-- Nothing is in the hands of the reader. -/
structure Clear (s : Side) : Prop where
  rdB_eq : s.rdB = none
  rb_eq : s.rb = ⟨none, none⟩
  contents_eq : contents s = s.arrivals
  rByte_eq : s.rByte = s.arrivals.flatten.length % 2 ^ 32

/-- The event has a new buffer. -/
structure Armed (s : Side) (x : Nat) : Prop where
  rdB_eq : s.rdB = some x
  lt : x < s.rfresh
  aside : ∀ m ∈ s.posted, m.buffer ≠ some x
  rmem_eq : s.rmem x = newBuffer
  rb_eq : s.rb = ⟨none, none⟩
  contents_eq : contents s = s.arrivals
  rByte_eq : s.rByte = s.arrivals.flatten.length % 2 ^ 32

/-- The bytes `data` came into the buffer `x`. -/
structure InHand (s : Side) (x : Nat) (data : List UInt8) : Prop where
  lt : x < s.rfresh
  aside : ∀ m ∈ s.posted, m.buffer ≠ some x
  ne_nil : data ≠ []
  length_le : data.length ≤ 127
  arrivals_eq : s.arrivals = contents s ++ [data]

/-- What the reader at a statement knows. -/
def Stage (s : Side) (call : ReadCall) (ready : Int) (given : Nat) : Pc → Prop
  | .reportConnect | .conn .connDone => Clear s
  | .conn .connGuard | .conn .recvGuard | .conn (.recvArm _) => Clear s ∧ ready = 0
  | .conn (.recvDone sz parsed) => if sz = 0 then ∃ x, Armed s x else Clear s ∧ parsed = true
  | .reportErr => ∃ x, Armed s x
  | .create _ => Clear s ∧ call = .onEvRecv
  | .offer _ => (∃ x, Armed s x) ∧ call = .onEvRecv
  | .issue _ r => (Armed s r.addr ∧ r.off = 0 ∧ r.len = 127) ∧ call = .onEvRecv
  | .writeOk sz => ∃ x data, InHand s x data ∧ sz = data.length ∧ s.rdB = some x ∧
      s.rb = ⟨none, none⟩ ∧ s.rByte = (contents s).flatten.length % 2 ^ 32 ∧
      s.rmem x = { newBuffer with buffer := memcpy newBuffer.buffer 0 data }
  | .pushBack sz => ∃ x data, InHand s x data ∧ sz = data.length ∧ s.rdB = some x ∧
      s.rb = ⟨none, none⟩ ∧ s.rByte = (contents s).flatten.length % 2 ^ 32 ∧ s.rmem x = filled data
  | .count sz => ∃ x data, InHand s x data ∧ sz = data.length ∧ s.rdB = some x ∧
      s.rb = ⟨some x, some x⟩ ∧ s.rByte = (contents s).flatten.length % 2 ^ 32 ∧ s.rmem x = filled data
  | .parse sz => ∃ x data, InHand s x data ∧ sz = data.length ∧ s.rdB = none ∧
      s.rb = ⟨some x, some x⟩ ∧ s.rByte = s.arrivals.flatten.length % 2 ^ 32 ∧ s.rmem x = filled data
  | .report sz m => ∃ x data, InHand s x data ∧ sz = data.length ∧ s.rdB = none ∧
      s.rb = ⟨none, none⟩ ∧ s.rByte = s.arrivals.flatten.length % 2 ^ 32 ∧ s.rmem x = filled data ∧
      m = .recv given (some x)
  | .conn _ => False

/-- Every `logic_recv` has a buffer of its own socket with bytes in it. -/
def Delivered (s : Side) (given : Nat) : Prop :=
  ∀ id b, .recv id b ∈ s.posted → id = given ∧
    ∃ x data, b = some x ∧ x < s.rfresh ∧ s.rmem x = filled data ∧ data ≠ [] ∧ data.length ≤ 127

structure Inv (s : Link) (T : Multiset Pc) : Prop where
  one : readersIn T + s.conn.reads ≤ 1
  wsa_length : s.wsa.length = if s.conn.rdCall = .onEvRecv then s.conn.reads else 0
  stage : ∀ p ∈ T, p.reading = true → Stage s.toSide s.conn.rdCall s.conn.rdReady s.conn.given p
  out : ∀ r ∈ s.wsa, Armed s.toSide r.addr ∧ r.off = 0 ∧ r.len = 127
  connecting : s.conn.rdCall = .eventConnect → 0 < s.conn.reads → Clear s.toSide
  ceased : readersIn T = 0 → s.conn.reads = 0 → ∃ x, Armed s.toSide x
  delivered : Delivered s.toSide s.conn.given
  ended : ∀ id, .socketerr id ∈ s.posted → s.conn.reads = 0 ∧
    ∀ p ∈ T, p.reading = true → ∃ parsed, p = .conn (.recvDone 0 parsed)
  last : ∀ id, .socketerr id ∉ s.posted.dropLast

/-! ## Threads beside the reader -/

theorem Inv.frame {conn : Conn} (h : Inv s T) (hreads : conn.reads = s.conn.reads)
    (hcall : conn.rdCall = s.conn.rdCall) (hready : conn.rdReady = s.conn.rdReady)
    (hgiven : conn.given = s.conn.given) : Inv { s with conn := conn } T where
  one := hreads ▸ h.one
  wsa_length := by
    rw [hcall, hreads]
    exact h.wsa_length
  stage p hp hr := by
    rw [hcall, hready, hgiven]
    exact h.stage p hp hr
  out := h.out
  connecting hc hr := h.connecting (hcall ▸ hc) (hreads ▸ hr)
  ceased hT hr := h.ceased hT (hreads ▸ hr)
  delivered := hgiven ▸ h.delivered
  ended id hm := hreads ▸ h.ended id hm
  last := h.last

/-- Other threads may come and go. -/
theorem Inv.others {T' : Multiset Pc} (h : Inv s T) (hcount : readersIn T' = readersIn T)
    (hsub : ∀ p ∈ T', p.reading = true → p ∈ T) : Inv s T' where
  one := hcount ▸ h.one
  wsa_length := h.wsa_length
  stage p hp hr := h.stage p (hsub p hp hr) hr
  out := h.out
  connecting := h.connecting
  ceased hT := h.ceased (hcount ▸ hT)
  delivered := h.delivered
  ended id hm := ⟨(h.ended id hm).1, fun p hp hr => (h.ended id hm).2 p (hsub p hp hr) hr⟩
  last := h.last

theorem Inv.neutral {o : Option Pc} (h : Inv s (p ::ₘ R)) (hp : p.reading = false)
    (ho : ∀ p' ∈ o, p'.reading = false) : Inv s (put o R) := by
  refine h.others ?_ ?_
  · rw [readersIn_other hp]
    cases o with
    | none => rfl
    | some p' => exact readersIn_other (ho p' rfl)
  · intro p' hp' hr
    rcases mem_put.mp hp' with hp' | hp'
    · simp [ho p' hp'] at hr
    · exact Multiset.mem_cons_of_mem hp'

theorem Inv.add (h : Inv s T) (hp : p.reading = false) : Inv s (p ::ₘ T) := by
  refine h.others (readersIn_other hp) ?_
  intro p' hp' hr
  rcases Multiset.mem_cons.mp hp' with rfl | hp'
  · simp [hp] at hr
  · exact hp'

/-- A statement leaves the read event alone and leads to one that does. -/
structure Beside (c c' : Conn) (o : Option SocketServer.Pc) : Prop where
  reads_eq : c'.reads = c.reads
  rdCall_eq : c'.rdCall = c.rdCall
  rdReady_eq : c'.rdReady = c.rdReady
  given_eq : c'.given = c.given
  leads : ∀ p ∈ o.map enter, p.reading = false

section Beside

variable {c c' : Conn} {p' : SocketServer.Pc} (hreads : c'.reads = c.reads)
  (hcall : c'.rdCall = c.rdCall) (hready : c'.rdReady = c.rdReady) (hgiven : c'.given = c.given)
include hreads hcall hready hgiven

theorem Beside.on (hp : (enter p').reading = false) : Beside c c' (some p') := by
  refine ⟨hreads, hcall, hready, hgiven, ?_⟩
  rintro _ ⟨⟩
  exact hp

theorem Beside.returns : Beside c c' none := by
  refine ⟨hreads, hcall, hready, hgiven, ?_⟩
  rintro _ ⟨⟩

end Beside

theorem next_beside {c : Conn} {p : SocketServer.Pc} {g : Nat} (hplain : p.plain g)
    (hread : (Pc.conn p).reading = false) :
    Beside c (SocketServer.next c p).1 (SocketServer.next c p).2 := by
  cases p with
  | connReserve id | connType id | connInc id | connEx id | closeType | closeTest | closeSet
  | closeDrop | fcRead | fcWrite | fcReset => exact hplain.elim
  | connDone | connGuard | recvDone sz parsed | recvGuard | recvArm k | wsaRecv k => cases hread
  | grub id req | push data | storeB k x | wsaSend k chunk | sentClear | sentReset =>
    exact .on rfl rfl rfl rfl rfl
  | grubCheck id req =>
    simp only [SocketServer.next]
    split
    · cases req <;> exact .on rfl rfl rfl rfl rfl
    · exact .on rfl rfl rfl rfl rfl
  | cas k | sentReadOk x sz =>
    simp only [SocketServer.next]
    split <;> exact .on rfl rfl rfl rfl rfl
  | incReady k | loadB k | decReady k | sentEmpty x =>
    refine .on rfl rfl rfl rfl ?_
    split <;> rfl
  | pop k =>
    rcases hpop : c.wb.popFront c.mem with ⟨wb, _ | x⟩ <;> simp only [SocketServer.next, hpop] <;>
      exact .on rfl rfl rfl rfl rfl
  | readBuf k =>
    simp only [SocketServer.next]
    split
    · exact .on rfl rfl rfl rfl rfl
    · split <;> exact .on rfl rfl rfl rfl rfl
  | sentLoad sz =>
    simp only [SocketServer.next]
    split <;> exact .on rfl rfl rfl rfl rfl
  | sentGuard =>
    refine .on rfl rfl rfl rfl ?_
    split <;> rfl
  | innerClose ref =>
    simp only [SocketServer.next, innerClose]
    split
    · exact .on rfl rfl rfl rfl rfl
    · exact .returns rfl rfl rfl rfl
  | sendRet k e => cases k <;> exact .returns rfl rfl rfl rfl
  | recvRet k => cases k <;> exact .returns rfl rfl rfl rfl

theorem Inv.beside {p : SocketServer.Pc} (h : Inv s (.conn p ::ₘ R)) (hplain : p.plain s.conn.given)
    (hread : (Pc.conn p).reading = false) :
    Inv (next s (.conn p)).1 (put (next s (.conn p)).2 R) := by
  have hb := next_beside (c := s.conn) hplain hread
  have hnext : next s (.conn p) =
      ({ s with conn := (SocketServer.next s.conn p).1 }, (SocketServer.next s.conn p).2.map enter) := by
    cases p <;> first | rfl | exact hplain.elim
  rw [hnext]
  exact (h.neutral hread hb.leads).frame hb.reads_eq hb.rdCall_eq hb.rdReady_eq hb.given_eq

/-! ## The reader moves on -/

/-- There is one reader, and no operation is outstanding. -/
theorem Inv.alone (h : Inv s (p ::ₘ R)) (hp : p.reading = true) :
    readersIn R = 0 ∧ s.conn.reads = 0 ∧ s.wsa = [] ∧ Stage s.toSide s.conn.rdCall s.conn.rdReady s.conn.given p := by
  have hone := h.one
  have hwsa := h.wsa_length
  rw [readersIn_reader hp] at hone
  have hreads : s.conn.reads = 0 := by omega
  rw [hreads, ite_self] at hwsa
  exact ⟨by omega, hreads, List.length_eq_zero_iff.mp hwsa, h.stage p (Multiset.mem_cons_self p R) hp⟩

/-- As long as the reader goes on no error was reported. -/
theorem Inv.not_ended (h : Inv s (p ::ₘ R)) (hp : p.reading = true)
    (hne : ∀ parsed, p ≠ .conn (.recvDone 0 parsed)) (id : Nat) : .socketerr id ∉ s.posted := by
  intro hm
  obtain ⟨parsed, heq⟩ := (h.ended id hm).2 p (Multiset.mem_cons_self p R) hp
  exact hne parsed heq

/-- The reader goes on. -/
theorem Inv.goes (hR : readersIn R = 0) (hreads : s.conn.reads = 0) (hwsa : s.wsa = [])
    (hq : q.reading = true) (hstage : Stage s.toSide s.conn.rdCall s.conn.rdReady s.conn.given q)
    (hdel : Delivered s.toSide s.conn.given)
    (hended : ∀ id, .socketerr id ∈ s.posted → ∃ parsed, q = .conn (.recvDone 0 parsed))
    (hlast : ∀ id, .socketerr id ∉ s.posted.dropLast) : Inv s (q ::ₘ R) where
  one := by
    rw [readersIn_reader hq]
    omega
  wsa_length := by
    rw [hwsa, hreads, ite_self]
    rfl
  stage p hp hr := by
    rcases Multiset.mem_cons.mp hp with rfl | hp
    · exact hstage
    · rw [readersIn_zero hR p hp] at hr
      cases hr
  out r hr := by
    rw [hwsa] at hr
    cases hr
  connecting _ hr := by omega
  ceased hT := by
    rw [readersIn_reader hq] at hT
    omega
  delivered := hdel
  ended id hm := by
    refine ⟨hreads, fun p hp hr => ?_⟩
    rcases Multiset.mem_cons.mp hp with rfl | hp
    · exact hended id hm
    · rw [readersIn_zero hR p hp] at hr
      cases hr
  last := hlast

theorem not_mem_dropLast {α : Type} {a : α} {l : List α} (h : a ∉ l) : a ∉ l.dropLast :=
  fun hm => h (List.dropLast_subset l hm)

/-- The reader goes on and has posted nothing. -/
theorem Inv.turns (h : Inv s (p ::ₘ R)) (hp : p.reading = true)
    (hne : ∀ parsed, p ≠ .conn (.recvDone 0 parsed)) (hreads : s'.conn.reads = 0) (hwsa : s'.wsa = [])
    (hposted : s'.posted = s.posted) (hq : q.reading = true)
    (hstage : Stage s'.toSide s'.conn.rdCall s'.conn.rdReady s'.conn.given q)
    (hdel : Delivered s'.toSide s'.conn.given) : Inv s' (q ::ₘ R) := by
  have hno := h.not_ended hp hne
  rw [← hposted] at hno
  exact .goes (h.alone hp).1 hreads hwsa hq hstage hdel (fun id hm => absurd hm (hno id))
    fun id => not_mem_dropLast (hno id)

/-- A message without bytes is posted. -/
theorem Delivered.concat {posted : List Msg} {m : Msg} {t : Side} {given : Nat}
    (h : Delivered t given) (hm : ∀ id b, m ≠ .recv id b) (hposted : t.posted ++ [m] = posted) :
    Delivered { t with posted := posted } given := by
  intro id b hb
  have hb' : Msg.recv id b ∈ t.posted ++ [m] := by
    rw [hposted]
    exact hb
  rcases List.mem_append.mp hb' with hb' | hb'
  · exact h id b hb'
  · exact absurd (List.mem_singleton.mp hb').symm (hm id b)

theorem contents_concat {t : Side} {m : Msg} (hm : m.bytes t.rmem = none) :
    contents { t with posted := t.posted ++ [m] } = contents t := by
  simp only [contents, List.filterMap_append, List.filterMap_cons, hm, List.filterMap_nil,
    List.append_nil]

theorem Inv.reportConnect (h : Inv s (.reportConnect ::ₘ R)) :
    Inv (next s .reportConnect).1 (put (next s .reportConnect).2 R) := by
  obtain ⟨hR, hreads, hwsa, hclear⟩ := h.alone rfl
  have hno := h.not_ended rfl (by rintro _ ⟨⟩)
  have hno' : ∀ id, Msg.socketerr id ∉ s.posted ++ [.connect s.conn.id] := by
    intro id hm
    rcases List.mem_append.mp hm with hm | hm
    · exact hno id hm
    · cases List.mem_singleton.mp hm
  refine .goes hR hreads hwsa rfl ?_ (h.delivered.concat (by rintro _ _ ⟨⟩) rfl)
    (fun id hm => absurd hm (hno' id)) fun id => not_mem_dropLast (hno' id)
  exact ⟨hclear.1, hclear.2, (contents_concat rfl).trans hclear.3, hclear.4⟩

theorem Inv.connDone (h : Inv s (.conn .connDone ::ₘ R)) :
    Inv (next s (.conn .connDone)).1 (put (next s (.conn .connDone)).2 R) := by
  obtain ⟨-, hreads, hwsa, hclear⟩ := h.alone rfl
  exact h.turns rfl (by rintro _ ⟨⟩) hreads hwsa rfl rfl ⟨hclear, rfl⟩ h.delivered

/-- The two checks of `pending` behind a handler. -/
theorem Inv.guarded {c : ReadCall} (h : Inv s (p ::ₘ R)) (hp : p.reading = true)
    (hne : ∀ parsed, p ≠ .conn (.recvDone 0 parsed)) (hclear : Clear s.toSide)
    (hready : s.conn.rdReady = 0) (hlarge : ¬ s.conn.pending + 1 = 2) :
    Inv { s with conn := (guard s.conn (.recvArm c)).1 }
      (put ((guard s.conn (.recvArm c)).2.map enter) R) := by
  obtain ⟨-, hreads, hwsa, -⟩ := h.alone hp
  simp only [guard, if_neg hlarge]
  exact h.turns hp hne hreads hwsa rfl rfl ⟨hclear, hready⟩ h.delivered

theorem Inv.recvDone {sz : Nat} {parsed : Bool} (h : Inv s (.conn (.recvDone sz parsed) ::ₘ R)) :
    Inv (next s (.conn (.recvDone sz parsed))).1
      (put (next s (.conn (.recvDone sz parsed))).2 R) := by
  obtain ⟨hR, hreads, hwsa, hstage⟩ := h.alone rfl
  simp only [Stage] at hstage
  split at hstage
  · next hz =>
    -- the receiving side is over
    subst hz
    have hquiet : readersIn (.conn (.innerClose 1) ::ₘ R) = 0 := (readersIn_other rfl).trans hR
    refine ⟨?_, ?_, ?_, ?_, ?_, ?_, h.delivered, ?_, h.last⟩
    · show readersIn (.conn (.innerClose 1) ::ₘ R) + s.conn.reads ≤ 1
      omega
    · exact h.wsa_length
    · intro p hp hr
      rw [readersIn_zero hquiet p hp] at hr
      cases hr
    · intro r hr
      have hr' : r ∈ s.wsa := hr
      rw [hwsa] at hr'
      cases hr'
    · intro _ hr
      have hr' : 0 < s.conn.reads := hr
      omega
    · exact fun _ _ => hstage
    · intro id _
      refine ⟨hreads, fun p hp hr => ?_⟩
      rw [readersIn_zero hquiet p hp] at hr
      cases hr
  · next hz =>
    obtain ⟨hclear, rfl⟩ := hstage
    have hnext : next s (.conn (.recvDone sz true)) =
        ({ s with conn := { s.conn with rdReady := 0 } }, some (.conn .recvGuard)) := by
      simp only [next, SocketServer.next, if_neg hz, if_true, Option.map_some, enter]
    rw [hnext]
    refine h.turns rfl ?_ hreads hwsa rfl rfl ⟨hclear, rfl⟩ h.delivered
    rintro parsed ⟨⟩
    exact hz rfl

theorem Inv.recvArm {c : ReadCall} (h : Inv s (.conn (.recvArm c) ::ₘ R)) :
    Inv (next s (.conn (.recvArm c))).1 (put (next s (.conn (.recvArm c))).2 R) := by
  obtain ⟨-, hreads, hwsa, hclear, hready⟩ := h.alone rfl
  have hnext : next s (.conn (.recvArm c)) =
      ({ s with conn := { s.conn with rdCall := .onEvRecv, rdReady := 1 } }, some (.create c)) := by
    simp only [next, SocketServer.next, if_pos hready, Option.map_some, enter]
  rw [hnext]
  exact h.turns rfl (by rintro _ ⟨⟩) hreads hwsa rfl rfl ⟨hclear, rfl⟩ h.delivered

theorem Inv.reportErr (h : Inv s (.reportErr ::ₘ R)) :
    Inv (next s .reportErr).1 (put (next s .reportErr).2 R) := by
  obtain ⟨hR, hreads, hwsa, x, harmed⟩ := h.alone rfl
  have hno := h.not_ended rfl (by rintro _ ⟨⟩)
  have haside : ∀ m ∈ s.posted ++ [.socketerr s.conn.id], m.buffer ≠ some x := by
    intro m hm
    rcases List.mem_append.mp hm with hm | hm
    · exact harmed.aside m hm
    · rw [List.mem_singleton.mp hm]
      rintro ⟨⟩
  refine .goes hR hreads hwsa rfl ?_ (h.delivered.concat (by rintro _ _ ⟨⟩) rfl)
    (fun _ _ => ⟨true, rfl⟩) fun id => ?_
  · simp only [Stage, if_true]
    exact ⟨x, harmed.1, harmed.2, haside, harmed.4, harmed.5, (contents_concat rfl).trans harmed.6,
      harmed.7⟩
  · show Msg.socketerr id ∉ (s.posted ++ [Msg.socketerr s.conn.id]).dropLast
    rw [List.dropLast_concat]
    exact hno id

/-- A buffer that no message has may change. -/
theorem Delivered.update {t : Side} {given x : Nat} (b : RingBuffer) (h : Delivered t given)
    (haside : ∀ m ∈ t.posted, m.buffer ≠ some x) :
    Delivered { t with rmem := Function.update t.rmem x b } given := by
  intro id o hm
  obtain ⟨hid, y, data, rfl, hy, hmem, hdata⟩ := h id o hm
  have hne : y ≠ x := by
    rintro rfl
    exact haside _ hm rfl
  exact ⟨hid, y, data, rfl, hy, (Function.update_of_ne hne ..).trans hmem, hdata⟩

theorem contents_update {t : Side} {x : Nat} (b : RingBuffer)
    (haside : ∀ m ∈ t.posted, m.buffer ≠ some x) :
    contents { t with rmem := Function.update t.rmem x b } = contents t :=
  filterMap_bytes_update b haside

theorem Inv.writeOk {sz : Nat} (h : Inv s (.writeOk sz ::ₘ R)) :
    Inv (next s (.writeOk sz)).1 (put (next s (.writeOk sz)).2 R) := by
  obtain ⟨-, hreads, hwsa, x, data, hx, rfl, hb, hrb, hbyte, hmem⟩ := h.alone rfl
  have hnext : next s (.writeOk data.length) =
      ({ s with rmem := Function.update s.rmem x (filled data) }, some (.pushBack data.length)) := by
    simp only [next, hb, hmem, writeOk_filled hx.length_le]
  have hcontents : contents { s.toSide with rmem := Function.update s.rmem x (filled data) } =
      contents s.toSide := contents_update _ hx.aside
  rw [hnext]
  refine h.turns rfl (by rintro _ ⟨⟩) hreads hwsa rfl rfl ?_ (h.delivered.update _ hx.aside)
  refine ⟨x, data, ⟨hx.1, hx.2, hx.3, hx.4, ?_⟩, rfl, hb, hrb, ?_, Function.update_self ..⟩
  · rw [hcontents]
    exact hx.arrivals_eq
  · rw [hcontents]
    exact hbyte

theorem Inv.pushBack {sz : Nat} (h : Inv s (.pushBack sz ::ₘ R)) :
    Inv (next s (.pushBack sz)).1 (put (next s (.pushBack sz)).2 R) := by
  obtain ⟨-, hreads, hwsa, x, data, hx, rfl, hb, hrb, hbyte, hmem⟩ := h.alone rfl
  have hnext : next s (.pushBack data.length) =
      ({ s with rb := ⟨some x, some x⟩ }, some (.count data.length)) := by
    simp only [next, hb, hrb, BufferHead.pushBack]
  rw [hnext]
  exact h.turns rfl (by rintro _ ⟨⟩) hreads hwsa rfl rfl
    ⟨x, data, ⟨hx.1, hx.2, hx.3, hx.4, hx.5⟩, rfl, hb, rfl, hbyte, hmem⟩ h.delivered

theorem Inv.count {sz : Nat} (h : Inv s (.count sz ::ₘ R)) :
    Inv (next s (.count sz)).1 (put (next s (.count sz)).2 R) := by
  obtain ⟨-, hreads, hwsa, x, data, hx, rfl, hb, hrb, hbyte, hmem⟩ := h.alone rfl
  refine h.turns rfl (by rintro _ ⟨⟩) hreads hwsa rfl rfl
    ⟨x, data, ⟨hx.1, hx.2, hx.3, hx.4, hx.5⟩, rfl, rfl, hrb, ?_, hmem⟩ h.delivered
  show (s.rByte + data.length) % 2 ^ 32 = s.arrivals.flatten.length % 2 ^ 32
  rw [hx.arrivals_eq, hbyte, Nat.mod_add_mod, List.flatten_append, List.length_append,
    List.flatten_cons, List.flatten_nil, List.append_nil]

/-- `default_protocol` pops what was just pushed. -/
theorem Inv.parse {sz : Nat} (hid : s.conn.id = s.conn.given) (h : Inv s (.parse sz ::ₘ R)) :
    Inv (next s (.parse sz)).1 (put (next s (.parse sz)).2 R) := by
  obtain ⟨-, hreads, hwsa, x, data, hx, rfl, hb, hrb, hbyte, hmem⟩ := h.alone rfl
  have hlink : (s.rmem x).next = none := by
    rw [hmem]
    rfl
  have hpop : s.rb.popFront s.rmem = (⟨none, none⟩, some x) := by
    simp only [BufferHead.popFront, hrb, hlink]
  have hnext : next s (.parse data.length) = ({ s with rb := ⟨none, none⟩ },
      some (.report data.length (.recv s.conn.id (some x)))) := by
    simp only [next, hpop]
  rw [hnext]
  exact h.turns rfl (by rintro _ ⟨⟩) hreads hwsa rfl rfl
    ⟨x, data, ⟨hx.1, hx.2, hx.3, hx.4, hx.5⟩, rfl, hb, rfl, hbyte, hmem, by rw [hid]⟩ h.delivered

/-- The bytes in the hands of the reader become a message. -/
theorem Inv.report {sz : Nat} {m : Msg} (h : Inv s (.report sz m ::ₘ R)) :
    Inv (next s (.report sz m)).1 (put (next s (.report sz m)).2 R) := by
  obtain ⟨hR, hreads, hwsa, x, data, hx, rfl, hb, hrb, hbyte, hmem, rfl⟩ := h.alone rfl
  have hno := h.not_ended rfl (by rintro _ ⟨⟩)
  have hno' : ∀ id, Msg.socketerr id ∉ s.posted ++ [.recv s.conn.given (some x)] := by
    intro id hm
    rcases List.mem_append.mp hm with hm | hm
    · exact hno id hm
    · cases List.mem_singleton.mp hm
  have hbytes : (Msg.recv s.conn.given (some x)).bytes s.rmem = some data := by
    rw [Msg.bytes, Option.elim_some, hmem, filled_content]
  refine .goes hR hreads hwsa rfl ?_ ?_ (fun id hm => absurd hm (hno' id))
    fun id => not_mem_dropLast (hno' id)
  · have hpos : data.length ≠ 0 := fun hz => hx.ne_nil (List.length_eq_zero_iff.mp hz)
    simp only [Stage, if_neg hpos]
    refine ⟨⟨hb, hrb, ?_, hbyte⟩, trivial⟩
    show (s.posted ++ [Msg.recv s.conn.given (some x)]).filterMap (Msg.bytes s.rmem) = s.arrivals
    rw [hx.arrivals_eq, List.filterMap_append, List.filterMap_cons, hbytes]
    rfl
  · intro id b hm
    rcases List.mem_append.mp hm with hm | hm
    · exact h.delivered id b hm
    · cases List.mem_singleton.mp hm
      exact ⟨rfl, x, data, rfl, hx.lt, hmem, hx.ne_nil, hx.length_le⟩

theorem Inv.create {c : ReadCall} (h : Inv s (.create c ::ₘ R)) :
    Inv (next s (.create c)).1 (put (next s (.create c)).2 R) := by
  obtain ⟨-, hreads, hwsa, hclear, hcall⟩ := h.alone rfl
  have haside : ∀ m ∈ s.posted, m.buffer ≠ some s.rfresh := by
    rintro m hm hbuf
    cases m with
    | connect id | socketerr id => cases hbuf
    | recv id b =>
      obtain ⟨-, y, data, hy, hlt, -⟩ := h.delivered id b hm
      cases hy.symm.trans hbuf
      exact lt_irrefl _ hlt
  have hnext : next s (.create c) =
      ({ s with
          rmem := Function.update s.rmem s.rfresh newBuffer, rdB := some s.rfresh
          rfresh := s.rfresh + 1 }, some (.offer c)) := by
    simp only [next, if_pos hclear.rdB_eq]
  rw [hnext]
  refine h.turns rfl (by rintro _ ⟨⟩) hreads hwsa rfl rfl
    ⟨⟨s.rfresh, rfl, Nat.lt_succ_self _, haside, Function.update_self .., hclear.rb_eq, ?_,
      hclear.rByte_eq⟩, hcall⟩ ?_
  · exact (filterMap_bytes_update _ haside).trans hclear.contents_eq
  · intro id b hm
    obtain ⟨hid, y, data, hb, hy, hrest⟩ := (h.delivered.update newBuffer haside) id b hm
    exact ⟨hid, y, data, hb, Nat.lt_succ_of_lt hy, hrest⟩

theorem Inv.offer {c : ReadCall} (h : Inv s (.offer c ::ₘ R)) :
    Inv (next s (.offer c)).1 (put (next s (.offer c)).2 R) := by
  obtain ⟨-, hreads, hwsa, ⟨x, harmed⟩, hcall⟩ := h.alone rfl
  have hnext : next s (.offer c) = (s, some (.issue c ⟨x, 0, 127⟩)) := by
    simp only [next, harmed.rdB_eq, harmed.rmem_eq, newBuffer_writebuffer]
  rw [hnext]
  exact h.turns rfl (by rintro _ ⟨⟩) hreads hwsa rfl rfl ⟨⟨harmed, rfl, rfl⟩, hcall⟩ h.delivered

/-- The event is given to `WSARecv`. -/
theorem Inv.issue {c : ReadCall} {r : WsaBuf} (h : Inv s (.issue c r ::ₘ R)) :
    Inv (next s (.issue c r)).1 (put (next s (.issue c r)).2 R) := by
  obtain ⟨hR, hreads, hwsa, ⟨harmed, hregion⟩, hcall⟩ := h.alone rfl
  have hno := h.not_ended rfl (by rintro _ ⟨⟩)
  have hquiet : readersIn (.conn (.recvRet c) ::ₘ R) = 0 := (readersIn_other rfl).trans hR
  refine ⟨?_, ?_, ?_, ?_, ?_, ?_, h.delivered, ?_, h.last⟩
  · show readersIn (.conn (.recvRet c) ::ₘ R) + (s.conn.reads + 1) ≤ 1
    omega
  · show (r :: s.wsa).length = if s.conn.rdCall = .onEvRecv then s.conn.reads + 1 else 0
    rw [if_pos hcall, hwsa, hreads]
    rfl
  · intro p hp hread
    rw [readersIn_zero hquiet p hp] at hread
    cases hread
  · intro r' hr'
    have hr' : r' ∈ r :: s.wsa := hr'
    rw [hwsa] at hr'
    rw [List.mem_singleton.mp hr']
    exact ⟨⟨harmed.1, harmed.2, harmed.3, harmed.4, harmed.5, harmed.6, harmed.7⟩, hregion⟩
  · intro hc
    have hc' : s.conn.rdCall = .eventConnect := hc
    rw [hcall] at hc'
    cases hc'
  · intro _ hz
    have hz' : s.conn.reads + 1 = 0 := hz
    omega
  · exact fun id hm => absurd hm (hno id)

/-! ## One step -/

/-- **One step** of any thread. -/
theorem Inv.thread (h : Inv s (p ::ₘ R)) (ho : OpenInv s.conn ((p ::ₘ R).map Pc.view)) :
    Inv (next s p).1 (put (next s p).2 R) := by
  have hview : (p ::ₘ R).map Pc.view = p.view ::ₘ R.map Pc.view := Multiset.map_cons ..
  rw [hview] at ho
  have hplain := ho.plain p.view (Multiset.mem_cons_self _ _)
  have hge := ho.pending_ge
  cases p with
  | conn p =>
    cases p with
    | connDone => exact h.connDone
    | connGuard =>
      obtain ⟨-, -, -, hclear, hready⟩ := h.alone rfl
      simp only [Pc.view, SocketServer.Pc.refs] at hge
      exact h.guarded rfl (by rintro _ ⟨⟩) hclear hready (by omega)
    | recvDone sz parsed => exact h.recvDone
    | recvGuard =>
      obtain ⟨-, -, -, hclear, hready⟩ := h.alone rfl
      simp only [Pc.view, SocketServer.Pc.refs] at hge
      exact h.guarded rfl (by rintro _ ⟨⟩) hclear hready (by omega)
    | recvArm c => exact h.recvArm
    | wsaRecv c => exact (h.alone rfl).2.2.2.elim
    | _ => exact h.beside hplain rfl
  | reportConnect => exact h.reportConnect
  | reportErr => exact h.reportErr
  | writeOk sz => exact h.writeOk
  | pushBack sz => exact h.pushBack
  | count sz => exact h.count
  | parse sz => exact h.parse ho.id_eq
  | report sz m => exact h.report
  | create c => exact h.create
  | offer c => exact h.offer
  | issue c r => exact h.issue

/-- Nobody reads while an operation is outstanding. -/
theorem Inv.outstanding (h : Inv s T) (hr : 0 < s.conn.reads) :
    readersIn T = 0 ∧ s.conn.reads = 1 ∧ ∀ id, .socketerr id ∉ s.posted := by
  have hone := h.one
  refine ⟨by omega, by omega, fun id hm => ?_⟩
  have hzero := (h.ended id hm).1
  omega

theorem Inv.wsa_eq (h : Inv s T) (hr : 0 < s.conn.reads) (hc : s.conn.rdCall = .onEvRecv) {r : WsaBuf}
    (hw : r ∈ s.wsa) : s.wsa = [r] := by
  have hlen := h.wsa_length
  rw [if_pos hc, (h.outstanding hr).2.1] at hlen
  obtain ⟨r', hr'⟩ := List.length_eq_one_iff.mp hlen
  rw [hr'] at hw ⊢
  rw [List.mem_singleton.mp hw]

theorem Inv.received {r : WsaBuf} {data : List UInt8} (h : Inv s T) (hr : 0 < s.conn.reads)
    (hc : s.conn.rdCall = .onEvRecv) (hw : r ∈ s.wsa) (hne : data ≠ []) (hlen : data.length ≤ r.len) :
    Inv { s with
        conn := { s.conn with reads := s.conn.reads - 1 }, wsa := s.wsa.erase r
        rmem := s.stored r data, arrivals := s.arrivals ++ [data] }
      (.writeOk data.length ::ₘ T) := by
  obtain ⟨hT, hone, hno⟩ := h.outstanding hr
  obtain ⟨harmed, hoff, hrlen⟩ := h.out r hw
  have hlen' : data.length ≤ 127 := hrlen ▸ hlen
  have hmem : s.stored r data = Function.update s.rmem r.addr
      { newBuffer with buffer := memcpy newBuffer.buffer 0 data } := by
    rw [Link.stored, harmed.rmem_eq, hoff]
  have hcontents : s.posted.filterMap (Msg.bytes (s.stored r data)) = s.arrivals := by
    rw [hmem, filterMap_bytes_update _ harmed.aside]
    exact harmed.contents_eq
  refine .goes hT ?_ ?_ rfl ?_ ?_ (fun id hm => absurd hm (hno id)) fun id => not_mem_dropLast (hno id)
  · show s.conn.reads - 1 = 0
    omega
  · show s.wsa.erase r = []
    rw [h.wsa_eq hr hc hw, List.erase_cons_head]
  · refine ⟨r.addr, data, ⟨harmed.lt, harmed.aside, hne, hlen', ?_⟩, rfl, harmed.rdB_eq, harmed.rb_eq, ?_, ?_⟩
    · exact congrArg (· ++ [data]) hcontents.symm
    · exact harmed.rByte_eq.trans (congrArg (fun l => l.flatten.length % 2 ^ 32) hcontents.symm)
    · show s.stored r data r.addr = _
      rw [hmem, Function.update_self]
  · rw [hmem]
    exact h.delivered.update _ harmed.aside

theorem Inv.start (h : Inv s T) (hs : Start s s' p) : Inv s' (p ::ₘ T) := by
  cases hs with
  | startSend data hid hne hlen => exact h.add rfl
  | startClose hid => exact h.add rfl
  | connected hr hc =>
    obtain ⟨hT, hone, hno⟩ := h.outstanding hr
    have hwsa := h.wsa_length
    rw [if_neg (by rw [hc]; rintro ⟨⟩)] at hwsa
    refine .goes hT ?_ (List.length_eq_zero_iff.mp hwsa) rfl (h.connecting hc hr) h.delivered
      (fun id hm => absurd hm (hno id)) fun id => not_mem_dropLast (hno id)
    show s.conn.reads - 1 = 0
    omega
  | received r data hr hc hw hne hlen => exact h.received hr hc hw hne hlen
  | closed r hr hc hw =>
    obtain ⟨hT, hone, hno⟩ := h.outstanding hr
    obtain ⟨harmed, -, -⟩ := h.out r hw
    refine .goes hT ?_ ?_ rfl ?_ h.delivered (fun id hm => absurd hm (hno id))
      fun id => not_mem_dropLast (hno id)
    · show s.conn.reads - 1 = 0
      omega
    · show s.wsa.erase r = []
      rw [h.wsa_eq hr hc hw, List.erase_cons_head]
    · exact ⟨r.addr, harmed.1, harmed.2, harmed.3, harmed.4, harmed.5, harmed.6, harmed.7⟩
  | sentOut chunk sz hs hpos hle => exact (h.add rfl).frame rfl rfl rfl rfl

/-! ## Whole runs -/

/-- A connection with its `ConnectEx` or its first `WSARecv` outstanding. -/
structure Begins (s : Link) : Prop where
  connected : Connected s.conn
  posted_eq : s.posted = []
  arrivals_eq : s.arrivals = []
  rByte_eq : s.rByte = 0
  rb_eq : s.rb = ⟨none, none⟩
  reads_eq : s.conn.reads = 1
  event : s.conn.rdCall = .eventConnect ∧ s.rdB = none ∧ s.wsa = [] ∨
    s.conn.rdCall = .onEvRecv ∧ ∃ x < s.rfresh, s.rdB = some x ∧ s.rmem x = newBuffer ∧
      s.wsa = [⟨x, 0, 127⟩]

theorem Begins.inv (h : Begins s) : Inv s 0 := by
  have hcontents : contents s.toSide = s.arrivals := by
    rw [contents, h.posted_eq, h.arrivals_eq]
    rfl
  have hbyte : s.rByte = s.arrivals.flatten.length % 2 ^ 32 := by
    rw [h.rByte_eq, h.arrivals_eq]
    rfl
  have hnone : ∀ m, m ∉ s.posted := by
    rw [h.posted_eq]
    exact fun m => List.not_mem_nil
  refine ⟨?_, ?_, ?_, ?_, ?_, ?_, ?_, ?_, ?_⟩
  · rw [h.reads_eq]
    rfl
  · rw [h.reads_eq]
    rcases h.event with ⟨hc, -, hw⟩ | ⟨hc, x, -, -, -, hw⟩
    · rw [hc, hw]
      rfl
    · rw [hc, hw]
      rfl
  · exact fun p hp => absurd hp (Multiset.notMem_zero p)
  · intro r hr
    rcases h.event with ⟨-, -, hw⟩ | ⟨-, x, hlt, hb, hmem, hw⟩
    · rw [hw] at hr
      cases hr
    · rw [hw] at hr
      rw [List.mem_singleton.mp hr]
      exact ⟨⟨hb, hlt, fun m hm => absurd hm (hnone m), hmem, h.rb_eq, hcontents, hbyte⟩, rfl, rfl⟩
  · intro hc _
    rcases h.event with ⟨-, hb, -⟩ | ⟨hc', -⟩
    · exact ⟨hb, h.rb_eq, hcontents, hbyte⟩
    · rw [hc] at hc'
      cases hc'
  · intro _ hz
    rw [h.reads_eq] at hz
    cases hz
  · exact fun id b hm => absurd hm (hnone _)
  · exact fun id hm => absurd hm (hnone _)
  · exact fun id => not_mem_dropLast (hnone _)

section Runs

variable {s₀ : Link} {S : Sys Link Pc}

/-- Seen without the bytes the socket stays open and keeps the send protocol. -/
theorem reach_conn (h₀ : Begins s₀) (hrun : Reach program noClose ⟨s₀, 0⟩ S) :
    OpenInv S.shared.conn (S.threads.map Pc.view) ∧
      ∃ q, SendInv S.shared.conn (S.threads.map Pc.view) q := by
  have hconn := simulates.reach hrun
  refine hconn.invariant (I := fun s T => OpenInv s T ∧ ∃ q, SendInv s T q)
    ⟨h₀.connected.openInv, [], h₀.connected.sendInv⟩ ?_ ?_
  · rintro s p R hok ⟨ho, q, h⟩
    exact ⟨ho.thread hok, h.thread ho hok⟩
  · rintro s s' p T hs ⟨ho, q, h⟩
    exact ⟨ho.start hs, q, h.start hs⟩

theorem reach_inv (h₀ : Begins s₀) (hrun : Reach program noClose ⟨s₀, 0⟩ S) :
    Inv S.shared S.threads := by
  refine hrun.invariant_along (I := Inv) h₀.inv ?_ ?_
  · exact fun s p R hreach _ h => h.thread (reach_conn h₀ hreach).1
  · exact fun s s' p T hs h => h.start hs

/-- The bytes the reader has in its hands are those of the last completion. -/
theorem Stage.split {t : Side} {call : ReadCall} {ready : Int} {given : Nat}
    (h : Stage t call ready given p) :
    contents t = t.arrivals ∨ ∃ data, t.arrivals = contents t ++ [data] := by
  cases p with
  | conn p =>
    cases p with
    | connDone => exact .inl h.contents_eq
    | connGuard | recvGuard | recvArm c => exact .inl h.1.contents_eq
    | recvDone sz parsed =>
      simp only [Stage] at h
      split at h
      · obtain ⟨x, hx⟩ := h
        exact .inl hx.contents_eq
      · exact .inl h.1.contents_eq
    | _ => exact h.elim
  | reportConnect => exact .inl h.contents_eq
  | create c => exact .inl h.1.contents_eq
  | reportErr =>
    obtain ⟨x, hx⟩ := h
    exact .inl hx.contents_eq
  | offer c =>
    obtain ⟨⟨x, hx⟩, -⟩ := h
    exact .inl hx.contents_eq
  | issue c r => exact .inl h.1.1.contents_eq
  | writeOk sz | pushBack sz | count sz | parse sz | report sz m =>
    obtain ⟨x, data, hx, -⟩ := h
    exact .inr ⟨data, hx.arrivals_eq⟩

/-- Between two handlers nothing is in the hands of anyone. -/
theorem Inv.settled (h : Inv s T) (hT : readersIn T = 0) :
    contents s.toSide = s.arrivals ∧ s.rByte = s.arrivals.flatten.length % 2 ^ 32 := by
  by_cases hr : s.conn.reads = 0
  · obtain ⟨x, hx⟩ := h.ceased hT hr
    exact ⟨hx.contents_eq, hx.rByte_eq⟩
  · have hpos : 0 < s.conn.reads := Nat.pos_of_ne_zero hr
    have hlen := h.wsa_length
    cases hc : s.conn.rdCall with
    | eventConnect =>
      have hclear := h.connecting hc hpos
      exact ⟨hclear.contents_eq, hclear.rByte_eq⟩
    | onEvRecv =>
      rw [if_pos hc] at hlen
      obtain ⟨r, hw⟩ := List.exists_mem_of_length_pos (show 0 < s.wsa.length by omega)
      obtain ⟨hx, -⟩ := h.out r hw
      exact ⟨hx.contents_eq, hx.rByte_eq⟩

/-- No assertion stops the reader. -/
theorem Stage.goes (h : Stage s.toSide s.conn.rdCall s.conn.rdReady s.conn.given p) :
    (next s p).2 ≠ some p := by
  cases p with
  | conn p =>
    cases p with
    | connDone => rintro ⟨⟩
    | connGuard | recvGuard =>
      simp only [next, SocketServer.next, guard]
      split <;> rintro ⟨⟩
    | recvArm c =>
      simp only [next, SocketServer.next, if_pos h.2]
      rintro ⟨⟩
    | recvDone sz parsed =>
      simp only [next, SocketServer.next]
      split
      · rintro ⟨⟩
      · split <;> rintro ⟨⟩
    | _ => exact h.elim
  | reportConnect | reportErr | count sz | parse sz | report sz m | issue c r => rintro ⟨⟩
  | writeOk sz =>
    obtain ⟨x, data, hx, rfl, hb, -, -, hmem⟩ := h
    simp only [next, hb, hmem, writeOk_filled hx.length_le]
    rintro ⟨⟩
  | pushBack sz =>
    obtain ⟨x, data, -, -, hb, -⟩ := h
    simp only [next, hb]
    rintro ⟨⟩
  | create c =>
    simp only [next, if_pos h.1.rdB_eq]
    rintro ⟨⟩
  | offer c =>
    obtain ⟨⟨x, hx⟩, -⟩ := h
    simp only [next, hx.rdB_eq, hx.rmem_eq, newBuffer_writebuffer]
    rintro ⟨⟩

/-- **What is received.** In every state reached by completions, calls of `start_send` and the steps
of any number of threads: the `logic_recv` messages carry the bytes of the completions, one message
for each, in order, the last one still on its way at most; each has the id of the socket and between
1 and 127 bytes; nothing is posted behind a `logic_socketerr`; at most one `WSARecv` is outstanding,
and no assertion stops the handler. -/
theorem receive_exact (h₀ : Begins s₀) (hrun : Reach program noClose ⟨s₀, 0⟩ S) :
    (contents S.shared.toSide = S.shared.arrivals ∨
      ∃ data, S.shared.arrivals = contents S.shared.toSide ++ [data]) ∧
    ((∀ p ∈ S.threads, p.reading = false) → contents S.shared.toSide = S.shared.arrivals ∧
      S.shared.rByte = S.shared.arrivals.flatten.length % 2 ^ 32) ∧
    (∀ id b, .recv id b ∈ S.shared.posted → id = S.shared.conn.given ∧
      ∃ x, b = some x ∧ (S.shared.rmem x).content ≠ [] ∧ (S.shared.rmem x).content.length ≤ 127) ∧
    (∀ id, .socketerr id ∉ S.shared.posted.dropLast) ∧
    S.shared.wsa.length ≤ 1 ∧
    (∀ p ∈ S.threads, p.reading = true → (next S.shared p).2 ≠ some p) := by
  have h := reach_inv h₀ hrun
  refine ⟨?_, fun hidle => ?_, fun id b hm => ?_, h.last, ?_, fun p hp hr => ?_⟩
  · by_cases hT : readersIn S.threads = 0
    · exact .inl (h.settled hT).1
    · obtain ⟨p, hp, hr⟩ := Multiset.countP_pos.mp (Nat.pos_of_ne_zero hT)
      exact (h.stage p hp hr).split
  · refine h.settled (Multiset.countP_eq_zero.mpr fun p hp hr => ?_)
    rw [hidle p hp] at hr
    cases hr
  · obtain ⟨hid, x, data, hb, -, hmem, hne, hlen⟩ := h.delivered id b hm
    refine ⟨hid, x, hb, ?_⟩
    rw [hmem, filled_content]
    exact ⟨hne, hlen⟩
  · have hone := h.one
    have hlen := h.wsa_length
    split at hlen <;> omega
  · exact (h.stage p hp hr).goes

end Runs

/-! ## Two ends -/

/-- What was handed to the system comes in the order of the payloads. -/
theorem posted_of_send {s : Conn} {T : Multiset SocketServer.Pc} {q : List Nat} (h : SendInv s T q) :
    s.sent ++ s.sends.flatten <+: s.pushed := by
  have hn := h.users
  by_cases hsends : s.sends = []
  · rw [hsends, List.flatten_nil, List.append_nil]
    by_cases h0 : s.ready = 0
    · exact ⟨_, by rw [← List.append_assoc]; exact (h.free h0).2⟩
    · rw [if_neg h0, hsends, List.length_nil] at hn
      obtain ⟨p, hp, hpu⟩ := Multiset.countP_pos.mp (show 0 < usersIn T by omega)
      exact ⟨_, by rw [← List.append_assoc]; exact (h.stage p hp hpu).2⟩
  · have hpos := List.length_pos_iff.mpr hsends
    obtain ⟨chunk, hc⟩ : ∃ chunk, s.sends = [chunk] := by
      refine List.length_eq_one_iff.mp ?_
      split at hn <;> omega
    obtain ⟨hheld, -, hall⟩ := h.out chunk (hc ▸ List.mem_singleton_self chunk)
    refine ⟨queued s q, ?_⟩
    rw [hc, List.flatten_cons, List.flatten_nil, List.append_nil, hheld]
    exact hall

/-- Nothing is left to be sent when nobody sends. -/
theorem sent_all {s : Conn} {T : Multiset SocketServer.Pc} {q : List Nat} (h : SendInv s T q)
    (hsends : s.sends = []) (hidle : ∀ p ∈ T, p.sending = false) : s.sent = s.pushed := by
  have hn := h.users
  have hu : usersIn T = 0 := Multiset.countP_eq_zero.mpr fun p hp hpu => by
    have hsending := SocketServer.Pc.sending_of_uses hpu
    rw [hidle p hp] at hsending
    cases hsending
  have hcomes : ¬ ∃ p ∈ T, p.comes = true := by
    rintro ⟨p, hp, hpc⟩
    have hsending := SocketServer.Pc.sending_of_comes hpc
    rw [hidle p hp] at hsending
    cases hsending
  have h0 : s.ready = 0 := by
    by_contra h0
    rw [hu, hsends, if_neg h0] at hn
    cases hn
  have hq : q = [] := by
    by_contra hq
    exact hcomes (h.wake h0 (.inl hq))
  have hb : s.b = none := by
    by_contra hb
    exact hcomes (h.wake h0 (.inr hb))
  have hall := (h.free h0).2
  rwa [held_of_none hb, hq, queued, List.flatMap_nil, List.append_nil, List.append_nil] at hall

/-- The stream of the network: what has come to `b` was handed over at `a`, in its place. -/
def Carries (a b : Link) : Prop :=
  b.arrivals.flatten <+: a.conn.sent ++ a.conn.sends.flatten

section EndToEnd

variable {a b : Link} {A B : Sys Link Pc}

/-- **From one end to the other.** On two sockets that are not closed, the bytes of the `logic_recv`
messages at one end are a prefix of the payloads given to `start_send` at the other, in the order in
which they were queued; when all that was reported sent has come and nobody is inside a handler, they
are those payloads. -/
theorem end_to_end (ha : Begins a) (hb : Begins b) (hA : Reach program noClose ⟨a, 0⟩ A)
    (hB : Reach program noClose ⟨b, 0⟩ B) (hnet : Carries A.shared B.shared) :
    (contents B.shared.toSide).flatten <+: A.shared.conn.pushed ∧
      (A.shared.conn.sends = [] → (∀ p ∈ A.threads, p.view.sending = false) →
        B.shared.arrivals.flatten = A.shared.conn.sent → (∀ p ∈ B.threads, p.reading = false) →
          (contents B.shared.toSide).flatten = A.shared.conn.pushed) := by
  obtain ⟨-, q, hsend⟩ := reach_conn ha hA
  have hrecv := reach_inv hb hB
  have hpre : (contents B.shared.toSide).flatten <+: B.shared.arrivals.flatten := by
    by_cases hT : readersIn B.threads = 0
    · rw [(hrecv.settled hT).1]
    · obtain ⟨p, hp, hr⟩ := Multiset.countP_pos.mp (Nat.pos_of_ne_zero hT)
      rcases (hrecv.stage p hp hr).split with heq | ⟨data, heq⟩
      · rw [heq]
      · rw [heq, List.flatten_append]
        exact List.prefix_append _ _
  refine ⟨List.IsPrefix.trans hpre (hnet.trans (posted_of_send hsend)), fun hsends hidleA hall hidleB => ?_⟩
  have hsent : A.shared.conn.sent = A.shared.conn.pushed := by
    refine sent_all hsend hsends fun p hp => ?_
    obtain ⟨p', hp', rfl⟩ := Multiset.mem_map.mp hp
    exact hidleA p' hp'
  have hT : readersIn B.threads = 0 := by
    refine Multiset.countP_eq_zero.mpr fun p hp hr => ?_
    rw [hidleB p hp] at hr
    cases hr
  rw [(hrecv.settled hT).1, hall, hsent]

end EndToEnd

/-! ## Three bytes -/

/-- The socket of `connectedConn` with the buffer its `WSARecv` was given. -/
def receiving : Link where
  conn := connectedConn
  rdB := some 0
  rb := ⟨none, none⟩
  rByte := 0
  rmem := fun _ => newBuffer
  rfresh := 1
  wsa := [⟨0, 0, 127⟩]
  posted := []
  arrivals := []

theorem receiving_begins : Begins receiving := by
  have hconn : Connected connectedConn := by
    constructor <;> decide
  exact ⟨hconn, rfl, rfl, rfl, rfl, rfl, .inr ⟨rfl, 0, Nat.zero_lt_one, rfl, rfl, rfl⟩⟩

def Pc.keepsOpen : Pc → Bool
  | .conn (.grub _ .close) => false
  | _ => true

theorem noClose_of_keepsOpen (s : Link) (p : Pc) (h : p.keepsOpen = true) : noClose s p 0 := by
  rintro id rfl
  cases h

/-- The socket when three bytes have come and were handled. -/
def received : Link :=
  (solo program 12 { receiving with
      conn := { connectedConn with reads := 0 }, wsa := []
      rmem := receiving.stored ⟨0, 0, 127⟩ [1, 2, 3], arrivals := [[1, 2, 3]] }
    (some (.writeOk 3))).1

theorem received_reach : Reach program noClose ⟨receiving, 0⟩ ⟨received, 0⟩ := by
  have hcome : Start receiving _ (.writeOk 3) :=
    .received receiving ⟨0, 0, 127⟩ [1, 2, 3] (by decide) rfl List.mem_cons_self (by decide) (by decide)
  exact Reach.call 12 .refl hcome (k := fun _ p => p.keepsOpen) noClose_of_keepsOpen
    (by decide +kernel) (by decide +kernel)

theorem receive_exact_three :
    received.posted = [.recv 7 (some 0)] ∧ received.wsa = [⟨1, 0, 127⟩] ∧
      contents received.toSide = [[1, 2, 3]] := by
  have h := receive_exact receiving_begins received_reach
  exact ⟨by decide +kernel, by decide +kernel, (h.2.1 fun p hp => absurd hp (Multiset.notMem_zero p)).1⟩

/-- The other end behind a call of `start_send`. -/
def handed : Link :=
  (solo program 12 receiving (some (.conn (.grub 7 (.send [1, 2, 3]))))).1

/-- And behind its completion. -/
def acknowledged : Link :=
  (solo program 14 { handed with conn :=
      { handed.conn with
        sends := handed.conn.sends.erase [1, 2, 3], sent := handed.conn.sent ++ [1, 2, 3] } }
    (some (.conn (.sentLoad 3)))).1

theorem acknowledged_reach : Reach program noClose ⟨receiving, 0⟩ ⟨acknowledged, 0⟩ := by
  have hcall : Start receiving receiving (.conn (.grub 7 (.send [1, 2, 3]))) :=
    .startSend receiving [1, 2, 3] (by decide) (by decide) (by decide)
  have hhanded : Reach program noClose ⟨receiving, 0⟩ ⟨handed, 0⟩ :=
    Reach.call 12 .refl hcall (k := fun _ p => p.keepsOpen) noClose_of_keepsOpen (by decide +kernel)
      (by decide +kernel)
  have hout : Start handed _ (.conn (.sentLoad 3)) :=
    .sentOut handed [1, 2, 3] 3 (by decide +kernel) (by decide) (by decide)
  exact hhanded.call 14 hout (k := fun _ p => p.keepsOpen) noClose_of_keepsOpen (by decide +kernel)
    (by decide +kernel)

theorem end_to_end_three :
    acknowledged.conn.pushed = [1, 2, 3] ∧ Carries acknowledged received ∧
      (contents received.toSide).flatten = acknowledged.conn.pushed := by
  have hnet : Carries acknowledged received := by
    unfold Carries
    decide +kernel
  have h := end_to_end receiving_begins receiving_begins acknowledged_reach received_reach hnet
  refine ⟨by decide +kernel, hnet, h.2 (by decide +kernel) ?_ (by decide +kernel) ?_⟩
  · exact fun p hp => absurd hp (Multiset.notMem_zero p)
  · exact fun p hp => absurd hp (Multiset.notMem_zero p)

end HoNet.SocketServer.Duplex
