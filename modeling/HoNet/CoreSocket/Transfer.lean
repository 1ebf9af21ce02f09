import HoNet.CoreBuffer

/-!
# Sending and receiving in `coresocket.c`

One connected socket with its two contexts, its two queues of nodes and the operations outstanding on
it. A call of `start_send` or of a completion handler is one step. The type of the socket stays
`SOCKET_TYPE_CONNECTED`, and what is reported to the logic is left out.

* `startSend_fails` — the first `start_send` has no node to send.
* `sends_iff` — the sequences of calls that the send path carries out.
* `evRecvStart_fails`, `never_receives` — no receive is ever started.
-/

namespace HoNet.CoreSocket

/-- The handlers that `call` can hold. -/
inductive Handler where
  | onEvSend
  | onEvRecv
  deriving DecidableEq, Repr

/-- `struct socket_ctx`, with the member `buffer` of its union. -/
structure SocketCtx where
  ready : Int
  buffer : Option Nat
  call : Option Handler
  deriving DecidableEq, Repr

/-- `reset_socket_ctx`. -/
def SocketCtx.reset : SocketCtx := ⟨0, none, none⟩

/-- The fields of `struct socket` that the transfers use, and the nodes. `sends` are the bytes offered
to the outstanding `WSASend`s, `recvs` the node, the offset and the length offered to the outstanding
`WSARecv`s. `sent` is a history variable: the bytes reported sent. -/
structure Sock where
  mem : NodeMem
  readOp : SocketCtx
  writeOp : SocketCtx
  pending : Int
  rByte : Nat
  wByte : Nat
  readSize : Nat
  readBuf : CoreBuffer
  writeBuf : CoreBuffer
  sends : List (List UInt8)
  recvs : List (Nat × Nat × Nat)
  sent : List UInt8

namespace Sock

/-- `force_close` ends in `resetfd`, which is `assert(0)`. -/
def forceClose (_ : Sock) : Except BufFault Sock := .error .assertion

def socketcheckAddref (s : Sock) : Sock := { s with pending := s.pending + 1 }

def socketcheckDelref (s : Sock) (ref : Int) : Except BufFault Sock :=
  let s' := { s with pending := s.pending - ref }
  if s.pending ≤ ref then s'.forceClose else .ok s'

/-! ## Sending -/

/-- `ev_send_start` behind its test of `ready`; `io` is the error of `WSASend`, 0 for none. -/
def sendBuffer (s : Sock) (io : Nat) : Except BufFault (Sock × Nat) := do
  let s ← match s.writeOp.buffer with
    | some _ => pure s
    | none => do
      let (writeBuf, node) ← s.writeBuf.popfront s.mem
      pure { s with writeBuf := writeBuf, writeOp := { s.writeOp with buffer := node } }
  match s.writeOp.buffer with
  | none => .error .nullDeref
  | some b =>
    let node ← s.mem.get b
    let (ptr, len) := node.startread
    if len = 0 then .error .assertion
    else
      let s := { s with writeOp := { SocketCtx.reset with call := some .onEvSend } }
      if io ≠ 0 then return (s, io)
      else return ({ s with sends := s.sends ++ [(node.buf.drop (ptr.getD 0)).take len] }, 0)

/-- `ev_send_start`: the exchange of `ready`, then the increment. -/
def evSendStart (s : Sock) (io : Nat) : Except BufFault (Sock × Nat) :=
  if s.writeOp.ready ≠ 0 then
    let s := { s with writeOp := { s.writeOp with ready := s.writeOp.ready + 1 } }
    if s.writeOp.ready ≠ 1 then .ok (s, 0) else s.sendBuffer io
  else { s with writeOp := { s.writeOp with ready := 1 } }.sendBuffer io

/-- `start_send`: the new node goes to `read_buf`. -/
def startSend (s : Sock) (data : List UInt8) (io : Nat) : Except BufFault (Sock × Nat) := do
  let s := { s with pending := s.pending + 1 }
  let (mem, node) := s.mem.alloc ((BufferNode.new data.length).write data).1
  let (mem, readBuf) ← s.readBuf.pushback mem node
  let (s, err) ← { s with mem := mem, readBuf := readBuf }.evSendStart io
  let s ← s.socketcheckDelref (if err = 0 then 0 else 1)
  return (s, err)

/-- `on_ev_send` for `sz` bytes and the error `e`. -/
def onEvSend (s : Sock) (sz e io : Nat) : Except BufFault Sock :=
  if e ≠ 0 then { s with writeOp := { s.writeOp with ready := 0 } }.socketcheckDelref 1
  else
    match s.writeOp.buffer with
    | none => .error .nullDeref
    | some b => do
      let node := ((← s.mem.get b).readok sz).1
      let s := { s with mem := s.mem.set b node, wByte := (s.wByte + sz) % 2 ^ 32 }
      let s := if node.canread = 0 then
          { s with writeOp := { s.writeOp with buffer := none }, mem := s.mem.delete b }
        else s
      let s := { s with writeOp := { s.writeOp with ready := 0 } }
      let (s, err) ← s.socketcheckAddref.evSendStart io
      s.socketcheckDelref (if err = 0 then 1 else 2)

end Sock

/-- A call of `start_send`, or the completion of the `i`-th outstanding `WSASend` with `n` bytes. -/
inductive SendOp where
  | send (data : List UInt8)
  | complete (i n : Nat)
  deriving DecidableEq, Repr

/-- One call, without I/O errors. A completion takes place for an outstanding operation and reports
between 1 and all of its bytes. -/
def Sock.sendStep (s : Sock) : SendOp → Except BufFault Sock
  | .send data => do return (← s.startSend data 0).1
  | .complete i n =>
    match s.sends[i]? with
    | none => .ok s
    | some bytes =>
      if 1 ≤ n ∧ n ≤ bytes.length then
        { s with sends := s.sends.eraseIdx i, sent := s.sent ++ bytes.take n }.onEvSend n 0 0
      else .ok s

def Sock.sendRun (s : Sock) (ops : List SendOp) : Except BufFault Sock := ops.foldlM Sock.sendStep s

/-- The payloads in the order of the calls. -/
def payloads (ops : List SendOp) : List UInt8 :=
  ops.flatMap fun
    | .send data => data
    | .complete _ _ => []

/-- What the send path is for: at every moment no fault, one operation at most, and the bytes reported
sent are the first of the payloads. -/
def Sends (s : Sock) (ops : List SendOp) : Prop :=
  ∀ pre, pre <+: ops → ∃ s', s.sendRun pre = .ok s' ∧ s'.sends.length ≤ 1 ∧ s'.sent <+: payloads pre

/-- A connection on which nothing has been sent. -/
structure Fresh (s : Sock) : Prop where
  ready : s.writeOp.ready = 0
  buffer : s.writeOp.buffer = none
  writeBuf : s.writeBuf = .init
  sends : s.sends = []
  sent : s.sent = []

variable {s : Sock}

/-- `ev_send_start` finds no node: nothing ever enters `write_buf`. -/
theorem evSendStart_fails (hready : s.writeOp.ready = 0) (hbuf : s.writeOp.buffer = none)
    (hq : s.writeBuf = .init) (io : Nat) : s.evSendStart io = .error .nullDeref := by
  rw [Sock.evSendStart, if_neg (by rw [hready]; exact fun h => h rfl)]
  simp only [Sock.sendBuffer, hbuf, hq]
  rw [CoreBuffer.popfront_empty rfl]
  rfl

/-- **The first `start_send`** does not return. -/
theorem startSend_fails (h : Fresh s) (data : List UInt8) (io : Nat) :
    ∃ e, s.startSend data io = .error e := by
  simp only [Sock.startSend]
  cases hp : s.readBuf.pushback
      (s.mem.alloc ((BufferNode.new data.length).write data).1).1
      (s.mem.alloc ((BufferNode.new data.length).write data).1).2 with
  | error e => exact ⟨e, rfl⟩
  | ok r =>
    obtain ⟨mem, readBuf⟩ := r
    have hfail := evSendStart_fails
      (s := { s with pending := s.pending + 1, mem := mem, readBuf := readBuf })
      h.ready h.buffer h.writeBuf io
    refine ⟨.nullDeref, ?_⟩
    show ((do
      let (s, err) ← Sock.evSendStart
        { s with pending := s.pending + 1, mem := mem, readBuf := readBuf } io
      let s ← s.socketcheckDelref (if err = 0 then 0 else 1)
      return (s, err)) : Except BufFault (Sock × Nat)) = _
    rw [hfail]
    rfl

theorem sendRun_cons (op : SendOp) (ops : List SendOp) :
    s.sendRun (op :: ops) = s.sendStep op >>= fun s' => s'.sendRun ops := rfl

/-- Without a `start_send` there is nothing to complete. -/
theorem sendRun_completions (h : Fresh s) {ops : List SendOp} (hno : ∀ data, .send data ∉ ops) :
    s.sendRun ops = .ok s := by
  induction ops with
  | nil => rfl
  | cons op ops ih =>
    rw [sendRun_cons]
    cases op with
    | send data => exact absurd List.mem_cons_self (hno data)
    | complete i n =>
      have hstep : s.sendStep (.complete i n) = .ok s := by
        simp only [Sock.sendStep, h.sends, List.getElem?_nil]
      rw [hstep]
      exact ih fun data hm => hno data (List.mem_cons_of_mem _ hm)

/-- A run up to its first `start_send` ends there. -/
theorem sendRun_send (h : Fresh s) {pre : List SendOp} (hno : ∀ data, .send data ∉ pre)
    (data : List UInt8) : ∃ e, s.sendRun (pre ++ [.send data]) = .error e := by
  obtain ⟨e, he⟩ := startSend_fails h data 0
  refine ⟨e, ?_⟩
  have happ : s.sendRun (pre ++ [.send data]) =
      s.sendRun pre >>= fun s' => s'.sendRun [.send data] := List.foldlM_append ..
  rw [happ, sendRun_completions h hno]
  show s.sendRun [.send data] = _
  rw [sendRun_cons, Sock.sendStep, he]
  rfl

/-- The calls before the first `start_send`. -/
theorem exists_first_send {ops : List SendOp} (h : ∃ data, .send data ∈ ops) :
    ∃ pre data, pre ++ [.send data] <+: ops ∧ ∀ data, .send data ∉ pre := by
  induction ops with
  | nil =>
    obtain ⟨data, hm⟩ := h
    cases hm
  | cons op ops ih =>
    cases op with
    | send data => exact ⟨[], data, List.prefix_cons_inj _ |>.mpr List.nil_prefix, fun _ hm => by cases hm⟩
    | complete i n =>
      obtain ⟨data, hm⟩ := h
      have hm : .send data ∈ ops := (List.mem_cons.mp hm).resolve_left (by rintro ⟨⟩)
      obtain ⟨pre, data', hpre, hno⟩ := ih ⟨data, hm⟩
      refine ⟨.complete i n :: pre, data', (List.prefix_cons_inj _).mpr hpre, fun d hd => ?_⟩
      exact hno d ((List.mem_cons.mp hd).resolve_left (by rintro ⟨⟩))

/-- **The send path** carries out a sequence of calls on a connection on which nothing has been sent
if and only if there is no `start_send` among them. -/
theorem sends_iff (h : Fresh s) (ops : List SendOp) :
    Sends s ops ↔ ∀ data, .send data ∉ ops := by
  constructor
  · intro hs data hm
    obtain ⟨pre, data', hpre, hno⟩ := exists_first_send ⟨data, hm⟩
    obtain ⟨s', hok, -⟩ := hs _ hpre
    obtain ⟨e, he⟩ := sendRun_send h hno data'
    rw [he] at hok
    cases hok
  · intro hno pre hpre
    have hrun := sendRun_completions h fun data hm => hno data (hpre.subset hm)
    refine ⟨s, hrun, ?_, ?_⟩
    · rw [h.sends]
      exact Nat.zero_le 1
    · rw [h.sent]
      exact List.nil_prefix

/-- A connection as `new_fd` and the completion of a connect leave it. -/
def Sock.connected : Sock where
  mem := ⟨fun _ => none, 0⟩
  readOp := .reset
  writeOp := .reset
  pending := 2
  rByte := 0
  wByte := 0
  readSize := 0
  readBuf := .init
  writeBuf := .init
  sends := []
  recvs := []
  sent := []

theorem sends_iff_completion : Sends .connected [.complete 0 1] :=
  (sends_iff ⟨rfl, rfl, rfl, rfl, rfl⟩ _).mpr fun data hm => by
    cases List.mem_singleton.mp hm

/-- One `start_send` of one byte: `buffernode_startread` is called with `NULL`. -/
theorem send_null_node :
    ¬ Sends .connected [.send [65]] ∧ Sock.connected.sendStep (.send [65]) = .error .nullDeref := by
  have hstep : Sock.connected.sendStep (.send [65]) = .error .nullDeref := by
    rfl
  refine ⟨fun h => ?_, hstep⟩
  obtain ⟨s', hok, -⟩ := h [.send [65]] (List.prefix_refl _)
  rw [sendRun_cons, hstep] at hok
  cases hok

/-! ## Receiving -/

namespace Sock

/-- `ev_recv_start` with the node that `buffernode_new` made; `io` is the error of `WSARecv`, 0 for
none. -/
def recvInto (s : Sock) (fresh : BufferNode) (io : Nat) : Except BufFault (Sock × Nat) :=
  let (mem, node) := s.mem.alloc fresh
  let s := { s with mem := mem, readOp := ⟨1, some node, some .onEvRecv⟩ }
  let (ptr, len) := fresh.startwrite
  if len = 0 then .error .assertion
  else if io ≠ 0 then .ok ({ s with readOp := { s.readOp with ready := 0 } }, io)
  else .ok ({ s with recvs := s.recvs ++ [(node, ptr.getD 0, len)] }, 0)

def evRecvStart (s : Sock) (io : Nat) : Except BufFault (Sock × Nat) :=
  if s.readOp.ready ≠ 0 then .error .assertion
  else s.recvInto (BufferNode.new s.readSize) io

/-- `on_ev_recv` for `sz` bytes and the error `e`. -/
def onEvRecv (s : Sock) (sz e io : Nat) : Except BufFault Sock :=
  match s.readOp.buffer with
  | none => .error .assertion
  | some b => do
    let (node, ok) := (← s.mem.get b).readok sz
    if ok = false then throw .assertion
    let (mem, readBuf) ← s.readBuf.pushback (s.mem.set b node) b
    let s := { s with mem := mem, readBuf := readBuf, readOp := { s.readOp with buffer := none } }
    if e = 0 ∧ sz > 0 then
      let s := { s with
        rByte := (s.rByte + sz) % 2 ^ 32
        readSize := ((7 * s.readSize + sz) % 2 ^ 32) >>> 2
        readOp := { s.readOp with ready := 0 } }
      let (s, err) ← s.socketcheckAddref.evRecvStart io
      s.socketcheckDelref (if err = 0 then 1 else 2)
    else s.socketcheckDelref 1

/-- The `WSARecv` that is outstanding completes without an error: the bytes are in its region, and
`on_ev_recv` runs. -/
def deliver (s : Sock) (bytes : List UInt8) : Except BufFault Sock :=
  match s.recvs with
  | [] => .ok s
  | (b, off, _) :: rest => do
    let node ← s.mem.get b
    let mem := s.mem.set b { node with buf := memcpy node.buf off bytes }
    { s with mem := mem, recvs := rest }.onEvRecv bytes.length 0 0

/-- One operation is outstanding, with a region that is not empty and lies inside its node. -/
def Offers (s : Sock) : Prop :=
  ∃ b off len node, s.recvs = [(b, off, len)] ∧ s.mem.node b = some node ∧ 0 < len ∧
    off + len ≤ node.size

/-- The operation that is outstanding can deliver the bytes. -/
def Fits (s : Sock) (bytes : List UInt8) : Prop :=
  ∃ b off len, s.recvs = [(b, off, len)] ∧ 1 ≤ bytes.length ∧ bytes.length ≤ len

end Sock

/-- From a state in which the bytes `got` have been received, with more completions to come. -/
def ReceivesFrom (s : Sock) (got : List UInt8) : List (List UInt8) → Prop
  | [] => s.Offers ∧ s.readBuf.readable s.mem = got
  | bytes :: rest => s.Offers ∧ s.readBuf.readable s.mem = got ∧
    (s.Fits bytes → ∃ s', s.deliver bytes = .ok s' ∧ ReceivesFrom s' (got ++ bytes) rest)

/-- What the receive path is for, from the first `ev_recv_start` on a connection: each
`ev_recv_start` offers a region, no assertion fails, and the bytes in `read_buf` are those received. -/
def Receives (s : Sock) (chunks : List (List UInt8)) : Prop :=
  ∃ s', s.evRecvStart 0 = .ok (s', 0) ∧ ReceivesFrom s' (s.readBuf.readable s.mem) chunks

theorem recvInto_fails {fresh : BufferNode} (h : fresh.startwrite.2 = 0) (io : Nat) :
    s.recvInto fresh io = .error .assertion :=
  if_pos h

/-- `ev_recv_start` fails one of its assertions: the context is in use, or the fresh node offers
nothing to write to. -/
theorem evRecvStart_fails (s : Sock) (io : Nat) : s.evRecvStart io = .error .assertion := by
  unfold Sock.evRecvStart
  split
  · rfl
  · exact recvInto_fails (BufferNode.startwrite_new s.readSize) io

/-- **The receive path** never starts: in no state and for no sequence of completions does it do what
it is for. -/
theorem never_receives (s : Sock) (chunks : List (List UInt8)) : ¬ Receives s chunks := by
  rintro ⟨s', hok, -⟩
  rw [evRecvStart_fails] at hok
  cases hok

/-- The `ev_recv_start` of a new connection, with `read_size` 0: the node offers 0 bytes, and
`assert(wsa.len)` fails. -/
theorem first_receive_asserts :
    ¬ Receives .connected [[65]] ∧ Sock.connected.evRecvStart 0 = .error .assertion ∧
      (BufferNode.new Sock.connected.readSize).startwrite.2 = 0 := by
  have hstart := evRecvStart_fails .connected 0
  refine ⟨?_, hstart, BufferNode.startwrite_new _⟩
  rintro ⟨s', hok, -⟩
  rw [hstart] at hok
  cases hok

end HoNet.CoreSocket
