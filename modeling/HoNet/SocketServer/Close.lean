import HoNet.SocketServer.RefCount

/-!
# Closing a socket of `socketserver.cpp`

A socket of any kind, from the call that opens it: `start_connet`, `start_listen`, or the
`on_ev_listen` that sets up the socket it has accepted. To the statements of `Conn` come
`ev_listen_start`, `on_ev_listen`, `dec_socket` and what every function does when its I/O call or
the operation it handles has failed. The threads inside `start_close` are told apart, so that the
memory can record that one of them has returned `NO_ERROR`. All calls come with the id of this socket.
One with the id of another socket of the slot is left out; where it overlaps `new_fd`, it takes a
reference from the new socket.

The handlers do not look at `closing`. They add a reference to the one of their operation and stop
when they then count 2; with any further reference on the socket they start the next operation.

* `step_moves` — what a step does to the count and to the threads.
* `close_stops_work` — runs in which the close leaves at most one reference behind.
* `listen_goes_on` — a listening socket that goes on accepting.
-/

namespace HoNet.SocketServer.Close

open HoNet.Pool

/-- `socket_ev_type`. -/
inductive Ev where
  | read
  | write
  deriving DecidableEq, Repr

structure Sock where
  conn : Conn
  /-- The events of the outstanding `AcceptEx` operations. -/
  accepts : List Ev
  /-- `op[socket_ev_write].call` is `on_ev_send`. -/
  sendCall : Bool
  /-- Some `start_close` has returned `NO_ERROR`. -/
  closed : Bool

/-- Who runs `ev_listen_start`, and for the handler whether it fails. -/
inductive ListenCaller where
  | startListen (id : Nat)
  | onEvListen (fails : Bool)
  deriving DecidableEq, Repr

inductive Site where
  /-- A statement of `Conn` outside `start_close`; `fails` is what the thread's I/O call will do. -/
  | base (fails : Bool) (p : Pc)
  /-- `start_close` behind its test of the type. -/
  | closing (p : Pc)
  /-- `on_ev_recv` and `on_ev_send` when the next operation could not be started. -/
  | handlerErr
  /-- `on_ev_send` when the operation has failed. -/
  | sendReset
  /-- `dec_socket`. -/
  | decCheck (id : Nat)
  | decDrop
  /-- `start_listen`. -/
  | lsType (id : Nat)
  | lsInc (id : Nat) (ev : Ev)
  /-- `ev_listen_start` and the rest of `on_ev_listen`. -/
  | lsArm (c : ListenCaller) (ev : Ev)
  | lsAccept (c : ListenCaller) (ev : Ev)
  | lsRet (fails : Bool)
  /-- `on_ev_listen` on the listening socket up to `ev_listen_start`. -/
  | lsDone (ev : Ev) (fails : Bool)
  | lsGuard (ev : Ev) (fails : Bool)
  /-- `on_ev_listen` on the accepted socket. -/
  | accId (fails : Bool)
  | accInc (id : Nat) (fails : Bool)
  | accArm (id : Nat) (fails : Bool)
  | accRecv (id : Nat) (fails : Bool)
  deriving DecidableEq, Repr

def setReady (c : Conn) : Ev → ℤ → Conn
  | .read, v => { c with rdReady := v }
  | .write, v => { c with ready := v }

/-- What a function does when its I/O call fails. -/
def ioFails (c : Conn) : Pc → Option (Conn × Site)
  | .connEx _ => some (c, .base true (.innerClose 1))
  | .wsaRecv .eventConnect => some ({ c with rdReady := 0 }, .base true (.innerClose 2))
  | .wsaRecv .onEvRecv => some ({ c with rdReady := 0 }, .handlerErr)
  | .wsaSend .startSend _ => some (c, .decCheck c.given)
  | .wsaSend .onEvSend _ => some (c, .handlerErr)
  | _ => none

/-- The site of a statement that a thread outside `start_close` comes to. -/
def Site.ofPc (fails : Bool) : Pc → Site
  | .closeTest => .closing .closeTest
  | p => .base fails p

/-- `ev_send_start` begins by taking the write event over. -/
def setsCall : Pc → Bool
  | .cas _ => true
  | _ => false

/-- One step of a thread. A failed assertion or a null pointer stops the thread where it is. -/
def step (s : Sock) : Site → Sock × Option Site
  | .base fails p =>
    match if fails then ioFails s.conn p else none with
    | some (c, q) => ({ s with conn := c }, some q)
    | none =>
      ({ s with conn := (next s.conn p).1, sendCall := s.sendCall || setsCall p },
        (next s.conn p).2.map (Site.ofPc fails))
  | .closing p =>
    ({ s with conn := (next s.conn p).1, closed := s.closed || (next s.conn p).2.isNone },
      (next s.conn p).2.map .closing)
  | .handlerErr =>
    ({ s with conn.pending := s.conn.pending - 1 }, some (.base true (.innerClose 1)))
  | .sendReset => ({ s with conn.ready := 0 }, some (.base true (.innerClose 1)))
  | .decCheck id => (s, if s.conn.type ≠ .invalid ∧ s.conn.id = id then some .decDrop else none)
  | .decDrop =>
    ({ s with conn.pending := s.conn.pending - 1 },
      if s.conn.pending - 1 = 0 then some (.base true .fcRead) else none)
  | .lsType id => ({ s with conn.type := .listen }, some (.lsInc id .read))
  | .lsInc id ev =>
    ({ s with conn.pending := s.conn.pending + 1 }, some (.lsArm (.startListen id) ev))
  | .lsArm c ev =>
    ({ s with conn := setReady s.conn ev 1, sendCall := s.sendCall && ev != .write },
      some (.lsAccept c ev))
  | .lsAccept (.startListen id) ev =>
    ({ s with accepts := ev :: s.accepts, conn.given := id },
      match ev with
      | .read => some (.lsInc id .write)
      | .write => none)
  | .lsAccept (.onEvListen false) ev =>
    ({ s with accepts := ev :: s.accepts }, some (.lsRet false))
  | .lsAccept (.onEvListen true) ev =>
    ({ s with conn := setReady s.conn ev 0 }, some (.lsRet true))
  | .lsRet fails =>
    ({ s with conn.pending := s.conn.pending - 1 },
      if fails then some (.base true (.innerClose 2)) else none)
  | .lsDone ev fails =>
    if 1 ≤ s.conn.pending then
      ({ s with conn := setReady s.conn ev 0 }, some (.lsGuard ev fails))
    else (s, some (.lsDone ev fails))
  | .lsGuard ev fails =>
    ({ s with conn.pending := s.conn.pending + 1 },
      some (if s.conn.pending + 1 = 2 then .base true (.innerClose 2)
        else .lsArm (.onEvListen fails) ev))
  | .accId fails => (s, some (.accInc s.conn.id fails))
  | .accInc id fails =>
    ({ s with conn.pending := s.conn.pending + 1 }, some (.accArm id fails))
  | .accArm id fails =>
    if s.conn.rdReady = 0 then
      ({ s with conn.rdCall := .onEvRecv, conn.rdReady := 1 }, some (.accRecv id fails))
    else (s, some (.accArm id fails))
  | .accRecv _ false => ({ s with conn.reads := s.conn.reads + 1 }, none)
  | .accRecv id true => ({ s with conn.rdReady := 0 }, some (.decCheck id))

/-- A call of the interface, or a completion. `AcceptEx` transfers no bytes; a write event that
`start_send` has taken over runs `on_ev_send` on it. -/
inductive Begin : Sock → Sock → Site → Prop
  | base (s : Sock) (c : Conn) (p : Pc) (fails : Bool) (h : Start s.conn c p) :
    Begin s { s with conn := c } (.base fails p)
  | connFailed (s : Sock) (hr : 0 < s.conn.reads) (hc : s.conn.rdCall = .eventConnect) :
    Begin s { s with conn.reads := s.conn.reads - 1 } (.base true (.innerClose 1))
  | sendFailed (s : Sock) (chunk : List UInt8) (hs : chunk ∈ s.conn.sends) :
    Begin s { s with conn.sends := s.conn.sends.erase chunk } .sendReset
  | accepted (s : Sock) (ev : Ev) (fails : Bool) (he : ev ∈ s.accepts)
    (hc : ev = .write → s.sendCall = false) :
    Begin s { s with accepts := s.accepts.erase ev } (.lsDone ev fails)
  | acceptSent (s : Sock) (fails : Bool) (he : .write ∈ s.accepts) (hc : s.sendCall = true) :
    Begin s { s with accepts := s.accepts.erase .write } (.base fails (.sentLoad 0))
  | acceptSendFailed (s : Sock) (he : .write ∈ s.accepts) (hc : s.sendCall = true) :
    Begin s { s with accepts := s.accepts.erase .write } .sendReset

def program : Program Sock Site := ⟨step, Begin⟩

/-- A slot that `reserve_id` and `new_fd` have prepared. -/
structure Fresh (s : Sock) : Prop where
  pending_eq : s.conn.pending = 1
  closing_eq : s.conn.closing = false
  reads_eq : s.conn.reads = 0
  sends_eq : s.conn.sends = []
  accepts_eq : s.accepts = []
  closed_eq : s.closed = false

/-- The thread that opens a socket: `start_connet`, `start_listen`, or `on_ev_listen` with the socket
it has accepted. The logic has been told the id of that one; when it could not be told, the handler
drops the owner's reference itself. -/
inductive Opens (s : Sock) : Site → Prop
  | connects (fails : Bool) (hg : s.conn.given = 0) (ho : s.conn.owner = true) :
    Opens s (.base fails (.connType s.conn.id))
  | listens (hg : s.conn.given = 0) (ho : s.conn.owner = true) : Opens s (.lsType s.conn.id)
  | accepts (fails : Bool) (ht : s.conn.type = .paccept) (hg : s.conn.given = s.conn.id)
    (ho : s.conn.owner = true) : Opens s (.accId fails)
  | refuses (hg : s.conn.given = 0) (ho : s.conn.owner = false) : Opens s (.decCheck s.conn.id)

def Opened (S : Sys Sock Site) : Prop :=
  ∃ q, Fresh S.shared ∧ Opens S.shared q ∧ S.threads = {q}

/-! ## What the threads hold -/

def ListenCaller.refs : ListenCaller → ℤ
  | .startListen _ => 1
  | .onEvListen _ => 2

def Site.refs : Site → ℤ
  | .base _ p | .closing p => p.refs
  | .handlerErr => 2
  | .sendReset | .decCheck _ | .decDrop => 1
  | .lsType _ | .lsInc _ _ => 0
  | .lsArm c _ | .lsAccept c _ => c.refs
  | .lsRet fails => if fails then 2 else 1
  | .lsDone _ _ | .lsGuard _ _ => 1
  | .accId _ | .accInc _ _ => 0
  | .accArm _ _ | .accRecv _ _ => 1

/-- The thread counted 2 and is about to drop both. -/
def Site.closers : Site → ℤ
  | .base _ (.innerClose 2) => 2
  | _ => 0

def Site.forcing : Site → Bool
  | .base _ p | .closing p => p.forcing
  | _ => false

/-- `on_ev_listen` between the reference it takes on the accepted socket and the `WSARecv`. -/
def Site.accepting : Site → Bool
  | .accArm _ _ | .accRecv _ _ => true
  | _ => false

/-- A `start_close` that has nothing to do with the owner's reference any more. -/
def Site.dropped : Site → Bool
  | .closing .closeTest | .closing .closeSet | .closing .closeDrop => false
  | .closing _ => true
  | _ => false

/-- What `pending` counts beside the owner and the outstanding operations. -/
def spare (s : Sock) : ℤ := excess s.conn - s.accepts.length

/-! ## The property and the condition -/

/-- A completion handler is about to start an operation. -/
def Site.starting : Site → Bool
  | .base _ (.wsaRecv .onEvRecv) | .base _ (.wsaSend .onEvSend _) => true
  | .lsAccept (.onEvListen _) _ | .accRecv _ _ => true
  | _ => false

/-- Once a `start_close` has returned `NO_ERROR`, no handler starts anything. -/
def Quiet (S : Sys Sock Site) : Prop :=
  S.shared.closed = true → ∀ q ∈ S.threads, q.starting = false

/-- The steps after which the count tells the handlers that the socket is closed. -/
def orderly (s : Sock) (q : Site) (R : Multiset Site) : Prop :=
  match q with
  -- References are taken before the owner's is dropped, or when the socket has been torn down.
  | .base _ (.connInc _) | .lsInc _ _ | .accInc _ _ => s.conn.owner = true
  | .base _ (.grub _ _) =>
    s.conn.owner = true ∨ s.conn.pending ≤ 0 ∧ ∀ q' ∈ R, q'.forcing = false
  -- `on_ev_listen` drops three references when it cannot accept again.
  | .lsRet fails => fails = false
  -- One `start_close` does not overtake another.
  | .closing .closeTest => s.conn.closing = true → s.conn.owner = false
  | .closing .closeDrop =>
    s.conn.owner = true ∧ s.conn.pending ≤ 3 ∧ ∀ q' ∈ R, q'.accepting = false
  | _ => True

/-! ## The statements of `Conn` -/

/-- Where a thread outside `start_close` can be. -/
def plain : Pc → Bool
  | .connReserve _ | .closeTest | .closeSet | .closeDrop => false
  | _ => true

/-- Where a thread inside `start_close` can be. -/
def inClose : Pc → Bool
  | .closeTest | .closeSet | .closeDrop | .innerClose 1 | .fcRead | .fcWrite | .fcReset => true
  | _ => false

def Site.fits : Site → Bool
  | .base _ p => plain p
  | .closing p => inClose p
  | _ => true

/-- The statements that add a reference to `pending`. -/
def takes : Pc → Bool
  | .connInc _ | .grub _ _ | .sentGuard | .connGuard | .recvGuard => true
  | _ => false

variable {s s' : Sock} {q : Site} {R T : Multiset Site} {c : Conn} {p : Pc} {fails : Bool}

/-- What a statement outside `start_close` can do. -/
structure Follows (c : Conn) (p : Pc) (c' : Conn) (o : Option Pc) : Prop where
  owner_eq : c'.owner = c.owner
  pending_le : takes p = false → c'.pending ≤ c.pending
  leads : ∀ p' ∈ o, plain p' = true ∨ p' = .closeTest
  forced : ∀ p' ∈ o, p'.forcing = true → p.forcing = true ∨ c'.pending ≤ 0

theorem Follows.on {c' : Conn} {p' : Pc} (ho : c'.owner = c.owner)
    (hp : takes p = false → c'.pending ≤ c.pending) (hl : plain p' = true)
    (hf : p'.forcing = false) : Follows c p c' (some p') := by
  refine ⟨ho, hp, ?_, ?_⟩
  · rintro _ ⟨⟩
    exact .inl hl
  · rintro _ ⟨⟩ h
    rw [hf] at h
    cases h

theorem Follows.returns {c' : Conn} (ho : c'.owner = c.owner)
    (hp : takes p = false → c'.pending ≤ c.pending) : Follows c p c' none :=
  ⟨ho, hp, (fun _ h => by cases h), (fun _ h => by cases h)⟩

theorem guard_follows {go : Pc} (ht : takes p = true) (hg : plain go = true)
    (hf : go.forcing = false) : Follows c p (guard c go).1 (guard c go).2 := by
  have hno : takes p = false → (guard c go).1.pending ≤ c.pending := by
    intro h
    rw [ht] at h
    cases h
  simp only [guard]
  split
  · exact .on rfl hno rfl rfl
  · exact .on rfl hno hg hf

theorem next_follows (hp : plain p = true) (hfc : p ≠ .fcReset) :
    Follows c p (next c p).1 (next c p).2 := by
  have hle : ∀ c' : Conn, c'.pending = c.pending → takes p = false → c'.pending ≤ c.pending :=
    fun c' h _ => h.le
  cases p with
  | connReserve id | closeTest | closeSet | closeDrop => cases hp
  | fcReset => exact absurd rfl hfc
  | connInc id | grub id req => exact .on rfl (fun h => by cases h) rfl rfl
  | sentGuard | connGuard | recvGuard => exact guard_follows rfl rfl rfl
  | grubCheck id req =>
    simp only [next]
    split
    · cases req <;> exact .on rfl (hle _ rfl) rfl rfl
    · exact .on rfl (hle _ rfl) rfl rfl
  | cas d | incReady d | loadB d | decReady d | recvArm d | sentReadOk x sz | sentEmpty x =>
    simp only [next]
    split <;> exact .on rfl (hle _ rfl) rfl rfl
  | pop d =>
    rcases h : c.wb.popFront c.mem with ⟨wb, _ | x⟩ <;> simp only [next, h] <;>
      exact .on rfl (hle _ rfl) rfl rfl
  | readBuf d =>
    simp only [next]
    split
    · exact .on rfl (hle _ rfl) rfl rfl
    · split <;> exact .on rfl (hle _ rfl) rfl rfl
  | sendRet d e =>
    cases d with
    | startSend => exact .returns rfl (hle _ rfl)
    | onEvSend => exact .returns rfl fun _ => by simp [next]
  | sentLoad sz =>
    simp only [next]
    split <;> exact .on rfl (hle _ rfl) rfl rfl
  | recvDone sz parsed =>
    simp only [next]
    split
    · exact .on rfl (hle _ rfl) rfl rfl
    · cases parsed <;> exact .on rfl (hle _ rfl) rfl rfl
  | recvRet d =>
    cases d with
    | eventConnect => exact .returns rfl (hle _ rfl)
    | onEvRecv => exact .returns rfl fun _ => by simp [next]
  | connEx id => exact .returns rfl (hle _ rfl)
  | closeType =>
    refine ⟨rfl, hle _ rfl, ?_, ?_⟩ <;> intro p' hp'
    · right
      simp only [next] at hp'
      split at hp' <;> cases hp'
      rfl
    · simp only [next] at hp'
      split at hp' <;> cases hp'
      intro h
      cases h
  | innerClose ref =>
    refine ⟨rfl, fun _ => by simp [next, innerClose], ?_, ?_⟩ <;> intro p' hp'
    · simp only [next, innerClose] at hp'
      split at hp' <;> cases hp'
      exact .inl rfl
    · simp only [next, innerClose] at hp'
      split at hp'
      · intro _
        right
        simp only [next, innerClose]
        omega
      · cases hp'
  | fcRead | fcWrite =>
    refine ⟨rfl, hle _ rfl, ?_, fun _ _ _ => .inl rfl⟩
    rintro _ ⟨⟩
    exact .inl rfl
  | _ => exact .on rfl (hle _ rfl) rfl rfl

/-! ## The invariant -/

structure Inv (s : Sock) (T : Multiset Site) : Prop where
  count : load Site.refs T ≤ spare s
  forced : ∀ q ∈ T, q.forcing = true → s.conn.pending ≤ 0
  /-- Without the owner's reference one is left, and a second one in a thread that drops both. -/
  low : s.conn.owner = false → 2 * s.conn.pending ≤ 2 + load Site.closers T
  accepting : ∀ q ∈ T, q.accepting = true → s.conn.owner = true
  dropped : ∀ q ∈ T, q.dropped = true → s.conn.owner = false
  closed : s.closed = true → s.conn.owner = false
  fits : ∀ q ∈ T, q.fits = true

theorem Site.refs_nonneg (q : Site) : 0 ≤ q.refs := by
  cases q with
  | base fails p => exact p.refs_nonneg
  | closing p => exact p.refs_nonneg
  | lsArm c ev | lsAccept c ev => cases c <;> simp [Site.refs, ListenCaller.refs]
  | lsRet fails => cases fails <;> simp [Site.refs]
  | _ => simp [Site.refs]

theorem Site.closers_nonneg (q : Site) : 0 ≤ q.closers := by
  unfold Site.closers
  split <;> omega

theorem Site.closers_le_refs (q : Site) : q.closers ≤ q.refs := by
  have := q.refs_nonneg
  unfold Site.closers
  split
  · simp [Site.refs, Pc.refs]
  · exact this

/-- `pending` counts at least the owner and what the threads hold. -/
theorem Inv.load_le (h : Inv s T) : load Site.refs T + s.conn.owner.toNat ≤ s.conn.pending := by
  have := h.count
  simp only [spare, excess] at this
  omega

theorem Inv.pending_nonneg (h : Inv s T) : 0 ≤ s.conn.pending := by
  have := h.load_le
  have := load_nonneg Site.refs_nonneg T
  omega

/-- What a step does to the count and to the threads. -/
structure Moves (s : Sock) (q : Site) (R : Multiset Site) (s' : Sock) (o : Option Site) : Prop where
  count : spare s - q.refs ≤ spare s' - o.elim 0 Site.refs
  forced : ∀ q' ∈ o, q'.forcing = true → s'.conn.pending ≤ 0
  owner : s'.conn.owner = s.conn.owner ∨ s.conn.owner = true ∧ s'.conn.owner = false ∧
    s'.conn.pending ≤ 1 ∧ ∀ q' ∈ R, q'.accepting = false
  /-- It drops references, takes one with the owner's still there or with none left, or is a handler
  that looks at the count. -/
  pending : (s'.conn.pending ≤ s.conn.pending ∧
      2 * s'.conn.pending + q.closers ≤ 2 * s.conn.pending + o.elim 0 Site.closers) ∨
    s'.conn.pending = s.conn.pending + 1 ∧ q.closers = 0 ∧
      (s.conn.owner = true ∨ (s.conn.pending ≤ 0 ∧ ∀ q' ∈ R, q'.forcing = false) ∨
        q.refs = 1 ∧ (s.conn.pending = 1 → o.elim 0 Site.closers = 2))
  accepting : ∀ q' ∈ o, q'.accepting = true → s'.conn.owner = true
  dropped : ∀ q' ∈ o, q'.dropped = true → s'.conn.owner = false
  closed : s'.closed = true → s.closed = true ∨ s'.conn.owner = false
  fits : ∀ q' ∈ o, q'.fits = true

theorem Inv.thread (h : Inv s (q ::ₘ R)) {o : Option Site} (hm : Moves s q R s' o) :
    Inv s' (put o R) := by
  have hnn := load_nonneg Site.refs_nonneg R
  have hcl := load_mono Site.closers_le_refs R
  have hle := h.load_le
  have hq := q.refs_nonneg
  rw [load_cons] at hle
  have hin : ∀ q' ∈ R, q' ∈ q ::ₘ R := fun q' hq' => Multiset.mem_cons_of_mem hq'
  have howner : s.conn.owner = false → s'.conn.owner = false := by
    intro ho
    rcases hm.owner with he | ⟨ht, -⟩
    · rw [he, ho]
    · rw [ho] at ht
      cases ht
  refine ⟨?_, ?_, ?_, ?_, ?_, ?_, ?_⟩
  · have := h.count
    have := hm.count
    rw [load_cons] at *
    rw [load_put]
    omega
  · intro q' hq' hf
    rcases mem_put.mp hq' with ho | hR
    · exact hm.forced q' ho hf
    · have hp := h.forced q' (hin q' hR) hf
      rcases hm.pending with ⟨hle', -⟩ | ⟨-, -, ho | ⟨-, hno⟩ | ⟨hr, -⟩⟩
      · omega
      · rw [ho] at hle
        simp at hle
        omega
      · rw [hno q' hR] at hf
        cases hf
      · omega
  · intro ho'
    rw [load_put]
    have hopt : 0 ≤ o.elim 0 Site.closers := by
      cases o with
      | none => exact le_refl _
      | some q' => exact q'.closers_nonneg
    have hR := load_nonneg Site.closers_nonneg R
    rcases hm.owner with he | ⟨-, -, hone, -⟩
    · have ho : s.conn.owner = false := he ▸ ho'
      have hlow := h.low ho
      rw [load_cons] at hlow
      rcases hm.pending with ⟨-, hle'⟩ | ⟨heq, hz, ht | ⟨hnone, -⟩ | ⟨hr, htwo⟩⟩
      · omega
      · rw [ho] at ht
        cases ht
      · omega
      · -- the handler's own reference and `low` leave exactly one
        have := htwo (by omega)
        omega
    · omega
  · intro q' hq' hacc
    rcases mem_put.mp hq' with ho | hR
    · exact hm.accepting q' ho hacc
    · rcases hm.owner with he | ⟨-, -, -, hno⟩
      · rw [he]
        exact h.accepting q' (hin q' hR) hacc
      · rw [hno q' hR] at hacc
        cases hacc
  · intro q' hq' hd
    rcases mem_put.mp hq' with ho | hR
    · exact hm.dropped q' ho hd
    · exact howner (h.dropped q' (hin q' hR) hd)
  · intro hc
    rcases hm.closed hc with hc | ho
    · exact howner (h.closed hc)
    · exact ho
  · intro q' hq'
    rcases mem_put.mp hq' with ho | hR
    · exact hm.fits q' ho
    · exact h.fits q' (hin q' hR)

/-! ## Steps outside `start_close` -/

@[simp] theorem Site.refs_ofPc : (Site.ofPc fails p).refs = p.refs := by
  cases p <;> rfl

theorem Site.forcing_ofPc : (Site.ofPc fails p).forcing = p.forcing := by
  cases p <;> rfl

theorem Site.accepting_ofPc : (Site.ofPc fails p).accepting = false := by
  cases p <;> rfl

theorem Site.dropped_ofPc : (Site.ofPc fails p).dropped = false := by
  cases p <;> rfl

theorem Site.fits_ofPc (h : plain p = true ∨ p = .closeTest) : (Site.ofPc fails p).fits = true := by
  rcases h with h | rfl
  · cases p <;> first | rfl | cases h
  · rfl

theorem leak_nonneg (hp : plain p = true) : 0 ≤ leak c p := by
  cases p with
  | closeDrop => cases hp
  | sendRet d e => cases e <;> simp [leak]
  | recvRet d => cases d <;> simp [leak]
  | closeType =>
    simp only [leak]
    split <;> omega
  | _ => exact le_refl _

theorem base_count (hp : plain p = true) (hfc : p = .fcReset → s.conn.pending = 0) :
    excess s.conn - p.refs ≤ excess (next s.conn p).1 - (next s.conn p).2.elim 0 Pc.refs := by
  by_cases hr : p = .fcReset
  · subst hr
    have := hfc rfl
    simp [next, reset, excess, Pc.refs, this]
  · have hres : ∀ id, p ≠ .connReserve id := by
      rintro id rfl
      cases hp
    have := balance_next s.conn p hres hr
    have := leak_nonneg (c := s.conn) hp
    omega

/-- A handler that counts 2 goes on to drop both references. -/
theorem guard_closers {go : Pc} (h : c.pending = 1) :
    ((guard c go).2.map (Site.ofPc fails)).elim 0 Site.closers = 2 := by
  simp [guard, h, Site.ofPc, Site.closers]

theorem base_pending (hp : plain p = true) (hfc : p = .fcReset → s.conn.pending = 0)
    (hok : orderly s (.base fails p) R) :
    let c' := (next s.conn p).1
    let o := (next s.conn p).2.map (Site.ofPc fails)
    (c'.pending ≤ s.conn.pending ∧
      2 * c'.pending + (Site.base fails p).closers ≤ 2 * s.conn.pending + o.elim 0 Site.closers) ∨
    c'.pending = s.conn.pending + 1 ∧ (Site.base fails p).closers = 0 ∧
      (s.conn.owner = true ∨ (s.conn.pending ≤ 0 ∧ ∀ q' ∈ R, q'.forcing = false) ∨
        p.refs = 1 ∧ (s.conn.pending = 1 → o.elim 0 Site.closers = 2)) := by
  intro c' o
  by_cases ht : takes p = true
  · right
    cases p with
    | connInc id => exact ⟨rfl, rfl, .inl hok⟩
    | grub id req => exact ⟨rfl, rfl, hok.imp_right .inl⟩
    | sentGuard | connGuard | recvGuard =>
      exact ⟨rfl, rfl, .inr (.inr ⟨rfl, fun h => guard_closers h⟩)⟩
    | _ => cases ht
  · left
    have ho : 0 ≤ o.elim 0 Site.closers := by
      cases o with
      | none => exact le_refl _
      | some q' => exact q'.closers_nonneg
    by_cases hr : p = .fcReset
    · subst hr
      have h0 := hfc rfl
      have h1 : c'.pending = 0 := rfl
      have h2 : (Site.base fails .fcReset).closers = 0 := rfl
      omega
    · have hle : c'.pending ≤ s.conn.pending :=
        (next_follows hp hr).pending_le (by simpa using ht)
      refine ⟨hle, ?_⟩
      by_cases hi : p = .innerClose 2
      · subst hi
        have h1 : c'.pending = s.conn.pending - 2 := rfl
        have h2 : (Site.base fails (.innerClose 2)).closers = 2 := rfl
        omega
      · have hz : (Site.base fails p).closers = 0 := by
          unfold Site.closers
          split
          · rename_i heq
            cases heq
            exact absurd rfl hi
          · rfl
        omega

/-- A statement whose I/O call, if it is one, succeeds. -/
theorem base_moves (h : Inv s (.base fails p ::ₘ R)) (hok : orderly s (.base fails p) R) :
    Moves s (.base fails p) R
      { s with conn := (next s.conn p).1, sendCall := s.sendCall || setsCall p }
      ((next s.conn p).2.map (Site.ofPc fails)) := by
  have hmem : Site.base fails p ∈ Site.base fails p ::ₘ R := Multiset.mem_cons_self _ _
  have hp : plain p = true := h.fits _ hmem
  have hzero : p.forcing = true → s.conn.pending = 0 := by
    intro hf
    exact le_antisymm (h.forced _ hmem hf) h.pending_nonneg
  have hfc : p = .fcReset → s.conn.pending = 0 := by
    rintro rfl
    exact hzero rfl
  have hf : Follows s.conn p (next s.conn p).1 (next s.conn p).2 := by
    by_cases hr : p = .fcReset
    · subst hr
      exact .returns rfl fun _ => (hfc rfl).ge
    · exact next_follows hp hr
  refine ⟨?_, ?_, .inl hf.owner_eq, base_pending hp hfc hok, ?_, ?_, .inl, ?_⟩
  · have hc := base_count hp hfc
    have he : ((next s.conn p).2.map (Site.ofPc fails)).elim 0 Site.refs =
        (next s.conn p).2.elim 0 Pc.refs := by
      cases (next s.conn p).2 <;> simp
    rw [he]
    simp only [spare, Site.refs]
    omega
  · intro q' hq' hq
    obtain ⟨p', hp', rfl⟩ := Option.mem_map.mp hq'
    rw [Site.forcing_ofPc] at hq
    rcases hf.forced p' hp' hq with hforc | hle
    · have h0 := hzero hforc
      have hle := hf.pending_le (by cases p <;> first | rfl | cases hforc)
      exact hle.trans h0.le
    · exact hle
  · intro q' hq' hq
    obtain ⟨p', -, rfl⟩ := Option.mem_map.mp hq'
    rw [Site.accepting_ofPc] at hq
    cases hq
  · intro q' hq' hq
    obtain ⟨p', -, rfl⟩ := Option.mem_map.mp hq'
    rw [Site.dropped_ofPc] at hq
    cases hq
  · intro q' hq'
    obtain ⟨p', hp', rfl⟩ := Option.mem_map.mp hq'
    exact Site.fits_ofPc (hf.leads p' hp')

/-- A step that leads on to a statement of its function. -/
theorem Moves.to {q' : Site} (hcount : spare s - q.refs ≤ spare s' - q'.refs)
    (howner : s'.conn.owner = s.conn.owner) (hclosed : s'.closed = s.closed)
    (hpending : (s'.conn.pending ≤ s.conn.pending ∧
        2 * s'.conn.pending + q.closers ≤ 2 * s.conn.pending + q'.closers) ∨
      s'.conn.pending = s.conn.pending + 1 ∧ q.closers = 0 ∧
        (s.conn.owner = true ∨ (s.conn.pending ≤ 0 ∧ ∀ q' ∈ R, q'.forcing = false) ∨
          q.refs = 1 ∧ (s.conn.pending = 1 → q'.closers = 2)))
    (hf : q'.forcing = false) (ha : q'.accepting = true → s.conn.owner = true)
    (hd : q'.dropped = false) (hfit : q'.fits = true) : Moves s q R s' (some q') := by
  refine ⟨hcount, ?_, .inl howner, hpending, ?_, ?_, fun h => .inl (hclosed ▸ h), ?_⟩
  · intro _ hq h
    cases hq
    rw [hf] at h
    cases h
  · intro _ hq h
    cases hq
    rw [howner]
    exact ha h
  · intro _ hq h
    cases hq
    rw [hd] at h
    cases h
  · intro _ hq
    cases hq
    exact hfit

/-- Such a step that takes no reference. -/
theorem Moves.on {q' : Site} (hcount : spare s - q.refs ≤ spare s' - q'.refs)
    (howner : s'.conn.owner = s.conn.owner) (hclosed : s'.closed = s.closed)
    (hle : s'.conn.pending ≤ s.conn.pending) (hz : q.closers = 0) (hf : q'.forcing = false)
    (ha : q'.accepting = true → s.conn.owner = true) (hd : q'.dropped = false)
    (hfit : q'.fits = true) : Moves s q R s' (some q') := by
  have hnn := q'.closers_nonneg
  refine .to hcount howner hclosed (.inl ⟨hle, ?_⟩) hf ha hd hfit
  rw [hz]
  omega

theorem Moves.returns (hcount : spare s - q.refs ≤ spare s')
    (howner : s'.conn.owner = s.conn.owner) (hclosed : s'.closed = s.closed)
    (hle : s'.conn.pending ≤ s.conn.pending) (hz : q.closers = 0) : Moves s q R s' none := by
  have hno : ∀ q' : Site, q' ∉ (none : Option Site) := fun q' => Option.not_mem_none q'
  refine ⟨?_, fun q' h => absurd h (hno q'), .inl howner, .inl ⟨hle, ?_⟩,
    fun q' h => absurd h (hno q'), fun q' h => absurd h (hno q'), fun h => .inl (hclosed ▸ h),
    fun q' h => absurd h (hno q')⟩
  · rw [Option.elim_none]
    omega
  · rw [hz, Option.elim_none]
    omega

/-- A step that takes a reference while the owner's is there. -/
theorem Moves.takes {q' : Site} (ho : s.conn.owner = true) (hz : q.closers = 0)
    (hq : q'.refs = q.refs + 1) (hf : q'.forcing = false) (hd : q'.dropped = false)
    (hfit : q'.fits = true) :
    Moves s q R { s with conn.pending := s.conn.pending + 1 } (some q') := by
  refine .to ?_ rfl rfl (.inr ⟨rfl, hz, .inl ho⟩) hf (fun _ => ho) hd hfit
  simp only [spare, excess, hq]
  omega

theorem spare_setReady (ev : Ev) (v : ℤ) (b : Bool) :
    spare { s with conn := setReady s.conn ev v, sendCall := b } = spare s := by
  cases ev <;> rfl

theorem setReady_owner (ev : Ev) (v : ℤ) : (setReady c ev v).owner = c.owner := by
  cases ev <;> rfl

theorem setReady_pending (ev : Ev) (v : ℤ) : (setReady c ev v).pending = c.pending := by
  cases ev <;> rfl

/-- A function whose I/O call fails keeps what it holds. -/
theorem ioFails_moves {c' : Conn} {q' : Site} (h : ioFails s.conn p = some (c', q')) :
    Moves s (.base fails p) R { s with conn := c' } (some q') := by
  unfold ioFails at h
  split at h <;> cases h <;>
    exact .on (le_refl _) rfl rfl (le_refl _) rfl rfl (fun h => by cases h) rfl rfl

/-- `on_ev_listen` looks at the count. -/
theorem lsGuard_moves (ev : Ev) :
    Moves s (.lsGuard ev fails) R (step s (.lsGuard ev fails)).1 (step s (.lsGuard ev fails)).2 := by
  simp only [step]
  split
  · refine .to ?_ rfl rfl (.inr ⟨rfl, rfl, .inr (.inr ⟨rfl, fun _ => rfl⟩)⟩) rfl (fun h => by cases h) rfl rfl
    simp only [spare, excess, Site.refs, Pc.refs]
    omega
  · rename_i htwo
    refine .to ?_ rfl rfl (.inr ⟨rfl, rfl, .inr (.inr ⟨rfl, fun h => ?_⟩)⟩) rfl (fun h => by cases h) rfl rfl
    · simp only [spare, excess, Site.refs, ListenCaller.refs]
      omega
    · exact absurd (by omega) htwo

/-- `AcceptEx`: the reference of the caller becomes the one of the operation. -/
theorem lsAccept_moves (d : ListenCaller) (ev : Ev) :
    Moves s (.lsAccept d ev) R (step s (.lsAccept d ev)).1 (step s (.lsAccept d ev)).2 := by
  have hs : spare { s with accepts := ev :: s.accepts } = spare s - 1 := by
    simp only [spare, List.length_cons]
    push_cast
    ring
  cases d with
  | startListen id =>
    have hs' : spare (step s (.lsAccept (.startListen id) ev)).1 = spare s - 1 := hs
    have hr : (Site.lsAccept (.startListen id) ev).refs = 1 := rfl
    cases ev with
    | read =>
      refine .on ?_ rfl rfl (le_refl _) rfl rfl (fun h => by cases h) rfl rfl
      rw [hs', hr, Site.refs, sub_zero]
    | write =>
      refine .returns ?_ rfl rfl (le_refl _) rfl
      rw [hs', hr]
  | onEvListen fails =>
    have hr : (Site.lsAccept (.onEvListen fails) ev).refs = 2 := rfl
    cases fails with
    | false =>
      refine .on ?_ rfl rfl (le_refl _) rfl rfl (fun h => by cases h) rfl rfl
      have hs' : spare (step s (.lsAccept (.onEvListen false) ev)).1 = spare s - 1 := hs
      have hr' : (Site.lsRet false).refs = 1 := rfl
      omega
    | true =>
      refine .on ?_ (setReady_owner ev 0) rfl (setReady_pending ev 0).le rfl rfl (fun h => by cases h) rfl rfl
      rw [step, spare_setReady]
      exact le_refl _

/-! ## Steps inside `start_close` -/

/-- `start_close` behind the drop: what it still does, it does without the owner's reference. -/
theorem late_moves (hc : excess s.conn - p.refs ≤
      excess (next s.conn p).1 - (next s.conn p).2.elim 0 Pc.refs)
    (hle : (next s.conn p).1.pending ≤ s.conn.pending) (how : (next s.conn p).1.owner = s.conn.owner)
    (ho : s.conn.owner = false) (hin : ∀ p' ∈ (next s.conn p).2, inClose p' = true)
    (hf : ∀ p' ∈ (next s.conn p).2, p'.forcing = true → (next s.conn p).1.pending ≤ 0) :
    Moves s (.closing p) R (step s (.closing p)).1 (step s (.closing p)).2 := by
  have hoff : (next s.conn p).1.owner = false := how.trans ho
  have hrefs : ((next s.conn p).2.map Site.closing).elim 0 Site.refs =
      (next s.conn p).2.elim 0 Pc.refs := by
    cases (next s.conn p).2 <;> rfl
  have hclosers : ((next s.conn p).2.map Site.closing).elim 0 Site.closers = 0 := by
    cases (next s.conn p).2 <;> rfl
  have hz : (Site.closing p).closers = 0 := rfl
  simp only [step]
  refine ⟨?_, ?_, .inl how, .inl ⟨hle, ?_⟩, ?_, fun _ _ _ => hoff, fun _ => .inr hoff, ?_⟩
  · rw [hrefs]
    simp only [spare, Site.refs]
    omega
  · intro q' hq' hq
    obtain ⟨p', hp', rfl⟩ := Option.mem_map.mp hq'
    exact hf p' hp' hq
  · rw [hclosers, hz]
    dsimp only
    omega
  · intro q' hq' hq
    obtain ⟨p', -, rfl⟩ := Option.mem_map.mp hq'
    cases hq
  · intro q' hq'
    obtain ⟨p', hp', rfl⟩ := Option.mem_map.mp hq'
    exact hin p' hp'

/-- The drop of the owner's reference. -/
theorem closeDrop_moves (hok : orderly s (.closing .closeDrop) R) :
    Moves s (.closing .closeDrop) R (step s (.closing .closeDrop)).1
      (step s (.closing .closeDrop)).2 := by
  obtain ⟨ho, hle, hacc⟩ := hok
  have hp : (step s (.closing .closeDrop)).1.conn.pending = s.conn.pending - 2 := rfl
  have hoff : (step s (.closing .closeDrop)).1.conn.owner = false := rfl
  have hcases : (step s (.closing .closeDrop)).2 = none ∨
      (step s (.closing .closeDrop)).2 = some (.closing .fcRead) ∧ s.conn.pending ≤ 2 := by
    simp only [step, next, innerClose]
    split
    · exact .inr ⟨rfl, by assumption⟩
    · exact .inl rfl
  refine ⟨?_, ?_, .inr ⟨ho, hoff, by omega, hacc⟩, .inl ⟨by omega, ?_⟩, ?_, fun _ _ _ => hoff,
    fun _ => .inr hoff, ?_⟩
  · have hs : spare (step s (.closing .closeDrop)).1 = spare s - 1 := by
      simp only [spare, excess, step, next, innerClose, ho]
      simp
      ring
    have hr : (step s (.closing .closeDrop)).2.elim 0 Site.refs = 0 := by
      rcases hcases with h | ⟨h, -⟩ <;> rw [h] <;> rfl
    have hq : (Site.closing .closeDrop).refs = 1 := rfl
    omega
  · intro q' hq' hq
    rcases hcases with h | ⟨h, hle2⟩
    · rw [h] at hq'
      cases hq'
    · omega
  · have hc : (step s (.closing .closeDrop)).2.elim 0 Site.closers = 0 := by
      rcases hcases with h | ⟨h, -⟩ <;> rw [h] <;> rfl
    have hq : (Site.closing .closeDrop).closers = 0 := rfl
    omega
  · intro q' hq' hq
    rcases hcases with h | ⟨h, -⟩ <;> rw [h] at hq' <;> cases hq'
    cases hq
  · intro q' hq'
    rcases hcases with h | ⟨h, -⟩ <;> rw [h] at hq' <;> cases hq'
    rfl

theorem closing_moves (h : Inv s (.closing p ::ₘ R)) (hok : orderly s (.closing p) R) :
    Moves s (.closing p) R (step s (.closing p)).1 (step s (.closing p)).2 := by
  have hmem : Site.closing p ∈ Site.closing p ::ₘ R := Multiset.mem_cons_self _ _
  have hp : inClose p = true := h.fits _ hmem
  have hzero : p.forcing = true → s.conn.pending = 0 := by
    intro hf
    exact le_antisymm (h.forced _ hmem hf) h.pending_nonneg
  have hlate : (Site.closing p).dropped = true → s.conn.owner = false := h.dropped _ hmem
  cases p with
  | closeTest =>
    by_cases hc : s.conn.closing = true
    · have ho : s.conn.owner = false := hok hc
      refine late_moves ?_ (le_refl _) rfl ho ?_ ?_ <;> simp only [next, if_pos hc]
      · exact le_refl _
      · rintro _ ⟨⟩
        rfl
      · rintro _ ⟨⟩ h
        cases h
    · simp only [step, next, if_neg hc]
      exact .on (le_refl _) rfl (Bool.or_false _) (le_refl _) rfl rfl (fun h => by cases h) rfl rfl
  | closeSet => exact .on (le_refl _) rfl (Bool.or_false _) (le_refl _) rfl rfl (fun h => by cases h) rfl rfl
  | closeDrop => exact closeDrop_moves hok
  | innerClose ref =>
    have ho := hlate rfl
    have hf := next_follows (c := s.conn) (p := .innerClose ref) rfl (fun h => by cases h)
    refine late_moves ?_ (hf.pending_le rfl) rfl ho ?_ ?_
    · exact base_count rfl (fun h => by cases h)
    · intro p' hp'
      simp only [next, innerClose] at hp'
      split at hp' <;> cases hp'
      rfl
    · intro p' hp' hq
      exact (hf.forced p' hp' hq).resolve_left (fun h => by cases h)
  | fcRead | fcWrite =>
    have h0 := hzero rfl
    refine late_moves (base_count rfl (fun h => by cases h)) (le_refl _) rfl (hlate rfl) ?_ fun _ _ _ => h0.le
    rintro _ ⟨⟩
    rfl
  | fcReset =>
    have h0 := hzero rfl
    exact late_moves (base_count rfl fun _ => h0) h0.ge rfl (hlate rfl) (fun _ h => by cases h)
      (fun _ h => by cases h)
  | _ => cases hp

/-! ## Whole runs -/

/-- **What an orderly step does.** -/
theorem step_moves (h : Inv s (q ::ₘ R)) (hok : orderly s q R) :
    Moves s q R (step s q).1 (step s q).2 := by
  have hspare : ∀ n : ℤ, spare { s with conn.pending := s.conn.pending - n } = spare s - n := by
    intro n
    simp only [spare, excess]
    ring
  cases q with
  | base fails p =>
    simp only [step]
    split
    · rename_i c' q' hio
      cases fails with
      | false => cases hio
      | true => exact ioFails_moves hio
    · exact base_moves h hok
  | closing p => exact closing_moves h hok
  | handlerErr =>
    refine .on ?_ rfl rfl (by simp [step]) rfl rfl (fun h => by cases h) rfl rfl
    simp only [step, hspare, Site.refs, Pc.refs]
    omega
  | sendReset => exact .on (le_refl _) rfl rfl (le_refl _) rfl rfl (fun h => by cases h) rfl rfl
  | decCheck id =>
    simp only [step]
    split
    · exact .on (le_refl _) rfl rfl (le_refl _) rfl rfl (fun h => by cases h) rfl rfl
    · exact .returns (by simp [Site.refs]) rfl rfl (le_refl _) rfl
  | decDrop =>
    have hle : s.conn.pending - 1 ≤ s.conn.pending := by omega
    simp only [step]
    split
    · rename_i h0
      refine ⟨?_, fun _ _ _ => h0.le, .inl rfl, .inl ⟨hle, ?_⟩, ?_, ?_, .inl, ?_⟩
      · simp [hspare, Site.refs, Pc.refs]
      · simp only [Site.closers, Option.elim_some]
        omega
      · intro _ hq h
        cases hq
        cases h
      · intro _ hq h
        cases hq
        cases h
      · intro _ hq
        cases hq
        rfl
    · exact .returns (by simp [hspare, Site.refs]) rfl rfl hle rfl
  | lsType id => exact .on (le_refl _) rfl rfl (le_refl _) rfl rfl (fun h => by cases h) rfl rfl
  | lsInc id ev => exact .takes hok rfl rfl rfl rfl rfl
  | lsArm c ev =>
    refine .on ?_ (setReady_owner ev 1) rfl (setReady_pending ev 1).le rfl rfl (fun h => by cases h) rfl rfl
    rw [step, spare_setReady]
    exact le_refl _
  | lsAccept c ev => exact lsAccept_moves c ev
  | lsRet fails =>
    obtain rfl : fails = false := hok
    exact .returns (by simp [step, hspare, Site.refs]) rfl rfl (by simp [step]) rfl
  | lsDone ev fails =>
    simp only [step]
    split
    · refine .on ?_ (setReady_owner ev 0) rfl (setReady_pending ev 0).le rfl rfl (fun h => by cases h) rfl rfl
      rw [spare_setReady]
      exact le_refl _
    · exact .on (le_refl _) rfl rfl (le_refl _) rfl rfl (fun h => by cases h) rfl rfl
  | lsGuard ev fails => exact lsGuard_moves ev
  | accId fails => exact .on (le_refl _) rfl rfl (le_refl _) rfl rfl (fun h => by cases h) rfl rfl
  | accInc id fails => exact .takes hok rfl rfl rfl rfl rfl
  | accArm id fails =>
    have ho := h.accepting _ (Multiset.mem_cons_self _ _) rfl
    simp only [step]
    split <;> exact .on (le_refl _) rfl rfl (le_refl _) rfl rfl (fun _ => ho) rfl rfl
  | accRecv id fails =>
    cases fails with
    | false =>
      refine .returns ?_ rfl rfl (le_refl _) rfl
      simp only [step, spare, excess, Site.refs]
      push_cast
      omega
    | true => exact .on (le_refl _) rfl rfl (le_refl _) rfl rfl (fun h => by cases h) rfl rfl

/-- A completion turns an outstanding operation into a thread with its reference. -/
theorem begin_moves (h : Begin s s' q) :
    spare s' - q.refs = spare s ∧ s'.conn.owner = s.conn.owner ∧
      s'.conn.pending = s.conn.pending ∧ s'.closed = s.closed ∧ q.closers = 0 ∧
      q.forcing = false ∧ q.accepting = false ∧ q.dropped = false ∧ q.fits = true := by
  have hlen : ∀ ev ∈ s.accepts, spare { s with accepts := s.accepts.erase ev } = spare s + 1 := by
    intro ev he
    have := List.length_pos_of_mem he
    simp only [spare, List.length_erase_of_mem he, Nat.cast_sub (Nat.succ_le_of_lt this),
      Nat.cast_one]
    ring
  cases h with
  | base c p fails hs =>
    have hb := balance_start hs
    have hcount : spare { s with conn := c } - (Site.base fails p).refs = spare s := by
      simp only [spare, Site.refs]
      omega
    cases hs <;> exact ⟨hcount, rfl, rfl, rfl, rfl, rfl, rfl, rfl, rfl⟩
  | connFailed hr hc =>
    refine ⟨?_, rfl, rfl, rfl, rfl, rfl, rfl, rfl, rfl⟩
    simp only [spare, excess, Site.refs, Pc.refs, Nat.cast_sub (Nat.succ_le_of_lt hr), Nat.cast_one]
    ring
  | sendFailed chunk hs =>
    have hpos := List.length_pos_of_mem hs
    refine ⟨?_, rfl, rfl, rfl, rfl, rfl, rfl, rfl, rfl⟩
    simp only [spare, excess, Site.refs, List.length_erase_of_mem hs,
      Nat.cast_sub (Nat.succ_le_of_lt hpos), Nat.cast_one]
    ring
  | accepted ev fails he hc =>
    refine ⟨?_, rfl, rfl, rfl, rfl, rfl, rfl, rfl, rfl⟩
    rw [hlen ev he, Site.refs]
    ring
  | acceptSent fails he hc | acceptSendFailed he hc =>
    refine ⟨?_, rfl, rfl, rfl, rfl, rfl, rfl, rfl, rfl⟩
    rw [hlen .write he]
    simp [Site.refs, Pc.refs]

theorem Inv.start (h : Inv s T) (hb : Begin s s' q) : Inv s' (q ::ₘ T) := by
  obtain ⟨hcount, howner, hpending, hclosed, hz, hf, ha, hd, hfit⟩ := begin_moves hb
  refine ⟨?_, ?_, ?_, ?_, ?_, ?_, ?_⟩
  · have := h.count
    rw [load_cons]
    omega
  · rw [Multiset.forall_mem_cons, hpending, hf]
    exact ⟨(fun h => by cases h), h.forced⟩
  · rw [howner, hpending, load_cons, hz, zero_add]
    exact h.low
  · rw [Multiset.forall_mem_cons, howner, ha]
    exact ⟨(fun h => by cases h), h.accepting⟩
  · rw [Multiset.forall_mem_cons, howner, hd]
    exact ⟨(fun h => by cases h), h.dropped⟩
  · rw [hclosed, howner]
    exact h.closed
  · rw [Multiset.forall_mem_cons]
    exact ⟨hfit, h.fits⟩

theorem Fresh.inv (hf : Fresh s) (hr : q.refs + s.conn.owner.toNat ≤ 1) (hforc : q.forcing = false)
    (ha : q.accepting = false) (hd : q.dropped = false) (hfit : q.fits = true) : Inv s {q} := by
  obtain ⟨hp, -, hreads, hsends, hacc, hclosed⟩ := hf
  have hz := q.closers_nonneg
  refine ⟨?_, ?_, ?_, ?_, ?_, ?_, ?_⟩
  · simp only [load, Multiset.map_singleton, Multiset.sum_singleton, spare, excess, hp, hreads,
      hsends, hacc]
    simp
    omega
  · intro q' hq' h
    rw [Multiset.mem_singleton.mp hq', hforc] at h
    cases h
  · intro _
    simp only [load, Multiset.map_singleton, Multiset.sum_singleton]
    omega
  · intro q' hq' h
    rw [Multiset.mem_singleton.mp hq', ha] at h
    cases h
  · intro q' hq' h
    rw [Multiset.mem_singleton.mp hq', hd] at h
    cases h
  · intro h
    rw [hclosed] at h
    cases h
  · intro q' hq'
    rw [Multiset.mem_singleton.mp hq']
    exact hfit

theorem Opened.inv {S : Sys Sock Site} (h : Opened S) : Inv S.shared S.threads := by
  obtain ⟨q, hf, ho, hT⟩ := h
  rw [hT]
  cases ho with
  | connects fails hg ho => exact hf.inv (by simp [ho, Site.refs, Pc.refs]) rfl rfl rfl rfl
  | listens hg ho => exact hf.inv (by simp [ho, Site.refs]) rfl rfl rfl rfl
  | accepts fails ht hg ho => exact hf.inv (by simp [ho, Site.refs]) rfl rfl rfl rfl
  | refuses hg ho => exact hf.inv (by simp [ho, Site.refs]) rfl rfl rfl rfl

/-- A handler between its look at the count and the I/O call it goes on to. -/
theorem starting_refs (h : q.starting = true) :
    (q.refs = 2 ∧ q.closers = 0) ∨ q.accepting = true := by
  unfold Site.starting at h
  split at h
  · exact .inl ⟨rfl, rfl⟩
  · exact .inl ⟨rfl, rfl⟩
  · exact .inl ⟨rfl, rfl⟩
  · exact .inr rfl
  · cases h

/-- **Close stops new work.** In every orderly run of a socket, of whatever kind and with whatever
operations outstanding, no handler starts a further operation once `start_close` has returned
`NO_ERROR`. -/
theorem close_stops_work {S₀ S : Sys Sock Site} (h₀ : Opened S₀)
    (hrun : Reach program orderly S₀ S) : Quiet S := by
  have hinv : Inv S.shared S.threads := by
    refine hrun.invariant (I := Inv) h₀.inv ?_ ?_
    · intro s q R hok h
      exact h.thread (step_moves h hok)
    · intro s s' q T hb h
      exact h.start hb
  intro hclosed q hq
  have ho := hinv.closed hclosed
  by_contra hs
  rw [Bool.not_eq_false] at hs
  rcases starting_refs hs with ⟨hr, hz⟩ | ha
  · obtain ⟨R, hT⟩ := Multiset.exists_cons_of_mem hq
    have hle := hinv.load_le
    have hlow := hinv.low ho
    have hmono := load_mono Site.closers_le_refs R
    rw [hT, load_cons] at hle hlow
    rw [ho, Bool.toNat_false] at hle
    -- two references in this thread are already more than `low` leaves
    have hnn := load_nonneg Site.closers_nonneg R
    push_cast at hle
    omega
  · rw [hinv.accepting q hq ha] at ho
    cases ho

def acceptedSock : Sock where
  conn := { unusedConn with id := 7, type := .paccept, pending := 1, given := 7, owner := true }
  accepts := []
  sendCall := false
  closed := false

/-- What the steps of a single thread must meet to be orderly. -/
def orderlyAlone (s : Sock) : Site → Bool
  | .base _ (.connInc _) | .base _ (.grub _ _) | .lsInc _ _ | .accInc _ _ => s.conn.owner
  | .lsRet fails => !fails
  | .closing .closeTest => !s.conn.closing
  | .closing .closeDrop => s.conn.owner && decide (s.conn.pending ≤ 3)
  | _ => true

theorem orderlyAlone_spec (s : Sock) (q : Site) (h : orderlyAlone s q = true) : orderly s q 0 := by
  cases q with
  | base fails p =>
    cases p with
    | connInc id => exact h
    | grub id req => exact .inl h
    | _ => trivial
  | closing p =>
    cases p with
    | closeTest =>
      intro hc
      rw [orderlyAlone, hc] at h
      cases h
    | closeDrop =>
      rw [orderlyAlone, Bool.and_eq_true, decide_eq_true_eq] at h
      exact ⟨h.1, h.2, fun q' hq' => absurd hq' (Multiset.notMem_zero q')⟩
    | _ => trivial
  | lsInc id ev | accInc id fails => exact h
  | lsRet fails => exact (Bool.not_eq_true' fails).mp h
  | _ => trivial

/-- An accepted socket that is closed while its receive is outstanding: the handler of the receive
closes the socket. -/
theorem close_stops_work_accepted :
    ∃ S₀ S : Sys Sock Site, Opened S₀ ∧ Reach program orderly S₀ S ∧ S.shared.closed = true ∧
      S.threads = {.base false (.innerClose 2)} ∧ Quiet S := by
  have h₀ : Opened ⟨acceptedSock, {.accId false}⟩ :=
    ⟨.accId false, ⟨rfl, rfl, rfl, rfl, rfl, rfl⟩, .accepts false rfl rfl rfl, rfl⟩
  have hrun : Reach program orderly ⟨acceptedSock, {.accId false}⟩
      ⟨acceptedSock, put (some (.accId false)) 0⟩ := .refl
  have hrecv := hrun.alone 4 orderlyAlone_spec (by decide +kernel) (by decide +kernel)
  have hclose := hrecv.call 6 (.base _ _ _ false (.startClose _ (by decide +kernel)))
    orderlyAlone_spec (by decide +kernel) (by decide +kernel)
  have hdone := hclose.tail (.start _ _ _ 0
    (.base _ _ _ false (.received _ 1 true (by decide +kernel) (by decide +kernel))))
  have hguard := Reach.solo (p := some _) (R := 0) 2 hdone orderlyAlone_spec (by decide +kernel)
  exact ⟨_, _, h₀, hguard, by decide +kernel, by decide +kernel, close_stops_work h₀ hguard⟩

def reservedSock : Sock where
  conn := { unusedConn with id := 7, type := .invalid, pending := 1, owner := true }
  accepts := []
  sendCall := false
  closed := false

/-- **A closed listener goes on accepting.** `start_close` leaves the references of the two
`AcceptEx` operations; the handler of the first one counts 3 and starts `AcceptEx` again. -/
theorem listen_goes_on :
    Opened ⟨reservedSock, {.lsType 7}⟩ ∧
      ¬ ∀ S, Reach program anyStep ⟨reservedSock, {.lsType 7}⟩ S → Quiet S := by
  have hk : ∀ s q, (fun (_ : Sock) (_ : Site) => true) s q = true →
      anyStep s q (0 : Multiset Site) := fun _ _ _ => trivial
  have hrun : Reach program anyStep ⟨reservedSock, {.lsType 7}⟩
      ⟨reservedSock, put (some (.lsType 7)) 0⟩ := .refl
  have hlisten := hrun.alone 7 hk (by decide +kernel) (by decide +kernel)
  have hclose := hlisten.call 6 (.base _ _ _ false (.startClose _ (by decide +kernel))) hk
    (by decide +kernel) (by decide +kernel)
  have hdone := hclose.tail (.start _ _ _ 0
    (.accepted _ .read false (by decide +kernel) (fun h => by cases h)))
  have hagain := Reach.solo (p := some _) (R := 0) 3 hdone hk (by decide +kernel)
  refine ⟨⟨.lsType 7, ⟨rfl, rfl, rfl, rfl, rfl, rfl⟩, .listens rfl rfl, rfl⟩, fun h => ?_⟩
  have hq := h _ hagain (by decide +kernel) (.lsAccept (.onEvListen false) .read) (by decide +kernel)
  cases hq

end HoNet.SocketServer.Close
