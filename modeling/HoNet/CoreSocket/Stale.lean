import HoNet.CoreSocket.Server
import HoNet.CoreSocket.Transfer

/-!
# Calls with a stale id in `coresocket.c`

`grub_socket` increments the counter of the slot that an id hashes to before it looks whether the
socket there has this id, and undoes that with `socketcheck_delref`, which also decides on closing. The
calls `start_send` and `start_close` run here one at a time, on the whole table.

* `grubSocket_stale` — when the increment is undone without closing.
* `startSend_stale` — `start_send` does not test what `grub_socket` returns.
* `startClose_refused` — the early return of `start_close` keeps the reference.
* `harmless_iff` — the states and calls for which a stale id does no harm.
-/

namespace HoNet.CoreSocket

/-- One slot of the server; `sock` has the counter, the contexts and the buffers. -/
structure SocketEntry where
  id : Int
  type : SocketType
  closing : Bool
  sock : Sock

structure Sockets where
  slot : Nat → SocketEntry

/-- `InterlockedIncrement` on a `LONG`. -/
def increment (p : Int) : Int := if p = 2 ^ 31 - 1 then -2 ^ 31 else p + 1

/-- `start_send` behind `grub_socket`. -/
def Sock.sendNode (s : Sock) (data : List UInt8) (io : Nat) : Except BufFault (Sock × Nat) := do
  let (mem, node) := s.mem.alloc ((BufferNode.new data.length).write data).1
  let (mem, readBuf) ← s.readBuf.pushback mem node
  let (s, err) ← { s with mem := mem, readBuf := readBuf }.evSendStart io
  let s ← s.socketcheckDelref (if err = 0 then 0 else 1)
  return (s, err)

namespace Sockets

/-- The slot of an id. -/
def entry (t : Sockets) (id : Int) : SocketEntry := t.slot (hashId id)

def set (t : Sockets) (id : Int) (e : SocketEntry) : Sockets := ⟨Function.update t.slot (hashId id) e⟩

/-- The id is that of a socket: the test of `grub_socket`. -/
def Live (t : Sockets) (id : Int) : Prop := (t.entry id).type ≠ .invalid ∧ (t.entry id).id = id

instance (t : Sockets) (id : Int) : Decidable (t.Live id) := inferInstanceAs (Decidable (_ ∧ _))

/-- `socketcheck_delref` on the slot of an id. -/
def delref (t : Sockets) (id ref : Int) : Except BufFault Sockets := do
  let sock ← (t.entry id).sock.socketcheckDelref ref
  return t.set id { t.entry id with sock := sock }

/-- The table with another counter in the slot of an id. -/
def setPending (t : Sockets) (id p : Int) : Sockets :=
  t.set id { t.entry id with sock := { (t.entry id).sock with pending := p } }

/-- `InterlockedIncrement(&s->pending)` for the slot of an id. -/
def addPending (t : Sockets) (id : Int) : Sockets := t.setPending id (increment (t.entry id).sock.pending)

/-- `grub_socket`: whether there is a socket. -/
def grubSocket (t : Sockets) (id : Int) : Except BufFault (Sockets × Bool) :=
  if (t.addPending id).Live id then .ok (t.addPending id, true)
  else do return (← (t.addPending id).delref id 1, false)

/-- `start_send` with the error of `WSASend`. Without a socket the address of `read_buf` is an offset
from `NULL`. -/
def startSend (t : Sockets) (id : Int) (data : List UInt8) (io : Nat) : Except BufFault (Sockets × Int) := do
  let (t, found) ← t.grubSocket id
  if found then
    let (sock, err) ← (t.entry id).sock.sendNode data io
    return (t.set id { t.entry id with sock := sock }, err)
  else .error .nullDeref

def startClose (t : Sockets) (id : Int) : Except BufFault (Sockets × Int) := do
  let (t, found) ← t.grubSocket id
  if found = false then return (t, -1)
  else if closable (t.entry id).type = false then return (t, -1)
  else if (t.entry id).closing = false then
    return (← (t.set id { t.entry id with closing := true }).delref id 2, 0)
  else return (← t.delref id 1, 0)

variable {t : Sockets} {id : Int}

@[simp] theorem entry_set (e : SocketEntry) : (t.set id e).entry id = e := Function.update_self ..

theorem set_set (e e' : SocketEntry) : (t.set id e).set id e' = t.set id e' := by
  unfold set
  rw [Function.update_idem]

theorem set_entry : t.set id (t.entry id) = t := by
  unfold set entry
  rw [Function.update_eq_self]

@[simp] theorem entry_setPending (p : Int) : (t.setPending id p).entry id =
    { t.entry id with sock := { (t.entry id).sock with pending := p } } := entry_set _

theorem setPending_setPending (p q : Int) : (t.setPending id p).setPending id q = t.setPending id q := by
  unfold setPending
  rw [set_set, entry_set]

theorem setPending_self : t.setPending id (t.entry id).sock.pending = t := set_entry

theorem delref_eq (ref : Int) :
    t.delref id ref = if (t.entry id).sock.pending ≤ ref then .error .assertion
      else .ok (t.setPending id ((t.entry id).sock.pending - ref)) := by
  unfold delref Sock.socketcheckDelref
  split
  · rfl
  · rfl

/-! ## The lookup -/

/-- The increment does not decide whether the id is that of a socket. -/
theorem live_addPending : (t.addPending id).Live id ↔ t.Live id := by
  unfold Live addPending
  rw [entry_setPending]

theorem grubSocket_live (h : t.Live id) : t.grubSocket id = .ok (t.addPending id, true) := by
  unfold grubSocket
  rw [if_pos (live_addPending.mpr h)]

/-- The increment brings the counter to 1 or below where there was no reference, or where it wraps. -/
theorem increment_le_one_iff (p : Int) : increment p ≤ 1 ↔ ¬ (1 ≤ p ∧ p ≠ 2 ^ 31 - 1) := by
  unfold increment
  split <;> omega

/-- The reference taken for a stale id is given back, or the slot is closed. -/
theorem grubSocket_stale (h : ¬ t.Live id) :
    t.grubSocket id =
      if 1 ≤ (t.entry id).sock.pending ∧ (t.entry id).sock.pending ≠ 2 ^ 31 - 1 then .ok (t, false)
      else .error .assertion := by
  unfold grubSocket
  rw [if_neg fun hl => h (live_addPending.mp hl), delref_eq, addPending, entry_setPending]
  dsimp only
  split
  · rename_i hle
    rw [if_neg ((increment_le_one_iff _).mp hle)]
    rfl
  · rename_i hle
    have hp := not_not.mp (mt (increment_le_one_iff _).mpr hle)
    have hback : increment (t.entry id).sock.pending - 1 = (t.entry id).sock.pending := by
      unfold increment
      rw [if_neg hp.2]
      omega
    rw [if_pos hp, hback]
    show Except.ok ((t.setPending id _).setPending id _, false) = _
    rw [setPending_setPending, setPending_self]

/-! ## The calls -/

/-- **`start_send` with a stale id** does not return: `grub_socket` closes the slot, or the node goes
to a buffer at an offset from `NULL`. -/
theorem startSend_stale (h : ¬ t.Live id) (data : List UInt8) (io : Nat) (r : Sockets × Int) :
    t.startSend id data io ≠ .ok r := by
  unfold startSend
  rw [grubSocket_stale h]
  split
  · intro heq
    cases heq
  · intro heq
    cases heq

/-- On the socket of an id, `start_send` is what it is on one socket. -/
theorem startSend_live (h : t.Live id) (hp : (t.entry id).sock.pending ≠ 2 ^ 31 - 1)
    (data : List UInt8) (io : Nat) :
    t.startSend id data io = (t.entry id).sock.startSend data io >>= fun r =>
      pure (t.set id { t.entry id with sock := r.1 }, (r.2 : Int)) := by
  have hadd : t.addPending id = t.setPending id ((t.entry id).sock.pending + 1) := by
    unfold addPending increment
    rw [if_neg hp]
  unfold startSend
  rw [grubSocket_live h, hadd]
  show ((t.setPending id _).entry id).sock.sendNode data io >>= _ = _
  rw [entry_setPending]
  unfold setPending
  simp only [set_set]
  rfl

/-- **`start_close` with a stale id** returns an error and leaves the table as it was exactly where
the slot has a reference of its own. -/
theorem startClose_stale (h : ¬ t.Live id) :
    t.startClose id =
      if 1 ≤ (t.entry id).sock.pending ∧ (t.entry id).sock.pending ≠ 2 ^ 31 - 1 then .ok (t, -1)
      else .error .assertion := by
  unfold startClose
  rw [grubSocket_stale h]
  split
  · rfl
  · rfl

/-- **`start_close` on a socket of another type** keeps the reference it has taken. -/
theorem startClose_refused (h : t.Live id) (hc : closable (t.entry id).type = false) :
    t.startClose id = .ok (t.addPending id, -1) := by
  have hc' : closable ((t.addPending id).entry id).type = false := by
    unfold addPending
    rw [entry_setPending]
    exact hc
  unfold startClose
  rw [grubSocket_live h]
  exact if_pos hc'

end Sockets

inductive Call where
  | send (data : List UInt8) (io : Nat)
  | close
  deriving DecidableEq, Repr

namespace Sockets

def call (t : Sockets) (id : Int) : Call → Except BufFault (Sockets × Int)
  | .send data io => t.startSend id data io
  | .close => t.startClose id

/-- **A stale id does no harm**: the call returns an error and leaves every slot as it was; and a
`start_close` that is refused for the type of the socket leaves its counter as it was. -/
structure Harmless (t : Sockets) (id : Int) (c : Call) : Prop where
  stale : ¬ t.Live id → ∃ err, t.call id c = .ok (t, err) ∧ err ≠ 0
  refused : t.Live id → c = .close → closable (t.entry id).type = false → ∀ t' err,
    t.call id c = .ok (t', err) → (t'.entry id).sock.pending = (t.entry id).sock.pending

variable {t : Sockets} {id : Int}

theorem increment_ne (p : Int) : increment p ≠ p := by
  unfold increment
  split <;> omega

/-- **Stale ids**: they do no harm to `start_close` where the slot has a reference of its own that is
not the last one a `LONG` counts, and never to `start_send`; no `start_close` may be refused for the
type. -/
theorem harmless_iff (t : Sockets) (id : Int) (c : Call) :
    t.Harmless id c ↔
      (¬ t.Live id → c = .close ∧ 1 ≤ (t.entry id).sock.pending ∧
        (t.entry id).sock.pending ≠ 2 ^ 31 - 1) ∧
      (t.Live id → c = .close → closable (t.entry id).type = true) := by
  constructor
  · intro h
    constructor
    · intro hs
      obtain ⟨err, hok, -⟩ := h.stale hs
      cases c with
      | send data io => exact absurd hok (startSend_stale hs data io _)
      | close =>
        refine ⟨rfl, ?_⟩
        by_contra hp
        rw [call, startClose_stale hs, if_neg hp] at hok
        cases hok
    · intro hl hc
      by_contra hno
      subst hc
      have hrefused := startClose_refused hl (Bool.eq_false_of_not_eq_true hno)
      have hsame := h.refused hl rfl (Bool.eq_false_of_not_eq_true hno) _ _ hrefused
      rw [addPending, entry_setPending] at hsame
      exact increment_ne _ hsame
  · rintro ⟨hstale, hlive⟩
    constructor
    · intro hs
      obtain ⟨rfl, hp⟩ := hstale hs
      refine ⟨-1, ?_, by decide⟩
      rw [call, startClose_stale hs, if_pos hp]
    · intro hl hc hno
      rw [hlive hl hc] at hno
      cases hno

/-- The table that `start_socketserver` leaves. -/
def started : Sockets := ⟨fun _ => ⟨0, .invalid, false, { Sock.connected with pending := 0 }⟩⟩

/-- The socket of the id 7, of some type. -/
def seven (type : SocketType) : Sockets := started.set 7 ⟨7, type, false, { Sock.connected with pending := 1 }⟩

/-- On a server that has just started `start_close(7)` ends in the assertion of `resetfd`. While 7 is
the id of a socket `start_send(65543)` goes on with `NULL`, and while that socket is reserved
`start_close(7)` returns an error and leaves a reference. -/
theorem stale_id_harms :
    (started.startClose 7 = .error .assertion ∧ ¬ started.Harmless 7 .close) ∧
    ((seven .listen).startSend 65543 [65] 0 = .error .nullDeref ∧
      ¬ (seven .listen).Harmless 65543 (.send [65] 0)) ∧
    ∃ t', (seven .reserve).startClose 7 = .ok (t', -1) ∧
      ((seven .reserve).entry 7).sock.pending = 1 ∧ (t'.entry 7).sock.pending = 2 ∧
      ¬ (seven .reserve).Harmless 7 .close := by
  have hfree : ¬ started.Live 7 := by decide
  have hother : ¬ (seven .listen).Live 65543 := by decide
  have hlive : (seven .reserve).Live 7 := by decide
  have hclose : started.startClose 7 = .error .assertion := startClose_stale hfree
  have hsend : (seven .listen).startSend 65543 [65] 0 = .error .nullDeref := by
    unfold startSend
    rw [grubSocket_stale hother]
    rfl
  refine ⟨⟨hclose, ?_⟩, ⟨hsend, ?_⟩, _, startClose_refused hlive rfl, rfl, rfl, ?_⟩
  · intro h
    obtain ⟨err, hok, -⟩ := h.stale hfree
    rw [call, hclose] at hok
    cases hok
  · intro h
    obtain ⟨err, hok, -⟩ := h.stale hother
    rw [call, hsend] at hok
    cases hok
  · intro h
    exact absurd (h.refused hlive rfl rfl _ _ (startClose_refused hlive rfl)) (by decide)

end Sockets

end HoNet.CoreSocket
