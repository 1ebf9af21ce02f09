import HoNet.SlotTable

/-!
# Connects that fail

`socket_server::start_connet` on the whole slot table, with what the system calls return as a
parameter. A failed assertion and an access through `NULL` end the call; the project is built with
assertions.

* `startConnet_found`, `startConnet_none` — the call after a successful and after a failed
  `reserve_id`.
* `fails_leave_trace` — no failure point undoes what was done before it.
-/

namespace HoNet.SocketServer.Connect

open HoNet.SlotTable
open CoreSocket (maxSocket hashId)

inductive Crash where
  | assertion
  | nullDeref
  deriving DecidableEq, Repr

abbrev Slots := Table SocketType

/-- `WSA_IO_PENDING`. -/
def WSA_IO_PENDING : Nat := 997

/-- The socket or the error of `WSASocket`, the error of `bind` if it fails, and what
`WSAGetLastError` returns behind `append_socket` and behind `ConnectEx`. -/
structure ConnectIo where
  wsaSocket : Except Nat Nat
  bind : Option Nat
  append : Nat
  connectEx : Nat

/-- `new_fd` with `add`: the slot, or `NULL` when `append_socket` fails. -/
def newFd (t : Slots) (id : Int) (fd append : Nat) : Except Crash (Slots × Option Nat) :=
  let s := hashId id
  if (t.slot s).type = .invalid then
    if append ≠ 0 then .ok (t.set s fun e => { e with type := .reserve }, none)
    else .ok (t.set s fun e => { e with id := id, fd := some fd, pending := 1 }, some s)
  else .error .assertion

/-- `force_close`, as far as `reset` is concerned. -/
def forceClose (t : Slots) (s : Nat) : Slots :=
  t.set s fun _ => { type := .reserve, id := 0, fd := none, pending := 0 }

/-- `inner_close`. -/
def innerClose (t : Slots) (ref : Nat) : Option Nat → Except Crash Slots
  | none => .error .nullDeref
  | some s =>
    let old := (t.slot s).pending
    let t := t.set s fun e => { e with pending := old - ref }
    .ok (if old ≤ ref then forceClose t s else t)

/-- `start_connet` behind `reserve_id`: the table, the value of `id` and the error returned. -/
def connectSlot (t : Slots) (id : Int) (fd : Nat) (io : ConnectIo) :
    Except Crash (Slots × Int × Nat) := do
  let (t, s) ← newFd t id fd io.append
  match s with
  | none =>
    let t ← innerClose t 1 none
    return (t, 0, io.append)
  | some s =>
    let t := t.set s fun e => { e with type := .connecting }
    let t := t.set s fun e => { e with pending := e.pending + 1 }
    if io.connectEx ≠ 0 ∧ io.connectEx ≠ WSA_IO_PENDING then
      let t ← innerClose t 1 (some s)
      return (t, 0, io.connectEx)
    else if id > 0 then return (t, id, 0)
    else .error .assertion

def startConnet (t : Slots) (io : ConnectIo) (id : Int) : Except Crash (Slots × Int × Nat) :=
  match io.wsaSocket with
  | .error err => .ok (t, id, err)
  | .ok fd =>
    match io.bind with
    | some err => .ok (t, id, err)
    | none =>
      let (t, id) := SlotTable.SocketServer.reserveId t
      connectSlot t id fd io

/-- The call has returned an error, with `id` set to 0 and every slot as it was. -/
def LeavesNoTrace (t : Slots) (r : Except Crash (Slots × Int × Nat)) : Prop :=
  ∃ t' err, r = .ok (t', 0, err) ∧ err ≠ 0 ∧ ∀ i, (t'.slot i).type = (t.slot i).type ∧
    (t'.slot i).id = (t.slot i).id ∧ (t'.slot i).pending = (t.slot i).pending

/-- No slot is found, `append_socket` fails in `new_fd`, or `ConnectEx` fails at once. -/
def FailsLate (t : Slots) (io : ConnectIo) : Prop :=
  (SlotTable.SocketServer.reserveId t).2 = -1 ∨ io.append ≠ 0 ∨
    io.connectEx ≠ 0 ∧ io.connectEx ≠ WSA_IO_PENDING

/-! ## What the call leaves -/

variable {t : Slots} {io : ConnectIo} {id : Int} {fd s : Nat}

/-- `inner_close` drops the reference of the connect only, and the slot stays as it is. -/
theorem innerClose_connecting (htwo : (t.slot s).pending = 2) :
    innerClose t 1 (some s) = .ok (t.set s fun e => { e with pending := 1 }) := by
  simp only [innerClose, htwo]
  rfl

/-- Every way out of `connectSlot` that has an error: it crashes, or the slot is left connecting. -/
theorem connectSlot_fails
    (hf : id ≤ 0 ∨ io.append ≠ 0 ∨ io.connectEx ≠ 0 ∧ io.connectEx ≠ WSA_IO_PENDING) :
    (∃ c, connectSlot t id fd io = .error c) ∨
      (t.slot (hashId id)).type = .invalid ∧
        ∃ t', connectSlot t id fd io = .ok (t', 0, io.connectEx) ∧
          (t'.slot (hashId id)).type = .connecting := by
  by_cases htype : (t.slot (hashId id)).type = .invalid
  swap
  · left
    exact ⟨.assertion, by simp only [connectSlot, newFd, if_neg htype]; rfl⟩
  by_cases happ : io.append = 0
  swap
  · left
    exact ⟨.nullDeref, by simp only [connectSlot, newFd, if_pos htype, if_pos happ]; rfl⟩
  have hnew : newFd t id fd io.append = .ok (t.set (hashId id) fun e =>
      { e with id := id, fd := some fd, pending := 1 }, some (hashId id)) := by
    simp only [newFd, if_pos htype, happ, ne_eq, not_true_eq_false, if_false]
  generalize hT : t.set (hashId id) (fun e => { e with id := id, fd := some fd, pending := 1 }) = t₁
    at hnew
  have hone : (t₁.slot (hashId id)).pending = 1 := by
    rw [← hT]
    simp only [Table.set, Function.update_self]
  generalize hT₂ : (t₁.set (hashId id) fun e => { e with type := .connecting }).set (hashId id)
    (fun e => { e with pending := e.pending + 1 }) = t₂
  have hslot : t₂.slot (hashId id) =
      { t₁.slot (hashId id) with type := .connecting, pending := 2 } := by
    rw [← hT₂]
    simp only [Table.set, Function.update_self, hone]
    rfl
  by_cases hcon : io.connectEx ≠ 0 ∧ io.connectEx ≠ WSA_IO_PENDING
  · right
    refine ⟨htype, t₂.set (hashId id) fun e => { e with pending := 1 }, ?_, ?_⟩
    · have hclose : innerClose t₂ 1 (some (hashId id)) = _ :=
        innerClose_connecting (by rw [hslot])
      simp only [connectSlot, hnew, bind, Except.bind, if_pos hcon, hT₂, hclose]
      rfl
    · simp only [Table.set, Function.update_self, hslot]
  · left
    have hid : ¬ id > 0 := by
      rcases hf with hid | hf | hf
      · omega
      · exact absurd happ hf
      · exact absurd hf hcon
    refine ⟨.assertion, ?_⟩
    simp only [connectSlot, hnew, bind, Except.bind, if_neg hcon, if_neg hid]

/-- The slot that `new_fd` gets was not connecting. -/
theorem reserved_type {t₁ : Slots} (hr : SlotTable.SocketServer.reserveId t = (t₁, id))
    (htype : (t₁.slot (hashId id)).type = .invalid) : (t.slot (hashId id)).type ≠ .connecting := by
  rcases reserveId_cases .reserve .invalid maxSocket t with ⟨d, -, -, hfree, -, heq⟩ | ⟨-, heq⟩
  · obtain ⟨-, rfl⟩ := Prod.mk.inj (hr.symm.trans heq)
    unfold FreeAt at hfree
    rw [hfree]
    decide
  · obtain ⟨rfl, -⟩ := Prod.mk.inj (hr.symm.trans heq)
    have htype : (t.slot (hashId id)).type = .invalid := htype
    rw [htype]
    decide

/-- **A failed connect always leaves a trace**: with no slot found, or with `append_socket` failing,
the call does not return; and when `ConnectEx` fails the reserved slot stays connecting. -/
theorem fails_leave_trace (t : Slots) (io : ConnectIo) (id : Int) {fd : Nat}
    (hs : io.wsaSocket = .ok fd) (hb : io.bind = none) (hf : FailsLate t io) :
    ¬ LeavesNoTrace t (startConnet t io id) ∧
      ((∃ c, startConnet t io id = .error c) ∨
        ∃ t' i, startConnet t io id = .ok (t', 0, io.connectEx) ∧
          (t'.slot i).type = .connecting ∧ (t.slot i).type ≠ .connecting) := by
  have hways : (∃ c, startConnet t io id = .error c) ∨
      ∃ t' i, startConnet t io id = .ok (t', 0, io.connectEx) ∧
        (t'.slot i).type = .connecting ∧ (t.slot i).type ≠ .connecting := by
    obtain ⟨⟨t₁, id₁⟩, hr⟩ : ∃ r, SlotTable.SocketServer.reserveId t = r := ⟨_, rfl⟩
    have heq : startConnet t io id = connectSlot t₁ id₁ fd io := by
      simp only [startConnet, hs, hb, hr]
    have hf' : id₁ ≤ 0 ∨ io.append ≠ 0 ∨ io.connectEx ≠ 0 ∧ io.connectEx ≠ WSA_IO_PENDING := by
      refine hf.imp_left fun hneg => ?_
      rw [hr] at hneg
      simp only at hneg
      omega
    rw [heq]
    have hslot : (∃ c, connectSlot t₁ id₁ fd io = .error c) ∨
        (t₁.slot (hashId id₁)).type = .invalid ∧
          ∃ t', connectSlot t₁ id₁ fd io = .ok (t', 0, io.connectEx) ∧
            (t'.slot (hashId id₁)).type = .connecting := connectSlot_fails hf'
    rcases hslot with hcrash | ⟨htype, t', hok, hcon⟩
    · exact .inl hcrash
    · exact .inr ⟨t', hashId id₁, hok, hcon, reserved_type hr htype⟩
  refine ⟨?_, hways⟩
  rintro ⟨t₁, err, hok, -, hsame⟩
  rcases hways with ⟨c, hcrash⟩ | ⟨t', i, hok', hcon, hnot⟩
  · rw [hcrash] at hok
    cases hok
  · rw [hok'] at hok
    cases hok
    exact hnot ((hsame i).1 ▸ hcon)

/-- A fresh server whose connect is refused. -/
def refused : ConnectIo := ⟨.ok 5, none, 0, 10061⟩

theorem fails_leave_trace_refused :
    ¬ LeavesNoTrace (uniform 0 .reserve) (startConnet (uniform 0 .reserve) refused 0) :=
  (fails_leave_trace _ refused 0 rfl rfl (.inr (.inr (by decide)))).1

/-- The first slot is left connecting. -/
theorem refused_leaves_connecting :
    ¬ LeavesNoTrace (uniform 0 .reserve) (startConnet (uniform 0 .reserve) refused 0) := by
  rintro ⟨t', err, hok, -, hsame⟩
  have htype : (startConnet (uniform 0 .reserve) refused 0).toOption.map
      (fun r => (r.1.slot 1).type) = some .connecting := by decide +kernel
  rw [hok] at htype
  have hcon : (t'.slot 1).type = .connecting := Option.some.inj htype
  rw [(hsame 1).1] at hcon
  cases hcon

end HoNet.SocketServer.Connect
