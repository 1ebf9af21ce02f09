import HoNet.SocketServer.Conn

/-!
# Reference accounting

`pending` is meant to count the owner, the outstanding operations and the threads that use the
socket. The code loses count where `event_connect` keeps the reference it took, where `start_send`
and `on_ev_send` return without a `WSASend` of their own, where two `start_close` calls both find
`closing` unset, and where a call takes a reference on a socket that is being torn down.

A slot holds one socket after another, and `grub_socket` counts before it looks at the id. So the
calls here come with any id of the slot, `start_connet` takes the slot whenever it is free, and the
statements of `reserve_id`, `new_fd` and `socket::reset` are steps of their own: `new_fd` stores 1
into `pending`, whoever has counted there before. `grub_socket` tests the type and the id in one
step. A type that it reads before the slot is taken again can let it through only when another
thread is inside `reserve_id` or `new_fd`, and no step that keeps count does that.

* `Alive.thread`, `Passes` — a step on a socket, and one of a thread that finds none.
* `pending_accounted` — runs of the steps that keep count.
-/

namespace HoNet.SocketServer

open HoNet.Pool

/-! ## A slot that is taken again and again -/

/-- The statements of `Conn`; `connReserve` is the CAS of `reserve_id`, and `fcReset` the first store
of `socket::reset`. -/
inductive SlotPc where
  | conn (p : Pc)
  /-- `reserve_id` behind its CAS, and `new_fd`. -/
  | reserveId (id : Nat)
  | reservePending (id : Nat)
  | newFd (id : Nat)
  | newId (id : Nat)
  | newPending (id : Nat)
  /-- `socket::reset` behind its first store. -/
  | resetType
  | resetRest
  deriving DecidableEq, Repr

/-- One step of a thread. When the slot is taken, `reserve_id` goes on to the next one. -/
def slotNext (s : Conn) : SlotPc → Conn × Option SlotPc
  | .conn (.connReserve id) =>
    if s.type = .reserve then ({ s with type := .invalid, given := 0 }, some (.reserveId id))
    else (s, none)
  | .conn .fcReset => ({ s with id := 0 }, some .resetType)
  | .conn p => ((next s p).1, (next s p).2.map .conn)
  | .reserveId id => ({ s with id := id }, some (.reservePending id))
  | .reservePending id => ({ s with pending := 1 }, some (.newFd id))
  -- The assertion of `new_fd`.
  | .newFd id => (s, some (if s.type = .invalid then .newId id else .newFd id))
  | .newId id => ({ s with id := id }, some (.newPending id))
  | .newPending id => ({ s with pending := 1, owner := true }, some (.conn (.connType id)))
  | .resetType => ({ s with type := .reserve }, some .resetRest)
  | .resetRest => ({ reset s with id := s.id, type := s.type }, none)

/-- Calls of `start_connet` and calls with any id come to what begins on a connection. -/
inductive SlotStart : Conn → Conn → SlotPc → Prop
  | connect (s : Conn) (id : Nat) : SlotStart s s (.conn (.connReserve id))
  | call (s : Conn) (id : Nat) (req : Request) : SlotStart s s (.conn (.grub id req))
  | conn (s s' : Conn) (p : Pc) (h : Start s s' p) : SlotStart s s' (.conn p)

def SlotPc.refs : SlotPc → ℤ
  | .conn p => p.refs
  | _ => 0

/-- The thread executes `force_close`. -/
def Pc.forcing : Pc → Bool
  | .fcRead | .fcWrite | .fcReset => true
  | _ => false

def SlotPc.forcing : SlotPc → Bool
  | .conn p => p.forcing
  | .resetType | .resetRest => true
  | _ => false

/-- `start_connet` has reserved the slot, and its own reference is still to come. -/
def SlotPc.opening : SlotPc → Bool
  | .reserveId _ | .reservePending _ | .newFd _ | .newId _ | .newPending _ => true
  | .conn (.connType _) | .conn (.connInc _) => true
  | _ => false

/-- The steps that keep count. -/
def accounted (s : Conn) (q : SlotPc) (R : Multiset SlotPc) : Prop :=
  match q with
  | .conn .connGuard => s.pending = 1
  | .conn (.incReady _) => s.ready = 0
  | .conn (.decReady _) => 1 < s.ready
  | .conn .closeSet => s.closing = false
  -- No `force_close` is about to reset the socket.
  | .conn (.grub _ _) => s.id = 0 ∨ closable s.type = false ∨ ∀ q' ∈ R, q'.forcing = false
  -- What the call finds is a socket that `start_connet` has taken its reference on.
  | .conn (.grubCheck id _) =>
    s.type ≠ .invalid ∧ s.id = id → id ≠ 0 ∧ ∀ q' ∈ R, q'.opening = false
  -- A late reset has not set the slot free that another `start_connet` has reserved.
  | .conn (.connReserve _) => s.type = .reserve → ∀ q' ∈ R, q'.opening = false
  -- The 1 overwrites no reference, and no reset is still to come.
  | .newPending _ => ∀ q' ∈ R, q'.refs = 0 ∧ q'.forcing = false
  | _ => True

/-! ## Where threads can be -/

/-- On a socket that has been created. -/
def Pc.fits : Pc → Prop
  | .connType _ | .connInc _ => False
  | .sendRet _ e => e = .noError
  | .recvArm c | .wsaRecv c | .recvRet c => c = .onEvRecv
  | .innerClose ref => ref = 1 ∨ ref = 2
  | .fcRead | .fcWrite | .fcReset => False
  | _ => True

/-- Without a reference. -/
def Pc.bare : Pc → Prop
  | .connReserve _ | .grub _ _ => True
  | .sendRet .startSend .noError => True
  | _ => False

/-- On a slot without a socket. -/
def Pc.late : Pc → Prop
  | .grubCheck _ _ => True
  | .innerClose ref => ref = 1
  | .fcRead | .fcWrite | .fcReset => True
  | p => p.bare

def SlotPc.fits : SlotPc → Prop
  | .conn p => p.fits
  | _ => False

def SlotPc.bare : SlotPc → Prop
  | .conn p => p.bare
  | _ => False

def SlotPc.late : SlotPc → Prop
  | .conn p => p.late
  | .resetType | .resetRest => True
  | _ => False

variable {s s' : Conn} {T R R' : Multiset SlotPc} {p : Pc} {q q' : SlotPc}

theorem SlotPc.refs_nonneg (q : SlotPc) : 0 ≤ q.refs := by
  cases q with
  | conn p => exact p.refs_nonneg
  | _ => exact le_rfl

theorem SlotPc.bare_of_fits (h : q.fits) (h0 : q.refs = 0) : q.bare := by
  obtain ⟨p, rfl⟩ : ∃ p, q = .conn p := by
    cases q with
    | conn p => exact ⟨p, rfl⟩
    | _ => exact h.elim
  change p.fits at h
  change p.refs = 0 at h0
  cases p with
  | connReserve id | grub id req => trivial
  | sendRet c e =>
    obtain rfl : e = .noError := h
    cases c with
    | startSend => trivial
    | onEvSend => simp [Pc.refs, SendCaller.refs] at h0
  | innerClose ref => rcases h with rfl | rfl <;> simp [Pc.refs] at h0
  | cas c | incReady c | loadB c | pop c | decReady c | storeB c x | readBuf c | wsaSend c chunk =>
    cases c <;> simp [Pc.refs, SendCaller.refs] at h0
  | connType id | connInc id | fcRead | fcWrite | fcReset => exact h.elim
  | _ => simp [Pc.refs] at h0

/-- What is known of a thread without a reference. -/
theorem SlotPc.bare_cases (h : q.bare) :
    (∃ id, q = .conn (.connReserve id)) ∨ (∃ id req, q = .conn (.grub id req)) ∨
      q = .conn (.sendRet .startSend .noError) := by
  cases q with
  | conn p =>
    cases p with
    | connReserve id => exact .inl ⟨id, rfl⟩
    | grub id req => exact .inr (.inl ⟨id, req, rfl⟩)
    | sendRet c e =>
      obtain ⟨rfl, rfl⟩ : c = .startSend ∧ e = .noError := by
        cases c <;> cases e <;> first | exact ⟨rfl, rfl⟩ | exact h.elim
      exact .inr (.inr rfl)
    | _ => exact h.elim
  | _ => exact h.elim

theorem SlotPc.bare_spec (h : q.bare) :
    q.fits ∧ q.late ∧ q.refs = 0 ∧ q.forcing = false ∧ q ≠ .conn .closeDrop := by
  rcases bare_cases h with ⟨id, rfl⟩ | ⟨id, req, rfl⟩ | rfl
  · exact ⟨trivial, trivial, rfl, rfl, by rintro ⟨⟩⟩
  · exact ⟨trivial, trivial, rfl, rfl, by rintro ⟨⟩⟩
  · exact ⟨rfl, trivial, rfl, rfl, by rintro ⟨⟩⟩

theorem SlotPc.late_cases (h : q.late) :
    q.bare ∨ (∃ id req, q = .conn (.grubCheck id req)) ∨ q = .conn (.innerClose 1) ∨
      q.forcing = true := by
  cases q with
  | conn p =>
    cases p with
    | grubCheck id req => exact .inr (.inl ⟨id, req, rfl⟩)
    | innerClose ref =>
      obtain rfl : ref = 1 := h
      exact .inr (.inr (.inl rfl))
    | fcRead | fcWrite | fcReset => exact .inr (.inr (.inr rfl))
    | connReserve id | grub id req | sendRet c e => exact .inl h
    | _ => exact h.elim
  | resetType | resetRest => exact .inr (.inr (.inr rfl))
  | _ => exact h.elim

theorem SlotPc.fits_of_late (h : q.late) (hf : q.forcing = false) :
    q.fits ∧ q ≠ .conn .closeDrop := by
  rcases late_cases h with hb | ⟨id, req, rfl⟩ | rfl | hforce
  · obtain ⟨hfit, -, -, -, hne⟩ := bare_spec hb
    exact ⟨hfit, hne⟩
  · exact ⟨trivial, by rintro ⟨⟩⟩
  · exact ⟨.inl rfl, by rintro ⟨⟩⟩
  · rw [hf] at hforce
    cases hforce

theorem slotNext_conn (hres : ∀ id, p ≠ .connReserve id) (hfc : p ≠ .fcReset) :
    slotNext s (.conn p) = ((next s p).1, (next s p).2.map .conn) := by
  cases p with
  | connReserve id => exact absurd rfl (hres id)
  | fcReset => exact absurd rfl hfc
  | _ => rfl

theorem elim_map_refs (o : Option Pc) :
    (o.map SlotPc.conn).elim 0 SlotPc.refs = o.elim 0 Pc.refs := by
  cases o <;> rfl

theorem put_cons (o : Option SlotPc) (a : SlotPc) (R : Multiset SlotPc) :
    put o (a ::ₘ R) = a ::ₘ put o R := by
  cases o with
  | none => rfl
  | some b => exact Multiset.cons_swap b a R

/-! ## The life of a slot -/

/-- Nothing is in the slot but late threads. -/
structure Freed (s : Conn) (T : Multiset SlotPc) : Prop where
  id_eq : s.id = 0
  reads_eq : s.reads = 0
  sends_eq : s.sends = []
  owner_eq : s.owner = false
  late : ∀ q ∈ T, q.late
  pending_le : s.pending ≤ load SlotPc.refs T
  pending_eq : load SlotPc.refs T = 0 → (∀ q ∈ T, q.forcing = false) → s.pending = 0
  closing_eq : (∀ q ∈ T, q.forcing = false) → s.closing = false

/-- Inside `reserve_id` or `new_fd`; the store into `pending` is still to come. -/
def SlotPc.reserving : SlotPc → Bool
  | .reserveId _ | .reservePending _ | .newFd _ | .newId _ | .newPending _ => true
  | _ => false

/-- `q` has reserved the slot. -/
structure Reserving (s : Conn) (q : SlotPc) (R : Multiset SlotPc) : Prop where
  at_reserve : q.reserving = true
  reads_eq : s.reads = 0
  sends_eq : s.sends = []
  late : ∀ r ∈ R, r.late
  closing_eq : (∀ r ∈ R, r.forcing = false) → s.closing = false

/-- `q` is inside `start_connet` behind `new_fd`, and its own reference is still to come. -/
structure Creating (s : Conn) (q : SlotPc) (R : Multiset SlotPc) : Prop where
  stage : (∃ id, q = .conn (.connType id)) ∨
    s.type = .connecting ∧ ∃ id, q = .conn (.connInc id)
  reads_eq : s.reads = 0
  sends_eq : s.sends = []
  owner_eq : s.owner = true
  closing_eq : s.closing = false
  late : ∀ r ∈ R, r.late ∧ r.forcing = false
  count : excess s = load SlotPc.refs (q ::ₘ R)

structure Alive (s : Conn) (T : Multiset SlotPc) : Prop where
  type_ok : s.type = .connecting ∨ s.type = .connected
  count : excess s = load SlotPc.refs T
  fits : ∀ q ∈ T, q.fits
  /-- One `start_close` is about to release the owner's reference. -/
  drops : T.count (.conn .closeDrop) = if s.closing = true ∧ s.owner = true then 1 else 0
  open_owner : s.closing = false → s.owner = true

/-- `force_close` runs and nobody else has a reference. -/
structure Dying (s : Conn) (T : Multiset SlotPc) : Prop where
  id_ne : s.id ≠ 0
  type_ok : closable s.type = true
  pending_eq : s.pending = 0
  reads_eq : s.reads = 0
  sends_eq : s.sends = []
  owner_eq : s.owner = false
  forcing : ∃ q ∈ T, q.forcing = true
  rest : ∀ q ∈ T, (∃ p : Pc, q = .conn p ∧ p.forcing = true) ∨ q.bare

inductive Accounts (s : Conn) : Multiset SlotPc → Prop
  | freed (T : Multiset SlotPc) (h : Freed s T) : Accounts s T
  | reserving (q : SlotPc) (R : Multiset SlotPc) (h : Reserving s q R) : Accounts s (q ::ₘ R)
  | creating (q : SlotPc) (R : Multiset SlotPc) (h : Creating s q R) : Accounts s (q ::ₘ R)
  | alive (T : Multiset SlotPc) (h : Alive s T) : Accounts s T
  | dying (T : Multiset SlotPc) (h : Dying s T) : Accounts s T

theorem closable_of (ht : s.type = .connecting ∨ s.type = .connected) : closable s.type = true := by
  rcases ht with ht | ht <;> rw [ht] <;> rfl

/-! ## Steps on a socket that is alive -/

theorem Alive.owner_of_drop (h : Alive s (.conn .closeDrop ::ₘ R)) :
    s.closing = true ∧ s.owner = true := by
  have hd := h.drops
  rw [Multiset.count_cons_self] at hd
  by_contra hn
  rw [if_neg hn] at hd
  omega

/-- What a step that keeps count may change: it leaks nothing and leads on, or to `force_close` when
the old value of `pending` was not above what it drops. -/
structure Keeps (s : Conn) (p : Pc) (s' : Conn) (o : Option Pc) : Prop where
  type_ok : s'.type = .connecting ∨ s'.type = .connected
  leak_eq : leak s p = 0
  leads : ∀ p' ∈ o, p'.fits ∨ p' = .fcRead ∧ s'.pending ≤ 0

section Keeps

variable {p' : Pc} (ht : s'.type = .connecting ∨ s'.type = .connected) (hl : leak s p = 0)
include ht hl

theorem Keeps.on (hf : p'.fits) : Keeps s p s' (some p') := by
  refine ⟨ht, hl, ?_⟩
  rintro _ ⟨⟩
  exact .inl hf

theorem Keeps.returns : Keeps s p s' none := by
  refine ⟨ht, hl, ?_⟩
  rintro _ ⟨⟩

theorem Keeps.forces (hle : s'.pending ≤ 0) : Keeps s p s' (some .fcRead) := by
  refine ⟨ht, hl, ?_⟩
  rintro _ ⟨⟩
  exact .inr ⟨rfl, hle⟩

end Keeps

theorem next_alive (h : Alive s (.conn p ::ₘ R)) (hres : ∀ id, p ≠ .connReserve id)
    (hok : accounted s (.conn p) R) : Keeps s p (next s p).1 (next s p).2 := by
  have ht := h.type_ok
  have hp : p.fits := h.fits (.conn p) (Multiset.mem_cons_self _ R)
  cases p with
  | connReserve id => exact absurd rfl (hres id)
  | connType id | connInc id | fcRead | fcWrite | fcReset => exact hp.elim
  | connEx id => exact .returns ht rfl
  | push data | storeB c x | sentClear | sentReset | closeSet | grub id req =>
    exact .on ht rfl trivial
  | wsaSend c chunk => exact .on ht rfl rfl
  | grubCheck id req =>
    simp only [next]
    split
    · cases req <;> exact .on ht rfl trivial
    · exact .on ht rfl (.inl rfl)
  | cas c | loadB c | sentReadOk x sz | sentEmpty x =>
    simp only [next]
    split <;> exact .on ht rfl trivial
  | incReady c =>
    have h0 : s.ready = 0 := hok
    simp only [next, h0]
    exact .on ht rfl trivial
  | decReady c =>
    have h1 : s.ready - 1 > 0 := Int.sub_pos_of_lt hok
    simp only [next, if_pos h1]
    exact .on ht rfl trivial
  | pop c =>
    rcases hpop : s.wb.popFront s.mem with ⟨wb, _ | x⟩ <;> simp only [next, hpop] <;>
      exact .on ht rfl trivial
  | readBuf c =>
    simp only [next]
    split
    · exact .on ht rfl trivial
    · split <;> exact .on ht rfl trivial
  | sendRet c e =>
    obtain rfl : e = .noError := hp
    cases c <;> exact .returns ht rfl
  | sentLoad sz =>
    simp only [next]
    split <;> exact .on ht rfl trivial
  | sentGuard =>
    simp only [next, guard]
    split
    · exact .on ht rfl (.inr rfl)
    · exact .on ht rfl trivial
  | connDone => exact .on (.inr rfl) rfl trivial
  | connGuard =>
    have h1 : s.pending + 1 = 2 := by rw [show s.pending = 1 from hok]; rfl
    simp only [next, guard, if_pos h1]
    exact .on ht rfl (.inr rfl)
  | recvDone sz parsed =>
    simp only [next]
    split
    · exact .on ht rfl (.inl rfl)
    · cases parsed
      · exact .on ht rfl (.inl rfl)
      · exact .on ht rfl trivial
  | recvGuard =>
    simp only [next, guard]
    split
    · exact .on ht rfl (.inr rfl)
    · exact .on ht rfl rfl
  | recvArm c =>
    simp only [next]
    split <;> exact .on ht rfl hp
  | wsaRecv c => exact .on ht rfl hp
  | recvRet c =>
    obtain rfl : c = .onEvRecv := hp
    exact .returns ht rfl
  | closeType =>
    have hc : closable s.type = true := closable_of ht
    have hl : leak s .closeType = 0 := by simp [leak, hc]
    simp only [next, hc]
    exact .on ht hl trivial
  | closeTest =>
    simp only [next]
    split
    · exact .on ht rfl (.inl rfl)
    · exact .on ht rfl trivial
  | closeDrop =>
    have hl : leak s .closeDrop = 0 := by simp [leak, h.owner_of_drop.2]
    simp only [next, innerClose]
    split
    · next hle => exact .forces ht hl (Int.sub_nonpos_of_le hle)
    · exact .returns ht hl
  | innerClose ref =>
    simp only [next, innerClose]
    split
    · next hle => exact .forces ht rfl (Int.sub_nonpos_of_le hle)
    · exact .returns ht rfl

/-- Only `start_close` touches `closing` and the owner's reference. -/
theorem next_closing (hf : p.fits) (hres : ∀ id, p ≠ .connReserve id) (hset : p ≠ .closeSet)
    (hdrop : p ≠ .closeDrop) :
    (next s p).1.closing = s.closing ∧ (next s p).1.owner = s.owner ∧
      ∀ p' ∈ (next s p).2, p' ≠ .closeDrop := by
  cases p with
  | connReserve id => exact absurd rfl (hres id)
  | connType id | connInc id | fcRead | fcWrite | fcReset => exact hf.elim
  | connEx id => exact ⟨rfl, rfl, by rintro _ ⟨⟩⟩
  | closeSet => exact absurd rfl hset
  | closeDrop => exact absurd rfl hdrop
  | sendRet c e => cases c <;> exact ⟨rfl, rfl, by rintro _ ⟨⟩⟩
  | recvRet c => cases c <;> exact ⟨rfl, rfl, by rintro _ ⟨⟩⟩
  | pop c =>
    rcases hpop : s.wb.popFront s.mem with ⟨wb, _ | x⟩ <;> simp only [next, hpop] <;>
      exact ⟨by trivial, by trivial, by rintro _ ⟨⟩ ⟨⟩⟩
  | grub id req | push data | storeB c x | wsaSend c chunk | sentClear | sentReset | connDone
  | wsaRecv c => exact ⟨rfl, rfl, by rintro _ ⟨⟩ ⟨⟩⟩
  | grubCheck id req =>
    simp only [next]
    split
    · cases req <;> exact ⟨by trivial, by trivial, by rintro _ ⟨⟩ ⟨⟩⟩
    · exact ⟨by trivial, by trivial, by rintro _ ⟨⟩ ⟨⟩⟩
  | readBuf c =>
    simp only [next]
    split
    · exact ⟨by trivial, by trivial, by rintro _ ⟨⟩ ⟨⟩⟩
    · split <;> exact ⟨by trivial, by trivial, by rintro _ ⟨⟩ ⟨⟩⟩
  | recvDone sz parsed =>
    simp only [next]
    split
    · exact ⟨by trivial, by trivial, by rintro _ ⟨⟩ ⟨⟩⟩
    · cases parsed <;> exact ⟨by trivial, by trivial, by rintro _ ⟨⟩ ⟨⟩⟩
  | sentGuard | connGuard | recvGuard =>
    simp only [next, guard]
    split <;> exact ⟨by trivial, by trivial, by rintro _ ⟨⟩ ⟨⟩⟩
  | innerClose ref =>
    simp only [next, innerClose]
    split <;> exact ⟨by trivial, by trivial, by rintro _ ⟨⟩ ⟨⟩⟩
  | cas c | incReady c | loadB c | decReady c | sentLoad sz | sentReadOk x sz | sentEmpty x
  | recvArm c | closeType | closeTest =>
    simp only [next]
    split <;> exact ⟨by trivial, by trivial, by rintro _ ⟨⟩ ⟨⟩⟩

theorem count_put_other {o : Option SlotPc} {a : SlotPc} (ho : ∀ q' ∈ o, q' ≠ a) :
    (put o R).count a = R.count a := by
  cases o with
  | none => rfl
  | some q' => exact Multiset.count_cons_of_ne (ho q' rfl).symm R

theorem Alive.drops_next (h : Alive s (.conn p ::ₘ R)) (hres : ∀ id, p ≠ .connReserve id)
    (hok : accounted s (.conn p) R) :
    (put ((next s p).2.map SlotPc.conn) R).count (.conn .closeDrop) =
        (if (next s p).1.closing = true ∧ (next s p).1.owner = true then 1 else 0) ∧
      ((next s p).1.closing = false → (next s p).1.owner = true) := by
  have hd := h.drops
  by_cases hset : p = .closeSet
  · subst hset
    have hc : s.closing = false := hok
    have ho := h.open_owner hc
    rw [Multiset.count_cons_of_ne (by decide), if_neg (by simp [hc])] at hd
    refine ⟨?_, fun _ => ho⟩
    show Multiset.count (SlotPc.conn .closeDrop) (.conn .closeDrop ::ₘ R) =
      if true = true ∧ s.owner = true then 1 else 0
    rw [Multiset.count_cons_self, hd, if_pos ⟨rfl, ho⟩]
  by_cases hdrop : p = .closeDrop
  · subst hdrop
    obtain ⟨hc, ho⟩ := h.owner_of_drop
    rw [Multiset.count_cons_self, if_pos ⟨hc, ho⟩] at hd
    refine ⟨?_, fun hn => ?_⟩
    · rw [if_neg (by simp [next, innerClose])]
      simp only [next, innerClose]
      rw [count_put_other]
      · omega
      · split
        · rintro _ ⟨⟩ ⟨⟩
        · rintro _ ⟨⟩
    · simp [next, innerClose, hc] at hn
  · have hf : p.fits := h.fits (.conn p) (Multiset.mem_cons_self _ R)
    obtain ⟨hc, ho, hne⟩ := next_closing (s := s) hf hres hset hdrop
    have hneq : SlotPc.conn .closeDrop ≠ .conn p := fun e => hdrop (SlotPc.conn.inj e).symm
    rw [Multiset.count_cons_of_ne hneq] at hd
    rw [hc, ho, count_put_other]
    · exact ⟨hd, h.open_owner⟩
    · rintro q' hq' rfl
      obtain ⟨p', hp', he⟩ := Option.map_eq_some_iff.mp hq'
      exact hne p' hp' (SlotPc.conn.inj he)

/-- A socket whose last reference is gone. -/
theorem Dying.or_freed (ht : s.type = .connecting ∨ s.type = .connected) (hp : s.pending = 0)
    (hr : s.reads = 0) (hs : s.sends = []) (ho : s.owner = false) (hb : ∀ q ∈ R, q.bare) :
    Accounts s (.conn .fcRead ::ₘ R) := by
  have hmem : SlotPc.conn .fcRead ∈ SlotPc.conn .fcRead ::ₘ R := Multiset.mem_cons_self _ _
  by_cases hid : s.id = 0
  · have hlate : ∀ q ∈ SlotPc.conn .fcRead ::ₘ R, q.late :=
      Multiset.forall_mem_cons.mpr ⟨trivial, fun q hq => (SlotPc.bare_spec (hb q hq)).2.1⟩
    refine .freed _ ⟨hid, hr, hs, ho, hlate, ?_, fun _ hn => ?_, fun hn => ?_⟩
    · rw [hp]
      exact load_nonneg SlotPc.refs_nonneg _
    · cases hn _ hmem
    · cases hn _ hmem
  · exact .dying _ ⟨hid, closable_of ht, hp, hr, hs, ho, ⟨_, hmem, rfl⟩,
      Multiset.forall_mem_cons.mpr ⟨.inl ⟨_, rfl, rfl⟩, fun q hq => .inr (hb q hq)⟩⟩

/-- **One step on a socket that is alive** keeps the count, or enters `force_close` as the last one
with a reference. -/
theorem Alive.thread (h : Alive s (q ::ₘ R)) (hok : accounted s q R) :
    Accounts (slotNext s q).1 (put (slotNext s q).2 R) := by
  obtain ⟨p, rfl⟩ : ∃ p, q = .conn p := by
    have hf := h.fits q (Multiset.mem_cons_self q R)
    cases q with
    | conn p => exact ⟨p, rfl⟩
    | _ => exact hf.elim
  have hf : p.fits := h.fits (.conn p) (Multiset.mem_cons_self _ R)
  by_cases hres : ∃ id, p = .connReserve id
  · -- `reserve_id` finds the slot taken.
    obtain ⟨id, rfl⟩ := hres
    have hne : s.type ≠ .reserve := by
      rcases h.type_ok with ht | ht <;> rw [ht] <;> decide
    simp only [slotNext, if_neg hne]
    refine .alive R ⟨h.type_ok, ?_, fun q hq => h.fits q (Multiset.mem_cons_of_mem hq), ?_,
      h.open_owner⟩
    · have := h.count
      rw [load_cons] at this
      simpa [SlotPc.refs, Pc.refs] using this
    · have := h.drops
      rwa [Multiset.count_cons_of_ne (by rintro ⟨⟩)] at this
  have hres : ∀ id, p ≠ .connReserve id := fun id e => hres ⟨id, e⟩
  have hfc : p ≠ .fcReset := by
    rintro rfl
    exact hf
  rw [slotNext_conn hres hfc]
  obtain ⟨ht, hl, hp⟩ := next_alive h hres hok
  obtain ⟨hd, ho⟩ := h.drops_next hres hok
  have hbal := balance_next s p hres hfc
  have hcount : excess (next s p).1 = load SlotPc.refs (put ((next s p).2.map .conn) R) := by
    have := h.count
    rw [load_cons] at this
    rw [load_put, elim_map_refs]
    simp only [SlotPc.refs] at this
    omega
  by_cases hforce : (next s p).2 = some .fcRead
  · have hle : (next s p).1.pending ≤ 0 := (hp _ hforce).elim (fun h => h.elim) And.right
    rw [hforce] at hcount ⊢
    have hR := load_nonneg SlotPc.refs_nonneg R
    simp only [Option.map_some, put, load_cons, excess, SlotPc.refs, Pc.refs] at hcount
    have howner : (next s p).1.owner = false := by
      cases howner : (next s p).1.owner with
      | false => rfl
      | true =>
        rw [howner, Bool.toNat_true] at hcount
        omega
    rw [howner, Bool.toNat_false] at hcount
    show Accounts (next s p).1 (.conn .fcRead ::ₘ R)
    refine Dying.or_freed ht (by omega) (by omega) (List.length_eq_zero_iff.mp (by omega)) howner
      fun r hr => SlotPc.bare_of_fits (h.fits r (Multiset.mem_cons_of_mem hr)) ?_
    exact load_eq_zero SlotPc.refs_nonneg (by omega) r hr
  · refine .alive _ ⟨ht, hcount, fun r hr => ?_, hd, ho⟩
    rcases mem_put.mp hr with hr | hr
    · obtain ⟨p', hp', rfl⟩ := Option.map_eq_some_iff.mp hr
      exact (hp p' hp').resolve_right fun e => hforce (by rw [← e.1]; exact hp')
    · exact h.fits r (Multiset.mem_cons_of_mem hr)

/-! ## Steps of the threads that find no socket -/

/-- What such a step may change. The last one that drops a reference goes on to `force_close`. -/
structure Passes (s : Conn) (q : SlotPc) (s' : Conn) (o : Option SlotPc) : Prop where
  reads_eq : s'.reads = s.reads
  sends_eq : s'.sends = s.sends
  owner_eq : s'.owner = s.owner
  id_eq : s'.id = s.id ∨ s'.id = 0
  type_eq : q.forcing = false → s'.type = s.type
  late : ∀ q' ∈ o, q'.late
  count : s'.pending - o.elim 0 SlotPc.refs ≤ s.pending - q.refs ∨ s'.pending = 0 ∧ o = none
  settled : (∀ q' ∈ o, q'.refs = 0 ∧ q'.forcing = false) → s'.pending = 0 ∨ 0 < s'.pending ∨
    s'.pending = s.pending ∧ q.refs = 0 ∧ q.forcing = false
  closed : (∀ q' ∈ o, q'.forcing = false) →
    s'.closing = false ∨ s'.closing = s.closing ∧ q.forcing = false

theorem Passes.leads {s' : Conn} (hr : s'.reads = s.reads) (hs : s'.sends = s.sends)
    (ho : s'.owner = s.owner) (hi : s'.id = s.id ∨ s'.id = 0)
    (ht : q.forcing = false → s'.type = s.type) (hc : s'.closing = s.closing) (hl : q'.late)
    (hcount : s'.pending - q'.refs ≤ s.pending - q.refs) (hq' : q'.refs ≠ 0 ∨ q'.forcing = true)
    (hf : q'.forcing = false → q.forcing = false) : Passes s q s' (some q') := by
  refine ⟨hr, hs, ho, hi, ht, ?_, .inl hcount, fun hz => ?_, fun hz => ?_⟩
  · rintro _ ⟨⟩
    exact hl
  · obtain ⟨h0, hforce⟩ := hz q' rfl
    rcases hq' with hne | htrue
    · exact absurd h0 hne
    · rw [hforce] at htrue
      cases htrue
  · exact .inr ⟨hc, hf (hz q' rfl)⟩

theorem slotNext_late (hq : q.late)
    (hmiss : ∀ id req, q = .conn (.grubCheck id req) → ¬(s.type ≠ .invalid ∧ s.id = id))
    (hres : ∀ id, q = .conn (.connReserve id) → s.type ≠ .reserve) :
    Passes s q (slotNext s q).1 (slotNext s q).2 := by
  have hsame : q.refs = 0 → q.forcing = false → Passes s q s none := fun h0 hf =>
    ⟨rfl, rfl, rfl, .inl rfl, fun _ => rfl, by rintro _ ⟨⟩, .inl (by simp [h0]),
      fun _ => .inr (.inr ⟨rfl, h0, hf⟩), fun _ => .inr ⟨rfl, hf⟩⟩
  have hforcing : ∀ {P : Prop}, true = false → P := fun h => absurd h (by decide)
  cases q with
  | conn p =>
    cases p with
    | connReserve id =>
      simp only [slotNext, if_neg (hres id rfl)]
      exact hsame rfl rfl
    | grub id req =>
      refine .leads rfl rfl rfl (.inl rfl) (fun _ => rfl) rfl trivial ?_ (.inl Int.one_ne_zero)
        fun _ => rfl
      show s.pending + 1 - 1 ≤ s.pending - 0
      omega
    | grubCheck id req =>
      simp only [slotNext, next, if_neg (hmiss id req rfl)]
      exact .leads rfl rfl rfl (.inl rfl) (fun _ => rfl) rfl rfl le_rfl (.inl Int.one_ne_zero)
        fun _ => rfl
    | sendRet c e =>
      obtain ⟨rfl, rfl⟩ : c = .startSend ∧ e = .noError := by
        cases c <;> cases e <;> first | exact ⟨rfl, rfl⟩ | exact hq.elim
      exact hsame rfl rfl
    | innerClose ref =>
      obtain rfl : ref = 1 := hq
      simp only [slotNext, next, innerClose]
      split
      · refine .leads rfl rfl rfl (.inl rfl) (fun _ => rfl) rfl trivial ?_ (.inr rfl) hforcing
        show s.pending - 1 - 0 ≤ s.pending - 1
        omega
      · next hgt =>
        refine ⟨rfl, rfl, rfl, .inl rfl, fun _ => rfl, by rintro _ ⟨⟩, .inl ?_,
          fun _ => .inr (.inl ?_), fun _ => .inr ⟨rfl, rfl⟩⟩
        · show s.pending - 1 - 0 ≤ s.pending - 1
          omega
        · show 0 < s.pending - 1
          omega
    | fcRead | fcWrite =>
      exact .leads rfl rfl rfl (.inl rfl) hforcing rfl trivial le_rfl (.inr rfl) hforcing
    | fcReset => exact .leads rfl rfl rfl (.inr rfl) hforcing rfl trivial le_rfl (.inr rfl) hforcing
    | _ => exact hq.elim
  | resetType => exact .leads rfl rfl rfl (.inl rfl) hforcing rfl trivial le_rfl (.inr rfl) hforcing
  | resetRest =>
    exact ⟨rfl, rfl, rfl, .inl rfl, hforcing, by rintro _ ⟨⟩, .inr ⟨rfl, rfl⟩,
      fun _ => .inl rfl, fun _ => .inl rfl⟩
  | _ => exact hq.elim

/-- No call finds a socket where none has been created. -/
theorem grubCheck_misses (hok : accounted s q R) (h : s.id = 0 ∨ ∃ r ∈ R, r.opening = true) :
    ∀ id req, q = .conn (.grubCheck id req) → ¬(s.type ≠ .invalid ∧ s.id = id) := by
  rintro id req rfl hfound
  obtain ⟨hne, hnone⟩ := hok hfound
  rcases h with h | ⟨r, hr, hopen⟩
  · exact hne (hfound.2.symm.trans h)
  · rw [hnone r hr] at hopen
    cases hopen

/-- Nor does `reserve_id` find the slot free. -/
theorem connReserve_taken (hok : accounted s q R) {r : SlotPc} (hr : r ∈ R) (hopen : r.opening = true) :
    ∀ id, q = .conn (.connReserve id) → s.type ≠ .reserve := by
  rintro id rfl ht
  rw [hok ht r hr] at hopen
  cases hopen

theorem Freed.thread (h : Freed s (q ::ₘ R)) (hok : accounted s q R) :
    Accounts (slotNext s q).1 (put (slotNext s q).2 R) := by
  have hq := h.late q (Multiset.mem_cons_self q R)
  have hrest : ∀ r ∈ R, r.late := fun r hr => h.late r (Multiset.mem_cons_of_mem hr)
  by_cases htake : ∃ id, q = .conn (.connReserve id) ∧ s.type = .reserve
  · obtain ⟨id, rfl, ht⟩ := htake
    simp only [slotNext, if_pos ht]
    exact .reserving _ _ ⟨rfl, h.reads_eq, h.sends_eq, hrest,
      fun hn => h.closing_eq (Multiset.forall_mem_cons.mpr ⟨rfl, hn⟩)⟩
  obtain ⟨hr, hs, ho, hi, -, hlate, hcount, hsettled, hclosed⟩ := slotNext_late hq
    (grubCheck_misses hok (.inl h.id_eq)) fun id e ht => htake ⟨id, e, ht⟩
  have hR := load_nonneg SlotPc.refs_nonneg R
  have hle := h.pending_le
  rw [load_cons] at hle
  have hle' : (slotNext s q).1.pending ≤ load SlotPc.refs (put (slotNext s q).2 R) := by
    rw [load_put]
    rcases hcount with hcount | ⟨hzero, hnone⟩
    · omega
    · rw [hzero, hnone]
      simpa using hR
  have hforce : ∀ {o : Option SlotPc}, (∀ r ∈ put o R, r.forcing = false) →
      (∀ r ∈ o, r.forcing = false) ∧ ∀ r ∈ R, r.forcing = false := fun hn =>
    ⟨fun r hr => hn r (mem_put.mpr (.inl hr)), fun r hr => hn r (mem_put.mpr (.inr hr))⟩
  refine .freed _ ⟨?_, hr.trans h.reads_eq, hs.trans h.sends_eq, ho.trans h.owner_eq,
    fun r hr => ?_, hle', fun h0 hn => ?_, fun hn => ?_⟩
  · exact hi.elim (fun e => e.trans h.id_eq) id
  · exact (mem_put.mp hr).elim (hlate r) (hrest r)
  · have hz : ∀ r ∈ (slotNext s q).2, r.refs = 0 ∧ r.forcing = false := fun r hr =>
      ⟨load_eq_zero SlotPc.refs_nonneg h0 r (mem_put.mpr (.inl hr)), (hforce hn).1 r hr⟩
    rcases hsettled hz with hzero | hpos | ⟨hsame, hrefs, hqf⟩
    · exact hzero
    · omega
    · rw [hsame]
      refine h.pending_eq ?_ (Multiset.forall_mem_cons.mpr ⟨hqf, (hforce hn).2⟩)
      have hnew : (slotNext s q).2.elim 0 SlotPc.refs = 0 := by
        cases ho : (slotNext s q).2 with
        | none => rfl
        | some r => exact (hz r ho).1
      rw [load_put, hnew] at h0
      rw [load_cons, hrefs, h0]
  · rcases hclosed (hforce hn).1 with hfalse | ⟨hsame, hqf⟩
    · exact hfalse
    · rw [hsame]
      exact h.closing_eq (Multiset.forall_mem_cons.mpr ⟨hqf, (hforce hn).2⟩)

/-- The thread that has reserved the slot. -/
theorem Reserving.own (h : Reserving s q R) (hok : accounted s q R) :
    Accounts (slotNext s q).1 (put (slotNext s q).2 R) := by
  obtain ⟨hat, hr, hs, hlate, hc⟩ := h
  cases q with
  | reserveId id | reservePending id | newId id =>
    exact .reserving _ _ ⟨rfl, hr, hs, hlate, hc⟩
  | newFd id =>
    refine .reserving _ _ ⟨?_, hr, hs, hlate, hc⟩
    split <;> rfl
  | newPending id =>
    have hzero : load SlotPc.refs R = 0 :=
      Multiset.sum_eq_zero fun x hx => by
        obtain ⟨r, hr, rfl⟩ := Multiset.mem_map.mp hx
        exact (hok r hr).1
    refine .creating _ _ ⟨.inl ⟨id, rfl⟩, hr, hs, rfl, hc fun r hr => (hok r hr).2,
      fun r hr => ⟨hlate r hr, (hok r hr).2⟩, ?_⟩
    rw [load_cons, hzero]
    simp [slotNext, excess, SlotPc.refs, Pc.refs, hr, hs]
  | _ => cases hat

/-- A thread beside the one that has reserved the slot. -/
theorem Reserving.other (h : Reserving s q' (q ::ₘ R)) (hok : accounted s q (q' ::ₘ R)) :
    Accounts (slotNext s q).1 (q' ::ₘ put (slotNext s q).2 R) := by
  obtain ⟨hat, hr, hs, hlate, hc⟩ := h
  have hq := hlate q (Multiset.mem_cons_self q R)
  have hopen : q'.opening = true := by
    cases q' with
    | conn p => cases hat
    | resetType | resetRest => cases hat
    | _ => rfl
  have hmem : q' ∈ q' ::ₘ R := Multiset.mem_cons_self _ _
  obtain ⟨hr', hs', -, -, -, hlate', -, -, hclosed⟩ :=
    slotNext_late hq (grubCheck_misses hok (.inr ⟨q', hmem, hopen⟩)) (connReserve_taken hok hmem hopen)
  refine .reserving _ _ ⟨hat, hr'.trans hr, hs'.trans hs, fun r hr => ?_,
    fun hn => ?_⟩
  · exact (mem_put.mp hr).elim (hlate' r) fun hr => hlate r (Multiset.mem_cons_of_mem hr)
  · rcases hclosed fun r hr => hn r (mem_put.mpr (.inl hr)) with hfalse | ⟨hsame, hqf⟩
    · exact hfalse
    · rw [hsame]
      exact hc (Multiset.forall_mem_cons.mpr ⟨hqf, fun r hr => hn r (mem_put.mpr (.inr hr))⟩)

theorem Creating.opening (h : Creating s q R) : q.opening = true := by
  rcases h.stage with ⟨id, rfl⟩ | ⟨-, id, rfl⟩ <;> rfl

/-- The thread that creates the socket. -/
theorem Creating.own (h : Creating s q R) :
    Accounts (slotNext s q).1 (put (slotNext s q).2 R) := by
  obtain ⟨hstage, hr, hs, ho, hc, hlate, hcount⟩ := h
  rw [load_cons] at hcount
  rcases hstage with ⟨id, rfl⟩ | ⟨ht, id, rfl⟩
  · refine .creating _ _ ⟨.inr ⟨rfl, id, rfl⟩, hr, hs, ho, hc, hlate, ?_⟩
    rw [load_cons]
    exact hcount
  · have hfits : ∀ r ∈ R, r.fits := fun r hr =>
      (SlotPc.fits_of_late (hlate r hr).1 (hlate r hr).2).1
    refine .alive _ ⟨.inl ht, ?_, Multiset.forall_mem_cons.mpr ⟨trivial, hfits⟩, ?_, fun _ => ho⟩
    · simp only [excess, SlotPc.refs, Pc.refs] at hcount
      simp only [slotNext, next, Option.map_some, put, load_cons, excess, SlotPc.refs, Pc.refs]
      omega
    · have hno : SlotPc.conn .closeDrop ∉ R := fun hr =>
        (SlotPc.fits_of_late (hlate _ hr).1 (hlate _ hr).2).2 rfl
      have hzero := Multiset.count_eq_zero_of_notMem hno
      simp [slotNext, next, put, hc, Multiset.count_cons_of_ne, hzero]

/-- Where the owner's reference stays, none of these threads is the last one. -/
theorem slotNext_early (hq : q.late) (hqf : q.forcing = false)
    (hmisses : ∀ id req, q = .conn (.grubCheck id req) → ¬(s.type ≠ .invalid ∧ s.id = id))
    (htaken : ∀ id, q = .conn (.connReserve id) → s.type ≠ .reserve)
    (hlast : q = .conn (.innerClose 1) → 1 < s.pending) :
    (∀ r ∈ (slotNext s q).2, r.forcing = false) ∧
      excess (slotNext s q).1 - (slotNext s q).2.elim 0 SlotPc.refs = excess s - q.refs := by
  rcases SlotPc.late_cases hq with hb | ⟨id, req, rfl⟩ | rfl | hforce
  · rcases SlotPc.bare_cases hb with ⟨id, rfl⟩ | ⟨id, req, rfl⟩ | rfl
    · simp [slotNext, htaken id rfl, SlotPc.refs, Pc.refs]
    · refine ⟨by rintro _ ⟨⟩; rfl, ?_⟩
      simp only [slotNext, next, Option.map_some, Option.elim_some, excess, SlotPc.refs, Pc.refs]
      omega
    · exact ⟨by rintro _ ⟨⟩, rfl⟩
  · simp only [slotNext, next, if_neg (hmisses id req rfl)]
    exact ⟨by rintro _ ⟨⟩; rfl, rfl⟩
  · have hgt : ¬ s.pending ≤ 1 := not_le.mpr (hlast rfl)
    simp only [slotNext, next, innerClose, Nat.cast_one, if_neg hgt]
    refine ⟨by rintro _ ⟨⟩, ?_⟩
    simp only [Option.map_none, Option.elim_none, excess, SlotPc.refs, Pc.refs]
    push_cast
    omega
  · rw [hqf] at hforce
    cases hforce

/-- A thread beside the one that creates the socket takes and drops its own reference. -/
theorem Creating.other (h : Creating s q' (q ::ₘ R)) (hok : accounted s q (q' ::ₘ R)) :
    Accounts (slotNext s q).1 (q' ::ₘ put (slotNext s q).2 R) := by
  have hopen := h.opening
  obtain ⟨hstage, hr, hs, ho, hc, hlate, hcount⟩ := h
  obtain ⟨hq, hqf⟩ := hlate q (Multiset.mem_cons_self q R)
  have hmem : q' ∈ q' ::ₘ R := Multiset.mem_cons_self _ _
  have htaken := connReserve_taken hok hmem hopen
  have hmisses := grubCheck_misses hok (.inr ⟨q', hmem, hopen⟩)
  have hpass := slotNext_late hq hmisses htaken
  rw [load_cons, load_cons] at hcount
  have hR := load_nonneg SlotPc.refs_nonneg R
  have hq' := q'.refs_nonneg
  have hlast : q = .conn (.innerClose 1) → 1 < s.pending := by
    rintro rfl
    simp only [excess, SlotPc.refs, Pc.refs, hr, hs, ho, List.length_nil, Bool.toNat_true,
      Nat.cast_one] at hcount hq'
    push_cast at hcount
    omega
  obtain ⟨hforce, hbal⟩ := slotNext_early hq hqf hmisses htaken hlast
  refine .creating _ _ ⟨?_, hpass.reads_eq.trans hr, hpass.sends_eq.trans hs,
    hpass.owner_eq.trans ho, ?_, fun r hr => ?_, ?_⟩
  · exact hstage.imp_right (And.imp_left (hpass.type_eq hqf).trans)
  · exact (hpass.closed hforce).elim id fun h => h.1.trans hc
  · rcases mem_put.mp hr with hr | hr
    · exact ⟨hpass.late r hr, hforce r hr⟩
    · exact hlate r (Multiset.mem_cons_of_mem hr)
  · rw [load_cons, load_put]
    omega

/-- Whether it is the thread that opens the socket or another one that moves. -/
theorem thread_beside {q₀ : SlotPc} {R₀ : Multiset SlotPc} (he : q₀ ::ₘ R₀ = q ::ₘ R) :
    q₀ = q ∧ R₀ = R ∨ ∃ R', R₀ = q ::ₘ R' ∧ R = q₀ ::ₘ R' := by
  rcases Multiset.cons_eq_cons.mp he with ⟨hq, hR⟩ | ⟨-, R', hR₀, hR⟩
  · exact .inl ⟨hq, hR⟩
  · exact .inr ⟨R', hR₀, hR⟩

/-! ## Steps on a socket that is torn down -/

theorem Dying.thread (h : Dying s (q ::ₘ R)) (hok : accounted s q R) :
    Accounts (slotNext s q).1 (put (slotNext s q).2 R) := by
  have hrest : ∀ r ∈ R, (∃ p : Pc, r = .conn p ∧ p.forcing = true) ∨ r.bare :=
    fun r hr => h.rest r (Multiset.mem_cons_of_mem hr)
  have hbeside : q.forcing = false → ∃ r ∈ R, r.forcing = true := fun hq => by
    obtain ⟨f, hf, hff⟩ := h.forcing
    rcases Multiset.mem_cons.mp hf with rfl | hf
    · rw [hq] at hff
      cases hff
    · exact ⟨f, hf, hff⟩
  have hleaves : q.forcing = false → Accounts s R := fun hq =>
    .dying _ ⟨h.id_ne, h.type_ok, h.pending_eq, h.reads_eq, h.sends_eq, h.owner_eq, hbeside hq,
      hrest⟩
  rcases h.rest q (Multiset.mem_cons_self q R) with ⟨p, rfl, hp⟩ | hq
  · cases p with
    | fcRead | fcWrite =>
      exact .dying _ ⟨h.id_ne, h.type_ok, h.pending_eq, h.reads_eq, h.sends_eq, h.owner_eq,
        ⟨_, Multiset.mem_cons_self _ _, rfl⟩,
        Multiset.forall_mem_cons.mpr ⟨.inl ⟨_, rfl, rfl⟩, hrest⟩⟩
    | fcReset =>
      have hmem : SlotPc.resetType ∈ SlotPc.resetType ::ₘ R := Multiset.mem_cons_self _ _
      have hlate : ∀ r ∈ R, r.late := fun r hr => by
        rcases hrest r hr with ⟨p, rfl, hp⟩ | hb
        · cases p <;> trivial
        · exact (SlotPc.bare_spec hb).2.1
      refine .freed _ ⟨rfl, h.reads_eq, h.sends_eq, h.owner_eq,
        Multiset.forall_mem_cons.mpr ⟨trivial, hlate⟩, ?_, fun _ hn => ?_, fun hn => ?_⟩
      · exact h.pending_eq.le.trans (load_nonneg SlotPc.refs_nonneg _)
      · cases hn _ hmem
      · cases hn _ hmem
    | _ => cases hp
  · rcases SlotPc.bare_cases hq with ⟨id, rfl⟩ | ⟨id, req, rfl⟩ | rfl
    · have hne : s.type ≠ .reserve := by
        intro ht
        have hclos := h.type_ok
        rw [ht] at hclos
        cases hclos
      simp only [slotNext, if_neg hne]
      exact hleaves rfl
    · -- The step is not admitted while `force_close` runs.
      obtain ⟨f, hf, hff⟩ := hbeside rfl
      rcases hok with h0 | htype | hnone
      · exact absurd h0 h.id_ne
      · rw [h.type_ok] at htype
        cases htype
      · rw [hnone f hf] at hff
        cases hff
    · exact hleaves rfl

theorem Accounts.thread (h : Accounts s (q ::ₘ R)) (hok : accounted s q R) :
    Accounts (slotNext s q).1 (put (slotNext s q).2 R) := by
  generalize hT : q ::ₘ R = T at h
  cases h with
  | freed T h =>
    subst hT
    exact h.thread hok
  | alive T h =>
    subst hT
    exact h.thread hok
  | dying T h =>
    subst hT
    exact h.thread hok
  | reserving q₀ R₀ h =>
    rcases thread_beside hT.symm with ⟨rfl, rfl⟩ | ⟨R', rfl, rfl⟩
    · exact h.own hok
    · rw [put_cons]
      exact h.other hok
  | creating q₀ R₀ h =>
    rcases thread_beside hT.symm with ⟨rfl, rfl⟩ | ⟨R', rfl, rfl⟩
    · exact h.own
    · rw [put_cons]
      exact h.other hok

/-! ## Calls and completions -/

/-- A call that begins holds no reference, wherever the slot is. -/
theorem Accounts.call (h : Accounts s T) (hq : q.bare) : Accounts s (q ::ₘ T) := by
  obtain ⟨hfits, hlate, hrefs, hforce, hne⟩ := SlotPc.bare_spec hq
  have hback : ∀ {T : Multiset SlotPc}, (∀ r ∈ q ::ₘ T, r.forcing = false) →
      ∀ r ∈ T, r.forcing = false := fun hn r hr => hn r (Multiset.mem_cons_of_mem hr)
  cases h with
  | freed T h =>
    refine .freed _ ⟨h.id_eq, h.reads_eq, h.sends_eq, h.owner_eq,
      Multiset.forall_mem_cons.mpr ⟨hlate, h.late⟩, ?_,
      fun h0 hn => ?_, fun hn => h.closing_eq (hback hn)⟩
    · rw [load_cons, hrefs, zero_add]
      exact h.pending_le
    · rw [load_cons, hrefs, zero_add] at h0
      exact h.pending_eq h0 (hback hn)
  | reserving q₀ R h =>
    rw [Multiset.cons_swap]
    exact .reserving _ _ ⟨h.at_reserve, h.reads_eq, h.sends_eq,
      Multiset.forall_mem_cons.mpr ⟨hlate, h.late⟩,
      fun hn => h.closing_eq (hback hn)⟩
  | creating q₀ R h =>
    rw [Multiset.cons_swap]
    refine .creating _ _ ⟨h.stage, h.reads_eq, h.sends_eq, h.owner_eq, h.closing_eq,
      Multiset.forall_mem_cons.mpr ⟨⟨hlate, hforce⟩, h.late⟩, ?_⟩
    have hcount := h.count
    rw [load_cons] at hcount
    rw [load_cons, load_cons, hrefs, zero_add, hcount]
  | alive T h =>
    refine .alive _ ⟨h.type_ok, ?_, Multiset.forall_mem_cons.mpr ⟨hfits, h.fits⟩, ?_, h.open_owner⟩
    · rw [load_cons, hrefs, zero_add]
      exact h.count
    · rw [Multiset.count_cons_of_ne hne.symm]
      exact h.drops
  | dying T h =>
    obtain ⟨f, hf, hff⟩ := h.forcing
    exact .dying _ ⟨h.id_ne, h.type_ok, h.pending_eq, h.reads_eq, h.sends_eq, h.owner_eq,
      ⟨f, Multiset.mem_cons_of_mem hf, hff⟩, Multiset.forall_mem_cons.mpr ⟨.inr hq, h.rest⟩⟩

/-- What begins is a call, or the completion of an outstanding operation. -/
theorem start_cases (hs : Start s s' p) :
    s' = s ∧ (∃ id req, p = .grub id req) ∨ 0 < s.reads ∨ s.sends ≠ [] := by
  cases hs with
  | startSend data hid hne hlen => exact .inl ⟨rfl, _, _, rfl⟩
  | startClose hid => exact .inl ⟨rfl, _, _, rfl⟩
  | connected hr hc => exact .inr (.inl hr)
  | received sz parsed hr hc => exact .inr (.inl hr)
  | sentOut chunk sz hmem hpos hle => exact .inr (.inr (List.ne_nil_of_mem hmem))

theorem Alive.start (h : Alive s T) (hs : Start s s' p) : Alive s' (.conn p ::ₘ T) := by
  have hbal := balance_start hs
  have hsame : s'.type = s.type ∧ s'.owner = s.owner ∧ s'.closing = s.closing ∧ p.fits ∧
      p ≠ .closeDrop := by
    cases hs <;> exact ⟨rfl, rfl, rfl, trivial, by rintro ⟨⟩⟩
  obtain ⟨ht, ho, hc, hp, hne⟩ := hsame
  refine ⟨ht ▸ h.type_ok, ?_, Multiset.forall_mem_cons.mpr ⟨hp, h.fits⟩, ?_, ?_⟩
  · have hcount := h.count
    rw [load_cons]
    simp only [SlotPc.refs]
    omega
  · rw [Multiset.count_cons_of_ne fun e => hne (SlotPc.conn.inj e).symm, hc, ho]
    exact h.drops
  · rw [hc, ho]
    exact h.open_owner

theorem Accounts.start (h : Accounts s T) (hs : SlotStart s s' q) : Accounts s' (q ::ₘ T) := by
  cases hs with
  | connect id => exact h.call trivial
  | call id req => exact h.call trivial
  | conn _ p hs =>
    rcases start_cases hs with ⟨rfl, id, req, rfl⟩ | hout
    · exact h.call trivial
    have hbusy : ∀ {P : Prop}, s.reads = 0 → s.sends = [] → P := fun hr hse => by
      rcases hout with hpos | hne
      · omega
      · exact absurd hse hne
    cases h with
    | freed T h => exact hbusy h.reads_eq h.sends_eq
    | reserving q R h => exact hbusy h.reads_eq h.sends_eq
    | creating q R h => exact hbusy h.reads_eq h.sends_eq
    | alive T h => exact .alive _ (h.start hs)
    | dying T h => exact hbusy h.reads_eq h.sends_eq

/-! ## Whole runs -/

def unusedConn : Conn where
  id := 0
  type := .reserve
  pending := 0
  closing := false
  rdCall := .eventConnect
  rdReady := 0
  ready := 0
  b := none
  wb := ⟨none, none⟩
  wByte := 0
  mem := fun _ => default
  fresh := 0
  reads := 0
  sends := []
  given := 0
  owner := false
  pushed := []
  sent := []

end HoNet.SocketServer
