import HoNet.CoreSocket.RefCount

/-!
# The slots of unaccepted sockets in `coresocket.c`

`ev_listen_start` reserves a slot for the socket that the next connection will use, and its completion
has to dispose of it. On success `on_ev_listen` makes it a connection; on failure it only reports, and
`ev_listen_start` puts a new socket in the context, so the old one stays reserved for ever.

* `Effect` — what a step does to the types, the accepts and the socket a thread has in hand.
* `Tracked` — every slot of type `SOCKET_TYPE_PLISTEN` is in one hand or in one accept.
* `Lost.step`, `Lost.start` — a slot that is in none is lost for ever.
* `no_slot_leaks_iff` — the runs after which no slot is lost.
-/

namespace HoNet.CoreSocket

open HoNet.Pool

/-- The steps with which the assertions of `new_fd` and `resetfd` hold: `reserve_id` finds a slot, and
`AcceptEx` does not fail at once. -/
def asserted (s : Server) (p : Pc) (_ : Multiset Pc) : Prop :=
  match p with
  | .lisOpen _ _ _ | .conOpen _ => Reserves s
  | .lisSock _ _ _ io => io ≠ .noSocket → Reserves s
  | .lisAccept _ _ _ io _ => io ≠ .noAccept
  | _ => True

/-- `on_ev_listen` runs for an accept that has failed. -/
def Pc.failed : Pc → Bool
  | .accDone _ _ _ ok _ _ => !ok
  | _ => false

/-- The steps that dispose of the socket they have. -/
def disposing (s : Server) (p : Pc) (R : Multiset Pc) : Prop := asserted s p R ∧ p.failed = false

instance decidableAsserted (s : Server) (R : Multiset Pc) : (p : Pc) → Decidable (asserted s p R)
  | .lisOpen .. | .conOpen .. => inferInstanceAs (Decidable (Reserves s))
  | .lisSock _ _ _ io => inferInstanceAs (Decidable (io ≠ .noSocket → Reserves s))
  | .lisAccept _ _ _ io _ => inferInstanceAs (Decidable (io ≠ .noAccept))
  | .lisAdd .. | .conInc .. | .conEx .. | .connDone .. | .recvDone .. | .recvAdd .. | .recvArm ..
  | .recvCall .. | .accDone .. | .accInc .. | .accReady .. | .grub .. | .grubCheck .. | .closeType ..
  | .closeTest .. | .closeSet .. | .delref .. | .release .. | .fcRead .. | .fcWrite .. => isTrue trivial

instance (s : Server) (p : Pc) (R : Multiset Pc) : Decidable (disposing s p R) :=
  inferInstanceAs (Decidable (_ ∧ _))

/-! ## What a step does -/

/-- The unaccepted socket that a thread has in hand. -/
def Pc.newsock : Pc → Option Nat
  | .lisAccept _ _ _ _ j | .accDone _ _ j _ _ _ => some j
  | _ => none

/-- The connection that a thread works on. -/
def Pc.conn : Pc → Option Nat
  | .conInc i _ | .conEx i _ | .connDone i _ _ | .recvDone i _ _ => some i
  | .recvAdd i _ _ | .recvArm i _ _ | .recvCall i _ _ => some i
  | .accInc _ _ j _ _ => some j
  | _ => none

def SocketType.isConn : SocketType → Bool
  | .connecting | .connected | .paccept => true
  | _ => false

/-- No slot changes its type or its accepts, and only a slot of `c` has new operations. -/
structure Quiet (c : Option Nat) (s s' : Server) : Prop where
  type : ∀ x, (s'.slot x).type = (s.slot x).type
  accepts : ∀ x, (s'.slot x).accepts = (s.slot x).accepts
  io : ∀ x, 0 < (s'.slot x).io → 0 < (s.slot x).io ∨ c = some x

/-- The slot `x` gets the type `ty`, and nothing else changes. -/
structure Retyped (x : Nat) (ty : SocketType) (s s' : Server) : Prop where
  self : (s'.slot x).type = ty
  type : ∀ y, y ≠ x → (s'.slot y).type = (s.slot y).type
  accepts : ∀ y, (s'.slot y).accepts = (s.slot y).accepts
  io : ∀ y, (s'.slot y).io = (s.slot y).io

/-- **What a step can do**: nothing to the types and the accepts; open a slot; give the socket in hand
to an accept; make it a connection; drop it; or finish a connect. -/
inductive Effect (s : Server) (p : Pc) : Server × Option Pc → Prop
  | quiet (s' : Server) (o : Option Pc) (hs : Quiet p.conn s s') (hp : p.newsock = none)
      (ho : ∀ q ∈ o, q.newsock = none ∧ (q.conn = none ∨ q.conn = p.conn)) : Effect s p (s', o)
  | opened (s' : Server) (q : Pc) (x : Nat) (ty : SocketType) (hfree : (s.slot x).type = .invalid)
      (hty : ty ≠ .reserve) (hs : Retyped x ty s s') (hp : p.newsock = none)
      (hq : q.newsock = if ty = .plisten then some x else none)
      (hc : q.conn = if ty = .connecting then some x else none) : Effect s p (s', some q)
  | accept (s' : Server) (q : Pc) (i : Nat) (ctx : Ctx) (j : Nat) (hp : p.newsock = some j)
      (hq : q.newsock = none ∧ q.conn = none)
      (htype : ∀ x, (s'.slot x).type = (s.slot x).type) (hio : ∀ x, (s'.slot x).io = (s.slot x).io)
      (hself : (s'.slot i).accepts = (ctx, j) :: (s.slot i).accepts)
      (hacc : ∀ x, x ≠ i → (s'.slot x).accepts = (s.slot x).accepts) : Effect s p (s', some q)
  | taken (s' : Server) (q : Pc) (j : Nat) (hp : p.newsock = some j)
      (hq : q.newsock = none ∧ q.conn = some j) (hs : Retyped j .paccept s s') : Effect s p (s', some q)
  | dropped (q : Pc) (j : Nat) (hp : p.newsock = some j) (hf : p.failed = true)
      (hq : q.newsock = none ∧ q.conn = none) : Effect s p (s, some q)
  | connected (s' : Server) (q : Pc) (i : Nat) (hp : p.newsock = none ∧ p.conn = some i)
      (hq : q.newsock = none ∧ q.conn = some i) (hs : Retyped i .connected s s') :
      Effect s p (s', some q)

section Servers

variable {s s₁ s' : Server} {c : Option Nat} {f : Slot → Slot}

theorem Quiet.refl : Quiet c s s := ⟨fun _ => rfl, fun _ => rfl, fun _ h => .inl h⟩

/-- A change of one slot, field by field. -/
theorem set_slot_field {α : Type} (g : Slot → α) (i : Nat) (h : g (f (s.slot i)) = g (s.slot i))
    (x : Nat) : g ((s.set i f).slot x) = g (s.slot x) := by
  by_cases hx : x = i
  · subst hx
    rw [set_slot_self]
    exact h
  · rw [set_slot_ne s hx]

theorem Quiet.set (i : Nat) (ht : (f (s.slot i)).type = (s.slot i).type)
    (ha : (f (s.slot i)).accepts = (s.slot i).accepts)
    (hio : (f (s.slot i)).io = (s.slot i).io ∨ c = some i) : Quiet c s (s.set i f) := by
  refine ⟨set_slot_field Slot.type i ht, set_slot_field Slot.accepts i ha, ?_⟩
  intro x hpos
  by_cases hx : x = i
  · subst hx
    rw [set_slot_self] at hpos
    rcases hio with hio | hc
    · exact .inl (hio ▸ hpos)
    · exact .inr hc
  · rw [set_slot_ne s hx] at hpos
    exact .inl hpos

theorem Retyped.set {ty : SocketType} (i : Nat) (ht : (f (s.slot i)).type = ty)
    (ha : (f (s.slot i)).accepts = (s.slot i).accepts) (hio : (f (s.slot i)).io = (s.slot i).io) :
    Retyped i ty s (s.set i f) := by
  refine ⟨by rw [set_slot_self, ht], ?_, set_slot_field Slot.accepts i ha,
    set_slot_field Slot.io i hio⟩
  intro y hy
  rw [set_slot_ne s hy]

theorem Quiet.trans (h : Quiet c s s₁) (h' : Quiet c s₁ s') : Quiet c s s' := by
  refine ⟨fun x => (h'.type x).trans (h.type x), fun x => (h'.accepts x).trans (h.accepts x), ?_⟩
  intro x hpos
  exact (h'.io x hpos).elim (h.io x) .inr

/-- The slot that is opened, and then a change that leaves its type, accepts and operations. -/
theorem Retyped.andSet {x : Nat} {ty : SocketType} (h : Retyped x ty s s₁) (i : Nat)
    (ht : (f (s₁.slot i)).type = (s₁.slot i).type)
    (ha : (f (s₁.slot i)).accepts = (s₁.slot i).accepts) (hio : (f (s₁.slot i)).io = (s₁.slot i).io) :
    Retyped x ty s (s₁.set i f) := by
  refine ⟨?_, ?_, ?_, ?_⟩
  · rw [set_slot_field Slot.type i ht]
    exact h.self
  · intro y hy
    rw [set_slot_field Slot.type i ht]
    exact h.type y hy
  · intro y
    rw [set_slot_field Slot.accepts i ha]
    exact h.accepts y
  · intro y
    rw [set_slot_field Slot.io i hio]
    exact h.io y

theorem Retyped.again {x : Nat} {ty ty' : SocketType} (h : Retyped x ty s s₁)
    (ht : (f (s₁.slot x)).type = ty') (ha : (f (s₁.slot x)).accepts = (s₁.slot x).accepts)
    (hio : (f (s₁.slot x)).io = (s₁.slot x).io) : Retyped x ty' s (s₁.set x f) := by
  have h' := Retyped.set x ht ha hio
  exact ⟨h'.self, fun y hy => (h'.type y hy).trans (h.type y hy),
    fun y => (h'.accepts y).trans (h.accepts y), fun y => (h'.io y).trans (h.io y)⟩

theorem reserveId_retyped (hset : ∀ x, (s.slot x).type ≠ .reserve) (hres : Reserves s) :
    (s.slot (hashId (reserveId maxSocket s).2)).type = .invalid ∧
      Retyped (hashId (reserveId maxSocket s).2) .reserve s (reserveId maxSocket s).1 := by
  obtain ⟨-, hslot⟩ := reserveId_spec maxSocket s
  obtain ⟨hfree, hslot⟩ := hslot.resolve_left fun he => by
    unfold Reserves at hres
    rw [he] at hres
    exact hset _ hres
  have hfield : ∀ {α : Type} (g : Slot → α) (y : Nat), (y = hashId (reserveId maxSocket s).2 →
      g { s.slot (hashId (reserveId maxSocket s).2) with
        type := .reserve, id := (reserveId maxSocket s).2, pending := 1 } = g (s.slot y)) →
      g ((reserveId maxSocket s).1.slot y) = g (s.slot y) := by
    intro α g y hg
    rw [hslot]
    by_cases hy : y = hashId (reserveId maxSocket s).2
    · rw [← hg hy, hy, Function.update_self]
    · rw [Function.update_of_ne hy]
  refine ⟨hfree, hres, fun y hy => hfield Slot.type y fun h => absurd h hy, fun y => ?_, fun y => ?_⟩
  · exact hfield Slot.accepts y fun h => by rw [h]
  · exact hfield Slot.io y fun h => by rw [h]

/-- `new_fd` with a slot that `reserve_id` has found. -/
theorem openSlot_true (hset : ∀ x, (s.slot x).type ≠ .reserve) (hres : Reserves s)
    (ty : SocketType) : ∃ x s', openSlot s true ty = (s', some x) ∧ (s.slot x).type = .invalid ∧
      Retyped x ty s s' := by
  obtain ⟨hfree, hre⟩ := reserveId_retyped hset hres
  unfold openSlot
  generalize reserveId maxSocket s = r at hfree hre ⊢
  dsimp only
  rw [if_pos rfl]
  exact ⟨_, _, rfl, hfree, hre.again rfl rfl rfl⟩

/-- `append_socket` fails and the slot is free again. -/
theorem openSlot_false (hset : ∀ x, (s.slot x).type ≠ .reserve) (hres : Reserves s)
    (ty : SocketType) : ∃ s', openSlot s false ty = (s', none) ∧ Quiet c s s' := by
  obtain ⟨hfree, hre⟩ := reserveId_retyped hset hres
  unfold openSlot
  generalize reserveId maxSocket s = r at hfree hre ⊢
  dsimp only
  rw [if_neg (by decide)]
  refine ⟨_, rfl, ?_⟩
  have h := hre.again (f := fun sl => { sl with type := .invalid }) rfl rfl rfl
  refine ⟨?_, h.accepts, fun x hpos => .inl (h.io x ▸ hpos)⟩
  intro x
  by_cases hx : x = hashId r.2
  · subst hx
    exact h.self.trans hfree.symm
  · exact h.type x hx

theorem addref_quiet (i : Nat) : Quiet c s (addref s i) := by
  unfold addref
  split
  · exact .set i rfl rfl (.inl rfl)
  · exact .refl

theorem setReady_quiet (i : Nat) (ctx : Ctx) (v : Int) : Quiet c s (s.set i (setReady ctx v)) := by
  apply Quiet.set
  · exact setReady_type ctx v _
  · exact setReady_accepts ctx v _
  · cases ctx <;> exact .inl rfl

theorem resume_newsock (k : After) : ∀ q ∈ resume k, q.newsock = none ∧ q.conn = none := by
  intro q hq
  cases k <;> cases hq <;> exact ⟨rfl, rfl⟩

theorem delref_effect {p : Pc} (hp : p.newsock = none) (i ref : Nat) (k : After)
    (hf : ∀ sl, (f sl).type = sl.type ∧ (f sl).accepts = sl.accepts ∧ (f sl).io = sl.io) :
    Effect s p (delref s i ref f k) := by
  have hq : Quiet p.conn s (s.set i fun sl => f { sl with pending := (s.slot i).pending - ref }) :=
    .set i (hf _).1 (hf _).2.1 (.inl (hf _).2.2)
  unfold delref
  dsimp only
  split
  · refine .quiet _ _ ⟨hq.type, hq.accepts, hq.io⟩ hp ?_
    intro q hq
    cases hq
    exact ⟨rfl, .inl rfl⟩
  · refine .quiet _ _ hq hp ?_
    intro q hq
    exact ⟨(resume_newsock k q hq).1, .inl (resume_newsock k q hq).2⟩

end Servers

section Steps

variable {s : Server} {p : Pc} {R : Multiset Pc}

theorem lisFailed_newsock (c : Lister) (i : Nat) :
    (lisFailed c i).newsock = none ∧ (lisFailed c i).conn = none := by
  cases c <;> exact ⟨rfl, rfl⟩

theorem lisStarted_newsock (c : Lister) (i : Nat) :
    (lisStarted c i).newsock = none ∧ (lisStarted c i).conn = none := by
  cases c <;> exact ⟨rfl, rfl⟩

/-- A step that goes on and leaves the types and the accepts. -/
theorem Effect.goOn {s' : Server} {q : Pc} (hs : Quiet p.conn s s') (hp : p.newsock = none)
    (hq : q.newsock = none) (hc : q.conn = none ∨ q.conn = p.conn) : Effect s p (s', some q) := by
  apply Effect.quiet _ _ hs hp
  intro q' hq'
  cases hq'
  exact ⟨hq, hc⟩

/-- A step with which the thread returns. -/
theorem Effect.return {s' : Server} (hs : Quiet p.conn s s') (hp : p.newsock = none) :
    Effect s p (s', none) := by
  apply Effect.quiet _ _ hs hp
  intro q hq
  cases hq

theorem lisSock_effect (hset : ∀ x, (s.slot x).type ≠ .reserve) {c : Lister} {i : Nat} {ctx : Ctx}
    {io : ListenIo} (hres : io ≠ .noSocket → Reserves s) :
    Effect s (.lisSock c i ctx io) (next s (.lisSock c i ctx io)) := by
  dsimp only [next]
  split
  · exact .goOn (setReady_quiet i ctx 0) rfl (lisFailed_newsock c i).1 (.inl (lisFailed_newsock c i).2)
  · rename_i hio
    cases happ : decide (io ≠ .noAppend) with
    | true =>
      obtain ⟨x, s', heq, hfree, hre⟩ := openSlot_true hset (hres hio) .plisten
      rw [heq]
      refine .opened _ _ x .plisten hfree (by decide) (hre.andSet i ?_ ?_ ?_) rfl rfl rfl
      · exact setReady_type ctx 1 _
      · exact setReady_accepts ctx 1 _
      · cases ctx <;> rfl
    | false =>
      obtain ⟨s', heq, hq⟩ := openSlot_false (c := none) hset (hres hio) .plisten
      rw [heq]
      exact .goOn (hq.trans (setReady_quiet i ctx 0)) rfl (lisFailed_newsock c i).1
        (.inl (lisFailed_newsock c i).2)

theorem lisAccept_effect {c : Lister} {i : Nat} {ctx : Ctx} {io : ListenIo} {j : Nat}
    (hio : io ≠ .noAccept) :
    Effect s (.lisAccept c i ctx io j) (next s (.lisAccept c i ctx io j)) := by
  dsimp only [next]
  rw [if_neg hio]
  refine .accept _ _ i ctx j rfl (lisStarted_newsock c i) ?_ ?_ ?_ ?_
  · apply set_slot_field Slot.type
    exact setReady_type ctx 1 _
  · apply set_slot_field Slot.io
    cases ctx <;> rfl
  · rw [set_slot_self]
  · intro x hx
    rw [set_slot_ne s hx]

/-- **Every step** whose condition holds has one of the effects. -/
theorem next_effect (hset : ∀ x, (s.slot x).type ≠ .reserve) (hok : asserted s p R) :
    Effect s p (next s p) := by
  cases p with
  | lisOpen append io io₂ =>
    dsimp only [next]
    cases append with
    | true =>
      obtain ⟨x, s', heq, hfree, hre⟩ := openSlot_true hset hok .listen
      rw [heq]
      exact .opened _ _ x .listen hfree (by decide) hre rfl rfl rfl
    | false =>
      obtain ⟨s', heq, hq⟩ := openSlot_false (c := none) hset hok .listen
      rw [heq]
      exact .return hq rfl
  | conOpen io =>
    dsimp only [next]
    cases happ : decide (io ≠ .noAppend) with
    | true =>
      obtain ⟨x, s', heq, hfree, hre⟩ := openSlot_true hset hok .connecting
      rw [heq]
      refine .opened _ _ x .connecting hfree (by decide) ?_ rfl rfl rfl
      apply hre.andSet x
      · rfl
      · rfl
      · rfl
    | false =>
      obtain ⟨s', heq, hq⟩ := openSlot_false (c := none) hset hok .connecting
      rw [heq]
      exact .return hq rfl
  | lisSock c i ctx io => exact lisSock_effect hset hok
  | lisAccept c i ctx io j => exact lisAccept_effect hok
  | accDone i ctx j ok recv io =>
    dsimp only [next]
    cases ok with
    | true => exact .taken _ _ j rfl ⟨rfl, rfl⟩ (.set j rfl rfl rfl)
    | false => exact .dropped _ j rfl rfl ⟨rfl, rfl⟩
  | connDone i ok recv =>
    dsimp only [next]
    split
    · exact .connected _ _ i ⟨rfl, rfl⟩ ⟨rfl, rfl⟩ (.set i rfl rfl rfl)
    · exact .goOn (.set i rfl rfl (.inl rfl)) rfl rfl (.inl rfl)
  | conEx i io =>
    dsimp only [next]
    split
    · exact .return .refl rfl
    · exact .return (.set i rfl rfl (.inr rfl)) rfl
  | recvDone i ok recv =>
    dsimp only [next]
    split
    · exact .goOn (.set i rfl rfl (.inl rfl)) rfl rfl (.inr rfl)
    · exact .goOn .refl rfl rfl (.inl rfl)
  | recvCall i k recv =>
    dsimp only [next]
    split
    · exact .goOn (.set i rfl rfl (.inr rfl)) rfl rfl (.inl rfl)
    · exact .goOn (.set i rfl rfl (.inl rfl)) rfl rfl (.inl rfl)
  | lisAdd c i ctx io => exact .goOn (addref_quiet i) rfl rfl (.inl rfl)
  | recvAdd i k recv => exact .goOn (addref_quiet i) rfl rfl (.inr rfl)
  | conInc i io | recvArm i k recv =>
    dsimp only [next]
    exact .goOn (.set i rfl rfl (.inl rfl)) rfl rfl (.inr rfl)
  | accInc i ctx j recv io =>
    dsimp only [next]
    exact .goOn (.set j rfl rfl (.inl rfl)) rfl rfl (.inr rfl)
  | accReady i ctx io => exact .goOn (setReady_quiet i ctx 0) rfl rfl (.inl rfl)
  | grub id =>
    dsimp only [next]
    exact .goOn (.set (hashId id) rfl rfl (.inl rfl)) rfl rfl (.inl rfl)
  | grubCheck id =>
    dsimp only [next]
    split
    · exact .goOn .refl rfl rfl (.inl rfl)
    · exact .goOn .refl rfl rfl (.inl rfl)
  | closeType i =>
    dsimp only [next]
    split
    · exact .goOn .refl rfl rfl (.inl rfl)
    · exact .return .refl rfl
  | closeTest i =>
    dsimp only [next]
    split
    · exact .goOn .refl rfl rfl (.inl rfl)
    · exact .goOn .refl rfl rfl (.inl rfl)
  | closeSet i | fcRead i k =>
    dsimp only [next]
    exact .goOn (.set i rfl rfl (.inl rfl)) rfl rfl (.inl rfl)
  | delref i ref k =>
    dsimp only [next]
    apply delref_effect rfl
    intro sl
    exact ⟨rfl, rfl, rfl⟩
  | release i r =>
    dsimp only [next]
    apply delref_effect rfl
    intro sl
    exact ⟨rfl, rfl, rfl⟩
  | fcWrite i k =>
    dsimp only [next]
    refine .quiet _ _ (.set i rfl rfl (.inl rfl)) rfl ?_
    intro q hq
    exact ⟨(resume_newsock k q hq).1, .inl (resume_newsock k q hq).2⟩

end Steps

/-! ## The invariant -/

/-- 1 for a thread with the unaccepted socket `x` in hand. -/
def Pc.has (x : Nat) (p : Pc) : ℤ := if p.newsock = some x then 1 else 0

/-- 1 for a slot of an unaccepted socket. -/
def Server.unaccepted (s : Server) (x : Nat) : ℤ := if (s.slot x).type = .plisten then 1 else 0

/-- `A` are the outstanding accepts: the listening slot, the context and the slot of `newsock`. -/
def Server.Accepting (s : Server) (A : Multiset (Nat × Ctx × Nat)) : Prop :=
  ∀ i a, A.count (i, a) = (s.slot i).accepts.count a

/-- The accepts among `A` for which `x` is reserved. -/
def reservedFor (x : Nat) (A : Multiset (Nat × Ctx × Nat)) : ℕ := A.countP fun a => a.2.2 = x

/-- Connections are where the threads and the operations expect them. -/
structure Placed (s : Server) (T : Multiset Pc) : Prop where
  settled : ∀ x, (s.slot x).type ≠ .reserve
  conn : ∀ p ∈ T, ∀ j, p.conn = some j → (s.slot j).type.isConn = true
  io : ∀ x, 0 < (s.slot x).io → (s.slot x).type.isConn = true

/-- Every slot of an unaccepted socket is in one hand or in one accept, and no other slot is. -/
structure Tracked (s : Server) (T : Multiset Pc) : Prop extends Placed s T where
  held : ∃ A, s.Accepting A ∧ ∀ x, reservedFor x A + load (Pc.has x) T = s.unaccepted x

/-- The slot of an unaccepted socket that is in no hand and in no accept. -/
structure Lost (x : Nat) (s : Server) (T : Multiset Pc) : Prop where
  type : (s.slot x).type = .plisten
  hand : ∀ p ∈ T, p.newsock ≠ some x
  accept : ∀ i, ∀ a ∈ (s.slot i).accepts, a.2 ≠ x

/-! ## One step -/

section Step

variable {s s' : Server} {R : Multiset Pc} {p q : Pc} {o : Option Pc}

theorem Pc.has_nonneg (x : Nat) (p : Pc) : 0 ≤ p.has x := by
  unfold Pc.has
  split <;> decide

theorem Pc.has_of_none (h : p.newsock = none) (x : Nat) : p.has x = 0 := by
  unfold Pc.has
  rw [h, if_neg (by simp)]

theorem Pc.has_of_some {j : Nat} (h : p.newsock = some j) (x : Nat) :
    p.has x = if j = x then 1 else 0 := by
  unfold Pc.has
  rw [h]
  simp

/-- A thread moves on, and what is a connection stays one. -/
theorem Placed.move (h : Placed s (p ::ₘ R)) (hset : ∀ x, (s'.slot x).type ≠ .reserve)
    (hmono : ∀ x, (s.slot x).type.isConn = true → (s'.slot x).type.isConn = true)
    (hconn : ∀ q ∈ o, ∀ j, q.conn = some j → (s'.slot j).type.isConn = true)
    (hio : ∀ x, 0 < (s'.slot x).io → 0 < (s.slot x).io ∨ p.conn = some x) :
    Placed s' (put o R) := by
  refine ⟨hset, ?_, ?_⟩
  · intro q hq j hj
    rcases mem_put.mp hq with hq | hq
    · exact hconn q hq j hj
    · exact hmono j (h.conn q (Multiset.mem_cons_of_mem hq) j hj)
  · intro x hpos
    rcases hio x hpos with hpos | hc
    · exact hmono x (h.io x hpos)
    · exact hmono x (h.conn p (Multiset.mem_cons_self p R) x hc)

/-- A slot that was no connection, or stays one, gets another type. -/
theorem Placed.retype (h : Placed s (p ::ₘ R)) {x : Nat} {ty : SocketType} (hs : Retyped x ty s s')
    (hty : ty ≠ .reserve) (hconn : (s.slot x).type.isConn = true → ty.isConn = true)
    (hq : ∀ j, q.conn = some j → j = x ∧ ty.isConn = true) : Placed s' (q ::ₘ R) := by
  refine h.move (o := some q) ?_ ?_ ?_ fun y hpos => .inl (hs.io y ▸ hpos)
  · intro y
    by_cases hyx : y = x
    · subst hyx
      rw [hs.self]
      exact hty
    · rw [hs.type y hyx]
      exact h.settled y
  · intro y hy
    by_cases hyx : y = x
    · subst hyx
      rw [hs.self]
      exact hconn hy
    · rw [hs.type y hyx]
      exact hy
  · intro q' hq' j hj
    cases hq'
    obtain ⟨rfl, hc⟩ := hq j hj
    rw [hs.self]
    exact hc

theorem Placed.step (h : Placed s (p ::ₘ R)) (he : Effect s p (s', o)) : Placed s' (put o R) := by
  have hown := h.conn p (Multiset.mem_cons_self p R)
  cases he with
  | quiet _ _ hs hp ho =>
    refine h.move (fun x => ?_) (fun x hx => ?_) (fun q hq j hj => ?_) hs.io
    · rw [hs.type]
      exact h.settled x
    · rw [hs.type]
      exact hx
    · rw [hs.type]
      rcases (ho q hq).2 with hc | hc
      · rw [hc] at hj
        cases hj
      · exact hown j (hc ▸ hj)
  | opened _ q x ty hfree hty hs hp hq hc =>
    refine h.retype hs hty ?_ ?_
    · rw [hfree]
      intro hc
      cases hc
    · intro j hj
      rw [hc] at hj
      split at hj
      · rename_i hcon
        cases hj
        exact ⟨rfl, by rw [hcon]; rfl⟩
      · cases hj
  | accept _ q i ctx j hp hq htype hio hself hacc =>
    refine h.move (o := some q) (fun x => htype x ▸ h.settled x) (fun x hx => htype x ▸ hx) ?_
      fun x hpos => .inl (hio x ▸ hpos)
    intro q' hq' k hk
    cases hq'
    rw [hq.2] at hk
    cases hk
  | dropped q j hp hf hq =>
    refine h.move (o := some q) h.settled (fun _ hx => hx) ?_ fun _ hpos => .inl hpos
    intro q' hq' k hk
    cases hq'
    rw [hq.2] at hk
    cases hk
  | taken _ q j hp hq hs | connected _ q j hp hq hs =>
    refine h.retype hs (by decide) (fun _ => rfl) ?_
    intro k hk
    rw [hq.2] at hk
    cases hk
    exact ⟨rfl, rfl⟩

/-- The socket a thread has in hand is unaccepted, and nobody else has it. -/
theorem Tracked.newsock (h : Tracked s (p ::ₘ R)) {j : Nat} (hp : p.newsock = some j) :
    Lost j s R := by
  obtain ⟨A, hacc, hA⟩ := h.held
  have hj := hA j
  rw [load_cons, Pc.has_of_some hp, if_pos rfl] at hj
  have hR := load_nonneg (Pc.has_nonneg j) R
  unfold Server.unaccepted at hj
  have htype : (s.slot j).type = .plisten := by
    by_contra hne
    rw [if_neg hne] at hj
    omega
  rw [if_pos htype] at hj
  refine ⟨htype, ?_, ?_⟩
  · intro q hq hqj
    have hzero := load_eq_zero (Pc.has_nonneg j) (by omega : load (Pc.has j) R = 0) q hq
    rw [Pc.has_of_some hqj, if_pos rfl] at hzero
    cases hzero
  · intro i a ha haj
    have hnone : reservedFor j A = 0 := by omega
    have hmem : (i, a) ∈ A := by
      rw [← Multiset.count_pos, hacc, List.count_pos_iff]
      exact ha
    exact Multiset.countP_eq_zero.mp hnone _ hmem haj

/-- What a thread has in hand and the outstanding accepts change with the unaccepted sockets. -/
theorem Tracked.move (h : Tracked s (p ::ₘ R)) (hpl : Placed s' (put o R))
    (hheld : ∀ A, s.Accepting A → ∃ A', s'.Accepting A' ∧ ∀ x,
      reservedFor x A' + o.elim 0 (Pc.has x) + s.unaccepted x =
        reservedFor x A + p.has x + s'.unaccepted x) : Tracked s' (put o R) := by
  refine ⟨hpl, ?_⟩
  obtain ⟨A, hacc, hA⟩ := h.held
  obtain ⟨A', hacc', hA'⟩ := hheld A hacc
  refine ⟨A', hacc', ?_⟩
  intro x
  have h₁ := hA x
  have h₂ := hA' x
  rw [load_cons] at h₁
  rw [load_put]
  omega

theorem Server.Accepting.congr {A : Multiset (Nat × Ctx × Nat)} (h : s.Accepting A)
    (hacc : ∀ x, (s'.slot x).accepts = (s.slot x).accepts) : s'.Accepting A := by
  intro i a
  rw [hacc]
  exact h i a

/-- A slot gets another type, and the thread that does it keeps count. -/
theorem Tracked.retype (h : Tracked s (p ::ₘ R)) (hpl : Placed s' (q ::ₘ R)) {x : Nat}
    {ty : SocketType} (hs : Retyped x ty s s')
    (hself : q.has x + s.unaccepted x = p.has x + if ty = .plisten then 1 else 0)
    (hhas : ∀ y, y ≠ x → q.has y = p.has y) : Tracked s' (q ::ₘ R) := by
  refine h.move (o := some q) hpl ?_
  intro A hacc
  refine ⟨A, hacc.congr hs.accepts, ?_⟩
  intro y
  show _ + q.has y + _ = _
  by_cases hyx : y = x
  · subst hyx
    have hnew : s'.unaccepted y = if ty = .plisten then 1 else 0 := by
      unfold Server.unaccepted
      rw [hs.self]
    omega
  · have hold : s'.unaccepted y = s.unaccepted y := by
      unfold Server.unaccepted
      rw [hs.type y hyx]
    rw [hhas y hyx, hold]

/-- The socket in hand goes to an accept. -/
theorem Tracked.accept (h : Tracked s (p ::ₘ R)) (hpl : Placed s' (q ::ₘ R)) {i j : Nat} {ctx : Ctx}
    (hp : p.newsock = some j) (hq : q.newsock = none)
    (htype : ∀ x, (s'.slot x).type = (s.slot x).type)
    (hself : (s'.slot i).accepts = (ctx, j) :: (s.slot i).accepts)
    (hacc : ∀ x, x ≠ i → (s'.slot x).accepts = (s.slot x).accepts) : Tracked s' (q ::ₘ R) := by
  refine h.move (o := some q) hpl ?_
  intro A hA
  refine ⟨(i, ctx, j) ::ₘ A, ?_, ?_⟩
  · intro k a
    rw [Multiset.count_cons, hA k a]
    by_cases hk : k = i
    · subst hk
      rw [hself, List.count_cons]
      by_cases ha : a = (ctx, j)
      · subst ha
        simp
      · simp [ha, Ne.symm ha]
    · rw [hacc k hk, if_neg fun he => hk (congrArg Prod.fst he), Nat.add_zero]
  · intro x
    have hsame : s'.unaccepted x = s.unaccepted x := by
      unfold Server.unaccepted
      rw [htype]
    show _ + q.has x + _ = _
    rw [Pc.has_of_none hq, Pc.has_of_some hp, hsame]
    unfold reservedFor
    rw [Multiset.countP_cons]
    push_cast
    split <;> omega

/-- **One step** that disposes of its socket keeps track of the slots. -/
theorem Tracked.step (h : Tracked s (p ::ₘ R)) (hf : p.failed = false) (he : Effect s p (s', o)) :
    Tracked s' (put o R) := by
  have hpl := h.toPlaced.step he
  cases he with
  | quiet _ _ hs hp ho =>
    refine h.move hpl ?_
    intro A hacc
    refine ⟨A, hacc.congr hs.accepts, ?_⟩
    intro x
    have hnone : o.elim 0 (Pc.has x) = 0 := by
      cases o with
      | none => rfl
      | some q => exact Pc.has_of_none (ho q rfl).1 x
    have hsame : s'.unaccepted x = s.unaccepted x := by
      unfold Server.unaccepted
      rw [hs.type]
    rw [hnone, Pc.has_of_none hp, hsame]
  | opened _ q x ty hfree hty hs hp hq hc =>
    refine h.retype hpl hs ?_ ?_
    · have hold : s.unaccepted x = 0 := by
        unfold Server.unaccepted
        rw [hfree, if_neg (by decide)]
      rw [hold, Pc.has_of_none hp, Pc.has, hq]
      split <;> simp
    · intro y hy
      rw [Pc.has_of_none hp, Pc.has, hq, if_neg]
      split <;> simp [hy.symm]
  | accept _ q i ctx j hp hq htype hio hself hacc => exact h.accept hpl hp hq.1 htype hself hacc
  | taken _ q j hp hq hs =>
    refine h.retype hpl hs ?_ ?_
    · have hold : s.unaccepted j = 1 := by
        unfold Server.unaccepted
        rw [(h.newsock hp).type, if_pos rfl]
      rw [hold, Pc.has_of_none hq.1, Pc.has_of_some hp]
      simp
    · intro y hy
      rw [Pc.has_of_none hq.1, Pc.has_of_some hp, if_neg hy.symm]
  | dropped q j hp hfailed hq =>
    rw [hf] at hfailed
    cases hfailed
  | connected _ q i hp hq hs =>
    have hcon := h.conn p (Multiset.mem_cons_self p R) i hp.2
    refine h.retype hpl hs ?_ ?_
    · have hold : s.unaccepted i = 0 := by
        unfold Server.unaccepted
        rw [if_neg]
        intro hl
        rw [hl] at hcon
        cases hcon
      rw [hold, Pc.has_of_none hq.1, Pc.has_of_none hp.1]
      rfl
    · intro y hy
      rw [Pc.has_of_none hq.1, Pc.has_of_none hp.1]

/-- Another thread in the place of one, with nothing of the lost slot. -/
theorem Lost.hands {x : Nat} (h : Lost x s (p ::ₘ R)) (ho : ∀ q ∈ o, q.newsock ≠ some x) :
    ∀ q ∈ put o R, q.newsock ≠ some x := by
  intro q hq
  rcases mem_put.mp hq with hq | hq
  · exact ho q hq
  · exact h.hand q (Multiset.mem_cons_of_mem hq)

theorem Lost.retype {x y : Nat} {ty : SocketType} (h : Lost x s (p ::ₘ R)) (hs : Retyped y ty s s')
    (hne : x ≠ y) (hq : q.newsock ≠ some x) : Lost x s' (q ::ₘ R) := by
  refine ⟨(hs.type x hne).trans h.type, h.hands (o := some q) ?_, ?_⟩
  · intro q' hq'
    cases hq'
    exact hq
  · intro i a ha
    rw [hs.accepts] at ha
    exact h.accept i a ha

/-- **A lost slot** stays lost: nobody takes what nobody has. -/
theorem Lost.step {x : Nat} (h : Lost x s (p ::ₘ R)) (hpl : Placed s (p ::ₘ R))
    (he : Effect s p (s', o)) : Lost x s' (put o R) := by
  have hmem : p ∈ p ::ₘ R := Multiset.mem_cons_self p R
  cases he with
  | quiet _ _ hs hp ho =>
    refine ⟨(hs.type x).trans h.type, h.hands ?_, fun i a ha => h.accept i a (hs.accepts i ▸ ha)⟩
    intro q hq
    rw [(ho q hq).1]
    simp
  | opened _ q y ty hfree hty hs hp hq hc =>
    have hne : x ≠ y := by
      rintro rfl
      rw [h.type] at hfree
      cases hfree
    refine h.retype hs hne ?_
    rw [hq]
    split <;> simp [hne.symm]
  | accept _ q i ctx j hp hq htype hio hself hacc =>
    have hne : j ≠ x := by
      rintro rfl
      exact h.hand p hmem hp
    refine ⟨(htype x).trans h.type, h.hands (o := some q) ?_, ?_⟩
    · intro q' hq'
      cases hq'
      rw [hq.1]
      simp
    · intro k a ha
      by_cases hk : k = i
      · subst hk
        rw [hself] at ha
        rcases List.mem_cons.mp ha with rfl | ha
        · exact hne
        · exact h.accept k a ha
      · rw [hacc k hk] at ha
        exact h.accept k a ha
  | taken _ q j hp hq hs =>
    have hne : x ≠ j := by
      rintro rfl
      exact h.hand p hmem hp
    exact h.retype hs hne (by rw [hq.1]; simp)
  | dropped q j hp hf hq =>
    refine ⟨h.type, h.hands (o := some q) ?_, h.accept⟩
    intro q' hq'
    cases hq'
    rw [hq.1]
    simp
  | connected _ q i hp hq hs =>
    have hne : x ≠ i := by
      rintro rfl
      have hcon := hpl.conn p hmem x hp.2
      rw [h.type] at hcon
      cases hcon
    exact h.retype hs hne (by rw [hq.1]; simp)

end Step

/-! ## Calls and completions -/

section Begin

variable {s s' : Server} {T : Multiset Pc} {p : Pc}

/-- What the beginning of a thread changes: the operations that complete. -/
structure Begins (s s' : Server) (p : Pc) : Prop where
  type : ∀ x, (s'.slot x).type = (s.slot x).type
  accepts : ∀ x, ∀ a ∈ (s'.slot x).accepts, a ∈ (s.slot x).accepts
  io : ∀ x, 0 < (s'.slot x).io → 0 < (s.slot x).io
  conn : ∀ j, p.conn = some j → 0 < (s.slot j).io
  newsock : ∀ j, p.newsock = some j → ∃ i ctx, (ctx, j) ∈ (s.slot i).accepts
  held : ∀ A, s.Accepting A → ∃ A', s'.Accepting A' ∧ ∀ x,
    (reservedFor x A' : ℤ) + p.has x = reservedFor x A

/-- The accept that completes goes over to the hand of `on_ev_listen`. -/
theorem Server.Accepting.complete {A : Multiset (Nat × Ctx × Nat)} (hA : s.Accepting A) {i j : Nat}
    {ctx : Ctx} (ha : (ctx, j) ∈ (s.slot i).accepts) :
    (s.set i fun sl => { sl with accepts := sl.accepts.erase (ctx, j) }).Accepting
        (A.erase (i, ctx, j)) ∧
      ∀ x, reservedFor x A = reservedFor x (A.erase (i, ctx, j)) + if j = x then 1 else 0 := by
  have hmem : (i, ctx, j) ∈ A := by
    rw [← Multiset.count_pos, hA, List.count_pos_iff]
    exact ha
  constructor
  · intro k a
    by_cases hk : k = i
    · subst hk
      rw [set_slot_self, List.count_erase, ← hA]
      by_cases hja : a = (ctx, j)
      · subst hja
        simp
      · rw [Multiset.count_erase_of_ne fun he => hja (congrArg Prod.snd he)]
        simp [Ne.symm hja]
    · rw [set_slot_ne s hk, Multiset.count_erase_of_ne fun he => hk (congrArg Prod.fst he), hA]
  · intro x
    unfold reservedFor
    nth_rewrite 1 [← Multiset.cons_erase hmem]
    rw [Multiset.countP_cons]

theorem Begins.call (hn : p.newsock = none) (hc : p.conn = none) : Begins s s p := by
  refine ⟨fun _ => rfl, fun _ _ ha => ha, fun _ hpos => hpos, ?_, ?_, fun A hA => ⟨A, hA, ?_⟩⟩
  · intro j hj
    rw [hc] at hj
    cases hj
  · intro j hj
    rw [hn] at hj
    cases hj
  · intro x
    rw [Pc.has_of_none hn, add_zero]

/-- An operation on a connection completes. -/
theorem Begins.done {i : Nat} (hn : p.newsock = none) (hc : p.conn = some i)
    (hio : 0 < (s.slot i).io) : Begins s (s.set i fun sl => { sl with io := sl.io - 1 }) p := by
  have hacc := set_slot_field (s := s) (f := fun sl => { sl with io := sl.io - 1 }) Slot.accepts i rfl
  refine ⟨set_slot_field Slot.type i rfl, fun x a ha => hacc x ▸ ha, ?_, ?_, ?_, fun A hA => ⟨A, ?_, ?_⟩⟩
  · intro x hpos
    by_cases hx : x = i
    · exact hx ▸ hio
    · rw [set_slot_ne s hx] at hpos
      exact hpos
  · intro j hj
    rw [hc] at hj
    cases hj
    exact hio
  · intro j hj
    rw [hn] at hj
    cases hj
  · exact hA.congr hacc
  · intro x
    rw [Pc.has_of_none hn, add_zero]

theorem start_begins (hs : Start s s' p) : Begins s s' p := by
  cases hs with
  | startListen append io io₂ => exact .call rfl rfl
  | startConnet io => exact .call rfl rfl
  | startClose id => exact .call rfl rfl
  | connected i ok recv hio hc => exact .done rfl rfl hio
  | received i ok recv hio hc => exact .done rfl rfl hio
  | accepted i ctx j ok recv io ha =>
    refine ⟨set_slot_field Slot.type i rfl, ?_, ?_, ?_, ?_, fun A hA => ⟨_, (hA.complete ha).1, ?_⟩⟩
    · intro x a hmem
      by_cases hx : x = i
      · subst hx
        rw [set_slot_self] at hmem
        exact List.mem_of_mem_erase hmem
      · rw [set_slot_ne s hx] at hmem
        exact hmem
    · intro x hpos
      rwa [set_slot_field Slot.io i rfl] at hpos
    · intro k hk
      cases hk
    · intro k hk
      cases hk
      exact ⟨i, ctx, ha⟩
    · intro x
      rw [(hA.complete ha).2 x, Pc.has_of_some rfl]
      push_cast
      rfl

theorem Placed.start (h : Placed s T) (hb : Begins s s' p) : Placed s' (p ::ₘ T) := by
  refine ⟨fun x => hb.type x ▸ h.settled x, ?_, fun x hpos => hb.type x ▸ h.io x (hb.io x hpos)⟩
  intro q hq j hj
  rw [hb.type]
  rcases Multiset.mem_cons.mp hq with rfl | hq
  · exact h.io j (hb.conn j hj)
  · exact h.conn q hq j hj

theorem Tracked.start (h : Tracked s T) (hb : Begins s s' p) : Tracked s' (p ::ₘ T) := by
  refine ⟨h.toPlaced.start hb, ?_⟩
  obtain ⟨A, hacc, hA⟩ := h.held
  obtain ⟨A', hacc', hA'⟩ := hb.held A hacc
  refine ⟨A', hacc', ?_⟩
  intro x
  have h₁ := hA x
  have h₂ := hA' x
  unfold Server.unaccepted at h₁ ⊢
  rw [hb.type, load_cons]
  omega

theorem Lost.start {x : Nat} (h : Lost x s T) (hb : Begins s s' p) : Lost x s' (p ::ₘ T) := by
  refine ⟨(hb.type x).trans h.type, ?_, fun i a ha => h.accept i a (hb.accepts i a ha)⟩
  intro q hq
  rcases Multiset.mem_cons.mp hq with rfl | hq
  · intro hx
    obtain ⟨i, ctx, ha⟩ := hb.newsock x hx
    exact h.accept i _ ha rfl
  · exact h.hand q hq

end Begin

/-! ## Runs -/

section Runs

variable {s : Server} {T : Multiset Pc}

/-- **A failed accept** loses the slot of its socket. -/
theorem Tracked.drop {p : Pc} {R : Multiset Pc} (h : Tracked s (p ::ₘ R)) (hf : p.failed = true)
    {j : Nat} (hj : p.newsock = some j) : Lost j (next s p).1 (put (next s p).2 R) := by
  have hlost := h.newsock hj
  cases p with
  | accDone i ctx j' ok recv io =>
    cases ok with
    | true => cases hf
    | false =>
      refine ⟨hlost.type, ?_, hlost.accept⟩
      intro q hq
      rcases Multiset.mem_cons.mp hq with rfl | hq
      · intro hnone
        cases hnone
      · exact hlost.hand q hq
  | _ => cases hf

/-- **For ever**: in every run from there the slot is lost. -/
theorem Lost.run {S₀ S : Sys Server Pc} {x : Nat} (hrun : Reach program asserted S₀ S)
    (hpl : Placed S₀.shared S₀.threads) (h : Lost x S₀.shared S₀.threads) :
    Lost x S.shared S.threads := by
  refine (hrun.invariant (I := fun s T => Placed s T ∧ Lost x s T) ⟨hpl, h⟩ ?_ ?_).2
  · intro s p R hok h
    have heff := next_effect h.1.settled hok
    exact ⟨h.1.step heff, h.2.step h.1 heff⟩
  · intro s s' p T hs h
    have hb := start_begins hs
    exact ⟨h.1.start hb, h.2.start hb⟩

/-- The server when one `start_listen` has returned. -/
def listening : Server := (solo program 9 startSocketserver (some (.lisOpen true .ok .ok))).1

end Runs

end HoNet.CoreSocket
