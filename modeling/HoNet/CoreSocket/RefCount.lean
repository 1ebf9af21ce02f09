import HoNet.CoreSocket.Server

/-!
# Reference accounting of `coresocket.c`

`force_close` is meant for the last reference on an allocated slot. `start_listen` drops the
references of its two accepts at once, so a listening socket is closed under them; and `grub_socket`
drops a reference on a free slot, which is then always the last one.

For the other steps, `pending` is at least what it has to count, except for accepts, and a socket with
accepts keeps its owner.

* `SlotOk` — what holds of a slot, given what the threads hold of it.
* `Inv.thread`, `Inv.start` — the invariant along a step.
* `force_close_justified` — whole runs.
-/

namespace HoNet.CoreSocket

open HoNet.Pool

/-- `reserve_id` has found a slot. -/
def Reserves (s : Server) : Prop :=
  ((reserveId maxSocket s).1.slot (hashId (reserveId maxSocket s).2)).type = .reserve

instance (s : Server) : Decidable (Reserves s) := inferInstanceAs (Decidable (_ = _))

def Lister.isFirst : Lister → Bool
  | .first _ => true
  | _ => false

/-- The steps that keep count. -/
def accounted (s : Server) (p : Pc) (_ : Multiset Pc) : Prop :=
  match p with
  | .lisOpen _ _ _ | .conOpen _ => Reserves s
  | .lisSock c _ _ io => (io ≠ .noSocket → Reserves s) ∧ (io ≠ .ok → c.isFirst = true)
  | .lisAccept c _ _ io _ => io ≠ .ok → c.isFirst = true
  | .grub id => (s.slot (hashId id)).type ≠ .invalid
  | .closeSet i => (s.slot i).closing = false ∧ (s.slot i).type ≠ .listen
  | _ => True

/-! ## What the threads hold -/

/-- The references a thread holds on the slot `x`. -/
def Pc.refs (x : Nat) : Pc → ℤ
  | .lisSock _ i _ _ | .lisAccept _ i _ _ _ => if i = x then 1 else 0
  | .conEx i _ | .connDone i _ _ | .recvDone i _ _ | .recvAdd i _ _ => if i = x then 1 else 0
  | .recvArm i _ _ | .recvCall i _ _ => if i = x then 2 else 0
  | .grubCheck id => if hashId id = x then 1 else 0
  | .closeType i | .closeTest i | .closeSet i | .release i _ => if i = x then 1 else 0
  | .delref i ref _ => if i = x then ref else 0
  | _ => 0

/-- The accepts of `x` that a call of `ev_listen_start` has still to start. -/
def Lister.starts : Lister → ℤ
  | .first _ => 2
  | .second => 1
  | .again => 1

def After.starts (x : Nat) : After → ℤ
  | .done => 0
  | .second i _ => if i = x then 1 else 0
  | .relisten i _ _ => if i = x then 1 else 0

def Pc.starts (x : Nat) : Pc → ℤ
  | .lisAdd c i _ _ | .lisSock c i _ _ | .lisAccept c i _ _ _ => if i = x then c.starts else 0
  | .recvAdd _ k _ | .recvArm _ k _ | .recvCall _ k _ => k.starts x
  | .accDone i _ _ _ _ _ | .accInc i _ _ _ _ | .accReady i _ _ => if i = x then 1 else 0
  | .delref _ _ k | .fcRead _ k | .fcWrite _ k => k.starts x
  | .release i .listener => if i = x then 2 else 0
  | _ => 0

/-- `start_close` is about to release the owner's reference on `x`. -/
def Pc.drops (x : Nat) : Pc → ℤ
  | .release i .closer => if i = x then 1 else 0
  | _ => 0

theorem After.starts_nonneg (x : Nat) (k : After) : 0 ≤ k.starts x := by
  cases k <;> simp only [After.starts] <;> first | exact le_rfl | (split <;> decide)

theorem Pc.refs_nonneg (x : Nat) (p : Pc) : 0 ≤ p.refs x := by
  cases p <;> simp only [Pc.refs] <;> first | exact le_rfl | (split <;> omega)

theorem Pc.starts_nonneg (x : Nat) (p : Pc) : 0 ≤ p.starts x := by
  cases p with
  | recvAdd i k recv | recvArm i k recv | recvCall i k recv | delref i ref k | fcRead i k
  | fcWrite i k => exact k.starts_nonneg x
  | lisAdd c i ctx io | lisSock c i ctx io | lisAccept c i ctx io j =>
    simp only [Pc.starts]
    cases c <;> (simp only [Lister.starts]; split <;> decide)
  | release i r =>
    cases r <;> simp only [Pc.starts] <;> first | exact le_rfl | (split <;> decide)
  | _ =>
    simp only [Pc.starts]
    first | exact le_rfl | (split <;> decide)

theorem Pc.drops_nonneg (x : Nat) (p : Pc) : 0 ≤ p.drops x := by
  cases p with
  | release i r => cases r <;> simp only [Pc.drops] <;> first | exact le_rfl | (split <;> decide)
  | _ => exact le_rfl

/-- The slots of connections, accepted or not, that a thread goes on to use. -/
def Pc.uses : Pc → List Nat
  | .lisAccept _ _ _ _ j => [j]
  | .conInc i _ | .conEx i _ | .connDone i _ _ | .recvDone i _ _ => [i]
  | .recvAdd i _ _ | .recvArm i _ _ | .recvCall i _ _ => [i]
  | .accDone _ _ j _ _ _ | .accInc _ _ j _ _ => [j]
  | _ => []

/-! ## The invariant -/

/-- An allocated slot that does not listen. -/
def Slot.Plain (sl : Slot) : Prop := sl.type ≠ .invalid ∧ sl.type ≠ .listen

/-- What holds of a slot on which the threads hold `r` references, from which they start `t` accepts,
and whose owner `d` of them are about to release. -/
structure SlotOk (sl : Slot) (r t d : ℤ) : Prop where
  settled : sl.type ≠ .reserve
  free : sl.type = .invalid → sl.io = 0 ∧ r = 0
  count : sl.type ≠ .invalid → sl.io + sl.owner.toNat + r ≤ sl.pending
  listen : sl.type = .listen → sl.io = 0 ∧ sl.accepts.length + t ≤ 2 ∧
    (sl.owner = false → sl.accepts = [] ∧ t = 0)
  other : sl.type ≠ .listen → sl.accepts = [] ∧ t = 0
  drops : d = if sl.closing = true ∧ sl.owner = true then 1 else 0
  open_owner : sl.Plain → sl.closing = false → sl.owner = true
  quiet : ¬ sl.Plain → sl.closing = false

/-- The owner's reference has been released and nothing is outstanding on an allocated slot. -/
def Slot.Justified (sl : Slot) : Prop :=
  sl.type ≠ .invalid ∧ sl.owner = false ∧ sl.io = 0 ∧ sl.accepts = []

structure Inv (s : Server) (T : Multiset Pc) : Prop where
  slots : ∀ x, SlotOk (s.slot x) (load (Pc.refs x) T) (load (Pc.starts x) T) (load (Pc.drops x) T)
  uses : ∀ p ∈ T, ∀ j ∈ p.uses, (s.slot j).Plain
  news : ∀ x, ∀ a ∈ (s.slot x).accepts, (s.slot a.2).Plain
  entered : ∀ sl ∈ s.entered, sl.Justified

/-! ## Changes of one slot -/

section Slots

variable {sl : Slot} {r r' t d : ℤ}

/-- Contexts and handlers do not count. -/
theorem SlotOk.setCtx (h : SlotOk sl r t d) (a b : Int) (c : ReadCall) :
    SlotOk { sl with rdReady := a, wrReady := b, call := c } r t d :=
  ⟨h.settled, h.free, h.count, h.listen, h.other, h.drops, h.open_owner, h.quiet⟩

theorem SlotOk.setReady (h : SlotOk sl r t d) (ctx : Ctx) (v : Int) :
    SlotOk (setReady ctx v sl) r t d := by
  cases ctx with
  | read => exact h.setCtx v sl.wrReady sl.call
  | write => exact h.setCtx sl.rdReady v sl.call

/-- References are taken or dropped. -/
theorem SlotOk.shift (h : SlotOk sl r t d) (hne : sl.type ≠ .invalid) {v : Int}
    (hle : r' - r ≤ v - sl.pending) : SlotOk { sl with pending := v } r' t d := by
  refine ⟨h.settled, fun e => absurd e hne, fun _ => ?_, h.listen, h.other, h.drops, h.open_owner,
    h.quiet⟩
  have hc := h.count hne
  show (sl.io : ℤ) + sl.owner.toNat + r' ≤ v
  omega

theorem SlotOk.drop (h : SlotOk sl r t d) (hne : sl.type ≠ .invalid) (hle : r' ≤ r) :
    SlotOk sl r' t d :=
  h.shift (v := sl.pending) hne (by omega)

/-- A reference goes over to an operation. -/
theorem SlotOk.startIo (h : SlotOk sl (1 + r) t d) (hp : sl.Plain) :
    SlotOk { sl with io := sl.io + 1 } r t d := by
  refine ⟨h.settled, fun e => absurd e hp.1, fun _ => ?_, fun e => absurd e hp.2, h.other, h.drops,
    h.open_owner, h.quiet⟩
  have hc := h.count hp.1
  show ((sl.io + 1 : ℕ) : ℤ) + sl.owner.toNat + r ≤ sl.pending
  push_cast
  omega

theorem SlotOk.plain_of_io (h : SlotOk sl r t d) (hio : 0 < sl.io) : sl.Plain :=
  ⟨fun e => by have := (h.free e).1; omega, fun e => by have := (h.listen e).1; omega⟩

/-- The handler of an operation takes its reference. -/
theorem SlotOk.finishIo (h : SlotOk sl r t d) (hio : 0 < sl.io) :
    SlotOk { sl with io := sl.io - 1 } (1 + r) t d := by
  have hp := h.plain_of_io hio
  refine ⟨h.settled, fun e => absurd e hp.1, fun _ => ?_, fun e => absurd e hp.2, h.other, h.drops,
    h.open_owner, h.quiet⟩
  have hc := h.count hp.1
  show ((sl.io - 1 : ℕ) : ℤ) + sl.owner.toNat + (1 + r) ≤ sl.pending
  omega

theorem SlotOk.retype (h : SlotOk sl r t d) (hp : sl.Plain) {ty : SocketType} (hi : ty ≠ .invalid)
    (hl : ty ≠ .listen) (hr : ty ≠ .reserve) : SlotOk { sl with type := ty } r t d :=
  ⟨hr, fun e => absurd e hi, fun _ => h.count hp.1, fun e => absurd e hl, fun _ => h.other hp.2,
    h.drops, fun _ => h.open_owner hp, fun hn => absurd ⟨hi, hl⟩ hn⟩

theorem SlotOk.closing_eq (h : SlotOk sl r t d) (hd : 0 < d) :
    sl.closing = true ∧ sl.owner = true := by
  have hdr := h.drops
  by_contra hn
  rw [if_neg hn] at hdr
  omega

/-- `start_close` marks the socket it is going to release. -/
theorem SlotOk.close (h : SlotOk sl r t d) (hp : sl.Plain) (hc : sl.closing = false) :
    SlotOk { sl with closing := true } r t (1 + d) := by
  have ho := h.open_owner hp hc
  have hd : d = 0 := by rw [h.drops, if_neg (by simp [hc])]
  refine ⟨h.settled, h.free, h.count, h.listen, h.other, ?_, fun _ hf => ?_, fun hn => absurd hp hn⟩
  · show 1 + d = if true = true ∧ sl.owner = true then 1 else 0
    rw [hd, if_pos ⟨rfl, ho⟩]
    rfl
  · cases hf

theorem SlotOk.releaseCloser (h : SlotOk sl (1 + r) t (1 + d)) (hd : 0 ≤ d) {v : Int}
    (hv : v = sl.pending - 2) : SlotOk { sl with pending := v, owner := false } r t d := by
  obtain ⟨hc, ho⟩ := h.closing_eq (by omega)
  have hdr := h.drops
  rw [if_pos ⟨hc, ho⟩] at hdr
  have hp : sl.Plain := by
    by_contra hn
    rw [h.quiet hn] at hc
    cases hc
  have hcount := h.count hp.1
  rw [ho, Bool.toNat_true] at hcount
  refine ⟨h.settled, fun e => absurd e hp.1, fun _ => ?_, fun e => absurd e hp.2, h.other, ?_,
    fun _ hf => ?_, fun hn => absurd hp hn⟩
  · show (sl.io : ℤ) + (false.toNat : ℕ) + r ≤ v
    simp only [Bool.toNat_false]
    omega
  · show d = if sl.closing = true ∧ false = true then 1 else 0
    rw [if_neg (by simp)]
    omega
  · have hf : sl.closing = false := hf
    rw [hc] at hf
    cases hf

theorem SlotOk.listening (h : SlotOk sl r t d) (ht : 0 < t) :
    sl.type = .listen ∧ sl.owner = true := by
  have hl : sl.type = .listen := by
    by_contra hn
    have := (h.other hn).2
    omega
  refine ⟨hl, ?_⟩
  cases ho : sl.owner with
  | true => rfl
  | false =>
    have := ((h.listen hl).2.2 ho).2
    omega

/-- `start_listen` gives up before its first accept. -/
theorem SlotOk.releaseListener (h : SlotOk sl (1 + r) (2 + t) d) (ht : 0 ≤ t) {v : Int}
    (hv : v = sl.pending - 2) : SlotOk { sl with pending := v, owner := false } r t d := by
  obtain ⟨hl, ho⟩ := h.listening (by omega)
  obtain ⟨hio, hn, -⟩ := h.listen hl
  have hne : sl.type ≠ .invalid := by rw [hl]; decide
  have hcount := h.count hne
  rw [ho, Bool.toNat_true] at hcount
  have hnp : ¬ sl.Plain := fun hp => hp.2 hl
  have hacc : sl.accepts = [] := List.length_eq_zero_iff.mp (by omega)
  have ht0 : t = 0 := by omega
  refine ⟨h.settled, fun e => absurd e hne, fun _ => ?_, fun _ => ⟨hio, ?_, fun _ => ⟨hacc, ht0⟩⟩,
    fun e => absurd hl e, ?_, fun hp => absurd hp hnp, h.quiet⟩
  · show (sl.io : ℤ) + (false.toNat : ℕ) + r ≤ v
    simp only [Bool.toNat_false]
    omega
  · show (sl.accepts.length : ℤ) + t ≤ 2
    omega
  · show d = if sl.closing = true ∧ false = true then 1 else 0
    rw [h.drops, h.quiet hnp, if_neg (by simp), if_neg (by simp)]

/-- `AcceptEx` takes the place of the thread that was to start it. -/
theorem SlotOk.startAccept (h : SlotOk sl r (1 + t) d) (ht : 0 ≤ t) (a : Ctx × Nat) :
    SlotOk { sl with accepts := a :: sl.accepts } r t d := by
  obtain ⟨hl, ho⟩ := h.listening (by omega)
  obtain ⟨hio, hn, -⟩ := h.listen hl
  refine ⟨h.settled, h.free, h.count, fun _ => ⟨hio, ?_, fun hf => ?_⟩, fun e => absurd hl e, h.drops,
    h.open_owner, h.quiet⟩
  · show (((a :: sl.accepts).length : ℕ) : ℤ) + t ≤ 2
    rw [List.length_cons]
    push_cast
    omega
  · have hf : sl.owner = false := hf
    rw [ho] at hf
    cases hf

theorem SlotOk.finishAccept (h : SlotOk sl r t d) {a : Ctx × Nat} (ha : a ∈ sl.accepts) :
    SlotOk { sl with accepts := sl.accepts.erase a } r (1 + t) d := by
  have hl : sl.type = .listen := by
    by_contra hn
    rw [(h.other hn).1] at ha
    cases ha
  obtain ⟨hio, hn, hown⟩ := h.listen hl
  have hpos := List.length_pos_of_mem ha
  refine ⟨h.settled, h.free, h.count, fun _ => ⟨hio, ?_, fun hf => ?_⟩, fun e => absurd hl e, h.drops,
    h.open_owner, h.quiet⟩
  · show (((sl.accepts.erase a).length : ℕ) : ℤ) + (1 + t) ≤ 2
    rw [List.length_erase_of_mem ha]
    omega
  · rw [(hown hf).1] at ha
    cases ha

/-- `start_listen` has its two accepts before it. -/
theorem SlotOk.plan (h : SlotOk sl r t d) (hl : sl.type = .listen) (ho : sl.owner = true)
    (ha : sl.accepts = []) : SlotOk sl r 2 d := by
  refine ⟨h.settled, h.free, h.count, fun _ => ⟨(h.listen hl).1, ?_, fun hf => ?_⟩,
    fun e => absurd hl e, h.drops, h.open_owner, h.quiet⟩
  · rw [ha]
    decide
  · rw [ho] at hf
    cases hf

/-- A drop to nothing is the last one. -/
theorem SlotOk.justified (h : SlotOk sl r t d) (hne : sl.type ≠ .invalid) (hr : 0 ≤ r)
    (hle : sl.pending ≤ 0) : sl.Justified := by
  have hc := h.count hne
  have ho : sl.owner = false := by
    cases ho : sl.owner with
    | false => rfl
    | true =>
      rw [ho, Bool.toNat_true] at hc
      omega
  refine ⟨hne, ho, by omega, ?_⟩
  by_cases hl : sl.type = .listen
  · exact ((h.listen hl).2.2 ho).1
  · exact (h.other hl).1

theorem SlotOk.of_free (h : SlotOk sl r t d) (hi : sl.type = .invalid) :
    sl.io = 0 ∧ r = 0 ∧ sl.accepts = [] ∧ t = 0 ∧ sl.closing = false ∧ d = 0 := by
  have hc := h.quiet fun hp => hp.1 hi
  obtain ⟨hio, hr⟩ := h.free hi
  obtain ⟨ha, ht⟩ := h.other (by rw [hi]; decide)
  exact ⟨hio, hr, ha, ht, hc, by rw [h.drops, if_neg (by simp [hc])]⟩

theorem SlotOk.opened (h : SlotOk sl r t d) (hi : sl.type = .invalid) {ty : SocketType} (id : Int)
    (hti : ty ≠ .invalid) (htr : ty ≠ .reserve) :
    SlotOk { sl with type := ty, id := id, pending := 1, owner := true } r t d := by
  obtain ⟨hio, rfl, ha, rfl, hc, rfl⟩ := h.of_free hi
  refine ⟨htr, fun e => absurd e hti, fun _ => ?_, fun _ => ⟨hio, ?_, fun hf => ?_⟩,
    fun _ => ⟨ha, rfl⟩, ?_, fun _ _ => rfl, fun _ => hc⟩
  · show (sl.io : ℤ) + (true.toNat : ℕ) + 0 ≤ 1
    rw [hio]
    rfl
  · show (sl.accepts.length : ℤ) + 0 ≤ 2
    rw [ha]
    decide
  · cases hf
  · show (0 : ℤ) = if sl.closing = true ∧ true = true then 1 else 0
    rw [if_neg (by simp [hc])]

theorem SlotOk.unopened (h : SlotOk sl r t d) (hi : sl.type = .invalid) (id : Int) :
    SlotOk { sl with type := .invalid, id := id, pending := 1 } r t d := by
  obtain ⟨hio, rfl, ha, rfl, hc, rfl⟩ := h.of_free hi
  refine ⟨by rintro ⟨⟩, fun _ => ⟨hio, rfl⟩, fun e => absurd rfl e, ?_, fun _ => ⟨ha, rfl⟩, h.drops, ?_,
    fun _ => hc⟩
  · rintro ⟨⟩
  · rintro ⟨hp, -⟩
    exact absurd rfl hp

end Slots

/-! ## Changes of the server -/

section Servers

variable {s s' : Server} {T R : Multiset Pc} {p : Pc} {o : Option Pc}

@[simp] theorem set_slot_self (s : Server) (i : Nat) (f : Slot → Slot) :
    (s.set i f).slot i = f (s.slot i) := by
  simp [Server.set]

theorem set_slot_ne (s : Server) {i x : Nat} (hx : x ≠ i) (f : Slot → Slot) :
    (s.set i f).slot x = s.slot x := by
  simp [Server.set, Function.update_of_ne hx]

/-- A thread moves on and one slot changes. -/
theorem Inv.move (h : Inv s (p ::ₘ R)) (a : Nat) (hslot : ∀ x, x ≠ a → s'.slot x = s.slot x)
    (hw : ∀ x, x ≠ a → o.elim 0 (Pc.refs x) = p.refs x ∧ o.elim 0 (Pc.starts x) = p.starts x ∧
      o.elim 0 (Pc.drops x) = p.drops x)
    (hat : ∀ r t d, 0 ≤ r → 0 ≤ t → 0 ≤ d →
      SlotOk (s.slot a) (p.refs a + r) (p.starts a + t) (p.drops a + d) →
      SlotOk (s'.slot a) (o.elim 0 (Pc.refs a) + r) (o.elim 0 (Pc.starts a) + t)
        (o.elim 0 (Pc.drops a) + d))
    (hplain : (s.slot a).Plain → (s'.slot a).Plain)
    (huses : ∀ p' ∈ o, ∀ j ∈ p'.uses, (s'.slot j).Plain)
    (hnews : ∀ b ∈ (s'.slot a).accepts, b ∈ (s.slot a).accepts ∨ (s'.slot b.2).Plain)
    (hent : ∀ sl ∈ s'.entered, sl ∈ s.entered ∨ sl.Justified) : Inv s' (put o R) := by
  have hmono : ∀ x, (s.slot x).Plain → (s'.slot x).Plain := fun x hx => by
    by_cases hxa : x = a
    · subst hxa
      exact hplain hx
    · rw [hslot x hxa]
      exact hx
  refine ⟨fun x => ?_, fun q hq j hj => ?_, fun x b hb => ?_, fun sl hsl => ?_⟩
  · have hx := h.slots x
    rw [load_cons, load_cons, load_cons] at hx
    rw [load_put, load_put, load_put]
    by_cases hxa : x = a
    · subst hxa
      exact hat _ _ _ (load_nonneg (Pc.refs_nonneg x) R) (load_nonneg (Pc.starts_nonneg x) R)
        (load_nonneg (Pc.drops_nonneg x) R) hx
    · obtain ⟨h₁, h₂, h₃⟩ := hw x hxa
      rw [hslot x hxa, h₁, h₂, h₃]
      exact hx
  · rcases mem_put.mp hq with hq | hq
    · exact huses q hq j hj
    · exact hmono j (h.uses q (Multiset.mem_cons_of_mem hq) j hj)
  · by_cases hxa : x = a
    · subst hxa
      rcases hnews b hb with hb | hb
      · exact hmono _ (h.news x b hb)
      · exact hb
    · rw [hslot x hxa] at hb
      exact hmono _ (h.news x b hb)
  · exact (hent sl hsl).elim (h.entered sl) fun hj => hj

/-- A thread moves on and one slot changes, but for its accepts. -/
theorem Inv.set (h : Inv s (p ::ₘ R)) (a : Nat) {f : Slot → Slot}
    (hw : ∀ x, x ≠ a → o.elim 0 (Pc.refs x) = p.refs x ∧ o.elim 0 (Pc.starts x) = p.starts x ∧
      o.elim 0 (Pc.drops x) = p.drops x)
    (hat : ∀ r t d, 0 ≤ r → 0 ≤ t → 0 ≤ d →
      SlotOk (s.slot a) (p.refs a + r) (p.starts a + t) (p.drops a + d) →
      SlotOk (f (s.slot a)) (o.elim 0 (Pc.refs a) + r) (o.elim 0 (Pc.starts a) + t)
        (o.elim 0 (Pc.drops a) + d))
    (hplain : (s.slot a).Plain → (f (s.slot a)).Plain)
    (hacc : (f (s.slot a)).accepts = (s.slot a).accepts)
    (huses : ∀ p' ∈ o, ∀ j ∈ p'.uses, (s.slot j).Plain) : Inv (s.set a f) (put o R) := by
  refine h.move a (fun x hx => set_slot_ne s hx f) hw (by rw [set_slot_self]; exact hat)
    (by rw [set_slot_self]; exact hplain) (fun p' hp' j hj => ?_) (fun b hb => .inl ?_)
    fun sl hsl => .inl hsl
  · have hj' := huses p' hp' j hj
    by_cases hja : j = a
    · subst hja
      rw [set_slot_self]
      exact hplain hj'
    · rw [set_slot_ne s hja]
      exact hj'
  · rw [set_slot_self, hacc] at hb
    exact hb

/-- A thread moves on and no slot changes. -/
theorem Inv.turn (h : Inv s (p ::ₘ R)) (a : Nat)
    (hw : ∀ x, x ≠ a → o.elim 0 (Pc.refs x) = p.refs x ∧ o.elim 0 (Pc.starts x) = p.starts x ∧
      o.elim 0 (Pc.drops x) = p.drops x)
    (hat : ∀ r t d, 0 ≤ r → 0 ≤ t → 0 ≤ d →
      SlotOk (s.slot a) (p.refs a + r) (p.starts a + t) (p.drops a + d) →
      SlotOk (s.slot a) (o.elim 0 (Pc.refs a) + r) (o.elim 0 (Pc.starts a) + t)
        (o.elim 0 (Pc.drops a) + d))
    (huses : ∀ p' ∈ o, ∀ j ∈ p'.uses, (s.slot j).Plain) : Inv s (put o R) :=
  h.move a (fun _ _ => rfl) hw hat (fun hp => hp) huses (fun _ hb => .inl hb) fun _ hsl => .inl hsl

/-- `reserve_id` takes a free slot or changes none. -/
theorem reserveId_spec (n : Nat) (s : Server) :
    (reserveId n s).1.entered = s.entered ∧
      ((reserveId n s).1.slot = s.slot ∨
        (s.slot (hashId (reserveId n s).2)).type = .invalid ∧
        (reserveId n s).1.slot = Function.update s.slot (hashId (reserveId n s).2)
          { s.slot (hashId (reserveId n s).2) with
            type := .reserve, id := (reserveId n s).2, pending := 1 }) := by
  induction n generalizing s with
  | zero => exact ⟨rfl, .inl rfl⟩
  | succ n ih =>
    rw [reserveId]
    dsimp only
    split
    · next hi => exact ⟨rfl, .inr ⟨hi, rfl⟩⟩
    · exact ih { s with allocId := nextAlloc s.allocId }

/-- A slot that is reserved is free before, and its type tells it from then on. -/
theorem Inv.openSlot (h : Inv s T) (hres : Reserves s) (append : Bool) (ty : SocketType)
    (hti : ty ≠ .invalid) (htr : ty ≠ .reserve) :
    Inv (openSlot s append ty).1 T ∧
      ∀ i ∈ (openSlot s append ty).2, ((openSlot s append ty).1.slot i).type = ty ∧
        ((openSlot s append ty).1.slot i).accepts = [] ∧
        ((openSlot s append ty).1.slot i).owner = true ∧ load (Pc.starts i) T = 0 := by
  obtain ⟨hent, hslot⟩ := reserveId_spec maxSocket s
  rw [Reserves] at hres
  rcases hr : reserveId maxSocket s with ⟨s₁, id⟩
  rw [hr] at hent hslot hres
  simp only at hent hslot hres
  obtain ⟨hi, hslot⟩ := hslot.resolve_left fun he => by
    rw [he] at hres
    exact (h.slots _).settled hres
  have hok := h.slots (hashId id)
  obtain ⟨-, -, hacc, ht, -, -⟩ := hok.of_free hi
  have hne : ∀ x, x ≠ hashId id → s₁.slot x = s.slot x := fun x hx => by
    rw [hslot, Function.update_of_ne hx]
  -- The threads see either a new slot in place of a free one, or a free one still.
  have hinv : ∀ f : Slot → Slot, (f (s₁.slot (hashId id))).accepts = [] →
      SlotOk (f (s₁.slot (hashId id))) (load (Pc.refs (hashId id)) T)
        (load (Pc.starts (hashId id)) T) (load (Pc.drops (hashId id)) T) →
      Inv (s₁.set (hashId id) f) T := by
    intro f hf hslotok
    have hmono : ∀ x, (s.slot x).Plain → ((s₁.set (hashId id) f).slot x).Plain := fun x hx => by
      have hxa : x ≠ hashId id := by
        rintro rfl
        exact hx.1 hi
      rw [set_slot_ne s₁ hxa, hne x hxa]
      exact hx
    refine ⟨fun x => ?_, fun q hq j hj => hmono j (h.uses q hq j hj), fun x b hb => ?_, ?_⟩
    · by_cases hxa : x = hashId id
      · subst hxa
        rw [set_slot_self]
        exact hslotok
      · rw [set_slot_ne s₁ hxa, hne x hxa]
        exact h.slots x
    · by_cases hxa : x = hashId id
      · subst hxa
        rw [set_slot_self, hf] at hb
        cases hb
      · rw [set_slot_ne s₁ hxa, hne x hxa] at hb
        exact hmono _ (h.news x b hb)
    · show ∀ sl ∈ s₁.entered, sl.Justified
      rw [hent]
      exact h.entered
  have hself : s₁.slot (hashId id) =
      { s.slot (hashId id) with type := .reserve, id := id, pending := 1 } := by
    rw [hslot, Function.update_self]
  cases append with
  | true =>
    simp only [CoreSocket.openSlot, hr, if_true]
    refine ⟨hinv _ (by rw [hself]; exact hacc) ?_, ?_⟩
    · rw [hself]
      exact hok.opened hi id hti htr
    · rintro i ⟨⟩
      rw [set_slot_self, hself]
      exact ⟨rfl, hacc, rfl, ht⟩
  | false =>
    simp only [CoreSocket.openSlot, hr, Bool.false_eq_true, if_false]
    refine ⟨hinv _ (by rw [hself]; exact hacc) ?_, by rintro i ⟨⟩⟩
    rw [hself]
    exact hok.unopened hi id

end Servers

/-! ## The steps of connections -/

section Steps

variable {s s' : Server} {T R : Multiset Pc} {p : Pc}

theorem Inv.plain (h : Inv s (p ::ₘ R)) {j : Nat} (hj : j ∈ p.uses) : (s.slot j).Plain :=
  h.uses p (Multiset.mem_cons_self p R) j hj

/-- A thread that holds a reference holds it on an allocated slot. -/
theorem Inv.allocated (h : Inv s (p ::ₘ R)) {x : Nat} (hr : 0 < p.refs x) :
    (s.slot x).type ≠ .invalid := by
  intro hi
  have hx := (h.slots x).free hi
  rw [load_cons] at hx
  have := load_nonneg (Pc.refs_nonneg x) R
  omega

/-- One more reference, counted from then on. -/
theorem Inv.addref (h : Inv s (p ::ₘ R)) {p' : Pc} {a : Nat} (hne : (s.slot a).type ≠ .invalid)
    (hw : ∀ x, p'.refs x = p.refs x + (if a = x then 1 else 0) ∧ p'.starts x = p.starts x ∧
      p'.drops x = p.drops x)
    (huses : ∀ j ∈ p'.uses, (s.slot j).Plain) :
    Inv (s.set a fun sl => { sl with pending := sl.pending + 1 }) (put (some p') R) := by
  refine h.set a (fun x hx => ?_) (fun r t d _ _ _ hs => ?_) (fun hp => hp) rfl ?_
  · obtain ⟨h₁, h₂, h₃⟩ := hw x
    simp [h₁, h₂, h₃, hx.symm]
  · obtain ⟨h₁, h₂, h₃⟩ := hw a
    rw [Option.elim_some, Option.elim_some, Option.elim_some, h₁, h₂, h₃]
    exact hs.shift hne (by simp)
  · rintro _ ⟨⟩
    exact huses

/-- A context or the handler of a slot changes, and the thread keeps what it holds. -/
theorem Inv.keep (h : Inv s (p ::ₘ R)) {p' : Pc} (a : Nat) {f : Slot → Slot}
    (hw : ∀ x, p'.refs x = p.refs x ∧ p'.starts x = p.starts x ∧ p'.drops x = p.drops x)
    (hat : ∀ r t d, SlotOk (s.slot a) r t d → SlotOk (f (s.slot a)) r t d)
    (hplain : (s.slot a).Plain → (f (s.slot a)).Plain)
    (hacc : (f (s.slot a)).accepts = (s.slot a).accepts)
    (huses : ∀ j ∈ p'.uses, (s.slot j).Plain) : Inv (s.set a f) (put (some p') R) := by
  refine h.set a (fun x _ => hw x) (fun r t d _ _ _ hs => ?_) hplain hacc ?_
  · obtain ⟨h₁, h₂, h₃⟩ := hw a
    rw [Option.elim_some, Option.elim_some, Option.elim_some, h₁, h₂, h₃]
    exact hat _ _ _ hs
  · rintro _ ⟨⟩
    exact huses

/-- The thread goes on without a change of any slot. -/
theorem Inv.pass (h : Inv s (p ::ₘ R)) {p' : Pc}
    (hw : ∀ x, p'.refs x = p.refs x ∧ p'.starts x = p.starts x ∧ p'.drops x = p.drops x)
    (huses : ∀ j ∈ p'.uses, (s.slot j).Plain) : Inv s (put (some p') R) := by
  refine h.turn 0 (fun x _ => hw x) (fun r t d _ _ _ hs => ?_) ?_
  · obtain ⟨h₁, h₂, h₃⟩ := hw 0
    rw [Option.elim_some, Option.elim_some, Option.elim_some, h₁, h₂, h₃]
    exact hs
  · rintro _ ⟨⟩
    exact huses

theorem Inv.conInc {i : Nat} {io : ConnectIo} (h : Inv s (.conInc i io ::ₘ R)) :
    Inv (next s (.conInc i io)).1 (put (next s (.conInc i io)).2 R) := by
  have hp := h.plain (List.mem_singleton_self i)
  refine h.addref hp.1 (fun x => by simp [Pc.refs, Pc.starts, Pc.drops]) fun j hj => ?_
  obtain rfl := List.mem_singleton.mp hj
  exact hp

theorem Inv.conEx {i : Nat} {io : ConnectIo} (h : Inv s (.conEx i io ::ₘ R)) :
    Inv (next s (.conEx i io)).1 (put (next s (.conEx i io)).2 R) := by
  have hp := h.plain (List.mem_singleton_self i)
  have hw : ∀ x, x ≠ i → (none : Option Pc).elim 0 (Pc.refs x) = (Pc.conEx i io).refs x ∧
      (none : Option Pc).elim 0 (Pc.starts x) = (Pc.conEx i io).starts x ∧
      (none : Option Pc).elim 0 (Pc.drops x) = (Pc.conEx i io).drops x := fun x hx => by
    simp [Pc.refs, Pc.starts, Pc.drops, hx.symm]
  simp only [next]
  split
  · refine h.turn i hw (fun r t d _ _ _ hs => hs.drop hp.1 ?_) (by rintro _ ⟨⟩)
    simp [Pc.refs]
  · show Inv (s.set i fun sl => { sl with io := sl.io + 1 }) (put none R)
    refine h.set i hw (fun r t d _ _ _ hs => ?_) (fun hp => hp) rfl (by rintro _ ⟨⟩)
    simp only [Option.elim_none, Pc.refs, Pc.starts, Pc.drops, if_true, zero_add] at hs ⊢
    exact hs.startIo hp

theorem Inv.connDone {i : Nat} {ok recv : Bool} (h : Inv s (.connDone i ok recv ::ₘ R)) :
    Inv (next s (.connDone i ok recv)).1 (put (next s (.connDone i ok recv)).2 R) := by
  have hp := h.plain (List.mem_singleton_self i)
  cases ok with
  | true =>
    show Inv (s.set i fun sl => { sl with rdReady := 0, type := .connected })
      (put (some (.recvAdd i .done recv)) R)
    refine h.keep i (fun x => by simp [Pc.refs, Pc.starts, Pc.drops, After.starts])
      (fun r t d hs => ?_) (fun _ => ⟨by rintro ⟨⟩, by rintro ⟨⟩⟩) rfl fun j hj => ?_
    · exact (hs.setCtx 0 _ _).retype hp (by decide) (by decide) (by decide)
    · obtain rfl := List.mem_singleton.mp hj
      exact hp
  | false =>
    show Inv (s.set i fun sl => { sl with rdReady := 0 }) (put (some (.delref i 1 .done)) R)
    exact h.keep i (fun x => by simp [Pc.refs, Pc.starts, Pc.drops, After.starts])
      (fun r t d hs => hs.setCtx 0 _ _) (fun hp => hp) rfl (by rintro j ⟨⟩)

theorem Inv.recvDone {i : Nat} {ok recv : Bool} (h : Inv s (.recvDone i ok recv ::ₘ R)) :
    Inv (next s (.recvDone i ok recv)).1 (put (next s (.recvDone i ok recv)).2 R) := by
  have hp := h.plain (List.mem_singleton_self i)
  cases ok with
  | true =>
    show Inv (s.set i fun sl => { sl with rdReady := 0 }) (put (some (.recvAdd i .done recv)) R)
    refine h.keep i (fun x => by simp [Pc.refs, Pc.starts, Pc.drops, After.starts])
      (fun r t d hs => hs.setCtx 0 _ _) (fun hp => hp) rfl fun j hj => ?_
    obtain rfl := List.mem_singleton.mp hj
    exact hp
  | false =>
    show Inv s (put (some (.delref i 1 .done)) R)
    exact h.pass (fun x => by simp [Pc.refs, Pc.starts, Pc.drops, After.starts]) (by rintro j ⟨⟩)

theorem Inv.recvAdd {i : Nat} {k : After} {recv : Bool} (h : Inv s (.recvAdd i k recv ::ₘ R)) :
    Inv (next s (.recvAdd i k recv)).1 (put (next s (.recvAdd i k recv)).2 R) := by
  have hp := h.plain (List.mem_singleton_self i)
  simp only [next, CoreSocket.addref, if_pos hp.1]
  refine h.addref hp.1 (fun x => ⟨?_, rfl, rfl⟩) fun j hj => ?_
  · simp only [Pc.refs]
    split <;> rfl
  · obtain rfl := List.mem_singleton.mp hj
    exact hp

theorem Inv.recvArm {i : Nat} {k : After} {recv : Bool} (h : Inv s (.recvArm i k recv ::ₘ R)) :
    Inv (next s (.recvArm i k recv)).1 (put (next s (.recvArm i k recv)).2 R) := by
  have hp := h.plain (List.mem_singleton_self i)
  show Inv (s.set i fun sl => { sl with rdReady := 1, call := .onEvRecv })
    (put (some (.recvCall i k recv)) R)
  refine h.keep i (fun x => ⟨rfl, rfl, rfl⟩) (fun r t d hs => hs.setCtx 1 _ .onEvRecv) (fun hp => hp)
    rfl fun j hj => ?_
  obtain rfl := List.mem_singleton.mp hj
  exact hp

theorem Inv.recvCall {i : Nat} {k : After} {recv : Bool} (h : Inv s (.recvCall i k recv ::ₘ R)) :
    Inv (next s (.recvCall i k recv)).1 (put (next s (.recvCall i k recv)).2 R) := by
  have hp := h.plain (List.mem_singleton_self i)
  cases recv with
  | true =>
    show Inv (s.set i fun sl => { sl with io := sl.io + 1 }) (put (some (.delref i 1 k)) R)
    refine h.set i (fun x hx => ?_) (fun r t d _ _ _ hs => ?_) (fun hp => hp) rfl ?_
    · simp [Pc.refs, Pc.starts, Pc.drops, hx.symm]
    · simp only [Option.elim_some, Pc.refs, Pc.starts, Pc.drops, if_true] at hs ⊢
      exact SlotOk.startIo (by rwa [← add_assoc]) hp
    · rintro _ ⟨⟩ j ⟨⟩
  | false =>
    show Inv (s.set i fun sl => { sl with rdReady := 0 }) (put (some (.delref i 2 k)) R)
    exact h.keep i (fun x => ⟨rfl, rfl, rfl⟩) (fun r t d hs => hs.setCtx 0 _ _) (fun hp => hp) rfl
      (by rintro j ⟨⟩)

/-! ## The steps of accepts -/

theorem Inv.accDone {i : Nat} {ctx : Ctx} {j : Nat} {ok recv : Bool} {io : ListenIo}
    (h : Inv s (.accDone i ctx j ok recv io ::ₘ R)) :
    Inv (next s (.accDone i ctx j ok recv io)).1 (put (next s (.accDone i ctx j ok recv io)).2 R) := by
  have hp := h.plain (List.mem_singleton_self j)
  cases ok with
  | true =>
    show Inv (s.set j fun sl => { sl with type := .paccept }) (put (some (.accInc i ctx j recv io)) R)
    refine h.keep j (fun x => ⟨rfl, rfl, rfl⟩) (fun r t d hs => ?_)
      (fun _ => ⟨by rintro ⟨⟩, by rintro ⟨⟩⟩) rfl fun j' hj => ?_
    · exact hs.retype hp (by decide) (by decide) (by decide)
    · obtain rfl := List.mem_singleton.mp hj
      exact hp
  | false =>
    show Inv s (put (some (.accReady i ctx io)) R)
    exact h.pass (fun x => ⟨rfl, rfl, rfl⟩) (by rintro j ⟨⟩)

theorem Inv.accInc {i : Nat} {ctx : Ctx} {j : Nat} {recv : Bool} {io : ListenIo}
    (h : Inv s (.accInc i ctx j recv io ::ₘ R)) :
    Inv (next s (.accInc i ctx j recv io)).1 (put (next s (.accInc i ctx j recv io)).2 R) := by
  have hp := h.plain (List.mem_singleton_self j)
  show Inv (s.set j fun sl => { sl with pending := sl.pending + 1 })
    (put (some (.recvAdd j (.relisten i ctx io) recv)) R)
  refine h.addref hp.1 (fun x => by simp [Pc.refs, Pc.starts, Pc.drops, After.starts])
    fun j' hj => ?_
  obtain rfl := List.mem_singleton.mp hj
  exact hp

theorem setReady_type (ctx : Ctx) (v : Int) (sl : Slot) : (setReady ctx v sl).type = sl.type := by
  cases ctx <;> rfl

theorem setReady_accepts (ctx : Ctx) (v : Int) (sl : Slot) :
    (setReady ctx v sl).accepts = sl.accepts := by
  cases ctx <;> rfl

theorem Slot.Plain.setReady {sl : Slot} (hp : sl.Plain) (ctx : Ctx) (v : Int) :
    (setReady ctx v sl).Plain := by
  rw [Slot.Plain, setReady_type]
  exact hp

theorem Inv.accReady {i : Nat} {ctx : Ctx} {io : ListenIo} (h : Inv s (.accReady i ctx io ::ₘ R)) :
    Inv (next s (.accReady i ctx io)).1 (put (next s (.accReady i ctx io)).2 R) := by
  show Inv (s.set i (setReady ctx 0)) (put (some (.lisAdd .again i ctx io)) R)
  exact h.keep i (fun x => ⟨rfl, by simp [Pc.starts, Lister.starts], rfl⟩)
    (fun r t d hs => hs.setReady ctx 0) (fun hp => hp.setReady ctx 0) (setReady_accepts ctx 0 _)
    (by rintro j ⟨⟩)

theorem Inv.lisOpen {append : Bool} {io io₂ : ListenIo} (h : Inv s (.lisOpen append io io₂ ::ₘ R))
    (hres : Reserves s) :
    Inv (next s (.lisOpen append io io₂)).1 (put (next s (.lisOpen append io io₂)).2 R) := by
  obtain ⟨hinv, hslot⟩ := h.openSlot hres append .listen (by decide) (by decide)
  simp only [next]
  rcases ho : CoreSocket.openSlot s append .listen with ⟨s₁, _ | i⟩
  · rw [ho] at hinv
    refine hinv.turn (o := none) 0 (fun x _ => ⟨rfl, rfl, rfl⟩) (fun r t d _ _ _ hs => hs) ?_
    rintro _ ⟨⟩
  · rw [ho] at hinv hslot
    obtain ⟨hty, hacc, hown, ht⟩ := hslot i rfl
    -- Nobody has planned an accept on the new slot, so that the two of `start_listen` are the first.
    refine ⟨fun x => ?_, fun q hq j hj => ?_, hinv.news, hinv.entered⟩
    · have hx := hinv.slots x
      show SlotOk (s₁.slot x) (load (Pc.refs x) (.lisAdd (.first io₂) i .read io ::ₘ R))
        (load (Pc.starts x) (.lisAdd (.first io₂) i .read io ::ₘ R))
        (load (Pc.drops x) (.lisAdd (.first io₂) i .read io ::ₘ R))
      rw [load_cons, load_cons, load_cons] at hx ⊢
      by_cases hxi : i = x
      · subst hxi
        have ht0 : load (Pc.starts i) R = 0 := by simpa [Pc.starts] using ht
        rw [ht0]
        simp only [Pc.starts, if_true, Lister.starts]
        exact hx.plan hty hown hacc
      · simpa [Pc.refs, Pc.starts, Pc.drops, hxi] using hx
    · rcases Multiset.mem_cons.mp hq with rfl | hq
      · cases hj
      · exact hinv.uses q (Multiset.mem_cons_of_mem hq) j hj

theorem Lister.starts_pos (c : Lister) : 0 < c.starts := by
  cases c <;> simp [Lister.starts]

theorem Inv.lisAdd {c : Lister} {i : Nat} {ctx : Ctx} {io : ListenIo}
    (h : Inv s (.lisAdd c i ctx io ::ₘ R)) :
    Inv (next s (.lisAdd c i ctx io)).1 (put (next s (.lisAdd c i ctx io)).2 R) := by
  have hl : (s.slot i).type = .listen := by
    have hok := h.slots i
    rw [load_cons (f := Pc.starts i)] at hok
    have hR := load_nonneg (Pc.starts_nonneg i) R
    have hc := c.starts_pos
    refine (hok.listening ?_).1
    simp only [Pc.starts, if_true]
    omega
  have hne : (s.slot i).type ≠ .invalid := by rw [hl]; decide
  simp only [next, CoreSocket.addref, if_pos hne]
  exact h.addref hne (fun x => by simp [Pc.refs, Pc.starts, Pc.drops]) (by rintro j ⟨⟩)

/-- `ev_listen_start` fails for `start_listen` and its first context. -/
theorem Inv.lisFailed {c : Lister} {i : Nat} {ctx : Ctx} (h : Inv s (p ::ₘ R))
    (hp : ∀ x, p.refs x = (if i = x then 1 else 0) ∧ p.starts x = (if i = x then c.starts else 0) ∧
      p.drops x = 0) (hc : c.isFirst = true) :
    Inv (s.set i (CoreSocket.setReady ctx 0)) (put (some (lisFailed c i)) R) := by
  cases c with
  | first io =>
    refine h.keep i (fun x => ?_) (fun r t d hs => hs.setReady ctx 0) (fun hp => hp.setReady ctx 0)
      (setReady_accepts ctx 0 _) (by rintro j ⟨⟩)
    obtain ⟨h₁, h₂, h₃⟩ := hp x
    rw [h₁, h₂, h₃]
    exact ⟨rfl, rfl, rfl⟩
  | second => cases hc
  | again => cases hc

theorem Inv.lisSock {c : Lister} {i : Nat} {ctx : Ctx} {io : ListenIo}
    (h : Inv s (.lisSock c i ctx io ::ₘ R)) (hres : io ≠ .noSocket → Reserves s)
    (hfirst : io ≠ .ok → c.isFirst = true) :
    Inv (next s (.lisSock c i ctx io)).1 (put (next s (.lisSock c i ctx io)).2 R) := by
  simp only [next]
  split
  · next hio =>
    exact h.lisFailed (fun x => ⟨rfl, rfl, rfl⟩) (hfirst (by rw [hio]; decide))
  · next hio =>
    obtain ⟨hinv, hslot⟩ := h.openSlot (hres hio) (decide (io ≠ .noAppend)) .plisten
      (by decide) (by decide)
    rcases ho : CoreSocket.openSlot s (decide (io ≠ .noAppend)) .plisten with ⟨s₁, _ | j⟩
    · have hna : io = .noAppend := by
        by_contra hn
        simp [CoreSocket.openSlot, hn] at ho
      rw [ho] at hinv
      exact hinv.lisFailed (fun x => ⟨rfl, rfl, rfl⟩) (hfirst (by rw [hna]; decide))
    · rw [ho] at hinv hslot
      refine hinv.keep i (fun x => ⟨rfl, rfl, rfl⟩) (fun r t d hs => hs.setReady ctx 1)
        (fun hp => hp.setReady ctx 1) (setReady_accepts ctx 1 _) fun j' hj => ?_
      obtain rfl := List.mem_singleton.mp hj
      rw [Slot.Plain, (hslot j' rfl).1]
      exact ⟨by decide, by decide⟩

/-- A call of `ev_listen_start` has one accept less before it when it has succeeded. -/
theorem lisStarted_holds (c : Lister) (i : Nat) (ctx : Ctx) (io : ListenIo) (j x : Nat) :
    (Pc.lisAccept c i ctx io j).refs x = (lisStarted c i).refs x ∧
      (Pc.lisAccept c i ctx io j).starts x = (if i = x then 1 else 0) + (lisStarted c i).starts x ∧
      (Pc.lisAccept c i ctx io j).drops x = (lisStarted c i).drops x := by
  cases c <;> refine ⟨rfl, ?_, rfl⟩ <;>
    simp only [lisStarted, Pc.starts, After.starts, Lister.starts] <;> split <;> rfl

theorem lisStarted_uses (c : Lister) (i : Nat) : (lisStarted c i).uses = [] := by
  cases c <;> rfl

theorem Inv.lisAccept {c : Lister} {i : Nat} {ctx : Ctx} {io : ListenIo} {j : Nat}
    (h : Inv s (.lisAccept c i ctx io j ::ₘ R)) (hfirst : io ≠ .ok → c.isFirst = true) :
    Inv (next s (.lisAccept c i ctx io j)).1 (put (next s (.lisAccept c i ctx io j)).2 R) := by
  have hp := h.plain (List.mem_singleton_self j)
  simp only [next]
  split
  · next hio => exact h.lisFailed (fun x => ⟨rfl, rfl, rfl⟩) (hfirst (by rw [hio]; decide))
  · show Inv (s.set i fun sl => { CoreSocket.setReady ctx 1 sl with accepts := (ctx, j) :: sl.accepts })
      (put (some (lisStarted c i)) R)
    have hplain : ∀ x, (s.slot x).Plain → ((s.set i fun sl =>
        { CoreSocket.setReady ctx 1 sl with accepts := (ctx, j) :: sl.accepts }).slot x).Plain := by
      intro x hx
      by_cases hxi : x = i
      · subst hxi
        rw [set_slot_self]
        exact hx.setReady ctx 1
      · rw [set_slot_ne s hxi]
        exact hx
    refine h.move i (fun x hx => set_slot_ne s hx _) (fun x hx => ?_) (fun r t d _ ht _ hs => ?_)
      (hplain i) (fun p' hp' j' hj => ?_) (fun b hb => ?_) fun sl hsl => .inl hsl
    · obtain ⟨h₁, h₂, h₃⟩ := lisStarted_holds c i ctx io j x
      rw [h₁, h₂, h₃, if_neg hx.symm, zero_add]
      exact ⟨rfl, rfl, rfl⟩
    · obtain ⟨h₁, h₂, h₃⟩ := lisStarted_holds c i ctx io j i
      rw [h₁, h₂, h₃, if_pos rfl, add_assoc] at hs
      rw [set_slot_self]
      have hnn := (lisStarted c i).starts_nonneg i
      have hacc := (hs.setReady ctx 1).startAccept (by omega) (ctx, j)
      rw [setReady_accepts] at hacc
      exact hacc
    · obtain rfl : lisStarted c i = p' := by simpa using hp'
      rw [lisStarted_uses] at hj
      cases hj
    · rw [set_slot_self] at hb
      rcases List.mem_cons.mp hb with rfl | hb
      · exact .inr (hplain j hp)
      · exact .inl hb

theorem Inv.conOpen {io : ConnectIo} (h : Inv s (.conOpen io ::ₘ R)) (hres : Reserves s) :
    Inv (next s (.conOpen io)).1 (put (next s (.conOpen io)).2 R) := by
  obtain ⟨hinv, hslot⟩ := h.openSlot hres (decide (io ≠ .noAppend)) .connecting (by decide)
    (by decide)
  simp only [next]
  rcases ho : CoreSocket.openSlot s (decide (io ≠ .noAppend)) .connecting with ⟨s₁, _ | i⟩
  · rw [ho] at hinv
    refine hinv.turn (o := none) 0 (fun x _ => ⟨rfl, rfl, rfl⟩) (fun r t d _ _ _ hs => hs) ?_
    rintro _ ⟨⟩
  · rw [ho] at hinv hslot
    show Inv (s₁.set i fun sl => { sl with rdReady := 1, call := .eventConnect })
      (put (some (.conInc i io)) R)
    refine hinv.keep i (fun x => ⟨rfl, rfl, rfl⟩) (fun r t d hs => hs.setCtx 1 _ .eventConnect)
      (fun hp => hp) rfl fun j hj => ?_
    obtain rfl := List.mem_singleton.mp hj
    rw [Slot.Plain, (hslot j rfl).1]
    exact ⟨by decide, by decide⟩

/-! ## The steps of `start_close` and `socketcheck_delref` -/

theorem Inv.grub {id : Int} (h : Inv s (.grub id ::ₘ R))
    (hne : (s.slot (hashId id)).type ≠ .invalid) :
    Inv (next s (.grub id)).1 (put (next s (.grub id)).2 R) :=
  h.addref hne (fun x => by simp [Pc.refs, Pc.starts, Pc.drops]) (by rintro j ⟨⟩)

theorem Inv.grubCheck {id : Int} (h : Inv s (.grubCheck id ::ₘ R)) :
    Inv (next s (.grubCheck id)).1 (put (next s (.grubCheck id)).2 R) := by
  simp only [next]
  split
  · exact h.pass (fun x => ⟨rfl, rfl, rfl⟩) (by rintro j ⟨⟩)
  · refine h.pass (fun x => ⟨?_, rfl, rfl⟩) (by rintro j ⟨⟩)
    simp only [Pc.refs, Nat.cast_one]

theorem Inv.closeType {i : Nat} (h : Inv s (.closeType i ::ₘ R)) :
    Inv (next s (.closeType i)).1 (put (next s (.closeType i)).2 R) := by
  have hne := h.allocated (x := i) (by simp [Pc.refs])
  simp only [next]
  split
  · exact h.pass (fun x => ⟨rfl, rfl, rfl⟩) (by rintro j ⟨⟩)
  -- `start_close` returns with the reference of `grub_socket`, which is only one too many.
  · refine h.turn (o := none) i (fun x hx => ?_) (fun r t d _ _ _ hs => hs.drop hne ?_)
      (by rintro _ ⟨⟩)
    · simp [Pc.refs, Pc.starts, Pc.drops, hx.symm]
    · simp [Pc.refs]

theorem Inv.closeTest {i : Nat} (h : Inv s (.closeTest i ::ₘ R)) :
    Inv (next s (.closeTest i)).1 (put (next s (.closeTest i)).2 R) := by
  simp only [next]
  split
  · refine h.pass (fun x => ⟨?_, rfl, rfl⟩) (by rintro j ⟨⟩)
    simp only [Pc.refs, Nat.cast_one]
  · exact h.pass (fun x => ⟨rfl, rfl, rfl⟩) (by rintro j ⟨⟩)

theorem Inv.closeSet {i : Nat} (h : Inv s (.closeSet i ::ₘ R)) (hc : (s.slot i).closing = false)
    (hl : (s.slot i).type ≠ .listen) :
    Inv (next s (.closeSet i)).1 (put (next s (.closeSet i)).2 R) := by
  have hne := h.allocated (x := i) (by simp [Pc.refs])
  show Inv (s.set i fun sl => { sl with closing := true }) (put (some (.release i .closer)) R)
  refine h.set i (fun x hx => ?_) (fun r t d _ _ _ hs => ?_) (fun hp => hp) rfl
    (by rintro _ ⟨⟩ j ⟨⟩)
  · simp [Pc.refs, Pc.starts, Pc.drops, hx.symm]
  · simp only [Option.elim_some, Pc.refs, Pc.starts, Pc.drops, if_true, zero_add] at hs ⊢
    exact hs.close ⟨hne, hl⟩ hc

/-- What the caller of `socketcheck_delref` goes on with. -/
theorem resume_holds (k : After) (x : Nat) :
    (resume k).elim 0 (Pc.refs x) = 0 ∧ (resume k).elim 0 (Pc.starts x) = k.starts x ∧
      (resume k).elim 0 (Pc.drops x) = 0 := by
  cases k <;> exact ⟨rfl, rfl, rfl⟩

theorem resume_uses (k : After) : ∀ p ∈ resume k, p.uses = [] := by
  cases k <;> rintro _ ⟨⟩ <;> rfl

/-- `socketcheck_delref` on an allocated slot: the last reference is dropped with the owner's
released and nothing outstanding. -/
theorem Inv.delref_of (h : Inv s (p ::ₘ R)) {i ref : Nat} {f : Slot → Slot} {k : After}
    (hne : (s.slot i).type ≠ .invalid)
    (hf : ∀ sl, (f sl).type = sl.type ∧ (f sl).accepts = sl.accepts ∧ (f sl).pending = sl.pending)
    (hw : ∀ x, x ≠ i → p.refs x = 0 ∧ p.starts x = k.starts x ∧ p.drops x = 0)
    (hat : ∀ r t d, 0 ≤ r → 0 ≤ t → 0 ≤ d →
      SlotOk (s.slot i) (p.refs i + r) (p.starts i + t) (p.drops i + d) →
      SlotOk (f { s.slot i with pending := (s.slot i).pending - ref }) r (k.starts i + t) d) :
    Inv (delref s i ref f k).1 (put (delref s i ref f k).2 R) := by
  obtain ⟨hty, hacc, hpend⟩ := hf { s.slot i with pending := (s.slot i).pending - ref }
  have hnew := hat _ _ _ (load_nonneg (Pc.refs_nonneg i) R) (load_nonneg (Pc.starts_nonneg i) R)
    (load_nonneg (Pc.drops_nonneg i) R) (by simpa only [load_cons] using h.slots i)
  set s₁ := s.set i fun sl => f { sl with pending := (s.slot i).pending - ref } with hs₁
  have hself : s₁.slot i = f { s.slot i with pending := (s.slot i).pending - ref } :=
    set_slot_self s i _
  -- Whether `force_close` is entered or the caller goes on, the slots and what is held are the same.
  have hgo : ∀ (s' : Server) (o : Option Pc), s'.slot = s₁.slot →
      (∀ x, o.elim 0 (Pc.refs x) = 0 ∧ o.elim 0 (Pc.starts x) = k.starts x ∧
        o.elim 0 (Pc.drops x) = 0) → (∀ p' ∈ o, p'.uses = []) →
      (∀ sl ∈ s'.entered, sl ∈ s.entered ∨ sl.Justified) → Inv s' (put o R) := by
    intro s' o hslot ho huses hent
    refine h.move i (fun x hx => ?_) (fun x hx => ?_) (fun r t d hr ht hd hs => ?_) (fun hp => ?_)
      (fun p' hp' j hj => ?_) (fun b hb => .inl ?_) hent
    · rw [hslot, hs₁, set_slot_ne s hx]
    · obtain ⟨h₁, h₂, h₃⟩ := hw x hx
      rw [h₁, h₂, h₃]
      exact ho x
    · obtain ⟨h₁, h₂, h₃⟩ := ho i
      rw [hslot, hself, h₁, h₂, h₃, zero_add, zero_add]
      exact hat r t d hr ht hd hs
    · rw [hslot, hself, Slot.Plain, hty]
      exact hp
    · rw [huses p' hp'] at hj
      cases hj
    · rw [hslot, hself, hacc] at hb
      exact hb
  simp only [delref, ← hs₁]
  split
  · next hle =>
    refine hgo _ (some (.fcRead i k)) rfl (fun x => ⟨rfl, rfl, rfl⟩) (by rintro _ ⟨⟩; rfl)
      fun sl hsl => ?_
    rcases List.mem_cons.mp hsl with rfl | hsl
    · rw [hself]
      refine .inr (hnew.justified (by rw [hty]; exact hne) (load_nonneg (Pc.refs_nonneg i) R) ?_)
      rw [hpend]
      show (s.slot i).pending - ref ≤ 0
      omega
    · exact .inl hsl
  · exact hgo s₁ (resume k) rfl (resume_holds k) (resume_uses k) fun sl hsl => .inl hsl

theorem Inv.delref {i ref : Nat} {k : After} (h : Inv s (.delref i ref k ::ₘ R)) (href : 0 < ref) :
    Inv (next s (.delref i ref k)).1 (put (next s (.delref i ref k)).2 R) := by
  have hne := h.allocated (x := i) (by simp [Pc.refs, href])
  refine h.delref_of hne (fun sl => ⟨rfl, rfl, rfl⟩) (fun x hx => ?_) fun r t d _ _ _ hs => ?_
  · simp [Pc.refs, Pc.starts, Pc.drops, hx.symm]
  · simp only [Pc.refs, Pc.starts, Pc.drops, if_true, zero_add] at hs
    exact hs.shift hne (by omega)

theorem Inv.release {i : Nat} {c : Releaser} (h : Inv s (.release i c ::ₘ R)) :
    Inv (next s (.release i c)).1 (put (next s (.release i c)).2 R) := by
  have hne := h.allocated (x := i) (by simp [Pc.refs])
  refine h.delref_of hne (fun sl => ⟨rfl, rfl, rfl⟩) (fun x hx => ?_) fun r t d _ ht hd hs => ?_
  · cases c <;> simp [Pc.refs, Pc.starts, Pc.drops, After.starts, hx.symm]
  · cases c with
    | closer =>
      simp only [Pc.refs, Pc.starts, Pc.drops, After.starts, if_true, zero_add] at hs ⊢
      exact hs.releaseCloser hd rfl
    | listener =>
      simp only [Pc.refs, Pc.starts, Pc.drops, After.starts, if_true, zero_add] at hs ⊢
      exact hs.releaseListener ht rfl

theorem Inv.fcRead {i : Nat} {k : After} (h : Inv s (.fcRead i k ::ₘ R)) :
    Inv (next s (.fcRead i k)).1 (put (next s (.fcRead i k)).2 R) := by
  show Inv (s.set i fun sl => { sl with rdReady := if sl.rdReady = 1 then 0 else sl.rdReady })
    (put (some (.fcWrite i k)) R)
  exact h.keep i (fun x => ⟨rfl, rfl, rfl⟩) (fun r t d hs => hs.setCtx _ _ _) (fun hp => hp) rfl
    (by rintro j ⟨⟩)

theorem Inv.fcWrite {i : Nat} {k : After} (h : Inv s (.fcWrite i k ::ₘ R)) :
    Inv (next s (.fcWrite i k)).1 (put (next s (.fcWrite i k)).2 R) := by
  show Inv (s.set i fun sl => { sl with wrReady := if sl.wrReady = 1 then 0 else sl.wrReady })
    (put (resume k) R)
  refine h.set i (fun x _ => resume_holds k x) (fun r t d _ _ _ hs => ?_) (fun hp => hp) rfl
    fun p hp j hj => ?_
  · obtain ⟨h₁, h₂, h₃⟩ := resume_holds k i
    rw [h₁, h₂, h₃]
    exact hs.setCtx _ _ _
  · rw [resume_uses k p hp] at hj
    cases hj

end Steps

/-! ## Whole runs -/

section Runs

variable {s s' : Server} {T R : Multiset Pc} {p : Pc}

/-- `socketcheck_delref` is called with one or two references to drop. -/
def Pc.proper : Pc → Prop
  | .delref _ ref _ => 0 < ref
  | _ => True

theorem resume_proper (k : After) : ∀ q ∈ resume k, q.proper := by
  cases k <;> rintro _ ⟨⟩ <;> trivial

theorem delref_proper (s : Server) (i ref : Nat) (f : Slot → Slot) (k : After) :
    ∀ q ∈ (delref s i ref f k).2, q.proper := by
  simp only [delref]
  split
  · rintro _ ⟨⟩
    trivial
  · exact resume_proper k

theorem next_proper (s : Server) (p : Pc) : ∀ q ∈ (next s p).2, q.proper := by
  have hfail : ∀ c i, (lisFailed c i).proper := by
    rintro (_ | _ | _) i <;> simp [lisFailed, Pc.proper]
  have hstart : ∀ c i, (lisStarted c i).proper := by
    rintro (_ | _ | _) i <;> simp [lisStarted, Pc.proper]
  cases p with
  | delref i ref k => exact delref_proper s i ref _ k
  | release i c => exact delref_proper s i 2 _ .done
  | fcWrite i k => exact resume_proper k
  | _ =>
    simp only [next]
    repeat' split
    all_goals
      rintro _ ⟨⟩ <;> first | exact hfail _ _ | exact hstart _ _ | simp [Pc.proper]

theorem Inv.thread (h : Inv s (p ::ₘ R)) (hp : p.proper) (hok : accounted s p R) :
    Inv (next s p).1 (put (next s p).2 R) := by
  cases p with
  | lisOpen append io io₂ => exact h.lisOpen hok
  | lisAdd c i ctx io => exact h.lisAdd
  | lisSock c i ctx io => exact h.lisSock hok.1 hok.2
  | lisAccept c i ctx io j => exact h.lisAccept hok
  | conOpen io => exact h.conOpen hok
  | conInc i io => exact h.conInc
  | conEx i io => exact h.conEx
  | connDone i ok recv => exact h.connDone
  | recvDone i ok recv => exact h.recvDone
  | recvAdd i k recv => exact h.recvAdd
  | recvArm i k recv => exact h.recvArm
  | recvCall i k recv => exact h.recvCall
  | accDone i ctx j ok recv io => exact h.accDone
  | accInc i ctx j recv io => exact h.accInc
  | accReady i ctx io => exact h.accReady
  | grub id => exact h.grub hok
  | grubCheck id => exact h.grubCheck
  | closeType i => exact h.closeType
  | closeTest i => exact h.closeTest
  | closeSet i => exact h.closeSet hok.1 hok.2
  | delref i ref k => exact h.delref hp
  | release i c => exact h.release
  | fcRead i k => exact h.fcRead
  | fcWrite i k => exact h.fcWrite

/-- A thread begins and one slot changes. -/
theorem Inv.begin (h : Inv s T) (a : Nat) {f : Slot → Slot}
    (hw : ∀ x, x ≠ a → p.refs x = 0 ∧ p.starts x = 0 ∧ p.drops x = 0)
    (hat : ∀ r t d, SlotOk (s.slot a) r t d →
      SlotOk (f (s.slot a)) (p.refs a + r) (p.starts a + t) (p.drops a + d))
    (hplain : (f (s.slot a)).type = (s.slot a).type)
    (hacc : ∀ b ∈ (f (s.slot a)).accepts, b ∈ (s.slot a).accepts)
    (huses : ∀ j ∈ p.uses, (s.slot j).Plain) : Inv (s.set a f) (p ::ₘ T) := by
  have hmono : ∀ x, (s.slot x).Plain → ((s.set a f).slot x).Plain := fun x hx => by
    by_cases hxa : x = a
    · subst hxa
      rw [set_slot_self, Slot.Plain, hplain]
      exact hx
    · rw [set_slot_ne s hxa]
      exact hx
  refine ⟨fun x => ?_, fun q hq j hj => ?_, fun x b hb => ?_, h.entered⟩
  · rw [load_cons, load_cons, load_cons]
    by_cases hxa : x = a
    · subst hxa
      rw [set_slot_self]
      exact hat _ _ _ (h.slots x)
    · obtain ⟨h₁, h₂, h₃⟩ := hw x hxa
      rw [set_slot_ne s hxa, h₁, h₂, h₃, zero_add, zero_add, zero_add]
      exact h.slots x
  · rcases Multiset.mem_cons.mp hq with rfl | hq
    · exact hmono j (huses j hj)
    · exact hmono j (h.uses q hq j hj)
  · refine hmono _ (h.news x b ?_)
    by_cases hxa : x = a
    · subst hxa
      rw [set_slot_self] at hb
      exact hacc b hb
    · rwa [set_slot_ne s hxa] at hb

theorem Inv.start (h : Inv s T) (hs : Start s s' p) : Inv s' (p ::ₘ T) := by
  have hcall : ∀ q : Pc, (∀ x, q.refs x = 0 ∧ q.starts x = 0 ∧ q.drops x = 0) → q.uses = [] →
      Inv s (q ::ₘ T) := by
    intro q hq huses
    refine ⟨fun x => ?_, fun q' hq' j hj => ?_, h.news, h.entered⟩
    · obtain ⟨h₁, h₂, h₃⟩ := hq x
      rw [load_cons, load_cons, load_cons, h₁, h₂, h₃, zero_add, zero_add, zero_add]
      exact h.slots x
    · rcases Multiset.mem_cons.mp hq' with rfl | hq'
      · rw [huses] at hj
        cases hj
      · exact h.uses q' hq' j hj
  cases hs with
  | startListen append io io₂ => exact hcall _ (fun x => ⟨rfl, rfl, rfl⟩) rfl
  | startConnet io => exact hcall _ (fun x => ⟨rfl, rfl, rfl⟩) rfl
  | startClose id => exact hcall _ (fun x => ⟨rfl, rfl, rfl⟩) rfl
  | connected i ok recv hio hc | received i ok recv hio hc =>
    refine h.begin i (fun x hx => ?_) (fun r t d hs => ?_) rfl (fun b hb => hb) fun j hj => ?_
    · simp [Pc.refs, Pc.starts, Pc.drops, hx.symm]
    · simp only [Pc.refs, Pc.starts, Pc.drops, if_true, zero_add]
      exact hs.finishIo hio
    · obtain rfl := List.mem_singleton.mp hj
      exact (h.slots j).plain_of_io hio
  | accepted i ctx j ok recv io ha =>
    refine h.begin i (fun x hx => ?_) (fun r t d hs => ?_) rfl (fun b hb => List.mem_of_mem_erase hb)
      fun j' hj => ?_
    · simp [Pc.refs, Pc.starts, Pc.drops, hx.symm]
    · simp only [Pc.refs, Pc.starts, Pc.drops, if_true, zero_add]
      exact hs.finishAccept ha
    · obtain rfl := List.mem_singleton.mp hj
      exact h.news i _ ha

theorem start_proper (hs : Start s s' p) : p.proper := by
  cases hs <;> trivial

/-- A slot after `memset`. -/
def freeSlot : Slot where
  id := 0
  type := .invalid
  pending := 0
  closing := false
  rdReady := 0
  wrReady := 0
  call := .eventConnect
  io := 0
  accepts := []
  owner := false

/-- The server after `start_socketserver`. -/
def startSocketserver : Server := ⟨0, fun _ => freeSlot, []⟩

theorem inv_startSocketserver : Inv startSocketserver 0 := by
  refine ⟨fun x => ⟨by rintro ⟨⟩, fun _ => ⟨rfl, rfl⟩, fun hn => absurd rfl hn, by rintro ⟨⟩,
    fun _ => ⟨rfl, rfl⟩, rfl, fun hp => absurd rfl hp.1, fun _ => rfl⟩, fun p hp => ?_,
    fun x b hb => ?_, fun sl hsl => ?_⟩
  · exact absurd hp (Multiset.notMem_zero p)
  · cases hb
  · cases hsl

/-- **The last reference.** In every run whose steps keep count, `socketcheck_delref` enters
`force_close` only for an allocated slot whose owner's reference has been released and on which no
operation is outstanding. -/
theorem force_close_justified {S : Sys Server Pc}
    (hrun : Reach program accounted ⟨startSocketserver, 0⟩ S) :
    ∀ sl ∈ S.shared.entered,
      sl.type ≠ .invalid ∧ sl.owner = false ∧ sl.io = 0 ∧ sl.accepts = [] := by
  have hinv : Inv S.shared S.threads ∧ ∀ p ∈ S.threads, p.proper := by
    refine hrun.invariant (I := fun s T => Inv s T ∧ ∀ p ∈ T, p.proper)
      ⟨inv_startSocketserver, fun p hp => absurd hp (Multiset.notMem_zero p)⟩ ?_ ?_
    · rintro s p R hok ⟨h, hp⟩
      refine ⟨h.thread (hp p (Multiset.mem_cons_self p R)) hok, fun q hq => ?_⟩
      rcases mem_put.mp hq with hq | hq
      · exact next_proper s p q hq
      · exact hp q (Multiset.mem_cons_of_mem hq)
    · rintro s s' p T hs ⟨h, hp⟩
      refine ⟨h.start hs, fun q hq => ?_⟩
      rcases Multiset.mem_cons.mp hq with rfl | hq
      · exact start_proper hs
      · exact hp q hq
  exact hinv.1.entered

/-- A connection that is closed before it fails. -/
theorem force_close_justified_connect :
    ∃ S : Sys Server Pc, Reach program accounted ⟨startSocketserver, 0⟩ S ∧
      S.shared.entered.length = 1 ∧ ∀ sl ∈ S.shared.entered,
        sl.type ≠ .invalid ∧ sl.owner = false ∧ sl.io = 0 ∧ sl.accepts = [] := by
  have hk : ∀ s p, (fun (s : Server) (p : Pc) => match p with
      | .lisOpen _ _ _ | .lisSock _ _ _ _ | .lisAccept _ _ _ _ _ => false
      | .conOpen _ => decide (Reserves s)
      | .grub id => decide ((s.slot (hashId id)).type ≠ .invalid)
      | .closeSet i => decide ((s.slot i).closing = false ∧ (s.slot i).type ≠ .listen)
      | _ => true) s p = true → accounted s p 0 := by
    intro s p hp
    cases p with
    | lisOpen append io io₂ | lisSock c i ctx io | lisAccept c i ctx io j => cases hp
    | conOpen io | grub id | closeSet i => simpa [accounted] using hp
    | _ => trivial
  have hrun : Reach program accounted ⟨startSocketserver, 0⟩ ⟨startSocketserver, 0⟩ := .refl
  have hconnect := hrun.call 3 (.startConnet _ .ok) hk (by decide +kernel) (by decide +kernel)
  have hclose := hconnect.call 6 (.startClose _ 1) hk (by decide +kernel) (by decide +kernel)
  have hfail := hclose.call 4 (.connected _ 1 false false (by decide +kernel) (by decide +kernel)) hk
    (by decide +kernel) (by decide +kernel)
  exact ⟨_, hfail, by decide +kernel, force_close_justified hfail⟩

/-- `start_close` with an id that was never given out, and with the id of a socket that listens. -/
theorem force_close_unjustified :
    (∃ S : Sys Server Pc, Reach program anyStep ⟨startSocketserver, 0⟩ S ∧
      ∃ sl ∈ S.shared.entered, sl.type = .invalid) ∧
    ∃ S : Sys Server Pc, Reach program anyStep ⟨startSocketserver, 0⟩ S ∧
      ∃ sl ∈ S.shared.entered, sl.type = .listen ∧ sl.accepts = [(.write, 3), (.read, 2)] := by
  have hk : ∀ s p, (fun (_ : Server) (_ : Pc) => true) s p = true →
      anyStep s p (0 : Multiset Pc) := fun _ _ _ => trivial
  have hrun : Reach program anyStep ⟨startSocketserver, 0⟩ ⟨startSocketserver, 0⟩ := .refl
  have hstale := hrun.call 5 (.startClose _ 7) hk (by decide +kernel) (by decide +kernel)
  have hlisten := hrun.call 9 (.startListen _ true .ok .ok) hk (by decide +kernel)
    (by decide +kernel)
  have hclose := hlisten.call 8 (.startClose _ 1) hk (by decide +kernel) (by decide +kernel)
  exact ⟨⟨_, hstale, by decide +kernel⟩, _, hclose, by decide +kernel⟩

end Runs

end HoNet.CoreSocket
