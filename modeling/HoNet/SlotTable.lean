import HoNet.CoreSocket.Server
import HoNet.SocketServer.Conn

/-!
# Reserving an id

`reserve_id` of `coresocket.c` and of `socketserver.cpp`, run by one thread alone. Both draw ids from
the 32-bit counter `alloc_id` and take the first whose slot is free; they differ in the type that
marks a free slot. The counter jumps when it becomes negative, and the ids drawn around the jump are
`-1` and `0`.

* `idAt_eq` — the ids a call draws.
* `reserveId_cases` — a call takes the first id whose slot is free.
* `reserves_iff` — exactly when a call does what its callers rely on.
-/

namespace HoNet.SlotTable

open CoreSocket (maxSocket hashId toLong nextAlloc)

/-- What `reserve_id` and its callers read and write of a slot; an `fd` of `none` is
`INVALID_SOCKET`. -/
structure Entry (τ : Type) where
  type : τ
  id : Int
  fd : Option Nat
  pending : Int
  deriving DecidableEq, Repr

structure Table (τ : Type) where
  allocId : Nat
  slot : Nat → Entry τ

variable {τ : Type}

def Table.set (t : Table τ) (i : Nat) (f : Entry τ → Entry τ) : Table τ :=
  { t with slot := Function.update t.slot i (f (t.slot i)) }

/-- `reserve_id` with the rounds left. Alone the compare-exchange succeeds whenever the type just read
was `free`, so that no round is repeated. -/
def reserveIdFrom [DecidableEq τ] (free taken : τ) : Nat → Table τ → Table τ × Int
  | 0, t => (t, -1)
  | n + 1, t =>
    let t := { t with allocId := nextAlloc t.allocId }
    let id := toLong t.allocId
    if (t.slot (hashId id)).type = free then
      (t.set (hashId id) fun e => { e with type := taken, id := id, fd := none, pending := 1 }, id)
    else reserveIdFrom free taken n t

/-- `reserve_id` of `coresocket.c`. -/
def CoreSocket.reserveId (t : Table CoreSocket.SocketType) : Table CoreSocket.SocketType × Int :=
  reserveIdFrom .invalid .reserve maxSocket t

/-- `socket_server::reserve_id`. -/
def SocketServer.reserveId (t : Table SocketServer.SocketType) : Table SocketServer.SocketType × Int :=
  reserveIdFrom .reserve .invalid maxSocket t

/-! ## The ids drawn -/

/-- The counter after so many rounds. -/
def allocAt (a : Nat) : Nat → Nat
  | 0 => a
  | d + 1 => nextAlloc (allocAt a d)

/-- The id drawn in the round `d`. -/
def idAt (a d : Nat) : Int := toLong (allocAt a d)

theorem allocAt_nextAlloc (a d : Nat) : allocAt (nextAlloc a) d = allocAt a (d + 1) := by
  induction d with
  | zero => rfl
  | succ d ih => rw [allocAt, ih]; rfl

theorem nextAlloc_eq {a : Nat} (ha : a < 2 ^ 32) :
    nextAlloc a = if a + 1 < 2 ^ 31 then a + 1 else if a + 1 = 2 ^ 31 then 2 ^ 32 - 1
      else if a + 1 = 2 ^ 32 then 0 else a - 2 ^ 31 := by
  have hneg : toLong ((a + 1) % 2 ^ 32) < 0 ↔ 2 ^ 31 ≤ (a + 1) % 2 ^ 32 := by
    unfold toLong
    split <;> omega
  simp only [nextAlloc, hneg]
  split_ifs <;> omega

/-- The number before the first id drawn. -/
def base (a : Nat) : Int :=
  if a < 2 ^ 31 then a else if a = 2 ^ 32 - 1 then -1 else a - 2 ^ 31 - 1

theorem base_bounds {a : Nat} (ha : a < 2 ^ 32) : -1 ≤ base a ∧ base a < 2 ^ 31 := by
  unfold base
  split
  · omega
  · split <;> omega

/-- The value of the counter for an id. -/
theorem allocAt_eq {a d : Nat} (ha : a < 2 ^ 32) (hd : d < 2 ^ 31) :
    (allocAt a (d + 1) : Int) =
      if base a + (d + 1) < 2 ^ 31 then base a + (d + 1)
      else if base a + (d + 1) = 2 ^ 31 then 2 ^ 32 - 1 else base a + (d + 1) - 2 ^ 31 - 1 := by
  induction d with
  | zero =>
    simp only [allocAt, nextAlloc_eq ha, base]
    split_ifs <;> omega
  | succ d ih =>
    have hb := base_bounds ha
    have ih := ih (by omega)
    have hx : allocAt a (d + 1) < 2 ^ 32 := by
      split_ifs at ih <;> omega
    rw [allocAt, nextAlloc_eq hx]
    generalize base a = b at *
    generalize allocAt a (d + 1) = x at *
    split_ifs at ih ⊢ <;> omega

/-- **The ids drawn** go up by one, up to `2^31 - 1`; then come `-1`, `0`, `1` and so on. -/
theorem idAt_eq {a d : Nat} (ha : a < 2 ^ 32) (hd : 1 ≤ d) (hd' : d ≤ 2 ^ 31) :
    idAt a d = if base a + d < 2 ^ 31 then base a + d else base a + d - 2 ^ 31 - 1 := by
  obtain ⟨d, rfl⟩ := Nat.exists_eq_add_of_le' hd
  have hb := base_bounds ha
  have hx := allocAt_eq ha (show d < 2 ^ 31 by omega)
  rw [idAt, toLong]
  push_cast at hx ⊢
  generalize base a = b at *
  generalize allocAt a (d + 1) = x at *
  split_ifs at hx ⊢ <;> omega

theorem hashId_lt (x : Int) : hashId x < maxSocket := by
  unfold hashId maxSocket
  omega

theorem hashId_last : hashId (2 ^ 31 - 1) = 65535 := by
  unfold hashId
  omega

theorem hashId_jump : hashId (2 ^ 31) = 0 := by
  unfold hashId
  omega

/-- Before the jump the ids follow each other. -/
theorem idAt_before {a d : Nat} (ha : a < 2 ^ 32) (hd : 1 ≤ d) (hd' : d ≤ maxSocket)
    (h : base a + d < 2 ^ 31) : idAt a d = base a + d := by
  rw [idAt_eq ha hd (by unfold maxSocket at hd'; omega), if_pos h]

/-- From the jump on they are one slot behind. -/
theorem idAt_after {a d : Nat} (ha : a < 2 ^ 32) (hd : 1 ≤ d) (hd' : d ≤ maxSocket)
    (h : 2 ^ 31 ≤ base a + d) : idAt a d = base a + d - 2 ^ 31 - 1 := by
  rw [idAt_eq ha hd (by unfold maxSocket at hd'; omega), if_neg (by omega)]

theorem hashId_idAt_after {a d : Nat} (ha : a < 2 ^ 32) (hd : 1 ≤ d) (hd' : d ≤ maxSocket)
    (h : 2 ^ 31 ≤ base a + d) : hashId (idAt a d) = hashId (base a + d - 1) := by
  rw [idAt_after ha hd hd' h, hashId, hashId]
  omega

/-! ## The loop -/

variable {free taken : τ} {t : Table τ} {d : Nat}

/-- The slot tried in the round `d` is free. -/
def FreeAt (free : τ) (t : Table τ) (d : Nat) : Prop :=
  (t.slot (hashId (idAt t.allocId d))).type = free

/-- The table when the id of the round `d` has been taken. -/
def takeAt (taken : τ) (t : Table τ) (d : Nat) : Table τ :=
  ({ t with allocId := allocAt t.allocId d }).set (hashId (idAt t.allocId d)) fun e =>
    { e with type := taken, id := idAt t.allocId d, fd := none, pending := 1 }

theorem freeAt_next : FreeAt free { t with allocId := nextAlloc t.allocId } d ↔
    FreeAt free t (d + 1) := by
  simp only [FreeAt, idAt, allocAt_nextAlloc]

/-- **A call takes the first id whose slot is free**, or tries all its rounds. -/
theorem reserveId_cases [DecidableEq τ] (free taken : τ) (n : Nat) (t : Table τ) :
    (∃ d, 1 ≤ d ∧ d ≤ n ∧ FreeAt free t d ∧ (∀ e, 1 ≤ e → e < d → ¬ FreeAt free t e) ∧
      reserveIdFrom free taken n t = (takeAt taken t d, idAt t.allocId d)) ∨
    ((∀ e, 1 ≤ e → e ≤ n → ¬ FreeAt free t e) ∧
      reserveIdFrom free taken n t = ({ t with allocId := allocAt t.allocId n }, -1)) := by
  induction n generalizing t with
  | zero => exact .inr ⟨fun e _ _ => by omega, rfl⟩
  | succ n ih =>
    rw [reserveIdFrom]
    by_cases hfree : FreeAt free t 1
    · refine .inl ⟨1, le_rfl, by omega, hfree, fun e _ _ => by omega, ?_⟩
      exact if_pos hfree
    · have hshift {m : Nat} (h : ∀ e, 1 ≤ e → e < m →
          ¬ FreeAt free { t with allocId := nextAlloc t.allocId } e) :
          ∀ e, 1 ≤ e → e < m + 1 → ¬ FreeAt free t e := by
        intro e he hem
        obtain ⟨e, rfl⟩ := Nat.exists_eq_add_of_le' he
        rcases Nat.eq_zero_or_pos e with rfl | hpos
        · exact hfree
        · rw [← freeAt_next]
          exact h e hpos (by omega)
      rcases ih { t with allocId := nextAlloc t.allocId } with
        ⟨d, hd, hdn, hd_free, hfirst, heq⟩ | ⟨hnone, heq⟩
      · refine .inl ⟨d + 1, by omega, by omega, freeAt_next.mp hd_free, hshift hfirst, ?_⟩
        refine (if_neg hfree).trans (heq.trans ?_)
        simp only [takeAt, idAt, allocAt_nextAlloc]
      · refine .inr ⟨fun e he hen => ?_, ?_⟩
        · exact hshift (m := n + 1) (fun e he hen => hnone e he (by omega)) e he (by omega)
        · refine (if_neg hfree).trans (heq.trans ?_)
          simp only [allocAt_nextAlloc]

/-! ## What callers rely on -/

/-- `-1` exactly when no slot is free, and then no slot is changed; otherwise a positive id of a slot
that was free, is the only one changed and stores the id with one reference. -/
structure Reserves (free : τ) (t : Table τ) (r : Table τ × Int) : Prop where
  none_iff : r.2 = -1 ↔ ∀ i < maxSocket, (t.slot i).type ≠ free
  none_slot : r.2 = -1 → r.1.slot = t.slot
  pos : r.2 ≠ -1 → 0 < r.2
  was_free : r.2 ≠ -1 → (t.slot (hashId r.2)).type = free
  others : r.2 ≠ -1 → ∀ i, i ≠ hashId r.2 → r.1.slot i = t.slot i
  stored : r.2 ≠ -1 → (r.1.slot (hashId r.2)).id = r.2 ∧ (r.1.slot (hashId r.2)).pending = 1

/-- The first free one of the slots of `base + 1`, `base + 2` and so on is that of `base + d`. -/
structure FirstFree (free : τ) (t : Table τ) (d : Nat) : Prop where
  one_le : 1 ≤ d
  le_max : d ≤ maxSocket
  type_eq : (t.slot (hashId (base t.allocId + d))).type = free
  first : ∀ e : Nat, 1 ≤ e → e < d → (t.slot (hashId (base t.allocId + e))).type ≠ free

/-- No slot is free, or the first free one is reached before the counter jumps, or after it without
a free slot at the ids `-1` and `0` and with a round to spare. -/
def CanReserve (free : τ) (t : Table τ) : Prop :=
  (∀ i < maxSocket, (t.slot i).type ≠ free) ∨
    ∃ d : Nat, FirstFree free t d ∧ 0 < base t.allocId + d ∧
      (base t.allocId + d < 2 ^ 31 ∨
        d < maxSocket ∧ (t.slot 65535).type ≠ free ∧ (t.slot 0).type ≠ free)

/-- A free slot is one of those that `maxSocket` consecutive numbers hash to. -/
theorem exists_firstFree {i : Nat} (hi : i < maxSocket) (hfree : (t.slot i).type = free) :
    ∃ d, FirstFree free t d := by
  classical
  have hex : ∃ d : Nat, 1 ≤ d ∧ d ≤ maxSocket ∧ (t.slot (hashId (base t.allocId + d))).type = free := by
    unfold maxSocket at hi ⊢
    refine ⟨((i - base t.allocId - 1) % 2 ^ 16).toNat + 1, by omega, by omega, ?_⟩
    have hhash : hashId (base t.allocId + (((i - base t.allocId - 1) % 2 ^ 16).toNat + 1 : Nat)) = i := by
      unfold hashId
      omega
    rw [hhash, hfree]
  obtain ⟨h₁, h₂, h₃⟩ := Nat.find_spec hex
  exact ⟨Nat.find hex, h₁, h₂, h₃, fun e he hlt hfe => Nat.find_min hex hlt ⟨he, by omega, hfe⟩⟩

/-- Taking the id of a free slot is what callers rely on when the id is positive. -/
theorem reserves_takeAt (hfree : FreeAt free t d) (hpos : 0 < idAt t.allocId d) :
    Reserves free t (takeAt taken t d, idAt t.allocId d) where
  none_iff := by
    refine ⟨fun h => by simp only at h; omega, fun h => ?_⟩
    exact absurd hfree (h _ (hashId_lt _))
  none_slot h := by
    simp only at h
    omega
  pos _ := hpos
  was_free _ := hfree
  others _ i hi := Function.update_of_ne hi _ _
  stored _ := by
    simp only [takeAt, Table.set, Function.update_self]
    exact ⟨trivial, trivial⟩

theorem reserves_none (hnone : ∀ i < maxSocket, (t.slot i).type ≠ free) (a : Nat) :
    Reserves free t ({ t with allocId := a }, -1) where
  none_iff := ⟨fun _ => hnone, fun _ => rfl⟩
  none_slot _ := rfl
  pos h := absurd rfl h
  was_free h := absurd rfl h
  others h := absurd rfl h
  stored h := absurd rfl h

/-- What a call returns when the first free slot is that of the round `d`. -/
theorem reserveId_eq [DecidableEq τ] (hd : 1 ≤ d) (hd' : d ≤ maxSocket) (hfree : FreeAt free t d)
    (hfirst : ∀ e, 1 ≤ e → e < d → ¬ FreeAt free t e) :
    reserveIdFrom free taken maxSocket t = (takeAt taken t d, idAt t.allocId d) := by
  rcases reserveId_cases free taken maxSocket t with ⟨e, he, -, he_free, he_first, heq⟩ | ⟨hnone, -⟩
  · rcases Nat.lt_trichotomy e d with hlt | rfl | hgt
    · exact absurd he_free (hfirst e he hlt)
    · exact heq
    · exact absurd hfree (he_first d hd hgt)
  · exact absurd hfree (hnone d hd hd')

theorem freeAt_before (ha : t.allocId < 2 ^ 32) (hd : 1 ≤ d) (hd' : d ≤ maxSocket)
    (h : base t.allocId + d < 2 ^ 31) :
    FreeAt free t d ↔ (t.slot (hashId (base t.allocId + d))).type = free := by
  rw [FreeAt, idAt_before ha hd hd' h]

theorem freeAt_after (ha : t.allocId < 2 ^ 32) (hd : 1 ≤ d) (hd' : d ≤ maxSocket)
    (h : 2 ^ 31 ≤ base t.allocId + d) :
    FreeAt free t d ↔ (t.slot (hashId (base t.allocId + d - 1))).type = free := by
  rw [FreeAt, hashId_idAt_after ha hd hd' h]

/-- The first free slot is reached before the jump. -/
theorem FirstFree.freeAt_before (hff : FirstFree free t d) (ha : t.allocId < 2 ^ 32)
    (h : base t.allocId + d < 2 ^ 31) :
    FreeAt free t d ∧ ∀ e, 1 ≤ e → e < d → ¬ FreeAt free t e := by
  have hmax := hff.le_max
  refine ⟨(SlotTable.freeAt_before ha hff.one_le hmax h).mpr hff.type_eq, fun e he hlt => ?_⟩
  rw [SlotTable.freeAt_before ha he (by omega) (by omega)]
  exact hff.first e he hlt

/-- The first free slot is reached after the jump, one round later. -/
theorem FirstFree.freeAt_after (hff : FirstFree free t d) (ha : t.allocId < 2 ^ 32)
    (h : 2 ^ 31 ≤ base t.allocId + d) (hd : d < maxSocket) (hlast : (t.slot 65535).type ≠ free) :
    FreeAt free t (d + 1) ∧ ∀ e, 1 ≤ e → e < d + 1 → ¬ FreeAt free t e := by
  constructor
  · rw [SlotTable.freeAt_after ha (by omega) hd (by push_cast; omega)]
    have hnum : base t.allocId + ((d + 1 : Nat) : Int) - 1 = base t.allocId + d := by
      push_cast
      omega
    rw [hnum]
    exact hff.type_eq
  · intro e he hlt
    rcases Int.lt_trichotomy (base t.allocId + e) (2 ^ 31) with hb | hb | hb
    · rw [SlotTable.freeAt_before ha he (by omega) hb]
      exact hff.first e he (by omega)
    · -- the id `-1`
      rw [SlotTable.freeAt_after ha he (by omega) hb.ge, hb, hashId_last]
      exact hlast
    · rw [SlotTable.freeAt_after ha he (by omega) hb.le]
      have hbase := base_bounds ha
      have hnum : base t.allocId + (e : Int) - 1 = base t.allocId + (e - 1 : Nat) := by
        omega
      rw [hnum]
      exact hff.first (e - 1) (by omega) (by omega)

theorem FirstFree.reserves_before [DecidableEq τ] (hff : FirstFree free t d) (ha : t.allocId < 2 ^ 32)
    (h : base t.allocId + d < 2 ^ 31) (hpos : 0 < base t.allocId + d) :
    Reserves free t (reserveIdFrom free taken maxSocket t) := by
  obtain ⟨hfree, hfirst⟩ := hff.freeAt_before ha h
  rw [reserveId_eq hff.one_le hff.le_max hfree hfirst]
  refine reserves_takeAt hfree ?_
  rwa [idAt_before ha hff.one_le hff.le_max h]

theorem CanReserve.reserves [DecidableEq τ] (ha : t.allocId < 2 ^ 32) (h : CanReserve free t) (taken : τ) :
    Reserves free t (reserveIdFrom free taken maxSocket t) := by
  rcases h with hnone | ⟨d, hff, hpos, hb | ⟨hd, hlast, hfront⟩⟩
  · rcases reserveId_cases free taken maxSocket t with ⟨d, -, -, hfree, -, -⟩ | ⟨-, heq⟩
    · exact absurd hfree (hnone _ (hashId_lt _))
    · rw [heq]
      exact reserves_none hnone _
  · exact hff.reserves_before ha hb hpos
  · rcases lt_or_ge (base t.allocId + d) (2 ^ 31) with hb | hb
    · exact hff.reserves_before ha hb hpos
    · obtain ⟨hfree, hfirst⟩ := hff.freeAt_after ha hb hd hlast
      rw [reserveId_eq (by omega) hd hfree hfirst]
      refine reserves_takeAt hfree ?_
      rw [idAt_after ha (by omega) hd (by push_cast; omega)]
      -- the id `0` would be that of the first slot
      have hne : base t.allocId + d ≠ 2 ^ 31 := by
        intro heq
        have htype := hff.type_eq
        rw [heq, hashId_jump] at htype
        exact hfront htype
      push_cast
      omega

theorem CanReserve.of_reserves [DecidableEq τ] (ha : t.allocId < 2 ^ 32)
    (h : Reserves free t (reserveIdFrom free taken maxSocket t)) : CanReserve free t := by
  by_cases hall : ∀ i < maxSocket, (t.slot i).type ≠ free
  · exact .inl hall
  · have hid : (reserveIdFrom free taken maxSocket t).2 ≠ -1 := fun hid => hall (h.none_iff.mp hid)
    have hpos := h.pos hid
    push Not at hall
    obtain ⟨i, hi, hfree⟩ := hall
    obtain ⟨d, hff⟩ := exists_firstFree hi hfree
    have hbase := base_bounds ha
    have hd₁ := hff.one_le
    refine .inr ⟨d, hff, ?_⟩
    rcases lt_or_ge (base t.allocId + d) (2 ^ 31) with hb | hb
    · obtain ⟨hd_free, hfirst⟩ := hff.freeAt_before ha hb
      rw [reserveId_eq hff.one_le hff.le_max hd_free hfirst] at hpos
      simp only [idAt_before ha hff.one_le hff.le_max hb] at hpos
      exact ⟨hpos, .inl hb⟩
    · refine ⟨by omega, .inr ?_⟩
      rcases reserveId_cases free taken maxSocket t with ⟨e, he, hemax, he_free, he_first, heq⟩ | ⟨-, heq⟩
      swap
      · rw [heq] at hid
        exact absurd rfl hid
      rw [heq] at hpos
      simp only at hpos
      have hbe : 2 ^ 31 ≤ base t.allocId + e := by
        by_contra hlt
        rw [SlotTable.freeAt_before ha he hemax (by omega)] at he_free
        exact hff.first e he (by omega) he_free
      rw [idAt_after ha he hemax hbe] at hpos
      -- the rounds of the ids `-1` and `0` come before
      obtain ⟨j, hj⟩ : ∃ j : Nat, base t.allocId + j = 2 ^ 31 :=
        ⟨(2 ^ 31 - base t.allocId).toNat, by omega⟩
      have hlast := he_first j (by omega) (by omega)
      have hfront := he_first (j + 1) (by omega) (by omega)
      rw [SlotTable.freeAt_after ha (by omega) (by omega) hj.ge, hj, hashId_last] at hlast
      rw [SlotTable.freeAt_after ha (by omega) (by omega) (by push_cast; omega)] at hfront
      have hnum : base t.allocId + ((j + 1 : Nat) : Int) - 1 = 2 ^ 31 := by
        push_cast
        omega
      rw [hnum, hashId_jump] at hfront
      refine ⟨?_, hlast, hfront⟩
      by_contra hd
      rw [SlotTable.freeAt_after ha he hemax hbe] at he_free
      have hnum' : base t.allocId + (e : Int) - 1 = base t.allocId + (e - 1 : Nat) := by omega
      rw [hnum'] at he_free
      exact hff.first (e - 1) (by omega) (by omega) he_free

/-- **Reserving an id**: both functions do what their callers rely on exactly when the first free slot
is reached under a positive id. -/
theorem reserves_iff (t : Table CoreSocket.SocketType) (u : Table SocketServer.SocketType)
    (ht : t.allocId < 2 ^ 32) (hu : u.allocId < 2 ^ 32) :
    (Reserves .invalid t (CoreSocket.reserveId t) ↔ CanReserve .invalid t) ∧
      (Reserves .reserve u (SocketServer.reserveId u) ↔ CanReserve .reserve u) :=
  ⟨⟨CanReserve.of_reserves ht, fun h => h.reserves ht _⟩,
    ⟨CanReserve.of_reserves hu, fun h => h.reserves hu _⟩⟩

/-- The counter is two before the jump, and the slots of the ids `2 ^ 31 - 1`, `-1`, `0` and `1` are
taken. -/
def jumping (free taken : τ) : Table τ :=
  ⟨0x7ffffffe, fun i => ⟨if i ≤ 1 ∨ i = 65535 then taken else free, 0, none, 0⟩⟩

theorem canReserve_jumping {free taken : τ} (h : taken ≠ free) :
    CanReserve free (jumping free taken) := by
  have hbase : base (jumping free taken).allocId = 2 ^ 31 - 2 := rfl
  have htaken {i : Nat} (hi : i ≤ 1 ∨ i = 65535) : ((jumping free taken).slot i).type = taken :=
    if_pos hi
  have hfirst : FirstFree free (jumping free taken) 4 := by
    refine ⟨by decide, by decide, if_neg (by rw [hbase]; decide), fun e he₁ he₄ => ?_⟩
    rw [hbase, htaken]
    · exact h
    · interval_cases e <;> decide
  refine .inr ⟨4, hfirst, ?_, .inr ⟨by decide, ?_, ?_⟩⟩
  · rw [hbase]
    decide
  · rw [htaken (.inr rfl)]
    exact h
  · rw [htaken (.inl (Nat.zero_le 1))]
    exact h

theorem reserves_iff_jumping :
    (CoreSocket.reserveId (jumping .invalid .listen)).2 = 2 ∧
      Reserves .invalid (jumping .invalid .listen) (CoreSocket.reserveId (jumping .invalid .listen)) ∧
      Reserves .reserve (jumping .reserve .invalid)
        (SocketServer.reserveId (jumping .reserve .invalid)) := by
  obtain ⟨hcore, hserver⟩ := reserves_iff (jumping .invalid .listen) (jumping .reserve .invalid)
    (by decide) (by decide)
  exact ⟨by decide +kernel, hcore.mpr (canReserve_jumping (by decide)),
    hserver.mpr (canReserve_jumping (by decide))⟩
/-- All slots are of one type. -/
def uniform (a : Nat) (type : τ) : Table τ := ⟨a, fun _ => ⟨type, 0, none, 0⟩⟩

/-- The counter is about to become negative: the last slot is taken and `-1` returned. -/
theorem not_reserves_jump :
    ¬ Reserves .invalid (uniform 0x7fffffff .invalid)
        (CoreSocket.reserveId (uniform 0x7fffffff .invalid)) ∧
      ¬ Reserves .reserve (uniform 0x7fffffff .reserve)
        (SocketServer.reserveId (uniform 0x7fffffff .reserve)) := by
  constructor
  · intro h
    exact h.none_iff.mp (by decide +kernel) 0 (by decide) rfl
  · intro h
    exact h.none_iff.mp (by decide +kernel) 0 (by decide) rfl

/-! ## The table of the whole server -/

/-- The table inside the server of `coresocket.c`. -/
def ofServer (s : CoreSocket.Server) : Table CoreSocket.SocketType :=
  ⟨s.allocId, fun i => ⟨(s.slot i).type, (s.slot i).id, none, (s.slot i).pending⟩⟩

/-- The reservation that the server makes is the one above. -/
theorem reserveId_ofServer (n : Nat) (s : CoreSocket.Server) :
    reserveIdFrom .invalid .reserve n (ofServer s) =
      (ofServer (HoNet.CoreSocket.reserveId n s).1, (HoNet.CoreSocket.reserveId n s).2) := by
  induction n generalizing s with
  | zero => rfl
  | succ n ih =>
    rw [reserveIdFrom, HoNet.CoreSocket.reserveId]
    by_cases hfree : (s.slot (hashId (toLong (nextAlloc s.allocId)))).type = .invalid
    · simp only [ofServer, hfree, if_true, Table.set, CoreSocket.Server.set]
      congr 2
      funext i
      rcases eq_or_ne i (hashId (toLong (nextAlloc s.allocId))) with rfl | hi
      · simp only [Function.update_self]
      · simp only [Function.update_of_ne hi]
    · simp only [ofServer, hfree, if_false]
      exact ih { s with allocId := nextAlloc s.allocId }

end HoNet.SlotTable
