import Mathlib.Data.Finset.Card
import Mathlib.Data.List.Nodup
import Mathlib.Logic.Function.Basic
import Mathlib.Tactic

/-!
# The logic store of `corelogic.c`

An open table of logics, indexed by the low bits of their id. A registration probes the ids from
`allocid` on for a free slot and doubles the table when a whole window of ids finds none.

* `probe_none_full` — a window that finds no free slot has seen every slot.
* `resize_inv` — rehashing a full table keeps every entry, without a collision.
* `runs_sound` — what holds after every sequence of registrations and releases.
-/

namespace HoNet.LogicStore

/-! ## The store -/

inductive Fault where
  | nullDeref
  | assertion
  | diverges
  deriving DecidableEq, Repr

/-- `struct corelogic_store` and the `logic_id` fields of the logics, by address. `live` (address and
id of the logics registered and not released), `given` (the ids handed out) and `wrapped` (an
`allocid` of `2 ^ 32` or more was stored) are history variables.

`slot_size` is a natural number: a table of `2 ^ 30` pointers does not fit in the address space. -/
structure Store where
  slot : Nat → Option Nat
  allocid : Nat
  slotSize : Nat
  logicId : Nat → Nat
  live : List (Nat × Nat)
  given : List Nat
  wrapped : Bool

def DEFAULT_SLOT_SIZE : Nat := 64

/-- The static `STORE`. -/
def Store.zero : Store where
  slot := fun _ => none
  allocid := 0
  slotSize := 0
  logicId := fun _ => 0
  live := []
  given := []
  wrapped := false

abbrev Res (α : Type) := Except (Fault × Store) α

namespace Store

/-- The loop of `corelogic_store_resize` from slot `i` on. -/
def resizeLoop (store : Store) : Nat → Nat → (Nat → Option Nat) → Res (Nat → Option Nat)
  | 0, _, newlist => .ok newlist
  | rounds + 1, i, newlist =>
    match store.slot i with
    | none => .error (.nullDeref, store)
    | some lgc =>
      let handle := store.logicId lgc
      let hash := handle &&& (store.slotSize * 2 - 1)
      resizeLoop store rounds (i + 1) (Function.update newlist hash (some lgc))

def corelogicStoreResize (store : Store) : Res Store := do
  let newSz := if store.slotSize > 0 then store.slotSize * 2 else DEFAULT_SLOT_SIZE
  let newlist ← store.resizeLoop store.slotSize 0 fun _ => none
  return { store with slot := newlist, slotSize := newSz }

/-- `handle = i + store->allocid`. -/
def handle (store : Store) (i : Nat) : Nat := (i + store.allocid) % 2 ^ 32

/-- `handle & (store->slot_size - 1)`. -/
def hash (store : Store) (id : Nat) : Nat := id &&& (store.slotSize - 1)

/-- The first `i` of the window whose slot is free. -/
def probe (store : Store) : Nat → Nat → Option Nat
  | 0, _ => none
  | rounds + 1, i =>
    if store.slot (store.hash (store.handle i)) = none then some i else probe store rounds (i + 1)

/-- What `corelogic_store_reg` does with the free slot it found. -/
def enter (store : Store) (lgc i : Nat) : Store :=
  let handle := store.handle i
  { store with
    logicId := Function.update store.logicId lgc handle
    slot := Function.update store.slot (store.hash handle) (some lgc)
    allocid := (handle + 1) % 2 ^ 32
    live := (lgc, handle) :: store.live
    given := handle :: store.given
    wrapped := store.wrapped || decide (2 ^ 32 ≤ i + store.allocid + 1) }

/-- The `for (;;)` of `corelogic_store_reg`; the first argument bounds its rounds. -/
def regLoop : Nat → Store → Nat → Res Store
  | 0, store, _ => .error (.diverges, store)
  | rounds + 1, store, lgc =>
    match store.probe store.slotSize 0 with
    | some i => .ok (store.enter lgc i)
    | none => do
      let store ← store.corelogicStoreResize
      regLoop rounds store lgc

def corelogicStoreReg (store : Store) (lgc : Nat) : Res Store := regLoop 3 store lgc

/-- `corelogic_release` of the last reference. The call of `lgc->mod->release` behind it is left out;
`lgc->mod` is never set. -/
def corelogicRelease (store : Store) (lgc : Nat) : Res Store :=
  let hash := store.hash (store.logicId lgc)
  if store.slot hash = some lgc then
    .ok { store with
      slot := Function.update store.slot hash none
      live := store.live.filter fun x => x.1 ≠ lgc }
  else .error (.assertion, store)

inductive Op where
  | reg (lgc : Nat)
  | release (lgc : Nat)
  deriving DecidableEq, Repr

/-- One call. `malloc` does not return the address of a live logic, and only a live logic has a last
reference to release; other calls do not occur. -/
def step (store : Store) : Op → Res Store
  | .reg lgc => if lgc ∈ store.live.map Prod.fst then .ok store else store.corelogicStoreReg lgc
  | .release lgc => if lgc ∈ store.live.map Prod.fst then store.corelogicRelease lgc else .ok store

def run (ops : List Op) : Res Store := ops.foldlM step .zero

/-- The addresses of the logics that are registered behind a call, `l` before it. -/
def Op.note (l : List Nat) : Op → List Nat
  | .reg lgc => if lgc ∈ l then l else lgc :: l
  | .release lgc => l.filter fun p => p ≠ lgc

/-- What the calls registered and did not release. -/
def registered (ops : List Op) : List Nat := ops.foldl Op.note []

end Store

/-! ## Windows of ids -/

/-- A window of `N` ids meets every residue. -/
theorem window_covers {N a h : Nat} (hh : h < N) : ∃ j < N, (j + a) % N = h := by
  refine ⟨(h + (N - a % N)) % N, Nat.mod_lt _ (by omega), ?_⟩
  have hlt : a % N < N := Nat.mod_lt _ (by omega)
  rw [Nat.mod_add_mod]
  calc (h + (N - a % N) + a) % N
      = (h + (N - a % N) + (a % N + N * (a / N))) % N := by rw [Nat.mod_add_div]
    _ = (h + N + N * (a / N)) % N := by congr 1; omega
    _ = h := by rw [Nat.add_mul_mod_self_left, Nat.add_mod_right, Nat.mod_eq_of_lt hh]

namespace Store

variable {s s' : Store} {lgc : Nat}

theorem probe_some {rounds i j : Nat} (h : s.probe rounds i = some j) :
    j < i + rounds ∧ s.slot (s.hash (s.handle j)) = none := by
  induction rounds generalizing i with
  | zero => cases h
  | succ rounds ih =>
    rw [probe] at h
    split_ifs at h with hfree
    · obtain rfl := Option.some.inj h
      exact ⟨by omega, hfree⟩
    · obtain ⟨hlt, hj⟩ := ih h
      exact ⟨by omega, hj⟩

theorem probe_none {rounds i : Nat} (h : s.probe rounds i = none) :
    ∀ j, i ≤ j → j < i + rounds → s.slot (s.hash (s.handle j)) ≠ none := by
  induction rounds generalizing i with
  | zero => intro j hij hj; omega
  | succ rounds ih =>
    intro j hij hj
    rw [probe] at h
    split_ifs at h with hfree
    by_cases he : j = i
    · rw [he]; exact hfree
    · exact ih h j (by omega) (by omega)

/-! ## The invariant -/

structure Inv (s : Store) : Prop where
  size : s.slotSize = 0 ∨ ∃ k, s.slotSize = 2 ^ k
  bound : s.slotSize ≤ 64 ∨ s.slotSize ≤ 2 * s.allocid
  alloc_lt : s.allocid < 2 ^ 32
  stored : ∀ x ∈ s.live, s.slotSize ≠ 0 ∧ s.logicId x.1 = x.2 ∧ s.slot (s.hash x.2) = some x.1
  content : ∀ h < s.slotSize, ∀ p, s.slot h = some p → ∃ id, (p, id) ∈ s.live ∧ s.hash id = h
  live_nodup : (s.live.map Prod.fst).Nodup
  live_given : ∀ x ∈ s.live, x.2 ∈ s.given
  ids_nodup : (s.live.map Prod.snd).Nodup
  given_lt : ∀ id ∈ s.given, id < s.allocid
  given_nodup : s.given.Nodup

theorem inv_zero : Inv .zero := by
  constructor <;> simp [zero]

theorem hash_eq {k : Nat} (hk : s.slotSize = 2 ^ k) (id : Nat) : s.hash id = id % s.slotSize := by
  rw [hash, hk, Nat.and_two_pow_sub_one_eq_mod]

theorem Inv.exponent (h : Inv s) {k : Nat} (hk : s.slotSize = 2 ^ k) : k ≤ 32 := by
  have hlt : 2 ^ k < 2 ^ 33 := by
    have := h.alloc_lt
    rcases h.bound with hb | hb <;> omega
  exact Nat.lt_succ_iff.mp ((Nat.pow_lt_pow_iff_right (by decide)).mp hlt)

/-- **A window that finds no free slot has seen every slot.** -/
theorem probe_none_full (h : Inv s) (hp : s.probe s.slotSize 0 = none) :
    ∀ i < s.slotSize, ∃ p, s.slot i = some p := by
  intro i hi
  obtain ⟨k, hk⟩ := h.size.resolve_left (by omega)
  obtain ⟨j, hj, hmod⟩ := window_covers (a := s.allocid) hi
  have hne := probe_none hp j (by omega) (by omega)
  have hdvd : s.slotSize ∣ 2 ^ 32 := by
    rw [hk]; exact Nat.pow_dvd_pow 2 (h.exponent hk)
  rw [hash_eq hk, handle, Nat.mod_mod_of_dvd _ hdvd, hmod] at hne
  exact Option.ne_none_iff_exists'.mp hne

/-- What is at a slot: a live logic whose id has the slot's index as its low bits. -/
theorem Inv.at_slot (h : Inv s) {i p : Nat} (hi : i < s.slotSize) (hp : s.slot i = some p) :
    (p, s.logicId p) ∈ s.live ∧ s.logicId p % s.slotSize = i := by
  obtain ⟨id, hmem, hid⟩ := h.content i hi p hp
  obtain ⟨hne, hlid, -⟩ := h.stored _ hmem
  obtain ⟨k, hk⟩ := h.size.resolve_left hne
  rw [hash_eq hk] at hid
  have hlid : s.logicId p = id := hlid
  rw [hlid]
  exact ⟨hmem, hid⟩

/-! ## Resizing -/

/-- The loop puts the logic of each slot at its own new index, if these are different. -/
theorem resizeLoop_spec {key : Nat → Nat}
    (hfull : ∀ i < s.slotSize, ∃ p, s.slot i = some p ∧ s.logicId p &&& (s.slotSize * 2 - 1) = key i)
    (hinj : ∀ i < s.slotSize, ∀ j < s.slotSize, key i = key j → i = j) :
    ∀ (rounds i : Nat) (newlist : Nat → Option Nat), i + rounds = s.slotSize →
    ∃ newlist', s.resizeLoop rounds i newlist = .ok newlist' ∧
      (∀ j, i ≤ j → j < s.slotSize → newlist' (key j) = s.slot j) ∧
      ∀ h, (∀ j, i ≤ j → j < s.slotSize → key j ≠ h) → newlist' h = newlist h := by
  intro rounds
  induction rounds with
  | zero =>
    intro i newlist hi
    exact ⟨newlist, rfl, fun j hij hj => by omega, fun h _ => rfl⟩
  | succ rounds ih =>
    intro i newlist hi
    obtain ⟨p, hp, hkey⟩ := hfull i (by omega)
    obtain ⟨newlist', heq, hput, hkeep⟩ :=
      ih (i + 1) (Function.update newlist (key i) (some p)) (by omega)
    refine ⟨newlist', by rw [resizeLoop, hp]; simpa only [hkey] using heq, fun j hij hj => ?_,
      fun h hh => ?_⟩
    · by_cases hji : j = i
      · subst hji
        rw [hkeep (key j) fun j' hj' hlt he => by have := hinj j' hlt j hj he; omega,
          Function.update_self, hp]
      · exact hput j (by omega) hj
    · rw [hkeep h fun j hij hj => hh j (by omega) hj,
        Function.update_of_ne (Ne.symm (hh i le_rfl (by omega)))]

/-- The entries of a full table have different ids below `allocid`. -/
theorem Inv.full_le (h : Inv s) (hfull : ∀ i < s.slotSize, ∃ p, s.slot i = some p) :
    s.slotSize ≤ s.allocid := by
  have hsurj : Set.SurjOn (fun id => id % s.slotSize) (Finset.range s.allocid)
      (Finset.range s.slotSize) := by
    intro i hi
    have hi : i < s.slotSize := by simpa using hi
    obtain ⟨p, hp⟩ := hfull i hi
    obtain ⟨hmem, hmod⟩ := h.at_slot hi hp
    exact ⟨s.logicId p, by simpa using h.given_lt _ (h.live_given _ hmem), hmod⟩
  simpa using Finset.card_le_card_of_surjOn _ hsurj

/-- **Resizing a full table** keeps every entry and leaves a free slot. -/
theorem resize_inv (h : Inv s) (hfull : ∀ i < s.slotSize, ∃ p, s.slot i = some p) :
    ∃ s', s.corelogicStoreResize = .ok s' ∧ Inv s' ∧ s'.live = s.live ∧ s'.wrapped = s.wrapped ∧
      ∃ i < s'.slotSize, s'.slot i = none := by
  rcases Nat.eq_zero_or_pos s.slotSize with hz | hpos
  · -- the first allocation
    have hnil : s.live = [] := by
      cases hl : s.live with
      | nil => rfl
      | cons x xs => exact absurd hz (h.stored x (by simp [hl])).1
    refine ⟨{ s with slot := fun _ => none, slotSize := 64 }, ?_, ?_, rfl, rfl, 0, by simp, rfl⟩
    · simp [corelogicStoreResize, hz, resizeLoop, DEFAULT_SLOT_SIZE]
    · refine ⟨Or.inr ⟨6, rfl⟩, Or.inl le_rfl, h.alloc_lt, ?_, ?_, h.live_nodup, h.live_given,
        h.ids_nodup, h.given_lt, h.given_nodup⟩
      · intro x hx
        rw [show s.live = [] from hnil] at hx
        cases hx
      · intro i _ p hp
        cases hp
  · obtain ⟨k, hk⟩ := h.size.resolve_left (by omega)
    have hmask : ∀ id, id &&& (s.slotSize * 2 - 1) = id % (s.slotSize * 2) := fun id => by
      rw [hk, ← Nat.pow_succ, Nat.and_two_pow_sub_one_eq_mod]
    -- the new index of each slot
    have hkeys : ∃ key : Nat → Nat, ∀ i < s.slotSize, ∃ p, s.slot i = some p ∧
        s.logicId p &&& (s.slotSize * 2 - 1) = key i := by
      refine ⟨fun i => match s.slot i with
        | some p => s.logicId p &&& (s.slotSize * 2 - 1)
        | none => 0, fun i hi => ?_⟩
      obtain ⟨p, hp⟩ := hfull i hi
      exact ⟨p, hp, by simp only [hp]⟩
    obtain ⟨key, hkey⟩ := hkeys
    have hlow : ∀ i < s.slotSize, key i % s.slotSize = i := by
      intro i hi
      obtain ⟨p, hp, hki⟩ := hkey i hi
      rw [← hki, hmask, Nat.mod_mul_right_mod]
      exact (h.at_slot hi hp).2
    have hinj : ∀ i < s.slotSize, ∀ j < s.slotSize, key i = key j → i = j := by
      intro i hi j hj he
      rw [← hlow i hi, ← hlow j hj, he]
    obtain ⟨newlist, heq, hput, hkeep⟩ :=
      resizeLoop_spec hkey hinj s.slotSize 0 (fun _ => none) (by omega)
    have hlast : ∀ i p, newlist i = some p →
        ∃ j < s.slotSize, key j = i ∧ s.slot j = some p := by
      intro i p hp
      by_contra hnot
      have hnone : newlist i = none := hkeep i fun j _ hj hkj =>
        hnot ⟨j, hj, hkj, by rw [← hput j (by omega) hj, hkj, hp]⟩
      rw [hnone] at hp
      cases hp
    refine ⟨{ s with slot := newlist, slotSize := s.slotSize * 2 }, ?_, ?_, rfl, rfl, ?_⟩
    · simp only [corelogicStoreResize, heq, if_pos hpos]
      rfl
    · refine ⟨Or.inr ⟨k + 1, by rw [Nat.pow_succ, ← hk]⟩, Or.inr ?_, h.alloc_lt, fun x hx => ?_,
        fun i hi p hp => ?_, h.live_nodup, h.live_given, h.ids_nodup, h.given_lt, h.given_nodup⟩
      · have := h.full_le hfull
        show s.slotSize * 2 ≤ 2 * s.allocid
        omega
      · obtain ⟨-, hlid, hslot⟩ := h.stored x hx
        refine ⟨show s.slotSize * 2 ≠ 0 by omega, hlid, ?_⟩
        rw [hash_eq hk] at hslot
        have hlt : x.2 % s.slotSize < s.slotSize := Nat.mod_lt _ hpos
        obtain ⟨p, hp, hki⟩ := hkey _ hlt
        obtain rfl : x.1 = p := Option.some.inj (hslot.symm.trans hp)
        show newlist (x.2 &&& (s.slotSize * 2 - 1)) = some x.1
        rw [← hlid, hki, hput _ (by omega) hlt, hslot]
      · obtain ⟨j, hj, hkj, hsj⟩ := hlast i p hp
        refine ⟨s.logicId p, (h.at_slot hj hsj).1, ?_⟩
        obtain ⟨p', hp', hki⟩ := hkey j hj
        obtain rfl : p = p' := Option.some.inj (hsj.symm.trans hp')
        show s.logicId p &&& (s.slotSize * 2 - 1) = i
        rw [hki, hkj]
    · -- the logic of slot 0 went to index 0 or to index `slot_size`: the other one is free
      have hfree : ∀ i, i % s.slotSize = 0 → key 0 ≠ i → newlist i = none := by
        intro i hi hne
        refine hkeep i fun j _ hj hkj => hne ?_
        have := hlow j hj
        rw [hkj, hi] at this
        rw [this, hkj]
      by_cases h0 : key 0 = 0
      · exact ⟨s.slotSize, show s.slotSize < s.slotSize * 2 by omega,
          hfree _ (Nat.mod_self _) (by omega)⟩
      · exact ⟨0, show 0 < s.slotSize * 2 by omega, hfree 0 (Nat.zero_mod _) h0⟩

/-! ## Registration and release -/

/-- Entering a logic at the free slot that was found. -/
theorem enter_inv (h : Inv s) (hnew : lgc ∉ s.live.map Prod.fst) {i : Nat}
    (hp : s.probe s.slotSize 0 = some i) (hw : (s.enter lgc i).wrapped = false) :
    Inv (s.enter lgc i) := by
  obtain ⟨hi, hfree⟩ := probe_some hp
  have hlt : i + s.allocid + 1 < 2 ^ 32 := by
    have hor : s.wrapped = false ∧ decide (2 ^ 32 ≤ i + s.allocid + 1) = false :=
      Bool.or_eq_false_iff.mp hw
    have := of_decide_eq_false hor.2
    omega
  have hid : s.handle i = i + s.allocid := Nat.mod_eq_of_lt (by omega)
  have hne0 : s.slotSize ≠ 0 := by omega
  obtain ⟨k, hk⟩ := h.size.resolve_left hne0
  have hfresh : s.handle i ∉ s.given := fun hm => by
    have := h.given_lt _ hm
    omega
  have halloc : (s.enter lgc i).allocid = s.handle i + 1 := by
    show (s.handle i + 1) % 2 ^ 32 = _
    exact Nat.mod_eq_of_lt (by omega)
  refine ⟨h.size, ?_, ?_, fun x hx => ?_, fun j hj p hpj => ?_, ?_, fun x hx => ?_, ?_,
    fun id hm => ?_, ?_⟩
  · rw [halloc]
    exact h.bound.imp_right fun (hb : s.slotSize ≤ _) => show s.slotSize ≤ _ by omega
  · rw [halloc]; omega
  · refine ⟨hne0, ?_⟩
    rcases List.mem_cons.mp hx with rfl | hold
    · exact ⟨Function.update_self .., Function.update_self ..⟩
    · obtain ⟨-, hlid, hslot⟩ := h.stored x hold
      have hxl : x.1 ≠ lgc := fun e => hnew (e ▸ List.mem_map_of_mem hold)
      have hxh : s.hash x.2 ≠ s.hash (s.handle i) := by
        intro e
        rw [e, hfree] at hslot
        cases hslot
      exact ⟨(Function.update_of_ne hxl ..).trans hlid, (Function.update_of_ne hxh ..).trans hslot⟩
  · by_cases hjh : j = s.hash (s.handle i)
    · subst hjh
      have hpj : Function.update s.slot _ (some lgc) _ = some p := hpj
      rw [Function.update_self] at hpj
      obtain rfl := Option.some.inj hpj
      exact ⟨s.handle i, List.mem_cons_self, rfl⟩
    · have hpj : Function.update s.slot _ (some lgc) j = some p := hpj
      rw [Function.update_of_ne hjh] at hpj
      obtain ⟨id, hm, hh⟩ := h.content j hj p hpj
      exact ⟨id, List.mem_cons_of_mem _ hm, hh⟩
  · exact List.nodup_cons.mpr ⟨hnew, h.live_nodup⟩
  · rcases List.mem_cons.mp hx with rfl | hx
    · exact List.mem_cons_self
    · exact List.mem_cons_of_mem _ (h.live_given x hx)
  · refine List.nodup_cons.mpr ⟨fun hm => hfresh ?_, h.ids_nodup⟩
    obtain ⟨x, hx, he⟩ := List.mem_map.mp hm
    have he : x.2 = s.handle i := he
    rw [← he]
    exact h.live_given x hx
  · rw [halloc]
    rcases List.mem_cons.mp hm with rfl | hm
    · omega
    · have := h.given_lt id hm; omega
  · exact List.nodup_cons.mpr ⟨hfresh, h.given_nodup⟩

/-- `corelogic_store_reg` returns after at most one resizing. -/
theorem reg_inv (h : Inv s) (hnew : lgc ∉ s.live.map Prod.fst) :
    ∃ s', s.corelogicStoreReg lgc = .ok s' ∧ (s'.wrapped = false → Inv s') := by
  cases hp : s.probe s.slotSize 0 with
  | some i =>
    exact ⟨s.enter lgc i, by simp only [corelogicStoreReg, regLoop, hp], enter_inv h hnew hp⟩
  | none =>
    obtain ⟨s₁, heq, h₁, hlive, -, i, hi, hfree⟩ := resize_inv h (probe_none_full h hp)
    cases hp₁ : s₁.probe s₁.slotSize 0 with
    | none =>
      obtain ⟨p, hslot⟩ := probe_none_full h₁ hp₁ i hi
      rw [hfree] at hslot
      cases hslot
    | some j =>
      refine ⟨s₁.enter lgc j, ?_, enter_inv h₁ (by rw [hlive]; exact hnew) hp₁⟩
      simp only [corelogicStoreReg, regLoop, hp, heq]
      show Store.regLoop 2 s₁ lgc = _
      simp only [regLoop, hp₁]

theorem live_unique (h : Inv s) {p id id' : Nat} (hm : (p, id) ∈ s.live) (hm' : (p, id') ∈ s.live) :
    id = id' :=
  (Prod.mk.inj (List.inj_on_of_nodup_map h.live_nodup hm hm' rfl)).2

/-- `corelogic_release` passes its assertion and empties the slot of the logic. -/
theorem release_inv (h : Inv s) (hl : lgc ∈ s.live.map Prod.fst) :
    ∃ s', s.corelogicRelease lgc = .ok s' ∧ Inv s' := by
  obtain ⟨⟨p, id⟩, hm, rfl⟩ := List.mem_map.mp hl
  obtain ⟨hne0, hlid, hslot⟩ := h.stored _ hm
  have hlid : s.logicId p = id := hlid
  have hslot : s.slot (s.hash id) = some p := hslot
  have hsub : s.live.filter (fun x => x.1 ≠ p) ⊆ s.live := List.filter_subset_self _
  refine ⟨_, by rw [corelogicRelease]; simp only [hlid]; exact if_pos hslot, ?_⟩
  refine ⟨h.size, h.bound, h.alloc_lt, fun x hx => ?_, fun j hj q hq => ?_,
    h.live_nodup.sublist (List.filter_sublist.map _), fun x hx => h.live_given x (hsub hx),
    h.ids_nodup.sublist (List.filter_sublist.map _), h.given_lt, h.given_nodup⟩
  · obtain ⟨hxm, hxp⟩ := List.mem_filter.mp hx
    have hxp : x.1 ≠ p := by simpa using hxp
    obtain ⟨-, hxl, hxs⟩ := h.stored x hxm
    have hxh : s.hash x.2 ≠ s.hash id := by
      intro e
      rw [e, hslot] at hxs
      exact hxp (Option.some.inj hxs).symm
    exact ⟨hne0, hxl, (Function.update_of_ne hxh ..).trans hxs⟩
  · have hq : Function.update s.slot (s.hash id) none j = some q := hq
    have hjh : j ≠ s.hash id := by
      rintro rfl
      rw [Function.update_self] at hq
      cases hq
    rw [Function.update_of_ne hjh] at hq
    obtain ⟨id', hm', hh⟩ := h.content j hj q hq
    have hqp : q ≠ p := by
      rintro rfl
      rw [live_unique h hm' hm] at hh
      exact hjh hh.symm
    exact ⟨id', List.mem_filter.mpr ⟨hm', by simpa using hqp⟩, hh⟩

/-! ## Runs -/

/-- The store at the end of a run, also of one that ends in a fault. -/
def outcome : Res Store → Store
  | .ok s => s
  | .error e => e.2

theorem resizeLoop_error {rounds i : Nat} {newlist : Nat → Option Nat} {e : Fault × Store}
    (h : s.resizeLoop rounds i newlist = .error e) : e.2 = s := by
  induction rounds generalizing i newlist with
  | zero => cases h
  | succ rounds ih =>
    rw [resizeLoop] at h
    split at h
    · cases h; rfl
    · exact ih h

/-- A wrap of `allocid` stays recorded. -/
theorem regLoop_wrapped {rounds : Nat} (hw : s.wrapped = true) :
    (outcome (regLoop rounds s lgc)).wrapped = true := by
  induction rounds generalizing s with
  | zero => exact hw
  | succ rounds ih =>
    rw [regLoop]
    split
    · simp [outcome, enter, hw]
    · cases hr : s.resizeLoop s.slotSize 0 fun _ => none with
      | error e =>
        simp only [corelogicStoreResize, hr, bind, Except.bind, outcome]
        rw [resizeLoop_error hr]; exact hw
      | ok newlist =>
        simp only [corelogicStoreResize, hr, bind, Except.bind, pure, Except.pure]
        exact ih hw

theorem step_wrapped (hw : s.wrapped = true) (op : Op) : (outcome (s.step op)).wrapped = true := by
  cases op with
  | reg lgc =>
    rw [step]
    split_ifs
    · exact hw
    · exact regLoop_wrapped hw
  | release lgc =>
    rw [step, corelogicRelease]
    split_ifs <;> exact hw

/-- One call from a store that satisfies the invariant. -/
theorem step_inv (h : Inv s) (op : Op) :
    ∃ s', s.step op = .ok s' ∧ (s'.wrapped = false → Inv s') := by
  cases op with
  | reg lgc =>
    rw [step]
    split_ifs with hl
    · exact ⟨s, rfl, fun _ => h⟩
    · exact reg_inv h hl
  | release lgc =>
    rw [step]
    split_ifs with hl
    · obtain ⟨s', heq, h'⟩ := release_inv h hl
      exact ⟨s', heq, fun _ => h'⟩
    · exact ⟨s, rfl, fun _ => h⟩

theorem run_cons (op : Op) (ops : List Op) :
    (op :: ops).foldlM step s = s.step op >>= fun s' => ops.foldlM step s' := rfl

theorem run_wrapped (ops : List Op) (hw : s.wrapped = true) :
    (outcome (ops.foldlM step s)).wrapped = true := by
  induction ops generalizing s with
  | nil => exact hw
  | cons op ops ih =>
    have hstep := step_wrapped hw op
    rw [run_cons]
    cases heq : s.step op with
    | error e => rw [heq] at hstep; exact hstep
    | ok s' => rw [heq] at hstep; exact ih hstep

/-- Every run keeps the invariant until `allocid` wraps. -/
theorem run_inv (ops : List Op) (h : Inv s) (hw : (outcome (ops.foldlM step s)).wrapped = false) :
    ∃ s', ops.foldlM step s = .ok s' ∧ Inv s' := by
  induction ops generalizing s with
  | nil => exact ⟨s, rfl, h⟩
  | cons op ops ih =>
    obtain ⟨s₁, heq, h₁⟩ := step_inv h op
    rw [run_cons, heq] at hw ⊢
    cases hw₁ : s₁.wrapped with
    | true =>
      have := run_wrapped ops hw₁
      exact absurd (this.symm.trans hw) (by decide)
    | false => exact ih (h₁ hw₁) hw

/-- A registration writes down the logic and its id. -/
theorem regLoop_live {rounds : Nat} (h : regLoop rounds s lgc = .ok s') :
    s'.live = (lgc, s'.logicId lgc) :: s.live ∧ s'.given = s'.logicId lgc :: s.given := by
  induction rounds generalizing s with
  | zero => cases h
  | succ rounds ih =>
    unfold regLoop at h
    cases hprobe : s.probe s.slotSize 0 with
    | some i =>
      rw [hprobe] at h
      obtain rfl : s.enter lgc i = s' := Except.ok.inj h
      have hid : (s.enter lgc i).logicId lgc = s.handle i := Function.update_self ..
      rw [hid]
      exact ⟨rfl, rfl⟩
    | none =>
      rw [hprobe] at h
      simp only [corelogicStoreResize, bind, Except.bind, pure, Except.pure] at h
      cases hcopy : s.resizeLoop s.slotSize 0 fun _ => none with
      | error e =>
        rw [hcopy] at h
        cases h
      | ok newlist =>
        rw [hcopy] at h
        have hrest := ih h
        exact hrest

theorem step_live {op : Op} (h : s.step op = .ok s') :
    s'.live.map Prod.fst = op.note (s.live.map Prod.fst) := by
  cases op with
  | reg lgc =>
    simp only [step] at h
    simp only [Op.note]
    by_cases hl : lgc ∈ s.live.map Prod.fst
    · rw [if_pos hl] at h ⊢
      rw [← Except.ok.inj h]
    · rw [if_neg hl] at h ⊢
      rw [(regLoop_live h).1]
      rfl
  | release lgc =>
    simp only [step] at h
    simp only [Op.note]
    by_cases hl : lgc ∈ s.live.map Prod.fst
    · rw [if_pos hl] at h
      unfold corelogicRelease at h
      dsimp only at h
      split_ifs at h
      rw [← Except.ok.inj h, List.filter_map]
      rfl
    · rw [if_neg hl] at h
      rw [← Except.ok.inj h]
      refine (List.filter_eq_self.mpr fun p hp => ?_).symm
      have hne : p ≠ lgc := fun e => hl (e ▸ hp)
      exact decide_eq_true hne

/-- Along a run `live` are the logics registered and not released. -/
theorem run_live (ops : List Op) (h : ops.foldlM step s = .ok s') :
    s'.live.map Prod.fst = ops.foldl Op.note (s.live.map Prod.fst) := by
  induction ops generalizing s with
  | nil =>
    rw [← Except.ok.inj h]
    rfl
  | cons op ops ih =>
    rw [run_cons] at h
    cases heq : s.step op with
    | error e =>
      rw [heq] at h
      cases h
    | ok s₁ =>
      rw [heq] at h
      rw [List.foldl_cons, ← step_live heq]
      exact ih h

/-- What a client may rely on. -/
structure Sound (s : Store) : Prop where
  size : s.slotSize = 0 ∨ ∃ k, s.slotSize = 2 ^ k
  placed : ∀ p id, (p, id) ∈ s.live → s.logicId p = id ∧ s.hash id < s.slotSize ∧
    ∀ h < s.slotSize, s.slot h = some p ↔ h = s.hash id
  ids_nodup : (s.live.map Prod.snd).Nodup
  live_given : ∀ x ∈ s.live, x.2 ∈ s.given
  given_nodup : s.given.Nodup

theorem Inv.sound (h : Inv s) : Sound s := by
  refine ⟨h.size, fun p id hm => ?_, h.ids_nodup, h.live_given, h.given_nodup⟩
  obtain ⟨hne0, hlid, hslot⟩ := h.stored _ hm
  obtain ⟨k, hk⟩ := h.size.resolve_left hne0
  refine ⟨hlid, by rw [hash_eq hk]; exact Nat.mod_lt _ (by omega), fun i hi => ⟨fun hp => ?_, ?_⟩⟩
  · obtain ⟨id', hm', hh⟩ := h.content i hi p hp
    rw [live_unique h hm hm', hh]
  · rintro rfl
    exact hslot

/-- **The logic store.** In every sequence of registrations and releases in which `allocid` does not
wrap, no call dereferences an empty slot, fails its assertion or fails to return, and afterwards the
live logics are those registered and not released: the table size is 0 or a power of two, every live
logic is at the slot of its id and at no other, the live ids are distinct, and so are all the ids ever
handed out. -/
theorem runs_sound (ops : List Op) (hw : (outcome (run ops)).wrapped = false) :
    ∃ s, run ops = .ok s ∧ s.live.map Prod.fst = registered ops ∧ Sound s := by
  obtain ⟨s, heq, h⟩ := run_inv ops inv_zero hw
  exact ⟨s, heq, run_live ops heq, h.sound⟩

/-- 65 registrations, so that the table is resized, and a release in between. -/
theorem runs_sound_resized :
    ∃ s, run ((List.range 64).map .reg ++ [.release 3, .reg 64, .reg 65]) = .ok s ∧
      s.live.map Prod.fst =
        registered ((List.range 64).map .reg ++ [.release 3, .reg 64, .reg 65]) ∧ Sound s :=
  runs_sound _ (by decide +kernel)

end Store

end HoNet.LogicStore
