import HoNet.Lib.Pool

/-!
# The logic store of `logic_store.cpp`

The constructor of `logic` gets its id from `logic_store::reg` and stores it in `logic_id` when
`reg` has returned, that is after the write lock has been given back. Between the two the logic is
in the table with an id that nobody has written, and `resize` files the logics under what it reads
there.

`reg` and `grub` are one step each, as the lock makes them. No logic leaves the table, so the ids
are 0, 1, 2 and so on; a table with `2 ^ 30` pointers does not fit in the address space, so that no
`int` overflows.

* `grow_keeps_iff` — when a growing table keeps all logics.
* `constructed_found` — every run in which the table grows while no constructor is between the two.
-/

namespace HoNet.Frame

open HoNet.Pool

/-! ## The store -/

structure LogicStore where
  slot : Nat → Option Nat
  slotSize : Nat
  index : Nat

namespace LogicStore

/-- The loop of `resize` from slot `i` on; `none` if it reads the id of a slot without a logic. -/
def resizeLoop (s : LogicStore) (logicId : Nat → Nat) :
    Nat → Nat → (Nat → Option Nat) → Option (Nat → Option Nat)
  | 0, _, newlist => some newlist
  | rounds + 1, i, newlist =>
    match s.slot i with
    | none => none
    | some lgc =>
      let handle := logicId lgc
      let hash := handle &&& (s.slotSize * 2 - 1)
      resizeLoop s logicId rounds (i + 1) (Function.update newlist hash (some lgc))

def resize (s : LogicStore) (logicId : Nat → Nat) : Option LogicStore := do
  let newSize := if s.slotSize ≠ 0 then s.slotSize else 1 <<< 7
  let newSize := newSize * 2
  let newlist ← s.resizeLoop logicId s.slotSize 0 fun _ => none
  return { s with slot := newlist, slotSize := newSize }

/-- The loop of `reg` over the slots: the first `handle` whose slot is free. -/
def probe (s : LogicStore) : Nat → Nat → Option Nat
  | 0, _ => none
  | rounds + 1, i =>
    let handle := i + s.index
    let hash := handle &&& (s.slotSize - 1)
    if s.slot hash = none then some handle else probe s rounds (i + 1)

/-- The `for (;;)` of `reg`, with the id it returns; the first argument bounds its rounds. -/
def regLoop (logicId : Nat → Nat) (lgc : Nat) : Nat → LogicStore → Option (LogicStore × Nat)
  | 0, _ => none
  | rounds + 1, s =>
    match s.probe s.slotSize 0 with
    | some handle =>
      let hash := handle &&& (s.slotSize - 1)
      some ({ s with slot := Function.update s.slot hash (some lgc), index := handle + 1 }, handle)
    | none => do regLoop logicId lgc rounds (← s.resize logicId)

def reg (s : LogicStore) (logicId : Nat → Nat) (lgc : Nat) : Option (LogicStore × Nat) :=
  regLoop logicId lgc 2 s

def grub (s : LogicStore) (logicId : Nat → Nat) (id : Nat) : Option Nat :=
  let hash := id &&& (s.slotSize - 1)
  match s.slot hash with
  | none => none
  | some lgc => if logicId lgc ≠ id then none else some lgc

/-- The constructor: an empty table that has been resized. -/
def new : LogicStore := ⟨fun _ => none, 256, 0⟩

theorem new_eq (logicId : Nat → Nat) :
    (⟨fun _ => none, 0, 0⟩ : LogicStore).resize logicId = some new := rfl

end LogicStore

/-! ## Constructors -/

/-- The store and the fields `logic_id`. History variables: the logics whose constructor has been
called, and those that are registered, in that order. -/
structure Shared where
  store : LogicStore
  logicId : Nat → Nat
  made : List Nat
  regs : List Nat
  fault : Bool

/-- The constructor of `logic`: the call of `reg`, and the store of what it returned. -/
inductive Pc where
  | reg (lgc : Nat)
  | assign (lgc handle : Nat)
  deriving DecidableEq, Repr

def next (s : Shared) : Pc → Shared × Option Pc
  | .reg lgc =>
    match s.store.reg s.logicId lgc with
    | some (store, handle) =>
      ({ s with store := store, regs := s.regs ++ [lgc] }, some (.assign lgc handle))
    | none => ({ s with fault := true }, none)
  | .assign lgc handle => ({ s with logicId := Function.update s.logicId lgc handle }, none)

/-- A logic is constructed in memory of its own. -/
def program : Program Shared Pc where
  next := next
  start s s' p := ∃ lgc, lgc ∉ s.made ∧ s' = { s with made := lgc :: s.made } ∧ p = .reg lgc

/-- Memory in which `logic_id` is whatever it is. -/
def begin (garbage : Nat → Nat) : Sys Shared Pc := ⟨⟨.new, garbage, [], [], false⟩, 0⟩

/-- The table does not grow while a constructor is between its two steps. -/
def settled (s : Shared) (p : Pc) (R : Multiset Pc) : Prop :=
  ∀ lgc, p = .reg lgc → s.store.probe s.store.slotSize 0 = none → ∀ l h, .assign l h ∉ R

/-! ## A growing table -/

namespace LogicStore

variable {s : LogicStore} {logicId : Nat → Nat} {regs : List Nat}

/-- A slot of the new table holds a logic with the slot's index in the low bits of its id. -/
theorem resizeLoop_hash {rounds i : Nat} {newlist newlist' : Nat → Option Nat}
    (h : s.resizeLoop logicId rounds i newlist = some newlist')
    (h0 : ∀ j p, newlist j = some p → logicId p &&& (s.slotSize * 2 - 1) = j) :
    ∀ j p, newlist' j = some p → logicId p &&& (s.slotSize * 2 - 1) = j := by
  induction rounds generalizing i newlist with
  | zero =>
    obtain rfl : newlist = newlist' := Option.some.inj h
    exact h0
  | succ rounds ih =>
    rw [resizeLoop] at h
    cases hslot : s.slot i with
    | none => simp [hslot] at h
    | some lgc =>
      simp only [hslot] at h
      refine ih h fun j p hp => ?_
      by_cases hj : j = logicId lgc &&& (s.slotSize * 2 - 1)
      · subst hj
        rw [Function.update_self] at hp
        rw [Option.some.inj hp]
      · rw [Function.update_of_ne hj] at hp
        exact h0 j p hp

/-- With the slot's index in the low bits of each id, every logic stays where it is. -/
theorem resizeLoop_stay {rounds i : Nat} {newlist : Nat → Option Nat}
    (h : ∀ j, i ≤ j → j < i + rounds →
      ∃ p, s.slot j = some p ∧ logicId p &&& (s.slotSize * 2 - 1) = j) :
    ∃ newlist', s.resizeLoop logicId rounds i newlist = some newlist' ∧
      ∀ j, newlist' j = if i ≤ j ∧ j < i + rounds then s.slot j else newlist j := by
  induction rounds generalizing i newlist with
  | zero => exact ⟨newlist, rfl, fun j => by rw [if_neg (by omega)]⟩
  | succ rounds ih =>
    obtain ⟨p, hp, hid⟩ := h i le_rfl (by omega)
    obtain ⟨newlist', heq, hnew⟩ := @ih (i + 1) (Function.update newlist i (some p))
      fun j hj hlt => h j (by omega) (by omega)
    refine ⟨newlist', ?_, fun j => ?_⟩
    · rw [resizeLoop, hp]
      simp only [hid]
      exact heq
    · rw [hnew j]
      rcases Nat.lt_trichotomy i j with hj | rfl | hj
      · by_cases hlt : j < i + 1 + rounds
        · rw [if_pos ⟨by omega, hlt⟩, if_pos ⟨by omega, by omega⟩]
        · rw [if_neg (by omega), if_neg (by omega), Function.update_of_ne (by omega)]
      · rw [if_neg (by omega), if_pos ⟨le_rfl, by omega⟩, Function.update_self, hp]
      · rw [if_neg (by omega), if_neg (by omega), Function.update_of_ne (by omega)]

/-- The slots hold the registered logics in their order. -/
def Holds (s : LogicStore) (regs : List Nat) : Prop :=
  regs.length ≤ s.slotSize ∧ ∀ i < s.slotSize, s.slot i = regs[i]?

/-- **A growing table** keeps all logics exactly if each has its index in the low bits of its field
`logic_id`, be it written or not. -/
theorem grow_keeps_iff (hs : s.Holds regs) (hfull : regs.length = s.slotSize)
    (hpos : 0 < s.slotSize) :
    (∃ s', s.resize logicId = some s' ∧ s'.slotSize = s.slotSize * 2 ∧ s'.index = s.index ∧
        s'.Holds regs) ↔
      ∀ i p, regs[i]? = some p → logicId p &&& (s.slotSize * 2 - 1) = i := by
  have hsize : s.slotSize ≠ 0 := by omega
  constructor
  · rintro ⟨s', heq, hsize', -, -, hslot⟩ i p hp
    have hi : i < regs.length := (List.getElem?_eq_some_iff.mp hp).1
    simp only [resize, Option.bind_eq_bind, Option.pure_def, Option.bind_eq_some_iff] at heq
    obtain ⟨newlist, hloop, hs'⟩ := heq
    obtain rfl := Option.some.inj hs'
    refine resizeLoop_hash hloop (fun j q hq => by cases hq) i p ?_
    rw [← hp]
    exact hslot i (by rw [hsize']; omega)
  · intro hid
    obtain ⟨newlist, hloop, hnew⟩ := @resizeLoop_stay s logicId s.slotSize 0 (fun _ => none) fun j _ hj => by
        have hj' : j < regs.length := by omega
        have hp : regs[j]? = some regs[j] := List.getElem?_eq_getElem hj'
        refine ⟨regs[j], ?_, hid j _ hp⟩
        rw [hs.2 j (by omega), hp]
    refine ⟨⟨newlist, s.slotSize * 2, s.index⟩, ?_, rfl, rfl, ?_, fun i hi => ?_⟩
    · simp only [resize, if_pos hsize, hloop, Option.bind_eq_bind, Option.bind_some,
        Option.pure_def]
    · show regs.length ≤ s.slotSize * 2
      omega
    · show newlist i = regs[i]?
      rw [hnew i]
      by_cases hlt : i < s.slotSize
      · rw [if_pos ⟨Nat.zero_le i, by omega⟩, hs.2 i hlt]
      · rw [if_neg (by omega), List.getElem?_eq_none (by omega)]

/-! ## A registration -/

/-- With a free slot at `index` that is the one taken. -/
theorem probe_free (hs : s.Holds regs) {k : Nat} (hk : s.slotSize = 2 ^ k)
    (hindex : s.index = regs.length) (hlt : regs.length < s.slotSize) :
    s.probe s.slotSize 0 = some s.index ∧ s.index &&& (s.slotSize - 1) = s.index := by
  have hhash : s.index &&& (s.slotSize - 1) = s.index := by
    rw [hk, Nat.and_two_pow_sub_one_eq_mod, Nat.mod_eq_of_lt (by omega)]
  have hfree : s.slot s.index = none := by
    rw [hs.2 _ (by omega), hindex, List.getElem?_eq_none le_rfl]
  obtain ⟨rounds, hrounds⟩ : ∃ rounds, s.slotSize = rounds + 1 := ⟨s.slotSize - 1, by omega⟩
  refine ⟨?_, hhash⟩
  have hprobe : s.probe (rounds + 1) 0 = some s.index := by
    rw [probe, Nat.zero_add, hhash, if_pos hfree]
  rw [← hprobe, ← hrounds]

/-- A full table has no free slot. -/
theorem probe_full (hs : s.Holds regs) {k : Nat} (hk : s.slotSize = 2 ^ k)
    (hfull : regs.length = s.slotSize) (rounds i : Nat) : s.probe rounds i = none := by
  induction rounds generalizing i with
  | zero => rfl
  | succ rounds ih =>
    have hlt : (i + s.index) &&& (s.slotSize - 1) < s.slotSize := by
      rw [hk, Nat.and_two_pow_sub_one_eq_mod]
      exact Nat.mod_lt _ (Nat.two_pow_pos k)
    have hp : regs[(i + s.index) &&& (s.slotSize - 1)]? ≠ none := by
      rw [ne_eq, List.getElem?_eq_none_iff]
      omega
    rw [probe, if_neg (by rw [hs.2 _ hlt]; exact hp)]
    exact ih (i + 1)

/-- The logic is entered at the slot `index`. -/
theorem Holds.enter (hs : s.Holds regs) (hindex : s.index = regs.length)
    (hlt : regs.length < s.slotSize) (lgc : Nat) :
    Holds { s with slot := Function.update s.slot s.index (some lgc), index := s.index + 1 }
      (regs ++ [lgc]) := by
  refine ⟨?_, fun i hi => ?_⟩
  · rw [List.length_append, List.length_singleton]
    exact hlt
  · show Function.update s.slot s.index (some lgc) i = _
    rw [hindex]
    rcases Nat.lt_trichotomy i regs.length with hi' | rfl | hi'
    · rw [Function.update_of_ne hi'.ne, List.getElem?_append_left hi', hs.2 i hi]
    · rw [Function.update_self, List.getElem?_concat_length]
    · rw [Function.update_of_ne hi'.ne', hs.2 i hi, List.getElem?_eq_none hi'.le,
        List.getElem?_eq_none (by rw [List.length_append, List.length_singleton]; omega)]

theorem regLoop_some {handle : Nat} (h : s.probe s.slotSize 0 = some handle) (lgc rounds : Nat) :
    regLoop logicId lgc (rounds + 1) s =
      some ({ s with
        slot := Function.update s.slot (handle &&& (s.slotSize - 1)) (some lgc)
        index := handle + 1 }, handle) := by
  rw [regLoop, h]

/-- **A registration** gives the number of registrations before it, if a table that has to grow
keeps the logics. -/
theorem reg_spec (hs : s.Holds regs) {k : Nat} (hk : s.slotSize = 2 ^ k)
    (hindex : s.index = regs.length)
    (hid : regs.length = s.slotSize → ∀ i p, regs[i]? = some p → logicId p = i) (lgc : Nat) :
    ∃ s' k', s.reg logicId lgc = some (s', regs.length) ∧ s'.Holds (regs ++ [lgc]) ∧
      s'.slotSize = 2 ^ k' ∧ s'.index = regs.length + 1 := by
  rcases hs.1.lt_or_eq with hlt | hfull
  · obtain ⟨hprobe, hhash⟩ := probe_free hs hk hindex hlt
    refine ⟨{ s with slot := Function.update s.slot s.index (some lgc), index := s.index + 1 }, k,
      ?_, hs.enter hindex hlt lgc, hk, congrArg (· + 1) hindex⟩
    rw [reg, regLoop_some hprobe, hhash, ← hindex]
  · have hpos : 0 < s.slotSize := hk ▸ Nat.two_pow_pos k
    have hlow : ∀ i p, regs[i]? = some p → logicId p &&& (s.slotSize * 2 - 1) = i := by
      intro i p hp
      have hi : i < regs.length := (List.getElem?_eq_some_iff.mp hp).1
      rw [hid hfull i p hp, hk, ← Nat.pow_succ, Nat.and_two_pow_sub_one_eq_mod]
      exact Nat.mod_eq_of_lt (by rw [Nat.pow_succ]; omega)
    obtain ⟨s', hresize, hsize', hindex', hs'⟩ := (grow_keeps_iff hs hfull hpos).mpr hlow
    have hk' : s'.slotSize = 2 ^ (k + 1) := by rw [hsize', hk, Nat.pow_succ]
    have hindex'' : s'.index = regs.length := hindex'.trans hindex
    have hlt : regs.length < s'.slotSize := by omega
    obtain ⟨hprobe, hhash⟩ := probe_free hs' hk' hindex'' hlt
    refine ⟨{ s' with slot := Function.update s'.slot s'.index (some lgc), index := s'.index + 1 },
      k + 1, ?_, hs'.enter hindex'' hlt lgc, hk', congrArg (· + 1) hindex''⟩
    rw [reg, regLoop, probe_full hs hk hfull]
    simp only [hresize, Option.bind_eq_bind, Option.bind_some]
    rw [regLoop_some hprobe, hhash, ← hindex'']

/-- Two logics in a table for two. -/
theorem grow_keeps_iff_two :
    ∃ s', (⟨fun i => [5, 9][i]?, 2, 2⟩ : LogicStore).resize (fun p => if p = 9 then 1 else 0) =
      some s' ∧ s'.slotSize = 4 ∧ s'.index = 2 ∧ s'.Holds [5, 9] := by
  refine (grow_keeps_iff (s := ⟨fun i => [5, 9][i]?, 2, 2⟩) ⟨by decide, fun i _ => rfl⟩ rfl
    (by decide)).mpr fun i p hp => ?_
  have hi : i < 2 := (List.getElem?_eq_some_iff.mp hp).1
  interval_cases i <;> cases hp <;> rfl

end LogicStore

/-! ## Runs -/

def Pc.lgc : Pc → Nat
  | .reg lgc | .assign lgc _ => lgc

/-- The logics are in the table in the order of their registration, and each has its place as its id
or is about to get it. -/
structure Inv (s : Shared) (T : Multiset Pc) : Prop where
  ok : s.fault = false
  size : ∃ k, s.store.slotSize = 2 ^ k
  index_eq : s.store.index = s.regs.length
  holds : s.store.Holds s.regs
  nodup : s.regs.Nodup
  made : ∀ p ∈ s.regs, p ∈ s.made
  own : (T.map Pc.lgc).Nodup
  begun : ∀ p ∈ T, p.lgc ∈ s.made
  new : ∀ lgc, .reg lgc ∈ T → lgc ∉ s.regs
  given : ∀ lgc h, .assign lgc h ∈ T → s.regs[h]? = some lgc
  ids : ∀ i p, s.regs[i]? = some p → s.logicId p = i ∨ .assign p i ∈ T

variable {s : Shared} {T R : Multiset Pc} {p : Pc}

/-- What a registration does. -/
theorem Inv.next_reg {lgc : Nat} (h : Inv s (.reg lgc ::ₘ R)) (hok : settled s (.reg lgc) R) :
    ∃ s' k', next s (.reg lgc) = ({ s with store := s', regs := s.regs ++ [lgc] },
        some (.assign lgc s.regs.length)) ∧
      s'.Holds (s.regs ++ [lgc]) ∧ s'.slotSize = 2 ^ k' ∧ s'.index = s.regs.length + 1 := by
  obtain ⟨k, hk⟩ := h.size
  have hid : s.regs.length = s.store.slotSize → ∀ i p, s.regs[i]? = some p → s.logicId p = i := by
    intro hfull i p hp
    have hnone := LogicStore.probe_full h.holds hk hfull s.store.slotSize 0
    refine (h.ids i p hp).resolve_right fun hm => ?_
    exact hok lgc rfl hnone p i ((Multiset.mem_cons.mp hm).resolve_left (by rintro ⟨⟩))
  obtain ⟨s', k', heq, hs', hk', hindex'⟩ := LogicStore.reg_spec h.holds hk h.index_eq hid lgc
  refine ⟨s', k', ?_, hs', hk', hindex'⟩
  simp only [next, heq]

theorem Inv.reg {lgc : Nat} (h : Inv s (.reg lgc ::ₘ R)) (hok : settled s (.reg lgc) R) :
    Inv (next s (.reg lgc)).1 (put (next s (.reg lgc)).2 R) := by
  have hnew : lgc ∉ s.regs := h.new lgc (Multiset.mem_cons_self _ _)
  have hnot : ∀ q ∈ R, q.lgc ≠ lgc := by
    intro q hq he
    have hown := h.own
    rw [Multiset.map_cons, Multiset.nodup_cons] at hown
    exact hown.1 (Multiset.mem_map.mpr ⟨q, hq, he⟩)
  obtain ⟨s', k', hnext, hs', hk', hindex'⟩ := h.next_reg hok
  rw [hnext]
  have hlast : (s.regs ++ [lgc])[s.regs.length]? = some lgc := List.getElem?_concat_length
  refine ⟨h.ok, ⟨k', hk'⟩, ?_, hs', ?_, ?_, ?_, ?_, ?_, ?_, ?_⟩
  · show s'.index = (s.regs ++ [lgc]).length
    rw [hindex', List.length_append, List.length_singleton]
  · exact List.nodup_append.mpr ⟨h.nodup, List.nodup_singleton lgc, fun a ha b hb => by
      rw [List.mem_singleton.mp hb]
      exact fun he => hnew (he ▸ ha)⟩
  · intro p hp
    rcases List.mem_append.mp hp with hp | hp
    · exact h.made p hp
    · rw [List.mem_singleton.mp hp]
      exact h.begun (.reg lgc) (Multiset.mem_cons_self _ _)
  · have hown := h.own
    rw [Multiset.map_cons] at hown
    show Multiset.Nodup (Multiset.map Pc.lgc (_ ::ₘ R))
    rw [Multiset.map_cons]
    exact hown
  · intro q hq
    rcases Multiset.mem_cons.mp hq with rfl | hq
    · exact h.begun (.reg lgc) (Multiset.mem_cons_self _ _)
    · exact h.begun q (Multiset.mem_cons_of_mem hq)
  · intro l hl hm
    have hl := (Multiset.mem_cons.mp hl).resolve_left (by rintro ⟨⟩)
    rcases List.mem_append.mp hm with hm | hm
    · exact h.new l (Multiset.mem_cons_of_mem hl) hm
    · exact hnot _ hl (List.mem_singleton.mp hm)
  · intro l i hl
    rcases Multiset.mem_cons.mp hl with hl | hl
    · cases hl
      exact hlast
    · have hi := h.given l i (Multiset.mem_cons_of_mem hl)
      show (s.regs ++ [lgc])[i]? = some l
      rw [List.getElem?_append_left (List.getElem?_eq_some_iff.mp hi).1]
      exact hi
  · intro i p hp
    have hp : (s.regs ++ [lgc])[i]? = some p := hp
    rcases Nat.lt_or_ge i s.regs.length with hi | hi
    · rw [List.getElem?_append_left hi] at hp
      refine (h.ids i p hp).imp_right fun hm => ?_
      exact Multiset.mem_cons_of_mem ((Multiset.mem_cons.mp hm).resolve_left (by rintro ⟨⟩))
    · have hi' : i = s.regs.length := by
        have := (List.getElem?_eq_some_iff.mp hp).1
        rw [List.length_append, List.length_singleton] at this
        omega
      subst hi'
      obtain rfl : lgc = p := Option.some.inj (hlast.symm.trans hp)
      exact .inr (Multiset.mem_cons_self _ _)

theorem Inv.assign {lgc i : Nat} (h : Inv s (.assign lgc i ::ₘ R)) :
    Inv { s with logicId := Function.update s.logicId lgc i } R := by
  have hi : s.regs[i]? = some lgc := h.given lgc i (Multiset.mem_cons_self _ _)
  have hown := h.own
  rw [Multiset.map_cons, Multiset.nodup_cons] at hown
  refine ⟨h.ok, h.size, h.index_eq, h.holds, h.nodup, h.made, hown.2,
    fun q hq => h.begun q (Multiset.mem_cons_of_mem hq),
    fun l hl => h.new l (Multiset.mem_cons_of_mem hl),
    fun l j hl => h.given l j (Multiset.mem_cons_of_mem hl), fun j p hp => ?_⟩
  by_cases hpl : p = lgc
  · -- a logic is registered once
    subst hpl
    have hij : i = j := (List.getElem?_inj (List.getElem?_eq_some_iff.mp hi).1 h.nodup).mp
      (hi.trans hp.symm)
    left
    show Function.update s.logicId p i p = j
    rw [Function.update_self, hij]
  · refine (h.ids j p hp).imp (fun hid => ?_) fun hm => ?_
    · show Function.update s.logicId lgc i p = j
      rw [Function.update_of_ne hpl]
      exact hid
    · refine (Multiset.mem_cons.mp hm).resolve_left fun he => hpl ?_
      cases he
      rfl

theorem Inv.thread (h : Inv s (p ::ₘ R)) (hok : settled s p R) :
    Inv (next s p).1 (put (next s p).2 R) := by
  cases p with
  | reg lgc => exact h.reg hok
  | assign lgc handle => exact h.assign

theorem Inv.start {s' : Shared} (h : Inv s T) (hs : program.start s s' p) : Inv s' (p ::ₘ T) := by
  obtain ⟨lgc, hnew, rfl, rfl⟩ := hs
  have hown : lgc ∉ T.map Pc.lgc := by
    intro hm
    obtain ⟨q, hq, hql⟩ := Multiset.mem_map.mp hm
    exact hnew (hql ▸ h.begun q hq)
  refine ⟨h.ok, h.size, h.index_eq, h.holds, h.nodup,
    fun p hp => List.mem_cons_of_mem _ (h.made p hp), ?_, fun q hq => ?_, fun l hl hm => ?_,
    fun l i hl => ?_, fun i p hp => (h.ids i p hp).imp_right Multiset.mem_cons_of_mem⟩
  · rw [Multiset.map_cons]
    exact Multiset.nodup_cons.mpr ⟨hown, h.own⟩
  · rcases Multiset.mem_cons.mp hq with rfl | hq
    · exact List.mem_cons_self
    · exact List.mem_cons_of_mem _ (h.begun q hq)
  · rcases Multiset.mem_cons.mp hl with hl | hl
    · cases hl
      exact hnew (h.made _ hm)
    · exact h.new l hl hm
  · exact h.given l i ((Multiset.mem_cons.mp hl).resolve_left (by rintro ⟨⟩))

theorem Inv.begin (garbage : Nat → Nat) : Inv (begin garbage).shared (begin garbage).threads := by
  refine ⟨rfl, ⟨8, rfl⟩, rfl, ⟨Nat.zero_le _, fun i _ => rfl⟩, List.nodup_nil,
    fun p hp => absurd hp List.not_mem_nil, Multiset.nodup_zero,
    fun q hq => absurd hq (Multiset.notMem_zero q), fun l hl => absurd hl (Multiset.notMem_zero _),
    fun l i hl => absurd hl (Multiset.notMem_zero _), fun i p hp => ?_⟩
  have hnone : ([] : List Nat)[i]? = some p := hp
  rw [List.getElem?_nil] at hnone
  cases hnone

theorem reach_inv {garbage : Nat → Nat} {S : Sys Shared Pc}
    (hrun : Reach program settled (begin garbage) S) : Inv S.shared S.threads :=
  hrun.invariant (I := Inv) (Inv.begin garbage) (fun _ _ _ hok h => h.thread hok)
    (fun _ _ _ _ hs h => h.start hs)

/-! ## Looking up -/

/-- What is found is registered and has the id. -/
theorem Inv.grub_some (h : Inv s T) {id lgc : Nat} (hg : s.store.grub s.logicId id = some lgc) :
    lgc ∈ s.regs ∧ s.logicId lgc = id := by
  obtain ⟨k, hk⟩ := h.size
  have hlt : id &&& (s.store.slotSize - 1) < s.store.slotSize := by
    rw [hk, Nat.and_two_pow_sub_one_eq_mod]
    exact Nat.mod_lt _ (Nat.two_pow_pos k)
  have hslot := h.holds.2 _ hlt
  rw [LogicStore.grub, hslot] at hg
  cases hp : s.regs[id &&& (s.store.slotSize - 1)]? with
  | none => simp [hp] at hg
  | some p =>
    simp only [hp] at hg
    split at hg
    · cases hg
    · next hid =>
      obtain rfl : p = lgc := Option.some.inj hg
      exact ⟨List.mem_of_getElem? hp, not_not.mp hid⟩

/-- A logic that has its id is found under it. -/
theorem Inv.grub_own (h : Inv s T) {i lgc : Nat} (hi : s.regs[i]? = some lgc)
    (hid : s.logicId lgc = i) : s.store.grub s.logicId i = some lgc := by
  obtain ⟨k, hk⟩ := h.size
  have hlt : i < s.store.slotSize := (List.getElem?_eq_some_iff.mp hi).1.trans_le h.holds.1
  have hhash : i &&& (s.store.slotSize - 1) = i := by
    rw [hk, Nat.and_two_pow_sub_one_eq_mod, Nat.mod_eq_of_lt (hk ▸ hlt)]
  rw [LogicStore.grub, hhash, h.holds.2 i hlt, hi]
  simp only [hid, ne_eq, not_true, if_false]

/-- **Logics that are constructed are found.** In every run in which the table does not grow while a
constructor is between its two steps: no field of a logic that is not there is read, the `n`-th
registration gives the id `n`, counted from 0, and from when its constructor has stored the id the
logic is found under it, whatever the table grows to. What is found under an id is a registered
logic whose field has that id, and while no constructor is between its two steps exactly the
registered logics are found. -/
theorem constructed_found {garbage : Nat → Nat} {S : Sys Shared Pc}
    (hrun : Reach program settled (begin garbage) S) :
    S.shared.fault = false ∧ S.shared.regs.Nodup ∧
      (∀ lgc h, .assign lgc h ∈ S.threads → S.shared.regs[h]? = some lgc) ∧
      (∀ i lgc, S.shared.regs[i]? = some lgc → .assign lgc i ∈ S.threads ∨
        S.shared.logicId lgc = i ∧ S.shared.store.grub S.shared.logicId i = some lgc) ∧
      (∀ id lgc, S.shared.store.grub S.shared.logicId id = some lgc →
        lgc ∈ S.shared.regs ∧ S.shared.logicId lgc = id) ∧
      ((∀ lgc h, .assign lgc h ∉ S.threads) →
        ∀ id, S.shared.store.grub S.shared.logicId id = S.shared.regs[id]?) := by
  have h := reach_inv hrun
  refine ⟨h.ok, h.nodup, h.given, fun i lgc hi => ?_, fun id lgc hg => h.grub_some hg,
    fun hidle id => ?_⟩
  · rcases h.ids i lgc hi with hid | hm
    · exact .inr ⟨hid, h.grub_own hi hid⟩
    · exact .inl hm
  · have hids : ∀ i lgc, S.shared.regs[i]? = some lgc → S.shared.logicId lgc = i :=
      fun i lgc hi => (h.ids i lgc hi).resolve_right (hidle lgc i)
    cases hreg : S.shared.regs[id]? with
    | some lgc => exact h.grub_own hreg (hids id lgc hreg)
    | none =>
      rw [Option.eq_none_iff_forall_not_mem]
      intro lgc hg
      obtain ⟨hmem, hid⟩ := h.grub_some hg
      obtain ⟨i, hi⟩ := List.getElem?_of_mem hmem
      obtain rfl : i = id := (hids i lgc hi).symm.trans hid
      rw [hreg] at hi
      cases hi

theorem settled_assign (s : Shared) (lgc h : Nat) (R : Multiset Pc) :
    settled s (.assign lgc h) R := by
  intro _ heq
  cases heq

/-- Two constructors, one inside the other. The table may grow for the first one. -/
theorem reach_pair {garbage : Nat → Nat} {a b : Nat}
    (hrun : Reach program settled (begin garbage) ⟨s, 0⟩) (ha : a ∉ s.made) (hb : b ∉ a :: s.made)
    (hroom : ∀ k, s.regs.length < 2 ^ k → s.regs.length + 1 < 2 ^ k) :
    ∃ s', Reach program settled (begin garbage) ⟨s', 0⟩ ∧ s'.regs = s.regs ++ [a, b] ∧
      s'.made = b :: a :: s.made := by
  have h₁ := hrun.tail (Step.start _ _ _ _ ⟨a, ha, rfl, rfl⟩)
  have h₂ := h₁.tail (Step.start _ _ _ _ ⟨b, hb, rfl, rfl⟩)
  rw [Multiset.cons_swap] at h₂
  have hok₂ : settled { s with made := b :: a :: s.made } (.reg a) (.reg b ::ₘ 0) := by
    intro _ _ _ l h hm
    cases Multiset.mem_singleton.mp hm
  obtain ⟨store, k, hnext, hholds, hk, hindex⟩ := (reach_inv h₂).next_reg hok₂
  have h₃ := h₂.tail (Step.thread _ _ _ hok₂)
  change Reach _ _ _ ⟨(next _ _).1, put (next _ _).2 _⟩ at h₃
  rw [hnext] at h₃
  change Reach _ _ _ ⟨_, Pc.assign a s.regs.length ::ₘ Pc.reg b ::ₘ 0⟩ at h₃
  rw [Multiset.cons_swap] at h₃
  have hok₃ : settled { s with store := store, regs := s.regs ++ [a], made := b :: a :: s.made }
      (.reg b) (.assign a s.regs.length ::ₘ 0) := by
    intro _ _ hnone
    have hlen := hholds.1
    rw [List.length_append, List.length_singleton, hk] at hlen
    have hlt := hroom k (Nat.lt_of_succ_le hlen)
    obtain ⟨hprobe, -⟩ := LogicStore.probe_free hholds hk
      (by rw [hindex, List.length_append, List.length_singleton])
      (by rw [List.length_append, List.length_singleton, hk]; exact hlt)
    cases hnone.symm.trans hprobe
  obtain ⟨store', k', hnext', -⟩ := (reach_inv h₃).next_reg hok₃
  have h₄ := h₃.tail (Step.thread _ _ _ hok₃)
  change Reach _ _ _ ⟨(next _ _).1, put (next _ _).2 _⟩ at h₄
  rw [hnext'] at h₄
  change Reach _ _ _ ⟨_, Pc.assign b (s.regs ++ [a]).length ::ₘ Pc.assign a s.regs.length ::ₘ 0⟩
    at h₄
  have h₅ := h₄.tail (Step.thread _ _ _ (settled_assign _ b _ _))
  change Reach _ _ _ ⟨_, Pc.assign a s.regs.length ::ₘ 0⟩ at h₅
  have h₆ := h₅.tail (Step.thread _ _ _ (settled_assign _ a _ _))
  exact ⟨_, h₆, List.append_assoc .., rfl⟩

/-- So many pairs of constructors. -/
theorem reach_pairs (n : Nat) :
    ∃ s, Reach program settled (begin fun _ => 5) ⟨s, 0⟩ ∧ s.regs = List.range (2 * (n + 1)) ∧
      ∀ lgc ∈ s.made, lgc < 2 * (n + 1) := by
  induction n with
  | zero =>
    have hsettled (s : Shared) (p : Pc) (_ : true = true) : settled s p 0 :=
      fun _ _ _ _ _ hm => absurd hm (Multiset.notMem_zero _)
    have h₀ : Reach program settled (begin fun _ => 5) (begin fun _ => 5) := .refl
    have h₁ := h₀.call (k := fun _ _ => true) 2 ⟨0, List.not_mem_nil, rfl, rfl⟩ hsettled rfl rfl
    have h₂ := h₁.call (k := fun _ _ => true) 2 ⟨1, by decide +kernel, rfl, rfl⟩ hsettled
      (by decide +kernel) (by decide +kernel)
    exact ⟨_, h₂, by decide +kernel, by decide +kernel⟩
  | succ n ih =>
    obtain ⟨s, hrun, hregs, hmade⟩ := ih
    have hlen : s.regs.length = 2 * (n + 1) := by rw [hregs, List.length_range]
    have hfirst : 2 * (n + 1) ∉ s.made := fun hm => lt_irrefl _ (hmade _ hm)
    have hsecond : 2 * (n + 1) + 1 ∉ 2 * (n + 1) :: s.made := by
      intro hm
      rcases List.mem_cons.mp hm with he | hm
      · omega
      · have := hmade _ hm
        omega
    -- an even number is not one less than a power of two
    have hroom : ∀ k, s.regs.length < 2 ^ k → s.regs.length + 1 < 2 ^ k := by
      intro k hk
      rw [hlen] at hk ⊢
      cases k with
      | zero => omega
      | succ k =>
        rw [Nat.pow_succ] at hk ⊢
        omega
    obtain ⟨s', hrun', hregs', hmade'⟩ := reach_pair hrun hfirst hsecond hroom
    refine ⟨s', hrun', ?_, fun lgc hm => ?_⟩
    · rw [hregs', hregs, Nat.mul_succ 2 (n + 1), List.range_succ, List.range_succ,
        List.append_assoc]
      rfl
    · rw [hmade', List.mem_cons, List.mem_cons] at hm
      rcases hm with rfl | rfl | hm
      · omega
      · omega
      · have := hmade lgc hm
        omega

/-- The constructors of 300 logics, two at a time; the table has grown on the way. -/
theorem constructed_found_grown :
    ∃ s, Reach program settled (begin fun _ => 5) ⟨s, 0⟩ ∧ s.regs = List.range 300 ∧
      256 < s.store.slotSize ∧
      ∀ id, s.store.grub s.logicId id = (List.range 300)[id]? := by
  obtain ⟨s, hrun, hregs, -⟩ := reach_pairs 149
  obtain ⟨-, -, -, -, -, hexact⟩ := constructed_found hrun
  have hroom : s.regs.length ≤ s.store.slotSize := (reach_inv hrun).holds.1
  rw [hregs, List.length_range] at hroom
  refine ⟨s, hrun, hregs, by omega, fun id => ?_⟩
  have hfound := hexact (fun _ _ hm => absurd hm (Multiset.notMem_zero _)) id
  rw [hregs] at hfound
  exact hfound

end HoNet.Frame
