import HoNet.LogicStore
import HoNet.Lib.Pool

/-!
# References on the logics of `corelogic.c`

Threads that look logics up with `corelogic_grub` and give them back with `corelogic_release`. The
sections under the lock of the store and the interlocked decrement are one step each. The decrement is
not under the lock: between the one that leaves 0 and the removal of the logic from the store, a
lookup still finds it. A lookup that finds nothing returns a variable that was never set.

* `find` — the lookup of `corelogic_grub`.
* `Inv.thread`, `Inv.start` — the invariant along a step that returns no such logic.
* `held_not_freed` — whole runs.
-/

namespace HoNet.LogicStore

open HoNet.Pool

/-- What `corelogic_grub` finds under the lock. -/
def Store.find (store : Store) (id : Nat) : Option Nat :=
  match store.slot (store.hash id) with
  | some lgc => if store.logicId lgc = id then some lgc else none
  | none => none

/-- The store, the `ref` fields by address and the addresses given to `free`. -/
structure Logics where
  store : Store
  ref : Nat → Int
  freed : List Nat

inductive Pc where
  /-- `corelogic_grub`; its variable `ret` happens to hold `ret`. -/
  | grub (id : Nat) (ret : Option Nat)
  /-- A reference on the logic is held; `corelogic_release` is next. -/
  | hold (lgc : Nat)
  /-- `corelogic_release` behind its decrement: the section under the lock, `free`. -/
  | remove (lgc : Nat)
  | dispose (lgc : Nat)
  deriving DecidableEq, Repr

/-- `store->slot[hash] = NULL`. -/
def Store.clear (store : Store) (lgc : Nat) : Store :=
  { store with
    slot := Function.update store.slot (store.hash (store.logicId lgc)) none
    live := store.live.filter fun x => x.1 ≠ lgc }

/-- A step. What `corelogic_grub` returns its caller holds and releases, unless it is `NULL`; a lookup
that finds nothing returns what `ret` held. -/
def next (s : Logics) : Pc → Logics × Option Pc
  | .grub id ret =>
    match s.store.find id with
    | some lgc => ({ s with ref := Function.update s.ref lgc (s.ref lgc + 1) }, some (.hold lgc))
    | none => (s, ret.map .hold)
  | .hold lgc =>
    ({ s with ref := Function.update s.ref lgc (s.ref lgc - 1) },
      if s.ref lgc - 1 = 0 then some (.remove lgc) else none)
  | .remove lgc => ({ s with store := s.store.clear lgc }, some (.dispose lgc))
  | .dispose lgc => ({ s with freed := lgc :: s.freed }, none)

/-- A thread calls `corelogic_grub`. -/
inductive Start : Logics → Logics → Pc → Prop
  | grub (s : Logics) (id : Nat) (ret : Option Nat) : Start s s (.grub id ret)

def program : Program Logics Pc := ⟨next, Start⟩

/-- The logic is at its slot. -/
def Logics.Stored (s : Logics) (lgc : Nat) : Prop :=
  s.store.slot (s.store.hash (s.store.logicId lgc)) = some lgc

/-- A run begins with some references held, and `ref` counts them. -/
structure Initial (s : Logics) (T : Multiset Pc) : Prop where
  holds : ∀ p ∈ T, ∃ lgc, p = .hold lgc
  ref_eq : ∀ lgc, s.ref lgc = T.count (.hold lgc)
  stored : ∀ lgc, .hold lgc ∈ T → s.Stored lgc
  freed : s.freed = []

/-- No lookup finds a logic without references, and one that finds nothing returns `NULL`. -/
def referenced (s : Logics) (p : Pc) (_ : Multiset Pc) : Prop :=
  match p with
  | .grub id ret =>
    (∀ lgc, s.store.find id = some lgc → s.ref lgc ≠ 0) ∧ (s.store.find id = none → ret = none)
  | _ => True

/-- The logics of a store that only registrations have filled, each held by its owner. -/
theorem initial_owners {store : Store} (h : store.Inv) :
    Initial ⟨store, fun lgc => if lgc ∈ store.live.map Prod.fst then 1 else 0, []⟩
      (store.live.map fun x => Pc.hold x.1 : List Pc) := by
  have hmem : ∀ lgc, Pc.hold lgc ∈ (store.live.map fun x => Pc.hold x.1) ↔
      lgc ∈ store.live.map Prod.fst := fun lgc => by simp
  refine ⟨fun p hp => ?_, fun lgc => ?_, fun lgc hm => ?_, rfl⟩
  · obtain ⟨x, -, rfl⟩ := List.mem_map.mp (Multiset.mem_coe.mp hp)
    exact ⟨x.1, rfl⟩
  · have hnd : (store.live.map fun x => Pc.hold x.1).Nodup := by
      have := h.live_nodup.map (f := Pc.hold) fun a b e => Pc.hold.inj e
      simpa [List.map_map, Function.comp_def] using this
    simp only [Multiset.coe_count]
    split
    · next hm => rw [List.count_eq_one_of_mem hnd ((hmem lgc).mpr hm)]; rfl
    · next hm => rw [List.count_eq_zero_of_not_mem fun hc => hm ((hmem lgc).mp hc)]; rfl
  · obtain ⟨x, hx, he⟩ := List.mem_map.mp (Multiset.mem_coe.mp hm)
    obtain rfl := Pc.hold.inj he
    obtain ⟨-, hid, hslot⟩ := h.stored x hx
    show store.slot (store.hash (store.logicId x.1)) = some x.1
    rw [hid]
    exact hslot

/-! ## The invariant -/

structure Inv (s : Logics) (T : Multiset Pc) : Prop where
  ref_eq : ∀ x, s.ref x = T.count (.hold x)
  held : ∀ x, .hold x ∈ T → s.Stored x
  removing : ∀ x, .remove x ∈ T → s.Stored x ∧ .hold x ∉ T
  once : ∀ x, T.count (.remove x) ≤ 1
  disposing : ∀ x, .dispose x ∈ T → ¬ s.Stored x
  freed : ∀ x ∈ s.freed, ¬ s.Stored x

theorem Initial.inv {s : Logics} {T : Multiset Pc} (h : Initial s T) : Inv s T := by
  have hno : ∀ p ∈ T, (∀ x, p ≠ .remove x) ∧ ∀ x, p ≠ .dispose x := fun p hp => by
    obtain ⟨lgc, rfl⟩ := h.holds p hp
    exact ⟨fun x => by rintro ⟨⟩, fun x => by rintro ⟨⟩⟩
  refine ⟨h.ref_eq, h.stored, fun x hx => absurd rfl ((hno _ hx).1 x), fun x => ?_,
    fun x hx => absurd rfl ((hno _ hx).2 x), fun x hx => ?_⟩
  · rw [Multiset.count_eq_zero_of_notMem fun hx => (hno _ hx).1 x rfl]
    exact Nat.zero_le 1
  · rw [h.freed] at hx
    cases hx

variable {s : Logics} {T R : Multiset Pc} {p : Pc}

theorem find_some {store : Store} {id lgc : Nat} (h : store.find id = some lgc) :
    store.slot (store.hash id) = some lgc ∧ store.logicId lgc = id := by
  unfold Store.find at h
  split at h
  · next l hl =>
    split at h
    · next hid =>
      obtain rfl := Option.some.inj h
      exact ⟨hl, hid⟩
    · cases h
  · cases h

/-- Removing a stored logic takes no other one out of the store. -/
theorem stored_clear {x y : Nat} (hx : s.Stored x) :
    ({ s with store := s.store.clear x } : Logics).Stored y ↔ y ≠ x ∧ s.Stored y := by
  show Function.update s.store.slot (s.store.hash (s.store.logicId x)) none
    (s.store.hash (s.store.logicId y)) = some y ↔ _
  by_cases hh : s.store.hash (s.store.logicId y) = s.store.hash (s.store.logicId x)
  · rw [hh, Function.update_self]
    refine iff_of_false (by rintro ⟨⟩) ?_
    rintro ⟨hyx, hy⟩
    unfold Logics.Stored at hx hy
    rw [hh, hx] at hy
    exact hyx (Option.some.inj hy).symm
  · rw [Function.update_of_ne hh]
    refine ⟨fun hy => ⟨?_, hy⟩, fun hy => hy.2⟩
    rintro rfl
    exact hh rfl

/-! ## One thread beside the others -/

/-- What the invariant says of some of the threads; `P` tells which logics are stored. -/
structure Rest (P : Nat → Prop) (R : Multiset Pc) : Prop where
  held : ∀ x, .hold x ∈ R → P x
  removing : ∀ x, .remove x ∈ R → P x ∧ .hold x ∉ R
  once : ∀ x, R.count (.remove x) ≤ 1
  disposing : ∀ x, .dispose x ∈ R → ¬ P x

variable {P : Nat → Prop} {lgc : Nat}

theorem Inv.rest (h : Inv s (p ::ₘ R)) : Rest s.Stored R := by
  have hin : ∀ {q : Pc}, q ∈ R → q ∈ p ::ₘ R := fun hq => Multiset.mem_cons_of_mem hq
  refine ⟨fun x hx => h.held x (hin hx), fun x hx => ?_, fun x => ?_,
    fun x hx => h.disposing x (hin hx)⟩
  · obtain ⟨hst, hno⟩ := h.removing x (hin hx)
    exact ⟨hst, fun hm => hno (hin hm)⟩
  · exact (Multiset.count_le_count_cons _ _ _).trans (h.once x)

theorem Rest.inv (h : Rest s.Stored R) (href : ∀ x, s.ref x = R.count (.hold x))
    (hfreed : ∀ x ∈ s.freed, ¬ s.Stored x) : Inv s R :=
  ⟨href, h.held, h.removing, h.once, h.disposing, hfreed⟩

/-- A thread that is not concerned with a logic. -/
theorem Rest.cons (h : Rest P R) (hh : ∀ x, p ≠ .hold x) (hr : ∀ x, p ≠ .remove x)
    (hd : ∀ x, p = .dispose x → ¬ P x) : Rest P (p ::ₘ R) := by
  refine ⟨fun x hx => ?_, fun x hx => ?_, fun x => ?_, fun x hx => ?_⟩
  · exact h.held x ((Multiset.mem_cons.mp hx).resolve_left (hh x).symm)
  · obtain ⟨hst, hno⟩ := h.removing x ((Multiset.mem_cons.mp hx).resolve_left (hr x).symm)
    exact ⟨hst, fun hm => hno ((Multiset.mem_cons.mp hm).resolve_left (hh x).symm)⟩
  · rw [Multiset.count_cons_of_ne (hr x).symm]
    exact h.once x
  · rcases Multiset.mem_cons.mp hx with he | hx
    · exact hd x he.symm
    · exact h.disposing x hx

/-- A reference on a stored logic that nobody removes. -/
theorem Rest.hold (h : Rest P R) (hst : P lgc) (hno : .remove lgc ∉ R) :
    Rest P (.hold lgc ::ₘ R) := by
  refine ⟨fun x hx => ?_, fun x hx => ?_, fun x => ?_, fun x hx => ?_⟩
  · rcases Multiset.mem_cons.mp hx with he | hx
    · rw [Pc.hold.inj he]
      exact hst
    · exact h.held x hx
  · have hx := (Multiset.mem_cons.mp hx).resolve_left (by rintro ⟨⟩)
    refine ⟨(h.removing x hx).1, fun hm => ?_⟩
    rcases Multiset.mem_cons.mp hm with he | hm
    · rw [Pc.hold.inj he] at hx
      exact hno hx
    · exact (h.removing x hx).2 hm
  · rw [Multiset.count_cons_of_ne (by rintro ⟨⟩)]
    exact h.once x
  · exact h.disposing x ((Multiset.mem_cons.mp hx).resolve_left (by rintro ⟨⟩))

/-- One thread removes a stored logic without references. -/
theorem Rest.remove (h : Rest P R) (hst : P lgc) (hno : .hold lgc ∉ R) (hnone : .remove lgc ∉ R) :
    Rest P (.remove lgc ::ₘ R) := by
  have hhold : ∀ y, .hold y ∉ R → .hold y ∉ Pc.remove lgc ::ₘ R := fun y hy hm =>
    hy ((Multiset.mem_cons.mp hm).resolve_left (by rintro ⟨⟩))
  refine ⟨fun x hx => ?_, fun x hx => ?_, fun x => ?_, fun x hx => ?_⟩
  · exact h.held x ((Multiset.mem_cons.mp hx).resolve_left (by rintro ⟨⟩))
  · rcases Multiset.mem_cons.mp hx with he | hx
    · rw [Pc.remove.inj he]
      exact ⟨hst, hhold lgc hno⟩
    · exact ⟨(h.removing x hx).1, hhold x (h.removing x hx).2⟩
  · by_cases hx : x = lgc
    · subst hx
      rw [Multiset.count_cons_self, Multiset.count_eq_zero_of_notMem hnone]
    · have hne : Pc.remove x ≠ .remove lgc := fun e => hx (Pc.remove.inj e)
      rw [Multiset.count_cons_of_ne hne]
      exact h.once x
  · exact h.disposing x ((Multiset.mem_cons.mp hx).resolve_left (by rintro ⟨⟩))

/-- A logic leaves the store that no other thread is concerned with. -/
theorem Rest.clear {P' : Nat → Prop} (h : Rest P R) (hP : ∀ x, P' x ↔ x ≠ lgc ∧ P x)
    (hno : .hold lgc ∉ R) (hnone : .remove lgc ∉ R) : Rest P' R := by
  refine ⟨fun x hx => (hP x).mpr ⟨?_, h.held x hx⟩,
    fun x hx => ⟨(hP x).mpr ⟨?_, (h.removing x hx).1⟩, (h.removing x hx).2⟩, h.once,
    fun x hx hst => h.disposing x hx ((hP x).mp hst).2⟩
  · rintro rfl
    exact hno hx
  · rintro rfl
    exact hnone hx

/-! ## The steps -/

/-- A lookup takes a reference on a stored logic that nobody is removing. -/
theorem Inv.grub {id : Nat} {ret : Option Nat} (h : Inv s (.grub id ret ::ₘ R))
    (href : ∀ lgc, s.store.find id = some lgc → s.ref lgc ≠ 0)
    (hret : s.store.find id = none → ret = none) :
    Inv (next s (.grub id ret)).1 (put (next s (.grub id ret)).2 R) := by
  have hcount : ∀ x, s.ref x = R.count (.hold x) := fun x => by
    rw [h.ref_eq x, Multiset.count_cons_of_ne (by rintro ⟨⟩)]
  cases hf : s.store.find id with
  | none =>
    obtain rfl := hret hf
    simp only [next, hf]
    exact h.rest.inv hcount h.freed
  | some lgc =>
    simp only [next, hf]
    obtain ⟨hslot, hid⟩ := find_some hf
    have hst : s.Stored lgc := by
      unfold Logics.Stored
      rw [hid]
      exact hslot
    -- The logic that is being removed has no references.
    have hno : .remove lgc ∉ R := fun hm => by
      refine href lgc hf ?_
      rw [hcount lgc, Multiset.count_eq_zero_of_notMem (h.rest.removing lgc hm).2]
      rfl
    refine Rest.inv (h.rest.hold hst hno) (fun x => ?_) h.freed
    show Function.update s.ref lgc (s.ref lgc + 1) x = (Pc.hold lgc ::ₘ R).count (.hold x)
    by_cases hx : x = lgc
    · subst hx
      rw [Function.update_self, Multiset.count_cons_self, hcount]
      push_cast
      rfl
    · have hne' : Pc.hold x ≠ .hold lgc := fun e => hx (Pc.hold.inj e)
      rw [Function.update_of_ne hx, Multiset.count_cons_of_ne hne', hcount]

/-- The decrement of `corelogic_release`. -/
theorem Inv.hold (h : Inv s (.hold lgc ::ₘ R)) :
    Inv (next s (.hold lgc)).1 (put (next s (.hold lgc)).2 R) := by
  have hst := h.held lgc (Multiset.mem_cons_self _ _)
  have hself : s.ref lgc - 1 = R.count (.hold lgc) := by
    rw [h.ref_eq lgc, Multiset.count_cons_self]
    push_cast
    ring
  -- Nobody else removes a logic on which this thread holds a reference.
  have hnone : .remove lgc ∉ R := fun hm =>
    (h.removing lgc (Multiset.mem_cons_of_mem hm)).2 (Multiset.mem_cons_self _ _)
  have hcount : ∀ x, Function.update s.ref lgc (s.ref lgc - 1) x = R.count (.hold x) := fun x => by
    by_cases hx : x = lgc
    · subst hx
      rw [Function.update_self, hself]
    · have hne : Pc.hold x ≠ .hold lgc := fun e => hx (Pc.hold.inj e)
      rw [Function.update_of_ne hx, h.ref_eq x, Multiset.count_cons_of_ne hne]
  simp only [next]
  split
  · next hzero =>
    have hlast : .hold lgc ∉ R := by
      rw [hzero] at hself
      exact Multiset.count_eq_zero.mp (by exact_mod_cast hself.symm)
    refine Rest.inv (h.rest.remove hst hlast hnone) (fun x => ?_) h.freed
    show Function.update s.ref lgc (s.ref lgc - 1) x = (Pc.remove lgc ::ₘ R).count (.hold x)
    rw [Multiset.count_cons_of_ne (by rintro ⟨⟩), hcount]
  · exact Rest.inv h.rest hcount h.freed

/-- The section of `corelogic_release` under the lock. -/
theorem Inv.remove (h : Inv s (.remove lgc ::ₘ R)) :
    Inv (next s (.remove lgc)).1 (put (next s (.remove lgc)).2 R) := by
  obtain ⟨hst, hno⟩ := h.removing lgc (Multiset.mem_cons_self _ _)
  have hnone : .remove lgc ∉ R := fun hm => by
    have := h.once lgc
    rw [Multiset.count_cons_self] at this
    have := Multiset.count_pos.mpr hm
    omega
  have hP : ∀ x, (next s (.remove lgc)).1.Stored x ↔ x ≠ lgc ∧ s.Stored x :=
    fun x => stored_clear hst
  have hrest := h.rest.clear hP (fun hm => hno (Multiset.mem_cons_of_mem hm)) hnone
  refine Rest.inv (hrest.cons (by rintro x ⟨⟩) (by rintro x ⟨⟩) fun x he hx => ?_) (fun x => ?_)
    fun x hx hsx => h.freed x hx ((hP x).mp hsx).2
  · exact ((hP x).mp hx).1 (Pc.dispose.inj he).symm
  · show s.ref x = (Pc.dispose lgc ::ₘ R).count (.hold x)
    rw [h.ref_eq x, Multiset.count_cons_of_ne (by rintro ⟨⟩), Multiset.count_cons_of_ne (by rintro ⟨⟩)]

theorem Inv.dispose (h : Inv s (.dispose lgc ::ₘ R)) :
    Inv (next s (.dispose lgc)).1 (put (next s (.dispose lgc)).2 R) := by
  refine Rest.inv h.rest (fun x => ?_) fun x hx => ?_
  · show s.ref x = R.count (.hold x)
    rw [h.ref_eq x, Multiset.count_cons_of_ne (by rintro ⟨⟩)]
  · rcases List.mem_cons.mp hx with rfl | hx
    · exact h.disposing x (Multiset.mem_cons_self _ _)
    · exact h.freed x hx

theorem Inv.thread (h : Inv s (p ::ₘ R)) (hok : referenced s p R) :
    Inv (next s p).1 (put (next s p).2 R) := by
  cases p with
  | grub id ret => exact h.grub hok.1 hok.2
  | hold lgc => exact h.hold
  | remove lgc => exact h.remove
  | dispose lgc => exact h.dispose

theorem Inv.start (h : Inv s T) {s' : Logics} (hs : Start s s' p) : Inv s' (p ::ₘ T) := by
  obtain ⟨i, ret, rfl, rfl⟩ : ∃ i ret, p = .grub i ret ∧ s' = s := by
    cases hs with
    | grub i ret => exact ⟨i, ret, rfl, rfl⟩
  have hrest : Rest s'.Stored T := ⟨h.held, h.removing, h.once, h.disposing⟩
  refine Rest.inv (hrest.cons (by rintro x ⟨⟩) (by rintro x ⟨⟩) (by rintro x ⟨⟩)) (fun x => ?_) h.freed
  rw [h.ref_eq x, Multiset.count_cons_of_ne (by rintro ⟨⟩)]

/-! ## Whole runs -/

/-- **No use after release.** In every run in which no lookup finds a logic without references or returns
a variable that was not set, a logic that a lookup returned and that is not released again has not been
freed and is at its slot in the store. -/
theorem held_not_freed {S₀ S : Sys Logics Pc} (h₀ : Initial S₀.shared S₀.threads)
    (hrun : Reach program referenced S₀ S) :
    ∀ lgc, .hold lgc ∈ S.threads → lgc ∉ S.shared.freed ∧ S.shared.Stored lgc := by
  have h : Inv S.shared S.threads :=
    hrun.invariant (I := Inv) h₀.inv (fun s p R hok h => h.thread hok)
      (fun s s' p T hs h => h.start hs)
  intro lgc hm
  have hst := h.held lgc hm
  exact ⟨fun hf => h.freed lgc hf hst, hst⟩

/-- A store of 64 slots with the logic of id 0 at the address 7. -/
def oneLogic : Store := { Store.zero with
  slot := Function.update (fun _ => none) 0 (some 7), slotSize := 64, allocid := 1,
  live := [(7, 0)], given := [0] }

/-- The logic 7, with a reference of its owner. -/
def oneOwner : Sys Logics Pc :=
  ⟨⟨oneLogic, Function.update (fun _ => 0) 7 1, []⟩, Pc.hold 7 ::ₘ 0⟩

theorem initial_oneOwner : Initial oneOwner.shared oneOwner.threads := by
  refine ⟨fun p hp => ⟨7, Multiset.mem_singleton.mp hp⟩, fun lgc => ?_, fun lgc hm => ?_, rfl⟩
  · show Function.update (fun _ => (0 : Int)) 7 1 lgc = (Pc.hold 7 ::ₘ 0).count (.hold lgc)
    by_cases hl : lgc = 7
    · subst hl
      rfl
    · have hne : Pc.hold lgc ≠ .hold 7 := fun e => hl (Pc.hold.inj e)
      rw [Function.update_of_ne hl, Multiset.count_cons_of_ne hne]
      rfl
  · obtain rfl := Pc.hold.inj (Multiset.mem_singleton.mp hm)
    rfl

/-- Another thread looks up an id that nobody has and then the logic, on which it holds a reference when
the owner releases its own. -/
theorem held_not_freed_two :
    ∃ S : Sys Logics Pc, Reach program referenced oneOwner S ∧ .hold 7 ∈ S.threads ∧
      7 ∉ S.shared.freed ∧ S.shared.Stored 7 := by
  have h₀ : Reach program referenced oneOwner oneOwner := .refl
  have h₁ := h₀.tail (Step.start (P := program) _ _ (.grub 1 none) (Pc.hold 7 ::ₘ 0) (.grub _ 1 none))
  have hmiss : referenced oneOwner.shared (.grub 1 none) (Pc.hold 7 ::ₘ 0) :=
    ⟨fun lgc hf => (by cases hf), fun _ => rfl⟩
  have h₂ := h₁.tail (Step.thread _ (.grub 1 none) (Pc.hold 7 ::ₘ 0) hmiss)
  have h₃ := h₂.tail (Step.start (P := program) _ _ (.grub 0 (some 9)) (Pc.hold 7 ::ₘ 0)
    (.grub _ 0 (some 9)))
  have hhit : referenced oneOwner.shared (.grub 0 (some 9)) (Pc.hold 7 ::ₘ 0) := by
    refine ⟨fun lgc hf => ?_, fun hf => by cases hf⟩
    obtain rfl : 7 = lgc := Option.some.inj hf
    decide
  have h₄ := h₃.tail (Step.thread _ (.grub 0 (some 9)) (Pc.hold 7 ::ₘ 0) hhit)
  have h₅ := h₄.tail (Step.thread _ (.hold 7) (Pc.hold 7 ::ₘ 0) trivial)
  have hm : Pc.hold 7 ∈ Pc.hold 7 ::ₘ (0 : Multiset Pc) := Multiset.mem_cons_self _ _
  exact ⟨_, h₅, hm, held_not_freed initial_oneOwner h₅ 7 hm⟩

/-- The owner's release leaves no reference; a lookup finds the logic nevertheless, and then the owner
removes and frees it. And a lookup finds nothing and returns the logic all the same, without a
reference; then its owner releases it. -/
theorem grub_before_removal_freed :
    (∃ S : Sys Logics Pc, Reach program anyStep oneOwner S ∧ .hold 7 ∈ S.threads ∧
      7 ∈ S.shared.freed ∧ ¬ S.shared.Stored 7) ∧
    ∃ S S' : Sys Logics Pc, Reach program anyStep oneOwner S ∧ S.threads = Pc.hold 7 ::ₘ Pc.hold 7 ::ₘ 0 ∧
      S.shared.ref 7 = 1 ∧ Reach program anyStep S S' ∧ .hold 7 ∈ S'.threads ∧ 7 ∈ S'.shared.freed ∧
      ¬ S'.shared.Stored 7 := by
  have h₀ : Reach program anyStep oneOwner oneOwner := .refl
  have hm : Pc.hold 7 ∈ Pc.hold 7 ::ₘ (0 : Multiset Pc) := Multiset.mem_cons_self _ _
  constructor
  · have h₁ := h₀.tail (Step.thread (P := program) _ (.hold 7) 0 trivial)
    have h₂ := h₁.tail (Step.start (P := program) _ _ (.grub 0 none) (Pc.remove 7 ::ₘ 0)
      (.grub _ 0 none))
    have h₃ : Reach program anyStep oneOwner
        ⟨(next (next oneOwner.shared (.hold 7)).1 (.grub 0 none)).1, Pc.hold 7 ::ₘ Pc.remove 7 ::ₘ 0⟩ :=
      h₂.tail (Step.thread (P := program) _ (.grub 0 none) (Pc.remove 7 ::ₘ 0) trivial)
    rw [Multiset.cons_swap] at h₃
    have h₄ := h₃.tail (Step.thread (P := program) _ (.remove 7) (Pc.hold 7 ::ₘ 0) trivial)
    have h₅ := h₄.tail (Step.thread (P := program) _ (.dispose 7) (Pc.hold 7 ::ₘ 0) trivial)
    exact ⟨_, h₅, hm, List.mem_cons_self, by rintro ⟨⟩⟩
  · have h₁ := h₀.tail (Step.start (P := program) _ _ (.grub 1 (some 7)) (Pc.hold 7 ::ₘ 0)
      (.grub _ 1 (some 7)))
    have h₂ : Reach program anyStep oneOwner ⟨oneOwner.shared, Pc.hold 7 ::ₘ Pc.hold 7 ::ₘ 0⟩ :=
      h₁.tail (Step.thread (P := program) _ (.grub 1 (some 7)) (Pc.hold 7 ::ₘ 0) trivial)
    have k₀ : Reach program anyStep ⟨oneOwner.shared, Pc.hold 7 ::ₘ Pc.hold 7 ::ₘ 0⟩
        ⟨oneOwner.shared, Pc.hold 7 ::ₘ Pc.hold 7 ::ₘ 0⟩ := .refl
    have k₁ : Reach program anyStep _
        ⟨(next oneOwner.shared (.hold 7)).1, Pc.remove 7 ::ₘ Pc.hold 7 ::ₘ 0⟩ :=
      k₀.tail (Step.thread (P := program) _ (.hold 7) (Pc.hold 7 ::ₘ 0) trivial)
    have k₂ := k₁.tail (Step.thread (P := program) _ (.remove 7) (Pc.hold 7 ::ₘ 0) trivial)
    have k₃ := k₂.tail (Step.thread (P := program) _ (.dispose 7) (Pc.hold 7 ::ₘ 0) trivial)
    exact ⟨_, _, h₂, rfl, rfl, k₃, hm, List.mem_cons_self, by rintro ⟨⟩⟩

end HoNet.LogicStore
