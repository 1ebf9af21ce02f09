import HoNet.Timer.HeapSafe

/-!
# `coretimer_delete`

The loop over a hash chain ends at `NULL`, but the chains are rings through their heads. This is so in
every state a run can reach, also where a cancelled timer has already spoilt the `list_*` links: only
`addto_hash` and `delfrom_hash` touch the chains, and neither the free list nor a list link leads them
astray.

* `Core` — what every run keeps, whatever happens to the `list_*` links.
* `run_core` — so it is in every state reached.
* `delete_never` — so `coretimer_delete` never returns.
-/

namespace HoNet.Timer

open HoNet.Linked

namespace CoreTimer

/-- `while (node)` over a hash chain. -/
def deleteLoop : Nat → CoreTimer → Ptr → Res CoreTimer
  | 0, T, _ => .error (.diverges, T)
  | rounds + 1, T, node =>
    if node = .null then .ok T
    else do
      let next ← T.getHashNext node
      let T ← T.coretimerDel (T.id node)
      deleteLoop rounds T next

/-- `free(node)` of a node on the free list. -/
def freeNode (T : CoreTimer) : Ptr → Res CoreTimer
  | .node a =>
    if a ∈ T.mapped then .ok { T with mapped := T.mapped.erase a } else .error (.badFree, T)
  | _ => .error (.badFree, T)

/-- `while (node)` over the free list. -/
def freeLoop : Nat → CoreTimer → Ptr → Res CoreTimer
  | 0, T, _ => .error (.diverges, T)
  | rounds + 1, T, node =>
    if node = .null then .ok T
    else do
      let next := T.listNext node
      let T ← T.freeNode node
      freeLoop rounds T next

/-- `coretimer_delete` up to `free(t)`; every loop has so many rounds. -/
def coretimerDelete (rounds : Nat) (T : CoreTimer) : Res CoreTimer := do
  let T ← (List.range TIMER_HASH_SIZE).foldlM (fun T i => do
    let node ← T.getHashNext (.hash i)
    deleteLoop rounds T node) T
  freeLoop rounds T T.freenode

/-- `coretimer_delete` comes to `free(t)`, and every node has been given back to `free` by then. -/
def Deletes (T : CoreTimer) : Prop :=
  ∃ rounds T', T.coretimerDelete rounds = .ok T' ∧ T'.mapped = []

end CoreTimer

/-! ## What every run keeps -/

/-- The address is not that of a hash head. -/
def Ptr.Plain (p : Ptr) : Prop := ∀ k, p ≠ .hash k

/-- The chains are rings of nodes in use, nothing else has hash links, no list link leads to a hash
head, and the free list holds nodes that are not in use. -/
structure Core (T : CoreTimer) (chain : Nat → List Nat) (free : List Nat) : Prop where
  rep : HashRep T.hashNext T.hashPrev T.id chain
  chained : ∀ k, ∀ a ∈ chain k, a ∈ T.used
  bare : ∀ p, Alive T.used p → (∀ k, p ∉ Ptr.hash k :: nodes (chain k)) → T.hashPrev p = .null
  next_plain : ∀ p, (T.listNext p).Plain
  prev_plain : ∀ p, (T.listPrev p).Plain
  path : Path T.listNext T.freenode (nodes free) .null
  free_out : ∀ a ∈ free, a ∉ T.used
  free_mapped : ∀ a ∈ free, a ∈ T.mapped
  free_nodup : free.Nodup
  used_mapped : ∀ a ∈ T.used, a ∈ T.mapped
  used_nodup : T.used.Nodup

section Core

variable {T T' : CoreTimer} {chain : Nat → List Nat} {free : List Nat} {p q r : Ptr} {a : Nat}

/-- A successful computation taken apart. -/
theorem bind_ok {α β : Type} {x : Res α} {f : α → Res β} {b : β} (h : (x >>= f) = .ok b) :
    ∃ a, x = .ok a ∧ f a = .ok b := by
  cases x with
  | error e => cases h
  | ok a => exact ⟨a, rfl, h⟩

theorem check_ok {u : Unit} (h : T.check p = .ok u) : Alive T.used p := by
  cases p with
  | null => cases h
  | slot s => trivial
  | hash k => trivial
  | node a =>
    by_contra hnot
    have hnot : a ∉ T.used := hnot
    rw [CoreTimer.check, if_neg hnot] at h
    cases h

theorem getListNext_ok (h : T.getListNext p = .ok q) : Alive T.used p ∧ q = T.listNext p := by
  obtain ⟨_, hc, hq⟩ := bind_ok h
  exact ⟨check_ok hc, (Except.ok.inj hq).symm⟩

theorem getListPrev_ok (h : T.getListPrev p = .ok q) : Alive T.used p ∧ q = T.listPrev p := by
  obtain ⟨_, hc, hq⟩ := bind_ok h
  exact ⟨check_ok hc, (Except.ok.inj hq).symm⟩

theorem assert_ok {u : Unit} {b : Bool} (h : T.assert b = .ok u) : b = true := by
  cases b with
  | true => rfl
  | false => cases h

theorem plain_null : Ptr.null.Plain := fun _ h => by cases h
theorem plain_slot (s : Slot) : (Ptr.slot s).Plain := fun _ h => by cases h
theorem plain_node (a : Nat) : (Ptr.node a).Plain := fun _ h => by cases h

namespace Core

theorem hashed (h : Core T chain free) : T.Hashed chain := ⟨h.rep, h.chained⟩

/-- A step on the `list_*` links keeps the rest. -/
def Stays (T T' : CoreTimer) (chain : Nat → List Nat) (free : List Nat) : Prop :=
  Core T' chain free ∧ T'.used = T.used

theorem setListNext (h : Core T chain free) (hq : q.Plain) (hok : T.setListNext p q = .ok T') :
    Stays T T' chain free := by
  obtain ⟨_, hc, hT⟩ := bind_ok hok
  obtain rfl := Except.ok.inj hT
  have hA := check_ok hc
  refine ⟨⟨h.rep, h.chained, h.bare, fun p' => ?_, h.prev_plain, ?_, h.free_out, h.free_mapped, h.free_nodup,
    h.used_mapped, h.used_nodup⟩, rfl⟩
  · rcases eq_or_ne p' p with rfl | hne
    · simpa using hq
    · simpa [Function.update_of_ne hne] using h.next_plain p'
  · refine h.path.congr fun z hz => ?_
    obtain ⟨b, hb, rfl⟩ := List.mem_map.mp hz
    refine Function.update_of_ne ?_ _ _
    rintro rfl
    exact h.free_out b hb hA

theorem setListPrev (h : Core T chain free) (hq : q.Plain) (hok : T.setListPrev p q = .ok T') :
    Stays T T' chain free := by
  obtain ⟨_, -, hT⟩ := bind_ok hok
  obtain rfl := Except.ok.inj hT
  refine ⟨⟨h.rep, h.chained, h.bare, h.next_plain, fun p' => ?_, h.path, h.free_out, h.free_mapped,
    h.free_nodup, h.used_mapped, h.used_nodup⟩, rfl⟩
  rcases eq_or_ne p' p with rfl | hne
  · simpa using hq
  · simpa [Function.update_of_ne hne] using h.prev_plain p'

theorem Stays.trans {T'' : CoreTimer} (h : Stays T T' chain free) (h' : Stays T' T'' chain free) :
    Stays T T'' chain free :=
  ⟨h'.1, h'.2.trans h.2⟩

theorem listAdd {list : Ptr} (h : Core T chain free) (hl : list.Plain) (hr : r.Plain)
    (hok : T.listAdd list r = .ok T') : Stays T T' chain free := by
  obtain ⟨_, -, hok⟩ := bind_ok hok
  obtain ⟨_, -, hok⟩ := bind_ok hok
  obtain ⟨_, -, hok⟩ := bind_ok hok
  obtain ⟨_, -, hok⟩ := bind_ok hok
  obtain ⟨q₁, hq₁, hok⟩ := bind_ok hok
  obtain ⟨T₁, h₁, hok⟩ := bind_ok hok
  obtain ⟨q₂, -, hok⟩ := bind_ok hok
  obtain ⟨T₂, h₂, hok⟩ := bind_ok hok
  obtain ⟨T₃, h₃, hok⟩ := bind_ok hok
  obtain ⟨q₃, -, hok⟩ := bind_ok hok
  have s₁ := h.setListPrev ((getListPrev_ok hq₁).2 ▸ h.prev_plain _) h₁
  have s₂ := s₁.1.setListNext hr h₂
  have s₃ := s₂.1.setListNext hl h₃
  exact ((s₁.trans s₂).trans s₃).trans (s₃.1.setListPrev hr hok)

theorem delfromList (h : Core T chain free) (hok : T.delfromList r = .ok T') :
    Stays T T' chain free := by
  obtain ⟨_, -, hok⟩ := bind_ok hok
  obtain ⟨_, -, hok⟩ := bind_ok hok
  obtain ⟨_, -, hok⟩ := bind_ok hok
  obtain ⟨_, -, hok⟩ := bind_ok hok
  obtain ⟨q₁, -, hok⟩ := bind_ok hok
  obtain ⟨q₂, hq₂, hok⟩ := bind_ok hok
  obtain ⟨T₁, h₁, hok⟩ := bind_ok hok
  obtain ⟨q₃, -, hok⟩ := bind_ok hok
  obtain ⟨q₄, hq₄, hok⟩ := bind_ok hok
  obtain ⟨T₂, h₂, hok⟩ := bind_ok hok
  obtain ⟨T₃, h₃, hok⟩ := bind_ok hok
  have s₁ := h.setListNext ((getListNext_ok hq₂).2 ▸ h.next_plain _) h₁
  have s₂ := s₁.1.setListPrev ((getListPrev_ok hq₄).2 ▸ s₁.1.prev_plain _) h₂
  have s₃ := s₂.1.setListPrev plain_null h₃
  exact ((s₁.trans s₂).trans s₃).trans (s₃.1.setListNext plain_null hok)

/-- The clock and the histories are not looked at. -/
theorem stamp (h : Core T chain free) (t : Nat) (hs : List Handed) (log : List HeapEvent) :
    Core { T with time := t, handed := hs, log := log } chain free :=
  ⟨h.rep, h.chained, h.bare, h.next_plain, h.prev_plain, h.path, h.free_out, h.free_mapped,
    h.free_nodup, h.used_mapped, h.used_nodup⟩

theorem hand (h : Core T chain free) (head : Ptr) : Core (T.hand head) chain free :=
  h.stamp T.time _ T.log

theorem listClear {list : Ptr} (h : Core T chain free) (hl : list.Plain)
    (hok : T.listClear list = .ok (T', p)) : Stays T T' chain free ∧ p.Plain := by
  obtain ⟨node, hnode, hok⟩ := bind_ok hok
  have hplain : node.Plain := (getListNext_ok hnode).2 ▸ h.next_plain _
  split at hok
  · cases hok
    exact ⟨⟨h, rfl⟩, plain_null⟩
  · obtain ⟨T₁, h₁, hok⟩ := bind_ok hok
    obtain ⟨q, -, hok⟩ := bind_ok hok
    obtain ⟨T₂, h₂, hok⟩ := bind_ok hok
    obtain ⟨T₃, h₃, hok⟩ := bind_ok hok
    obtain ⟨T₄, h₄, hok⟩ := bind_ok hok
    have s₁ := h.setListPrev plain_null h₁
    have s₂ := s₁.1.setListNext plain_null h₂
    have s₃ := s₂.1.setListPrev hl h₃
    have s₄ := s₃.1.setListNext hl h₄
    cases hok
    exact ⟨((s₁.trans s₂).trans s₃).trans s₄, hplain⟩

theorem addtoList (h : Core T chain free) (hr : r.Plain) (hok : T.addtoList r = .ok T') :
    Stays T T' chain free := by
  obtain ⟨_, -, hok⟩ := bind_ok hok
  obtain ⟨_, -, hok⟩ := bind_ok hok
  exact (h.hand _).listAdd (plain_slot _) hr hok

theorem moveLoop (rounds : Nat) (h : Core T chain free) (hr : r.Plain)
    (hok : CoreTimer.moveLoop rounds T r = .ok T') : Stays T T' chain free := by
  induction rounds generalizing T r with
  | zero => cases hok
  | succ rounds ih =>
    rw [CoreTimer.moveLoop] at hok
    split at hok
    · cases hok
      exact ⟨h, rfl⟩
    · obtain ⟨n, hn, hok⟩ := bind_ok hok
      obtain ⟨T₁, h₁, hok⟩ := bind_ok hok
      obtain ⟨T₂, h₂, hok⟩ := bind_ok hok
      obtain ⟨T₃, h₃, hok⟩ := bind_ok hok
      have s₁ := h.setListPrev plain_null h₁
      have s₂ := s₁.1.setListNext plain_null h₂
      have s₃ := s₂.1.addtoList hr h₃
      have hplain : n.Plain := (getListNext_ok hn).2 ▸ h.next_plain _
      exact ((s₁.trans s₂).trans s₃).trans (ih s₃.1 hplain hok)

theorem timerShift (h : Core T chain free) (hok : T.timerShift = .ok T') : Stays T T' chain free := by
  simp only [CoreTimer.timerShift] at hok
  have hnow := h.stamp ((T.time + 1) % 2 ^ 32) T.handed T.log
  split at hok
  · obtain ⟨⟨T₁, p⟩, h₁, hok⟩ := bind_ok hok
    obtain ⟨s₁, hp⟩ := (hnow.hand _).listClear (plain_slot _) h₁
    exact s₁.trans (s₁.1.moveLoop _ hp hok)
  · cases hok
    exact ⟨hnow, rfl⟩
  · cases hok

/-! ### Nodes -/

/-- `timernode_dealloc` of a node that is on no chain. -/
theorem dealloc (h : Core T chain free) (ha : ∀ k, a ∉ chain k)
    (hok : T.timernodeDealloc (.node a) = .ok T') :
    (∃ free', Core T' chain free') ∧ T'.used = T.used.erase a := by
  by_cases hau : a ∈ T.used
  swap
  · rw [CoreTimer.timernodeDealloc, if_neg hau] at hok
    cases hok
  simp only [CoreTimer.timernodeDealloc, if_pos hau] at hok
  generalize (if ((T.useCnt + (2 ^ 32 - 1)) % 2 ^ 32) >>> 3 ≠ 0 then _ else 1) = use at hok
  have hchained : ∀ k, ∀ b ∈ chain k, b ∈ T.used.erase a := fun k b hb =>
    (h.used_nodup.mem_erase_iff).mpr ⟨fun hba => ha k (hba ▸ hb), h.chained k b hb⟩
  have halive {p : Ptr} (hp : Alive (T.used.erase a) p) : Alive T.used p := by
    cases p with
    | node b => exact List.mem_of_mem_erase hp
    | _ => exact hp
  have hnot : a ∉ T.used.erase a := fun hm => ((h.used_nodup.mem_erase_iff).mp hm).1 rfl
  split at hok
  · cases hok
    refine ⟨⟨free, h.rep, hchained, fun p hp => h.bare p (halive hp), h.next_plain, h.prev_plain,
      h.path, fun b hb hm => h.free_out b hb (List.mem_of_mem_erase hm), fun b hb => ?_,
      h.free_nodup, fun b hb => ?_, h.used_nodup.erase a⟩, rfl⟩
    · have hne : b ≠ a := fun hba => h.free_out b hb (hba ▸ hau)
      exact (List.mem_erase_of_ne hne).mpr (h.free_mapped b hb)
    · obtain ⟨hne, hb⟩ := (h.used_nodup.mem_erase_iff).mp hb
      exact (List.mem_erase_of_ne hne).mpr (h.used_mapped b hb)
  · cases hok
    refine ⟨⟨a :: free, h.rep, hchained, fun p hp => h.bare p (halive hp), fun p => ?_, h.prev_plain,
      ?_, fun b hb hm => ?_, fun b hb => ?_, ?_,
      fun b hb => h.used_mapped b (List.mem_of_mem_erase hb), h.used_nodup.erase a⟩, rfl⟩
    · rcases eq_or_ne p (.node a) with rfl | hne
      · simp only [Function.update_self]
        cases free with
        | nil => exact h.path ▸ plain_null
        | cons b l => exact h.path.1 ▸ plain_node b
      · simpa only [Function.update_of_ne hne] using h.next_plain p
    · refine ⟨rfl, ?_⟩
      simp only [Function.update_self]
      refine h.path.congr fun z hz => ?_
      obtain ⟨b, hb, rfl⟩ := List.mem_map.mp hz
      refine Function.update_of_ne ?_ _ _
      rintro hba
      exact h.free_out b hb (Ptr.node.inj hba ▸ hau)
    · rcases List.mem_cons.mp hb with rfl | hb
      · exact hnot hm
      · exact h.free_out b hb (List.mem_of_mem_erase hm)
    · rcases List.mem_cons.mp hb with rfl | hb
      · exact h.used_mapped b hau
      · exact h.free_mapped b hb
    · exact List.nodup_cons.mpr ⟨fun hm => h.free_out a hm hau, h.free_nodup⟩

/-- What has hash links is on a chain. -/
theorem on_chain (h : Core T chain free) (hr : r.Plain) (hA : Alive T.used r)
    (hne : T.hashPrev r ≠ .null) : ∃ a k, r = .node a ∧ a ∈ chain k := by
  by_contra hnot
  refine hne (h.bare r hA fun k hm => ?_)
  rcases List.mem_cons.mp hm with rfl | hm
  · exact hr k rfl
  · obtain ⟨a, ha, rfl⟩ := List.mem_map.mp hm
    exact hnot ⟨a, k, rfl, ha⟩

theorem delfromHash (h : Core T chain free) (hr : r.Plain) (hok : T.delfromHash r = .ok T') :
    ∃ a k, r = .node a ∧ a ∈ chain k ∧ T'.used = T.used ∧
      Core T' (Function.update chain k ((chain k).erase a)) free := by
  obtain ⟨q, hq, hrest⟩ := bind_ok hok
  obtain ⟨_, hassert, -⟩ := bind_ok hrest
  obtain ⟨_, hc, hq⟩ := bind_ok hq
  obtain rfl : T.hashPrev r = q := Except.ok.inj hq
  obtain ⟨a, k, rfl, ha⟩ := h.on_chain hr (check_ok hc) (by simpa using assert_ok hassert)
  refine ⟨a, k, rfl, ha, ?_⟩
  obtain ⟨hn, hp, heq, hrep⟩ := delfromHash_rep h.hashed ha
  obtain rfl := Except.ok.inj (heq.symm.trans hok)
  have hpv := congrArg CoreTimer.hashPrev (Except.ok.inj (heq.symm.trans (delfromHash_eq h.hashed ha)))
  simp only at hpv
  obtain ⟨-, hnext, -⟩ := h.hashed.neighbours ha
  refine ⟨rfl, hrep, fun k' b hb => ?_, fun p hA hp' => ?_, h.next_plain, h.prev_plain, h.path,
    h.free_out, h.free_mapped, h.free_nodup, h.used_mapped, h.used_nodup⟩
  · refine h.chained k' b ?_
    rcases eq_or_ne k' k with rfl | hne
    · rw [Function.update_self] at hb
      exact List.mem_of_mem_erase hb
    · rwa [Function.update_of_ne hne] at hb
  · show hp p = .null
    rw [hpv]
    rcases eq_or_ne p (.node a) with rfl | hpa
    · rw [Function.update_self]
    · have hout : ∀ k', p ∉ Ptr.hash k' :: nodes (chain k') := by
        intro k' hm
        refine hp' k' ?_
        rcases List.mem_cons.mp hm with rfl | hm
        · exact List.mem_cons_self
        · obtain ⟨b, hb, rfl⟩ := List.mem_map.mp hm
          refine List.mem_cons_of_mem _ (mem_nodes.mpr ?_)
          rcases eq_or_ne k' k with rfl | hne
          · rw [Function.update_self]
            have hba : b ≠ a := fun e => hpa (congrArg Ptr.node e)
            exact (List.mem_erase_of_ne hba).mpr hb
          · rwa [Function.update_of_ne hne]
      rw [Function.update_of_ne hpa, update_not_mem hnext (hout k)]
      exact h.bare p hA hout

theorem addtoHash (h : Core T chain free) (hau : a ∈ T.used) (hnot : ∀ k, a ∉ chain k)
    (hok : T.addtoHash (.node a) = .ok T') :
    T'.used = T.used ∧ Core T' (Function.update chain (HASH (T.id (.node a)))
      (a :: chain (HASH (T.id (.node a))))) free := by
  obtain ⟨q, hq, hrest⟩ := bind_ok hok
  obtain ⟨_, hassert, hrest⟩ := bind_ok hrest
  obtain ⟨q', hq', hrest⟩ := bind_ok hrest
  obtain ⟨_, hassert', -⟩ := bind_ok hrest
  obtain ⟨_, -, hq⟩ := bind_ok hq
  obtain rfl : T.hashPrev (.node a) = q := Except.ok.inj hq
  obtain ⟨_, -, hq'⟩ := bind_ok hq'
  obtain rfl : T.hashNext (.node a) = q' := Except.ok.inj hq'
  have hpa : T.hashPrev (.node a) = .null := by simpa using assert_ok hassert
  have hna : T.hashNext (.node a) = .null := by simpa using assert_ok hassert'
  obtain ⟨hn, hp, heq, hrep⟩ := addtoHash_rep h.hashed hau hnot hpa hna
  obtain rfl := Except.ok.inj (heq.symm.trans hok)
  have hpv := congrArg CoreTimer.hashPrev
    (Except.ok.inj (heq.symm.trans (addtoHash_eq h.hashed hau hpa hna)))
  simp only at hpv
  have hnext := h.hashed.head_next (HASH_lt (T.id (.node a)))
  generalize HASH (T.id (.node a)) = k at *
  refine ⟨rfl, hrep, fun k' b hb => ?_, fun p hA hp' => ?_, h.next_plain, h.prev_plain, h.path,
    h.free_out, h.free_mapped, h.free_nodup, h.used_mapped, h.used_nodup⟩
  · rcases eq_or_ne k' k with rfl | hne
    · rw [Function.update_self] at hb
      rcases List.mem_cons.mp hb with rfl | hb
      · exact hau
      · exact h.chained k' b hb
    · rw [Function.update_of_ne hne] at hb
      exact h.chained k' b hb
  · have hout : ∀ k', p ∉ Ptr.hash k' :: nodes (chain k') := by
      intro k' hm
      refine hp' k' ?_
      rcases List.mem_cons.mp hm with rfl | hm
      · exact List.mem_cons_self
      · refine List.mem_cons_of_mem _ ?_
        rcases eq_or_ne k' k with rfl | hne
        · rw [Function.update_self]
          exact List.mem_cons_of_mem _ hm
        · rwa [Function.update_of_ne hne]
    have hpa' : p ≠ .node a := by
      rintro rfl
      refine hp' k (List.mem_cons_of_mem _ ?_)
      rw [Function.update_self]
      exact List.mem_cons_self
    show hp p = .null
    rw [hpv, Function.update_of_ne hpa', update_not_mem hnext (hout k)]
    exact h.bare p hA hout

/-- `timernode_alloc` and the stores of `coretimer_add`: a node that was not in use. -/
theorem alloc (h : Core T chain free) (req : AddReq) {addr : Nat} (haddr : addr ∉ T.mapped) :
    ∃ a free', (T.timernodeAlloc addr).2 = .node a ∧ a ∉ T.used ∧
      ((T.timernodeAlloc addr).1.fill (.node a) req).used = a :: T.used ∧
      Core ((T.timernodeAlloc addr).1.fill (.node a) req) chain free' := by
  obtain ⟨a, free', hnode, hnot, hused, hpath, hout, hmapped, hnodup, humap, hrest⟩ :
      ∃ a free', (T.timernodeAlloc addr).2 = .node a ∧ a ∉ T.used ∧
        (T.timernodeAlloc addr).1.used = a :: T.used ∧
        Path T.listNext (T.timernodeAlloc addr).1.freenode (nodes free') .null ∧
        (∀ b ∈ free', b ∉ a :: T.used) ∧ (∀ b ∈ free', b ∈ (T.timernodeAlloc addr).1.mapped) ∧
        free'.Nodup ∧ (∀ b ∈ a :: T.used, b ∈ (T.timernodeAlloc addr).1.mapped) ∧
        (T.timernodeAlloc addr).1 = { T with
          freenode := (T.timernodeAlloc addr).1.freenode, freeCnt := (T.timernodeAlloc addr).1.freeCnt
          useCnt := (T.timernodeAlloc addr).1.useCnt, used := (T.timernodeAlloc addr).1.used
          mapped := (T.timernodeAlloc addr).1.mapped } := by
    have hpath := h.path
    cases free with
    | nil =>
      have hfr : T.freenode = .null := hpath
      have hnot : addr ∉ T.used := fun hm => haddr (h.used_mapped addr hm)
      simp only [CoreTimer.timernodeAlloc, hfr]
      refine ⟨addr, [], rfl, hnot, rfl, rfl, by simp, by simp, List.nodup_nil, fun b hb => ?_, trivial⟩
      rcases List.mem_cons.mp hb with rfl | hb
      · exact List.mem_cons_self
      · exact List.mem_cons_of_mem _ (h.used_mapped b hb)
    | cons a l =>
      obtain ⟨hfr, hpath⟩ := hpath
      obtain ⟨hal, hl⟩ := List.nodup_cons.mp h.free_nodup
      simp only [CoreTimer.timernodeAlloc, hfr]
      refine ⟨a, l, rfl, h.free_out a List.mem_cons_self, rfl, hpath, fun b hb hm => ?_,
        fun b hb => h.free_mapped b (List.mem_cons_of_mem _ hb), hl, fun b hb => ?_, trivial⟩
      · rcases List.mem_cons.mp hm with rfl | hm
        · exact hal hb
        · exact h.free_out b (List.mem_cons_of_mem _ hb) hm
      · rcases List.mem_cons.mp hb with rfl | hb
        · exact h.free_mapped b List.mem_cons_self
        · exact h.used_mapped b hb
  refine ⟨a, free', hnode, hnot, hused, ?_⟩
  have hfresh : ∀ k, a ∉ chain k := fun k hm => hnot (h.chained k a hm)
  generalize (T.timernodeAlloc addr).1 = T₁ at *
  obtain ⟨hlp, hln, hhp, hhn, hid⟩ : T₁.listPrev = T.listPrev ∧ T₁.listNext = T.listNext ∧
      T₁.hashPrev = T.hashPrev ∧ T₁.hashNext = T.hashNext ∧ T₁.id = T.id := by
    rw [hrest]
    exact ⟨rfl, rfl, rfl, rfl, rfl⟩
  refine ⟨?_, fun k b hb => ?_, fun p hA hp => ?_, fun p => ?_, fun p => ?_, ?_, ?_, hmapped, hnodup,
    ?_, ?_⟩
  · simp only [CoreTimer.fill, hhp, hhn, hid]
    exact h.rep.update_out hfresh _ _ _
  · simp only [CoreTimer.fill, hused]
    exact List.mem_cons_of_mem _ (h.chained k b hb)
  · simp only [CoreTimer.fill, hhp]
    rcases eq_or_ne p (.node a) with rfl | hne
    · rw [Function.update_self]
    · rw [Function.update_of_ne hne]
      refine h.bare p ?_ hp
      cases p with
      | node b =>
        simp only [CoreTimer.fill, hused] at hA
        rcases List.mem_cons.mp hA with rfl | hb
        · exact absurd rfl hne
        · exact hb
      | _ => exact hA
  · simp only [CoreTimer.fill, hln]
    rcases eq_or_ne p (.node a) with rfl | hne
    · rw [Function.update_self]
      exact plain_null
    · rw [Function.update_of_ne hne]
      exact h.next_plain p
  · simp only [CoreTimer.fill, hlp]
    rcases eq_or_ne p (.node a) with rfl | hne
    · rw [Function.update_self]
      exact plain_null
    · rw [Function.update_of_ne hne]
      exact h.prev_plain p
  · simp only [CoreTimer.fill, hln]
    refine hpath.congr fun z hz => ?_
    obtain ⟨b, hb, rfl⟩ := List.mem_map.mp hz
    refine Function.update_of_ne (fun e => hout b hb ?_) _ _
    rw [Ptr.node.inj e]
    exact List.mem_cons_self
  · simpa only [CoreTimer.fill, hused] using hout
  · simpa only [CoreTimer.fill, hused] using humap
  · simpa only [CoreTimer.fill, hused] using List.nodup_cons.mpr ⟨hnot, h.used_nodup⟩

/-- `coretimer_add` puts a new node on a chain. -/
theorem add (h : Core T chain free) (req : AddReq) {addr : Nat} (haddr : addr ∉ T.mapped)
    (hok : T.coretimerAdd req addr = .ok T') :
    ∃ a chain' free', Core T' chain' free' ∧ a ∉ T.used ∧ T'.used = a :: T.used ∧
      ∀ b, b ≠ a → ∀ k, b ∈ chain' k → b ∈ chain k := by
  obtain ⟨a, free', hnode, hnot, hused, hcore⟩ := h.alloc req haddr
  simp only [CoreTimer.coretimerAdd, hnode] at hok
  obtain ⟨T₁, h₁, hok⟩ := bind_ok hok
  obtain ⟨hcore₁, hused₁⟩ := hcore.addtoList (plain_node a) h₁
  have hau : a ∈ T₁.used := by
    rw [hused₁, hused]
    exact List.mem_cons_self
  obtain ⟨hused₂, hcore₂⟩ := hcore₁.addtoHash hau (fun k hm => hnot (h.chained k a hm)) hok
  refine ⟨a, _, free', hcore₂, hnot, by rw [hused₂, hused₁, hused], fun b hba k hb => ?_⟩
  rcases eq_or_ne k (HASH (T₁.id (.node a))) with rfl | hne
  · rw [Function.update_self] at hb
    exact (List.mem_cons.mp hb).resolve_left hba
  · rwa [Function.update_of_ne hne] at hb

/-- `coretimer_del` takes at most one node off its chain, and this one is given back. -/
theorem del (h : Core T chain free) {id : Nat} (hok : T.coretimerDel id = .ok T') :
    ∃ chain' free', Core T' chain' free' ∧
      (∀ b k, b ∈ chain k → b ∈ chain' k ∨ b ∉ T'.used) ∧
      (∀ b k, b ∈ chain' k → b ∈ chain k) ∧
      (∀ b, (∀ k, b ∉ chain k) → b ∈ T.used → b ∈ T'.used) := by
  simp only [CoreTimer.coretimerDel, lookup_eq h.hashed, ok_bind] at hok
  cases hfind : (chain (HASH id)).find? fun a => decide (T.id (.node a) = id) with
  | none =>
    rw [hfind] at hok
    cases hok
    exact ⟨chain, free, h, fun _ _ hb => .inl hb, fun _ _ hb => hb, fun _ _ hb => hb⟩
  | some a =>
    rw [hfind] at hok
    have ha := List.mem_of_find?_eq_some hfind
    obtain ⟨T₁, h₁, hok⟩ := bind_ok hok
    obtain ⟨T₂, h₂, hok⟩ := bind_ok hok
    obtain ⟨T₃, h₃, hok⟩ := bind_ok hok
    cases hok
    obtain ⟨hcore₁, hused₁⟩ := h.delfromList h₁
    obtain ⟨a', k, ha', hak, hused₂, hcore₂⟩ := hcore₁.delfromHash (plain_node a) h₂
    obtain rfl := Ptr.node.inj ha'
    have hoff : ∀ k', a ∉ Function.update chain k ((chain k).erase a) k' := by
      intro k' hm
      rcases eq_or_ne k' k with rfl | hne
      · rw [Function.update_self] at hm
        exact (((h.rep.nodup k').mem_erase_iff).mp hm).1 rfl
      · rw [Function.update_of_ne hne] at hm
        exact hne ((h.rep.keyed k' a hm).symm.trans (h.rep.keyed k a hak))
    obtain ⟨⟨free', hcore₃⟩, hused₃⟩ := hcore₂.dealloc hoff h₃
    rw [hused₂, hused₁] at hused₃
    refine ⟨_, free', hcore₃.stamp T₃.time T₃.handed _, fun b k' hb => ?_, fun b k' hb => ?_,
      fun b hb hbu => ?_⟩
    · rcases eq_or_ne b a with rfl | hba
      · right
        simp only [hused₃]
        exact fun hm => ((h.used_nodup.mem_erase_iff).mp hm).1 rfl
      · left
        rcases eq_or_ne k' k with rfl | hne
        · rw [Function.update_self]
          exact (List.mem_erase_of_ne hba).mpr hb
        · rwa [Function.update_of_ne hne]
    · rcases eq_or_ne k' k with rfl | hne
      · rw [Function.update_self] at hb
        exact List.mem_of_mem_erase hb
      · rwa [Function.update_of_ne hne] at hb
    · simp only [hused₃]
      have hba : b ≠ a := by
        rintro rfl
        exact hb k hak
      exact (List.mem_erase_of_ne hba).mpr hbu

end Core

/-! ## Runs -/

/-- The node whose callback runs is on no chain, and the cached next node is not a hash head. -/
def CtlOk (T : CoreTimer) (chain : Nat → List Nat) : Control → Prop
  | .idle => True
  | .inCall _ r n => (∃ a, r = .node a ∧ a ∈ T.used ∧ ∀ k, a ∉ chain k) ∧ n.Plain

structure Config.Sound (c : Config) : Prop where
  core : ∃ chain free, Core c.timer chain free ∧ CtlOk c.timer chain c.ctl

/-- A callback begins. -/
theorem launch_sound (h : Core T chain free) (hr : r.Plain) (phase : Phase) {n : Ptr}
    (hn : T.getListNext r = .ok n) (hT : T.delfromHash r = .ok T') (log : List HeapEvent) :
    Config.Sound ⟨{ T' with log := log }, .inCall phase r n⟩ := by
  obtain ⟨a, k, rfl, ha, hused, hcore⟩ := h.delfromHash hr hT
  refine ⟨⟨_, free, hcore.stamp T'.time T'.handed log, ⟨a, rfl, ?_, fun k' hm => ?_⟩, ?_⟩⟩
  · show a ∈ T'.used
    rw [hused]
    exact h.chained k a ha
  · rcases eq_or_ne k' k with rfl | hne
    · rw [Function.update_self] at hm
      exact (((h.rep.nodup k').mem_erase_iff).mp hm).1 rfl
    · rw [Function.update_of_ne hne] at hm
      exact hne ((h.rep.keyed k' a hm).symm.trans (h.rep.keyed k a ha))
  · exact (getListNext_ok hn).2 ▸ h.next_plain _

theorem executeSecond_sound (h : Core T chain free) (hr : r.Plain) {c : Config}
    (hok : Config.executeSecond T r = .ok c) : c.Sound := by
  rw [Config.executeSecond] at hok
  split at hok
  · cases hok
    exact ⟨chain, free, h, trivial⟩
  · obtain ⟨n, hn, hok⟩ := bind_ok hok
    obtain ⟨T', hT, hok⟩ := bind_ok hok
    cases hok
    exact launch_sound h hr _ hn hT _

theorem executeFirst_sound (h : Core T chain free) (hr : r.Plain) {c : Config}
    (hok : Config.executeFirst T r = .ok c) : c.Sound := by
  rw [Config.executeFirst] at hok
  split at hok
  · obtain ⟨T₁, h₁, hok⟩ := bind_ok hok
    obtain ⟨⟨T₂, p⟩, h₂, hok⟩ := bind_ok hok
    obtain ⟨hcore₁, -⟩ := h.timerShift h₁
    obtain ⟨⟨hcore₂, -⟩, hp⟩ := hcore₁.listClear (plain_slot _) h₂
    exact executeSecond_sound hcore₂ hp hok
  · obtain ⟨n, hn, hok⟩ := bind_ok hok
    obtain ⟨T', hT, hok⟩ := bind_ok hok
    cases hok
    exact launch_sound h hr _ hn hT _

/-- **One step** keeps the chains. -/
theorem step_sound {c c' : Config} (h : c.Sound) (l : Config.Label) (hok : c.step l = .ok c') :
    c'.Sound := by
  obtain ⟨chain, free, hcore, hctl⟩ := h.core
  cases l with
  | add req addr =>
    simp only [Config.step] at hok
    split at hok
    · cases hok
      exact h
    · rename_i haddr
      obtain ⟨T', hT, hok⟩ := bind_ok hok
      cases hok
      obtain ⟨a, chain', free', hcore', hnot, hused, hback⟩ := hcore.add req haddr hT
      refine ⟨chain', free', hcore', ?_⟩
      cases hc : c.ctl with
      | idle => trivial
      | inCall phase r n =>
        rw [hc] at hctl
        obtain ⟨⟨b, rfl, hbu, hb⟩, hn⟩ := hctl
        refine ⟨⟨b, rfl, ?_, fun k hm => hb k (hback b ?_ k hm)⟩, hn⟩
        · show b ∈ T'.used
          rw [hused]
          exact List.mem_cons_of_mem _ hbu
        · rintro rfl
          exact hnot hbu
  | del id =>
    obtain ⟨T', hT, hok⟩ := bind_ok hok
    cases hok
    obtain ⟨chain', free', hcore', -, hback, hkeep⟩ := hcore.del hT
    refine ⟨chain', free', hcore', ?_⟩
    cases hc : c.ctl with
    | idle => trivial
    | inCall phase r n =>
      rw [hc] at hctl
      obtain ⟨⟨b, rfl, hbu, hb⟩, hn⟩ := hctl
      exact ⟨⟨b, rfl, hkeep b hb hbu, fun k hm => hb k (hback b k hm)⟩, hn⟩
  | tick =>
    simp only [Config.step] at hok
    split at hok
    · obtain ⟨⟨T₁, p⟩, h₁, hok⟩ := bind_ok hok
      obtain ⟨⟨hcore₁, -⟩, hp⟩ := hcore.listClear (plain_slot _) h₁
      exact executeFirst_sound hcore₁ hp hok
    · cases hok
      exact h
  | ret =>
    simp only [Config.step] at hok
    split at hok
    · cases hok
      exact h
    · rename_i phase r n hc
      rw [hc] at hctl
      obtain ⟨⟨b, rfl, -, hb⟩, hn⟩ := hctl
      obtain ⟨T₁, h₁, hok⟩ := bind_ok hok
      obtain ⟨⟨free', hcore₁⟩, -⟩ := hcore.dealloc hb h₁
      cases phase with
      | first => exact executeFirst_sound hcore₁ hn hok
      | second => exact executeSecond_sound hcore₁ hn hok

theorem new_sound : Config.new.Sound := by
  refine ⟨fun _ => [], [], ⟨⟨fun k hk => ?_, by simp, by simp⟩, by simp, fun p _ hp => ?_, fun p k => ?_,
    fun p k => ?_, rfl, by simp, by simp, List.nodup_nil, ?_, List.nodup_nil⟩, trivial⟩
  · simp [Config.new, CoreTimer.new, Seg, hashInit, hk]
  · cases p with
    | hash k => exact absurd List.mem_cons_self (hp k)
    | _ => rfl
  · cases p with
    | slot s =>
      show listInit (.slot s) ≠ _
      rw [listInit]
      split <;> intro h <;> cases h
    | _ =>
      intro h
      cases h
  · cases p with
    | slot s =>
      show listInit (.slot s) ≠ _
      rw [listInit]
      split <;> intro h <;> cases h
    | _ =>
      intro h
      cases h
  · intro a ha
    cases ha

/-- **A run** keeps the chains, whatever it does. -/
theorem run_core (ls : List Config.Label) {c : Config} (hok : Config.run ls = .ok c) : c.Sound := by
  suffices hgen : ∀ (ls : List Config.Label) {c₀ : Config}, c₀.Sound →
      ls.foldlM Config.step c₀ = .ok c → c.Sound from hgen ls new_sound hok
  intro ls
  induction ls with
  | nil =>
    intro c₀ h hok
    cases hok
    exact h
  | cons l ls ih =>
    intro c₀ h hok
    rw [run_cons] at hok
    obtain ⟨c₁, h₁, hok⟩ := bind_ok hok
    exact ih (step_sound h l h₁) hok

/-! ## The loop never ends -/

/-- A walk that is on the ring of the first head, or has lost its node, does not come to `NULL`. -/
theorem deleteLoop_error (rounds : Nat) (h : Core T chain free) {node : Ptr}
    (hnode : node = .hash 0 ∨ ∃ a, node = .node a ∧ (a ∈ chain 0 ∨ a ∉ T.used)) :
    ∃ e, CoreTimer.deleteLoop rounds T node = .error e := by
  induction rounds generalizing T chain free node with
  | zero => exact ⟨_, rfl⟩
  | succ rounds ih =>
    by_contra hnot
    have hne : node ≠ .null := by
      rcases hnode with rfl | ⟨a, rfl, -⟩ <;> intro h <;> cases h
    cases hres : CoreTimer.deleteLoop (rounds + 1) T node with
    | error e => exact hnot ⟨e, hres⟩
    | ok T₂ =>
      rw [CoreTimer.deleteLoop, if_neg hne] at hres
      obtain ⟨next, hnext, hres⟩ := bind_ok hres
      obtain ⟨T₁, h₁, hres⟩ := bind_ok hres
      obtain ⟨_, hc, hnext⟩ := bind_ok hnext
      obtain rfl : T.hashNext node = next := Except.ok.inj hnext
      -- the next node was on the ring
      have hring : T.hashNext node ∈ Ptr.hash 0 :: nodes (chain 0) := by
        rcases hnode with rfl | ⟨a, rfl, ha | ha⟩
        · exact h.hashed.head_next (by decide)
        · exact (h.hashed.neighbours ha).2.1
        · exact absurd (check_ok hc) ha
      obtain ⟨chain', free', hcore, hstill, -⟩ := h.del h₁
      have hstays : T.hashNext node = .hash 0 ∨
          ∃ a, T.hashNext node = .node a ∧ (a ∈ chain' 0 ∨ a ∉ T₁.used) := by
        rcases List.mem_cons.mp hring with heq | hm
        · exact .inl heq
        · obtain ⟨b, hb, heq⟩ := List.mem_map.mp hm
          exact .inr ⟨b, heq.symm, hstill b 0 hb⟩
      obtain ⟨e, he⟩ := ih hcore hstays
      rw [he] at hres
      cases hres

theorem coretimerDelete_error (h : Core T chain free) (rounds : Nat) :
    ∃ e, T.coretimerDelete rounds = .error e := by
  have hrange : List.range TIMER_HASH_SIZE = 0 :: (List.range 1023).map Nat.succ :=
    List.range_succ_eq_map
  have hhead : T.getHashNext (.hash 0) = .ok (T.hashNext (.hash 0)) := rfl
  have hring : T.hashNext (.hash 0) = .hash 0 ∨
      ∃ a, T.hashNext (.hash 0) = .node a ∧ (a ∈ chain 0 ∨ a ∉ T.used) := by
    rcases List.mem_cons.mp (h.hashed.head_next (k := 0) (by decide)) with heq | hm
    · exact .inl heq
    · obtain ⟨b, hb, heq⟩ := List.mem_map.mp hm
      exact .inr ⟨b, heq.symm, .inl hb⟩
  obtain ⟨e, he⟩ := deleteLoop_error rounds h hring
  refine ⟨e, ?_⟩
  rw [CoreTimer.coretimerDelete, hrange, List.foldlM_cons]
  simp only [hhead, ok_bind, he, error_bind]

theorem Config.Sound.not_deletes {c : Config} (h : c.Sound) : ¬ c.timer.Deletes := by
  rintro ⟨rounds, T', hok, -⟩
  obtain ⟨chain, free, hcore, -⟩ := h.core
  obtain ⟨e, he⟩ := coretimerDelete_error hcore rounds
  rw [he] at hok
  cases hok

/-- **`coretimer_delete` never returns**, from no state that a run reaches: it walks round the first
hash chain for good, or touches a node it has released. -/
theorem delete_never (ls : List Config.Label) {c : Config} (h : Config.run ls = .ok c) :
    ¬ c.timer.Deletes := (run_core ls h).not_deletes

/-- Two of three timers are pending and one node is on the free list. -/
theorem delete_never_pending :
    ∃ c, Config.run (threeTimers ++ [.del 2]) = .ok c ∧ c.timer.used = [3, 1] ∧
      ¬ c.timer.Deletes := by
  have hused : (Config.run (threeTimers ++ [.del 2])).toOption.map (fun c => c.timer.used) =
      some [3, 1] := by decide +kernel
  cases hrun : Config.run (threeTimers ++ [.del 2]) with
  | error e =>
    rw [hrun] at hused
    cases hused
  | ok c =>
    rw [hrun] at hused
    exact ⟨c, rfl, Option.some.inj hused, delete_never _ hrun⟩

/-- Even a timer that was never used cannot be deleted. -/
theorem new_not_deletes : ¬ CoreTimer.new.Deletes := new_sound.not_deletes

end Core

end HoNet.Timer
