import HoNet.Timer.HeapSafe

/-!
# The representation invariant of the pointer level

Below `2 ^ 26`, with fewer than `2 ^ 32` additions and with `coretimer_del` called between ticks only,
no run stops with a fault, and between two operations the links, the ids and the counters of the timer
are as they should be.

* `moveLoop_placed`, `timerShift_placed` — a cascade files every node where `addto_list` would file it
  at the new time.
* `Kept.launch`, `Kept.dealloc`, `Kept.del`, `Kept.add` — the operations on the invariant.
* `representation` — whole runs.
-/

namespace HoNet.Timer

open HoNet.Linked

/-! ## The invariant -/

/-- Everything on a ring expires later, and is on the ring that `addto_list` selects at `time`. -/
def Placed (time : Nat) (expire : Ptr → Nat) (σ : Shape) : Prop :=
  ∀ a s, σ.loc a = .slot s → time < expire (.node a) ∧ place (expire (.node a)) time = s

/-- The linked nodes have ids of their own, among those given out so far. -/
structure Named (T : CoreTimer) (σ : Shape) : Prop where
  index_eq : T.index = T.added
  id_le : ∀ a, (σ.loc a).Linked → T.id (.node a) ≤ T.index
  id_inj : ∀ a b, (σ.loc a).Linked → (σ.loc b).Linked → T.id (.node a) = T.id (.node b) → a = b

/-- The counters of the nodes. -/
structure Counted (T : CoreTimer) (σ : Shape) : Prop where
  use_eq : T.useCnt = T.used.length
  free_eq : T.freeCnt = σ.free.length
  total : T.used.length + σ.free.length ≤ T.added

/-- The timer of an addition that has neither run nor been deleted is in use; `r` is the node whose
callback runs. -/
def Traced (T : CoreTimer) (r : Option Nat) : Prop :=
  ∀ k < T.added, .run k ∈ T.log ∨ .del k ∈ T.log ∨ ∃ a ∈ T.used, r ≠ some a ∧ T.seq (.node a) = k

/-- `r` is the node whose callback runs, `n` the node cached as next. -/
structure Kept (T : CoreTimer) (r : Option Nat) (n : Ptr) (σ : Shape) (chain : Nat → List Nat) :
    Prop where
  rep : Rep T σ chain n
  cur : ∀ a, σ.loc a = .cur ↔ r = some a
  low : Low T
  placed : Placed T.time T.expire σ
  named : Named T σ
  counted : Counted T σ
  traced : Traced T r

/-! ## Filing -/

section Filing

variable {T T' : CoreTimer} {σ σ' : Shape} {n : Ptr} {a : Nat}

/-- `addto_list` on a node that is not overdue. -/
theorem addtoList_place (h : T.Lists σ n) (ha : σ.loc a = .cur)
    (hpa : T.listPrev (.node a) = .null) (hna : T.listNext (.node a) = .null)
    (hle : T.time ≤ T.expire (.node a)) (hlow : T.expire (.node a) < 2 ^ 26) :
    ∃ T', T.addtoList (.node a) = .ok T' ∧ Relinked T T' ∧
      T'.Lists (σ.put (place (T.expire (.node a)) T.time) a) n := by
  have hA : Alive T.used (.node a) := mem_used_cur h ha
  have hopen : T.addtoList (.node a) =
      (T.hand (.slot (place (T.expire (.node a)) T.time))).listAdd
        (.slot (place (T.expire (.node a)) T.time)) (.node a) := by
    simp [CoreTimer.addtoList, check_alive hA, Nat.not_lt.mpr hle]
  have hi : (place (T.expire (.node a)) T.time).initialised = true := by
    refine place_initialised ?_
    rw [Nat.div_eq_of_lt hlow, Nat.div_eq_of_lt (by omega)]
  have hh : (T.hand (.slot (place (T.expire (.node a)) T.time))).Lists σ n := h
  obtain ⟨nx, pv, heq, hrep⟩ := listAdd_rep hh hi ha hpa hna
  exact ⟨_, hopen.trans heq, rfl, hrep⟩

/-- The shape after the detached nodes were filed. -/
def Refiled (T : CoreTimer) (σ σ' : Shape) : Prop :=
  σ'.free = σ.free ∧ ∀ b, σ'.loc b =
    if σ.loc b = .det then .slot (place (T.expire (.node b)) T.time) else σ.loc b

theorem Refiled.sameKind (h : Refiled T σ σ') : SameKind σ σ' := by
  intro b
  rw [h.2 b]
  split
  · next hb => simp [hb, Loc.Linked]
  · exact ⟨Iff.rfl, Iff.rfl⟩

/-- **The loop of `list_move`** on nodes that are not overdue. -/
theorem moveLoop_placed : ∀ (rounds : Nat) {T : CoreTimer} {σ : Shape} {n : Ptr},
    T.Lists σ n → σ.det.length < rounds →
    (∀ a ∈ σ.det, T.time ≤ T.expire (.node a) ∧ T.expire (.node a) < 2 ^ 26) →
    ∃ T' σ', CoreTimer.moveLoop rounds T n = .ok T' ∧ Relinked T T' ∧ T'.Lists σ' .null ∧
      Refiled T σ σ' := by
  intro rounds
  induction rounds with
  | zero => intro T σ n _ hlen; cases hlen
  | succ rounds ih =>
    intro T σ n h hlen hdue
    have hD := h.detached
    cases hdet : σ.det with
    | nil =>
      rw [hdet] at hD
      obtain rfl : n = .null := hD
      refine ⟨T, σ, by simp [CoreTimer.moveLoop], rfl, h, rfl, fun b => ?_⟩
      rw [if_neg]
      rw [← h.wf.det_mem, hdet]
      exact List.not_mem_nil
    | cons a l =>
      rw [hdet] at hD
      obtain ⟨rfl, -⟩ := hD
      have had : a ∈ σ.det := by simp [hdet]
      have hloc := (h.wf.det_mem a).mp had
      have hA := alive_det h had
      have hcur : (σ.takeDet a).loc a = .cur := by simp [Shape.takeDet]
      have hpop := (h.pop).update_cur hcur .null .null
      -- the node with its links cleared
      generalize hT₁ : ({ T with
        listNext := Function.update T.listNext (.node a) .null
        listPrev := Function.update T.listPrev (.node a) .null } : CoreTimer) = T₁
      have h₁ : T₁.Lists (σ.takeDet a) (T.listNext (.node a)) := by rw [← hT₁]; exact hpop
      have hopen : CoreTimer.moveLoop (rounds + 1) T (.node a) =
          (T₁.addtoList (.node a) >>= fun T₂ =>
            CoreTimer.moveLoop rounds T₂ (T.listNext (.node a))) := by
        rw [← hT₁]
        simp [CoreTimer.moveLoop, getListNext_alive, setListPrev_alive, setListNext_alive, hA]
      have hrel₁ : Relinked T T₁ := by rw [← hT₁]; rfl
      have htime : T₁.time = T.time := by rw [hrel₁]
      have hexp : T₁.expire = T.expire := by rw [hrel₁]
      obtain ⟨T₂, heq, hrel, h₂⟩ := addtoList_place h₁ hcur (by simp [← hT₁]) (by simp [← hT₁])
        (by rw [htime, hexp]; exact (hdue a had).1) (by rw [hexp]; exact (hdue a had).2)
      have hrel₂ := hrel₁.trans hrel
      have htime₂ : T₂.time = T.time := by rw [hrel₂]
      have hexp₂ : T₂.expire = T.expire := by rw [hrel₂]
      rw [htime, hexp] at h₂
      generalize hs : place (T.expire (.node a)) T.time = s at h₂
      have hdet₂ : ((σ.takeDet a).put s a).det = l := by simp [Shape.put, Shape.takeDet, hdet]
      obtain ⟨T', σ', hok, hrel', hrep, hfree, hfiled⟩ := ih h₂
        (by rw [hdet₂]; simpa [hdet] using hlen)
        (by
          rw [hdet₂, htime₂, hexp₂]
          exact fun b hb => hdue b (by rw [hdet]; exact List.mem_cons_of_mem _ hb))
      refine ⟨T', σ', by rw [hopen, heq, ok_bind, hok], hrel₂.trans hrel', hrep, hfree, fun b => ?_⟩
      rw [hfiled b, htime₂, hexp₂]
      by_cases hb : b = a
      · subst hb
        simp [Shape.put, hloc, hs]
      · simp [Shape.put, Shape.takeDet, Function.update_of_ne hb]

/-- **`timer_shift`** leaves every node on the ring of the new time. -/
theorem timerShift_placed (h : T.Lists σ .null) (hlow : Low T) (hlt : T.time + 1 < 2 ^ 26)
    (hp : Placed T.time T.expire σ) :
    ∃ T' σ', T.timerShift = .ok T' ∧ Relinked { T with time := T.time + 1 } T' ∧
      T'.Lists σ' .null ∧ SameKind σ σ' ∧ σ'.free = σ.free ∧
      ∀ a s, σ'.loc a = .slot s →
        T.time + 1 ≤ T.expire (.node a) ∧ place (T.expire (.node a)) (T.time + 1) = s := by
  have hct : (T.time + 1) % 2 ^ 32 = T.time + 1 := Nat.mod_eq_of_lt (by omega)
  have hturn : shiftMove (T.time + 1) ≠ .turning := shiftMove_ne_turning (by omega)
  have hbelow : ∀ a s, σ.loc a = .slot s → T.expire (.node a) < 2 ^ 26 := fun a s ha =>
    hlow.2 a ((h.wf.used_mem a).mpr (by simp [ha]))
  generalize hT₁ : ({ T with time := T.time + 1 } : CoreTimer) = T₁
  have h₁ : T₁.Lists σ .null := by rw [← hT₁]; exact h
  cases hm : shiftMove (T.time + 1) with
  | turning => exact absurd hm hturn
  | noMove =>
    refine ⟨T₁, σ, by simp only [CoreTimer.timerShift, hct, hm, hT₁], rfl, h₁,
      fun _ => ⟨Iff.rfl, Iff.rfl⟩, rfl, fun a s ha => ?_⟩
    obtain ⟨hlt, hs⟩ := hp a s ha
    refine ⟨hlt, ?_⟩
    rw [place_succ_of_ne hlt (fun l idx e => by rw [hm] at e; cases e) hturn, hs]
  | move l idx =>
    have hi := shiftMove_initialised (Nat.succ_ne_zero _) hlt hm
    have hh : (T₁.hand (.slot (.level l idx))).Lists σ .null := h₁
    obtain ⟨nx, pv, p, heq, hrep⟩ := listClear_rep hh hi
    generalize hT₂ : ({ T₁.hand (.slot (.level l idx)) with
      listNext := nx, listPrev := pv } : CoreTimer) = T₂ at heq
    have h₂ : T₂.Lists (σ.detach (.level l idx)) p := by rw [← hT₂]; exact hrep
    have hrel : Relinked T₁ T₂ := by rw [← hT₂]; rfl
    have htime : T₂.time = T.time + 1 := by rw [hrel, ← hT₁]
    have hexp : T₂.expire = T.expire := by rw [hrel, ← hT₁]
    have hloop : T.timerShift = CoreTimer.moveLoop (T₂.used.length + 1) T₂ p := by
      simp only [CoreTimer.timerShift, hct, hm, hT₁, CoreTimer.listMove, heq, ok_bind]
    have hlen := det_length_le h₂
    -- the nodes of the slot that is moved are due at the new time or later
    obtain ⟨T', σ', hok, hrel', hrep', hfiled⟩ := moveLoop_placed (T₂.used.length + 1) h₂
      (by omega) (by
        rw [htime, hexp]
        intro a ha
        have ha := (h.wf.lst_mem _ a).mp ha
        exact ⟨(hp a _ ha).1, hbelow a _ ha⟩)
    refine ⟨T', σ', hloop.trans hok, hrel.trans hrel', hrep',
      (sameKind_detach _).trans hfiled.sameKind, hfiled.1, fun a s ha => ?_⟩
    rw [hfiled.2 a, htime, hexp] at ha
    by_cases hmoved : σ.loc a = .slot (.level l idx)
    · have hdet : (σ.detach (.level l idx)).loc a = .det := if_pos hmoved
      rw [if_pos hdet] at ha
      exact ⟨(hp a _ hmoved).1, Loc.slot.inj ha⟩
    · have hstay : (σ.detach (.level l idx)).loc a = σ.loc a := if_neg hmoved
      have hnd : σ.loc a ≠ .det := fun e => by
        have := (h.wf.det_mem a).mpr e
        rw [detached_null h] at this
        cases this
      rw [hstay, if_neg hnd] at ha
      obtain ⟨hlt, hs⟩ := hp a s ha
      refine ⟨hlt, ?_⟩
      rw [place_succ_of_ne hlt ?_ hturn, hs]
      intro l' idx' e he
      rw [hm] at e
      obtain ⟨rfl, rfl⟩ := ShiftOutcome.move.inj e
      rw [hs] at he
      exact hmoved (by rw [ha, he])

end Filing

/-! ## The operations -/

section Operations

variable {T T' : CoreTimer} {σ σ' : Shape} {chain : Nat → List Nat} {r : Option Nat} {n n' : Ptr}
  {a : Nat}

theorem Named.of_subset (h : Named T σ) (hidx : T'.index = T.index) (hadd : T'.added = T.added)
    (hid : T'.id = T.id) (hsub : ∀ b, (σ'.loc b).Linked → (σ.loc b).Linked) : Named T' σ' := by
  refine ⟨by rw [hidx, hadd, h.index_eq], fun b hb => ?_, fun b c hb hc he => ?_⟩
  · rw [hid, hidx]
    exact h.id_le b (hsub b hb)
  · rw [hid] at he
    exact h.id_inj b c (hsub b hb) (hsub c hc) he

theorem Traced.congr (h : Traced T r) (hadd : T'.added = T.added) (hlog : T'.log = T.log)
    (hused : T'.used = T.used) (hseq : T'.seq = T.seq) : Traced T' r := by
  unfold Traced
  rw [hadd, hlog, hused, hseq]
  exact h

/-- A node stops being a live timer, and that is written down or has been. -/
theorem Traced.drop {r' : Option Nat} {l : List HeapEvent} (h : Traced T r)
    (hadd : T'.added = T.added) (hseq : T'.seq = T.seq) (hlog : T'.log = T.log ++ l)
    (hkeep : ∀ b ∈ T.used, r ≠ some b → (b ∈ T'.used ∧ r' ≠ some b) ∨
      .run (T.seq (.node b)) ∈ l ∨ .del (T.seq (.node b)) ∈ l) : Traced T' r' := by
  intro k hk
  rw [hadd] at hk
  rw [hlog, hseq, List.mem_append, List.mem_append]
  rcases h k hk with hrun | hdel | ⟨b, hb, hr, rfl⟩
  · exact .inl (.inl hrun)
  · exact .inr (.inl (.inl hdel))
  · rcases hkeep b hb hr with ⟨hb', hr'⟩ | hrun | hdel
    · exact .inr (.inr ⟨b, hb', hr', rfl⟩)
    · exact .inl (.inr hrun)
    · exact .inr (.inl (.inr hdel))

/-- Moving linked nodes between rings. -/
theorem Kept.relink (h : Kept T r n σ chain) {t : Nat} (hrel : Relinked { T with time := t } T')
    (hlists : T'.Lists σ' n') (hs : SameKind σ σ') (hfree : σ'.free = σ.free) (ht : t < 2 ^ 26)
    (hp : Placed t T.expire σ') : Kept T' r n' σ' chain := by
  have hused : T'.used = T.used := by rw [hrel]
  have hexp : T'.expire = T.expire := by rw [hrel]
  have htime : T'.time = t := by rw [hrel]
  refine ⟨⟨hlists, ?_, fun b => (h.rep.linked b).trans (hs b).1.symm⟩,
    fun b => (hs b).2.trans (h.cur b), ⟨?_, fun b hb => ?_⟩, ?_, ?_, ?_, ?_⟩
  · rw [hrel]
    exact h.rep.hashed
  · rw [htime]
    exact ht
  · rw [hexp]
    exact h.low.2 b (hused ▸ hb)
  · rw [htime, hexp]
    exact hp
  · exact h.named.of_subset (by rw [hrel]) (by rw [hrel]) (by rw [hrel]) fun b hb => (hs b).1.mp hb
  · have hc := h.counted
    refine ⟨?_, ?_, ?_⟩
    · rw [hused, hrel]
      exact hc.use_eq
    · rw [hfree, hrel]
      exact hc.free_eq
    · rw [hused, hfree, hrel]
      exact hc.total
  · exact h.traced.congr (by rw [hrel]) (by rw [hrel]) hused (by rw [hrel])

/-- Detaching the ring of the current time leaves what expires later. -/
theorem placed_detach {t : Nat} {expire : Ptr → Nat}
    (hp : ∀ a s, σ.loc a = .slot s → t ≤ expire (.node a) ∧ place (expire (.node a)) t = s) :
    Placed t expire (σ.detach (.near (t &&& TIME_NEAR_MASK))) := by
  intro a s ha
  by_cases hnow : σ.loc a = .slot (.near (t &&& TIME_NEAR_MASK))
  · have hdet : (σ.detach (.near (t &&& TIME_NEAR_MASK))).loc a = .det := if_pos hnow
    rw [hdet] at ha
    cases ha
  · have hstay : (σ.detach (.near (t &&& TIME_NEAR_MASK))).loc a = σ.loc a := if_neg hnow
    rw [hstay] at ha
    obtain ⟨hle, hs⟩ := hp a s ha
    refine ⟨lt_of_le_of_ne hle fun he => hnow ?_, hs⟩
    rw [ha, ← hs, place_eq_near_self.mpr he.symm]

/-- The first detached node starts to run. -/
theorem Kept.launch (h : Kept T none (.node a) σ chain) (phase : Phase) :
    ∃ T' chain', ((do
        let n ← T.getListNext (.node a)
        let T ← T.delfromHash (.node a)
        return ⟨{ T with log := T.log ++ [.run (T.seq (.node a))] }, .inCall phase (.node a) n⟩)
          : Res Config) = .ok ⟨T', .inCall phase (.node a) (T.listNext (.node a))⟩ ∧
      Kept T' (some a) (T.listNext (.node a)) (σ.takeDet a) chain' ∧
      T'.time = T.time ∧ T'.added = T.added := by
  obtain ⟨-, hn, hp, chain', heq, hrep⟩ := launch_rep h.rep phase
  refine ⟨_, chain', heq, ⟨hrep, fun b => ?_, h.low, fun b s hb => ?_, ?_, ?_, ?_⟩, rfl, rfl⟩
  · rw [(takeDet_loc a b).2, h.cur b]
    simp [eq_comm]
  · by_cases hba : b = a
    · subst hba
      simp [Shape.takeDet] at hb
    · simp only [Shape.takeDet, Function.update_of_ne hba] at hb
      exact h.placed b s hb
  · exact h.named.of_subset rfl rfl rfl fun b hb => ((takeDet_loc a b).1.mp hb).2
  · exact ⟨h.counted.use_eq, h.counted.free_eq, h.counted.total⟩
  · refine h.traced.drop rfl rfl rfl fun b hb _ => ?_
    by_cases hba : b = a
    · subst hba
      exact .inr (.inl (List.mem_singleton_self _))
    · exact .inl ⟨hb, fun e => hba (Option.some.inj e).symm⟩

/-- `timernode_dealloc` and the counters. -/
theorem dealloc_counted (h : T.Lists σ n) (hc : Counted T σ) (hadd : T.added < 2 ^ 32)
    (ha : σ.loc a = .cur) :
    ∃ T' σ', T.timernodeDealloc (.node a) = .ok T' ∧ T'.Lists σ' n ∧ Counted T' σ' ∧
      (∀ b, b ≠ a → σ'.loc b = σ.loc b) ∧ (σ'.loc a = .free ∨ σ'.loc a = .none) ∧
      T'.used = T.used.erase a ∧
      T' = { T with
        listNext := T'.listNext
        freenode := T'.freenode
        freeCnt := T'.freeCnt
        useCnt := T'.useCnt
        used := T'.used
        mapped := T'.mapped } := by
  have hau := mem_used_cur h ha
  have hlen : (T.used.erase a).length + 1 = T.used.length := by
    have := List.length_erase_of_mem hau
    have := List.length_pos_of_mem hau
    omega
  have htotal := hc.total
  obtain ⟨T', hok, hused, huse, hcase, heq⟩ := dealloc_cases h ha
  have hadd' : T'.added = T.added := by rw [heq]
  have huse' : T'.useCnt = T'.used.length := by
    rw [huse, hused, hc.use_eq]
    omega
  rcases hcase with ⟨hrep, hfree⟩ | ⟨hrep, hfree⟩
  · refine ⟨T', σ.give a, hok, hrep, ⟨huse', ?_, ?_⟩, fun b hb => ?_, .inl (by simp [Shape.give]),
      hused, heq⟩
    · rw [hfree, hc.free_eq]
      show _ = σ.free.length + 1
      omega
    · rw [hused, hadd']
      show _ + (σ.free.length + 1) ≤ _
      omega
    · simp [Shape.give, Function.update_of_ne hb]
  · refine ⟨T', σ.discard a, hok, hrep, ⟨huse', ?_, ?_⟩, fun b hb => ?_,
      .inr (by simp [Shape.discard]), hused, heq⟩
    · rw [hfree]
      exact hc.free_eq
    · rw [hused, hadd']
      show _ + σ.free.length ≤ _
      omega
    · simp [Shape.discard, Function.update_of_ne hb]

theorem not_linked_of_released {l : Loc} (h : l = .free ∨ l = .none) : ¬ l.Linked := by
  rcases h with rfl | rfl <;> exact fun h => h

/-- After the callback the node is given back. -/
theorem Kept.dealloc (h : Kept T (some a) n σ chain) (hadd : T.added < 2 ^ 32) :
    ∃ T' σ', T.timernodeDealloc (.node a) = .ok T' ∧ Kept T' none n σ' chain ∧
      T'.time = T.time ∧ T'.added = T.added := by
  have ha := (h.cur a).mpr rfl
  obtain ⟨T', σ', hok, hlists, hcounted, hloc, hself, hused, heq⟩ :=
    dealloc_counted h.rep.lists h.counted hadd ha
  have hsame : ∀ b, (σ'.loc b).Linked ↔ (σ.loc b).Linked := fun b => by
    by_cases hb : b = a
    · subst hb
      exact iff_of_false (not_linked_of_released hself) (by rw [ha]; exact fun h => h)
    · rw [hloc b hb]
  have htime : T'.time = T.time := by rw [heq]
  have hexp : T'.expire = T.expire := by rw [heq]
  refine ⟨T', σ', hok, ⟨⟨hlists, ?_, fun b => (h.rep.linked b).trans (hsame b).symm⟩,
    fun b => ?_, ⟨?_, fun b hb => ?_⟩, fun b s hb => ?_, ?_, hcounted, ?_⟩, htime, by rw [heq]⟩
  · rw [heq]
    exact h.rep.hashed
  · by_cases hb : b = a
    · subst hb
      rcases hself with e | e <;> simp [e]
    · rw [hloc b hb, h.cur b]
      simp [Ne.symm hb]
  · rw [htime]
    exact h.low.1
  · rw [hexp]
    rw [hused] at hb
    exact h.low.2 b (List.mem_of_mem_erase hb)
  · rw [htime, hexp]
    have hba : b ≠ a := by
      rintro rfl
      rcases hself with e | e <;> rw [e] at hb <;> cases hb
    rw [hloc b hba] at hb
    exact h.placed b s hb
  · exact h.named.of_subset (by rw [heq]) (by rw [heq]) (by rw [heq]) fun b hb => (hsame b).mp hb
  · refine h.traced.drop (l := []) (by rw [heq]) (by rw [heq]) (by rw [heq, List.append_nil]) ?_
    intro b hb hba
    have hne : b ≠ a := fun e => hba (e ▸ rfl)
    exact .inl ⟨by rw [hused]; exact (List.mem_erase_of_ne hne).mpr hb, (Option.some_ne_none b).symm⟩

/-- Between two operations every node in use is on a ring. -/
theorem Kept.on_ring (h : Kept T none .null σ chain) (ha : a ∈ T.used) :
    ∃ s, σ.loc a = .slot s := by
  have hu := (h.rep.lists.wf.used_mem a).mp ha
  cases hl : σ.loc a with
  | slot s => exact ⟨s, rfl⟩
  | free => exact absurd hl hu.1
  | none => exact absurd hl hu.2
  | cur => cases (h.cur a).mp hl
  | det =>
    have hm := (h.rep.lists.wf.det_mem a).mpr hl
    rw [detached_null h.rep.lists] at hm
    cases hm

theorem slot_initialised (h : T.Lists σ n) {s : Slot} (ha : σ.loc a = .slot s) :
    s.initialised = true := by
  by_contra hs
  have hm := (h.wf.lst_mem s a).mpr ha
  rw [(h.bare s (by simpa using hs)).1] at hm
  cases hm

theorem Kept.in_chain (h : Kept T none .null σ chain) (ha : a ∈ T.used) :
    a ∈ chain (HASH (T.id (.node a))) := by
  obtain ⟨s, hs⟩ := h.on_ring ha
  obtain ⟨k, hk⟩ := (h.rep.linked a).mpr (by rw [hs]; trivial)
  rw [h.rep.hashed.keyed k a hk]
  exact hk

/-- **`coretimer_del` between two operations** unlinks the live timer with the id, or does nothing. -/
theorem Kept.del (h : Kept T none .null σ chain) (hadd : T.added < 2 ^ 32) (id : Nat) :
    (∃ a T' σ' chain', a ∈ T.used ∧ T.id (.node a) = id ∧ T.coretimerDel id = .ok T' ∧
      Kept T' none .null σ' chain' ∧ T'.used = T.used.erase a ∧ T'.time = T.time ∧
      T'.added = T.added) ∨
    (∀ a ∈ T.used, T.id (.node a) ≠ id) ∧ T.coretimerDel id = .ok T := by
  have hlook := lookup_eq h.rep.hash id
  cases hf : (chain (HASH id)).find? fun a => T.id (.node a) = id with
  | none =>
    rw [hf, Option.map_none] at hlook
    refine .inr ⟨fun a ha hid => ?_, ?_⟩
    · have hm := h.in_chain ha
      rw [hid] at hm
      exact absurd (List.find?_eq_none.mp hf a hm) (by simpa using hid)
    · simp only [CoreTimer.coretimerDel, hlook, ok_bind, pure_eq_ok]
  | some a =>
    rw [hf, Option.map_some] at hlook
    have ha := List.mem_of_find?_eq_some hf
    have hid : T.id (.node a) = id := by simpa using List.find?_some hf
    have hau := h.rep.hash.used _ a ha
    obtain ⟨s, hs⟩ := h.on_ring hau
    obtain ⟨hhp, hhn⟩ := h.rep.hash.links ha
    -- out of the ring, out of the chain, back to the free list
    obtain ⟨nx, pv, heq, hrep⟩ :=
      delfromList_rep h.rep.lists (slot_initialised h.rep.lists hs) hs hhp hhn
    generalize hT₁ : ({ T with listNext := nx, listPrev := pv } : CoreTimer) = T₁ at heq
    have hh : T₁.Hashed chain := by
      rw [← hT₁]
      exact ⟨h.rep.hashed, h.rep.hash.used⟩
    obtain ⟨hn', hp', heq₂, hhash⟩ := delfromHash_rep hh ha
    generalize hT₂ : ({ T₁ with hashNext := hn', hashPrev := hp' } : CoreTimer) = T₂ at heq₂
    have h₂ : T₂.Lists (σ.take s a) .null := by
      rw [← hT₂, ← hT₁]
      exact hrep
    have hc₂ : Counted T₂ (σ.take s a) := by
      rw [← hT₂, ← hT₁]
      exact ⟨h.counted.use_eq, h.counted.free_eq, h.counted.total⟩
    have hadd₂ : T₂.added = T.added := by rw [← hT₂, ← hT₁]
    have hused₂ : T₂.used = T.used := by rw [← hT₂, ← hT₁]
    obtain ⟨T₃, σ', hok, hlists, hcounted, hloc, hself, hused, heq₃⟩ :=
      dealloc_counted (a := a) h₂ hc₂ (by rw [hadd₂]; exact hadd) (by simp [Shape.take])
    have heq₄ : T₃ = { T with
        listNext := T₃.listNext
        listPrev := T₃.listPrev
        hashNext := hn'
        hashPrev := hp'
        freenode := T₃.freenode
        freeCnt := T₃.freeCnt
        useCnt := T₃.useCnt
        used := T₃.used
        mapped := T₃.mapped } := by rw [heq₃, ← hT₂, ← hT₁]
    have hloc' : ∀ b, b ≠ a → σ'.loc b = σ.loc b := fun b hb => by
      rw [hloc b hb]
      simp [Shape.take, Function.update_of_ne hb]
    have hout : ∀ b, (σ'.loc b).Linked → b ≠ a := by
      rintro b hb rfl
      exact not_linked_of_released hself hb
    have hexp : T₃.expire = T.expire := by rw [heq₄]
    have htime : T₃.time = T.time := by rw [heq₄]
    refine .inl ⟨a, { T₃ with log := T₃.log ++ [.del (T₃.seq (.node a))] }, σ', _, hau, hid, ?_,
      ⟨⟨hlists, ?_, chain_erase h.rep ha hloc' (not_linked_of_released hself)⟩, fun b => ?_,
        ⟨?_, fun b hb => ?_⟩, fun b s' hb => ?_, ?_, ?_, ?_⟩, ?_, htime, ?_⟩
    · simp only [CoreTimer.coretimerDel, hlook, ok_bind, heq, heq₂, hok, pure_eq_ok]
    · rw [heq₄]
      rw [← hT₁] at hhash
      exact hhash
    · by_cases hb : b = a
      · subst hb
        rcases hself with e | e <;> simp [e]
      · rw [hloc' b hb, h.cur b]
    · show T₃.time < 2 ^ 26
      rw [htime]
      exact h.low.1
    · show T₃.expire (.node b) < 2 ^ 26
      have hb : b ∈ T₃.used := hb
      rw [hused, hused₂] at hb
      rw [hexp]
      exact h.low.2 b (List.mem_of_mem_erase hb)
    · show T₃.time < T₃.expire (.node b) ∧ place (T₃.expire (.node b)) T₃.time = s'
      rw [htime, hexp]
      rw [hloc' b (hout b (by rw [hb]; trivial))] at hb
      exact h.placed b s' hb
    · refine h.named.of_subset ?_ ?_ ?_ fun b hb => by rw [← hloc' b (hout b hb)]; exact hb
      all_goals rw [heq₄]
    · exact ⟨hcounted.use_eq, hcounted.free_eq, hcounted.total⟩
    · have hseq : T₃.seq = T.seq := by rw [heq₄]
      refine h.traced.drop (l := [.del (T₃.seq (.node a))]) (by rw [heq₄]) hseq (by rw [heq₄]) ?_
      intro b hb _
      by_cases hba : b = a
      · subst hba
        rw [hseq]
        exact .inr (.inr (List.mem_singleton_self _))
      · refine .inl ⟨?_, (Option.some_ne_none b).symm⟩
        show b ∈ T₃.used
        rw [hused, hused₂]
        exact (List.mem_erase_of_ne hba).mpr hb
    · show T₃.used = _
      rw [hused, hused₂]
    · show T₃.added = _
      rw [heq₄]

/-- `timernode_alloc` and the counters. -/
theorem alloc_counted (h : T.Lists σ n) (hc : Counted T σ) (hadd : T.added + 1 < 2 ^ 32)
    {addr : Nat} (hptr : (T.timernodeAlloc addr).2 = .node a) :
    (T.timernodeAlloc addr).1.useCnt = (T.timernodeAlloc addr).1.used.length ∧
      (T.timernodeAlloc addr).1.freeCnt = (σ.grab a).free.length ∧
      (T.timernodeAlloc addr).1.used.length + (σ.grab a).free.length ≤ T.added + 1 ∧
      (T.timernodeAlloc addr).1.used = a :: T.used := by
  have hpath := h.path
  have htotal := hc.total
  have huse := hc.use_eq
  have hfree := hc.free_eq
  cases hl : σ.free with
  | nil =>
    rw [hl] at hpath hfree htotal
    have hfr : T.freenode = .null := hpath
    simp only [CoreTimer.timernodeAlloc, hfr] at hptr ⊢
    obtain rfl := Ptr.node.inj hptr
    simp only [Shape.grab, hl, List.erase_nil, List.length_cons, List.length_nil] at htotal hfree ⊢
    exact ⟨by omega, hfree, by omega, trivial⟩
  | cons b l =>
    rw [hl] at hpath hfree htotal
    have hfr : T.freenode = .node b := hpath.1
    simp only [CoreTimer.timernodeAlloc, hfr] at hptr ⊢
    obtain rfl := Ptr.node.inj hptr
    simp only [Shape.grab, hl, List.erase_cons_head, List.length_cons] at htotal hfree ⊢
    exact ⟨by omega, by omega, by omega, trivial⟩

/-- The ids after an addition: the new node has the next one. -/
theorem Named.add (h : Named T σ) (hadd : T.added + 1 < 2 ^ 32)
    (hloc : ∀ b, b ≠ a → σ'.loc b = σ.loc b)
    (hid : T'.id = Function.update T.id (.node a) ((T.index + 1) % 2 ^ 32))
    (hidx : T'.index = (T.index + 1) % 2 ^ 32) (hadd' : T'.added = T.added + 1) : Named T' σ' := by
  have hnext : (T.index + 1) % 2 ^ 32 = T.index + 1 := by
    rw [h.index_eq]
    exact Nat.mod_eq_of_lt hadd
  rw [hnext] at hid hidx
  have hself : T'.id (.node a) = T.index + 1 := by rw [hid, Function.update_self]
  have hold : ∀ b, b ≠ a → (σ'.loc b).Linked →
      T'.id (.node b) = T.id (.node b) ∧ (σ.loc b).Linked ∧ T.id (.node b) ≤ T.index := by
    intro b hb hl
    have hne : Ptr.node b ≠ .node a := fun e => hb (Ptr.node.inj e)
    rw [hloc b hb] at hl
    exact ⟨by rw [hid, Function.update_of_ne hne], hl, h.id_le b hl⟩
  refine ⟨by rw [hidx, hadd', h.index_eq], fun b hl => ?_, fun b c hb hc he => ?_⟩
  · rw [hidx]
    by_cases hb : b = a
    · rw [hb, hself]
    · obtain ⟨e, -, hle⟩ := hold b hb hl
      omega
  · by_cases hba : b = a <;> by_cases hca : c = a
    · rw [hba, hca]
    · obtain ⟨ec, -, hle⟩ := hold c hca hc
      rw [hba, hself, ec] at he
      omega
    · obtain ⟨eb, -, hle⟩ := hold b hba hb
      rw [hca, hself, eb] at he
      omega
    · obtain ⟨eb, hlb, -⟩ := hold b hba hb
      obtain ⟨ec, hlc, -⟩ := hold c hca hc
      rw [eb, ec] at he
      exact h.id_inj b c hlb hlc he

/-- The new node is the timer of the addition. -/
theorem Traced.add (h : Traced T r) (hlists : T.Lists σ n) (hfree : σ.loc a = .free ∨ σ.loc a = .none)
    (hr : r ≠ some a) (hadd : T'.added = T.added + 1) (hlog : T'.log = T.log)
    (hused : T'.used = a :: T.used) (hseq : T'.seq = Function.update T.seq (.node a) T.added) :
    Traced T' r := by
  intro k hk
  rw [hlog, hused, hseq]
  rw [hadd] at hk
  rcases Nat.lt_succ_iff_lt_or_eq.mp hk with hk | rfl
  · rcases h k hk with hrun | hdel | ⟨b, hb, hrb, rfl⟩
    · exact .inl hrun
    · exact .inr (.inl hdel)
    · have hba : b ≠ a := by
        rintro rfl
        have hu := (hlists.wf.used_mem b).mp hb
        rcases hfree with e | e
        · exact hu.1 e
        · exact hu.2 e
      exact .inr (.inr ⟨b, List.mem_cons_of_mem _ hb, hrb,
        Function.update_of_ne (fun e => hba (Ptr.node.inj e)) ..⟩)
  · exact .inr (.inr ⟨a, List.mem_cons_self, hr, Function.update_self ..⟩)

/-- **`coretimer_add`** below `2 ^ 26`. -/
theorem Kept.add (h : Kept T r n σ chain) (req : AddReq) {addr : Nat} (haddr : addr ∉ T.mapped)
    (hw : T.time + waitTicks req.wait < 2 ^ 26) (hadd : T.added + 1 < 2 ^ 32) :
    ∃ T' σ' chain', T.coretimerAdd req addr = .ok T' ∧ Kept T' r n σ' chain' ∧
      T'.time = T.time ∧ T'.added = T.added + 1 := by
  obtain ⟨a, hptr, hfree, hrep⟩ := alloc_rep h.rep.lists haddr
  obtain ⟨huse₁, hfree₁, htotal₁, hused₁⟩ := alloc_counted h.rep.lists h.counted hadd hptr
  have hnl : ¬ (σ.loc a).Linked := not_linked_of_released hfree
  have hnot : ∀ k, a ∉ chain k := fun k hm => hnl ((h.rep.linked a).mp ⟨k, hm⟩)
  have hwait := waitTicks_pos req.wait
  -- the allocated and filled node
  generalize hT₁ : (T.timernodeAlloc addr).1 = T₁ at hrep huse₁ hfree₁ htotal₁ hused₁
  have heq₁ : T₁ = { T with
      useCnt := T₁.useCnt
      freenode := T₁.freenode
      freeCnt := T₁.freeCnt
      used := T₁.used
      mapped := T₁.mapped } := by
    rw [← hT₁]
    simp only [CoreTimer.timernodeAlloc]
    split <;> rfl
  generalize hT₂ : T₁.fill (.node a) req = T₂
  have hcur : (σ.grab a).loc a = .cur := by simp [Shape.grab]
  have h₂ : T₂.Lists (σ.grab a) n := by
    rw [← hT₂]
    exact hrep.update_cur hcur .null .null
  have htime₂ : T₂.time = T.time := by rw [← hT₂, CoreTimer.fill, heq₁]
  have hexp₂ : T₂.expire = Function.update T.expire (.node a) (T.time + waitTicks req.wait) := by
    have hfill : T₂.expire = Function.update T.expire (.node a)
        ((T.time + waitTicks req.wait) % 2 ^ 32) := by rw [← hT₂, CoreTimer.fill, heq₁]
    rw [hfill, Nat.mod_eq_of_lt (by omega)]
  have hself₂ : T₂.expire (.node a) = T.time + waitTicks req.wait := by
    rw [hexp₂, Function.update_self]
  have hopen : T.coretimerAdd req addr =
      (T₂.addtoList (.node a) >>= fun T₃ => T₃.addtoHash (.node a)) := by
    rw [← hT₂, ← hT₁, ← hptr]
    rfl
  obtain ⟨T₃, hok, hrel, h₃⟩ := addtoList_place h₂ hcur (by rw [← hT₂]; simp [CoreTimer.fill])
    (by rw [← hT₂]; simp [CoreTimer.fill]) (by rw [htime₂, hself₂]; omega) (by rw [hself₂]; exact hw)
  rw [htime₂, hself₂] at h₃
  generalize hs : place (T.time + waitTicks req.wait) T.time = s at h₃
  have hloc : ∀ b, b ≠ a → ((σ.grab a).put s a).loc b = σ.loc b := fun b hb => by
    simp [Shape.put, Shape.grab, Function.update_of_ne hb]
  have hself : ((σ.grab a).put s a).loc a = .slot s := by simp [Shape.put]
  have hused₃ : T₃.used = a :: T.used := by
    rw [hrel, ← hT₂, CoreTimer.fill]
    exact hused₁
  have hh₃ : T₃.Hashed chain := by
    refine ⟨?_, fun k b hb => ?_⟩
    · rw [hrel, ← hT₂, CoreTimer.fill, heq₁]
      exact h.rep.hashed.update_out hnot _ _ _
    · rw [hused₃]
      exact List.mem_cons_of_mem _ (h.rep.hash.used k b hb)
  obtain ⟨hn, hp, heq₄, hhash⟩ := addtoHash_rep hh₃ (by rw [hused₃]; exact List.mem_cons_self) hnot
    (by rw [hrel, ← hT₂]; simp [CoreTimer.fill]) (by rw [hrel, ← hT₂]; simp [CoreTimer.fill])
  have htime₃ : T₃.time = T.time := by rw [hrel]; exact htime₂
  have hexp₃ : T₃.expire = T₂.expire := by rw [hrel]
  have hother : ∀ b, b ≠ a → T₂.expire (.node b) = T.expire (.node b) := fun b hb => by
    rw [hexp₂, Function.update_of_ne fun e => hb (Ptr.node.inj e)]
  refine ⟨{ T₃ with hashNext := hn, hashPrev := hp }, (σ.grab a).put s a, _,
    by rw [hopen, hok, ok_bind, heq₄],
    ⟨⟨h₃, hhash, chain_cons h.rep.linked hloc (by rw [hself]; trivial)⟩, fun b => ?_,
      ⟨?_, fun b hb => ?_⟩, fun b s' hb => ?_, ?_, ⟨?_, ?_, ?_⟩, ?_⟩, htime₃, ?_⟩
  · by_cases hb : b = a
    · subst hb
      rw [hself]
      refine iff_of_false (by simp) fun hr => hnl ?_
      rw [← h.cur b] at hr
      rcases hfree with e | e <;> rw [e] at hr <;> cases hr
    · rw [hloc b hb, h.cur b]
  · show T₃.time < 2 ^ 26
    rw [htime₃]
    exact h.low.1
  · show T₃.expire (.node b) < 2 ^ 26
    rw [hexp₃]
    by_cases hba : b = a
    · rw [hba, hself₂]
      exact hw
    · rw [hother b hba]
      have hb : b ∈ T₃.used := hb
      rw [hused₃] at hb
      exact h.low.2 b ((List.mem_cons.mp hb).resolve_left hba)
  · show T₃.time < T₃.expire (.node b) ∧ place (T₃.expire (.node b)) T₃.time = s'
    rw [htime₃, hexp₃]
    by_cases hba : b = a
    · subst hba
      rw [hself] at hb
      rw [hself₂, hs]
      exact ⟨by omega, Loc.slot.inj hb⟩
    · rw [hother b hba]
      rw [hloc b hba] at hb
      exact h.placed b s' hb
  · show Named { T₃ with hashNext := hn, hashPrev := hp } _
    refine h.named.add hadd hloc ?_ ?_ ?_ <;> rw [hrel, ← hT₂, CoreTimer.fill, heq₁]
  · show T₃.useCnt = T₃.used.length
    rw [hused₃, ← hused₁, ← huse₁, hrel, ← hT₂, CoreTimer.fill]
  · show T₃.freeCnt = (σ.grab a).free.length
    rw [← hfree₁, hrel, ← hT₂, CoreTimer.fill]
  · show T₃.used.length + (σ.grab a).free.length ≤ T₃.added
    have hadd₃ : T₃.added = T.added + 1 := by rw [hrel, ← hT₂, CoreTimer.fill, heq₁]
    rw [hused₃, hadd₃, ← hused₁]
    exact htotal₁
  · refine h.traced.add h.rep.lists hfree (fun hr => ?_) ?_ ?_ hused₃ ?_
    · rw [← h.cur a] at hr
      rcases hfree with e | e <;> rw [e] at hr <;> cases hr
    all_goals rw [hrel, ← hT₂, CoreTimer.fill, heq₁]
  · show T₃.added = _
    rw [hrel, ← hT₂, CoreTimer.fill, heq₁]

end Operations

/-! ## The machine -/

structure Config.Keeps (c : Config) : Prop where
  inv : ∃ σ chain, Kept c.timer c.ctl.running c.ctl.next σ chain
  node : ∀ phase r n, c.ctl = .inCall phase r n → ∃ a, r = .node a
  first : ∀ r n, c.ctl = .inCall .first r n → c.timer.time + 1 < 2 ^ 26

/-- `coretimer_del` is called between ticks. -/
def Config.BetweenTicks (c : Config) : Config.Label → Prop
  | .del _ => c.ctl = .idle
  | _ => True

instance (c : Config) (l : Config.Label) : Decidable (c.BetweenTicks l) :=
  match l with
  | .del _ => inferInstanceAs (Decidable (c.ctl = .idle))
  | .add _ _ => isTrue trivial
  | .tick => isTrue trivial
  | .ret => isTrue trivial

/-- The number of additions. -/
def additions : List Config.Label → Nat
  | [] => 0
  | .add _ _ :: ls => additions ls + 1
  | _ :: ls => additions ls

section Machine

variable {T : CoreTimer} {σ : Shape} {chain : Nat → List Nat} {p : Ptr} {c : Config}

theorem executeSecond_kept (h : Kept T none p σ chain) :
    ∃ c', Config.executeSecond T p = .ok c' ∧ c'.Keeps ∧ c'.timer.added = T.added := by
  by_cases hp : p = .null
  · subst hp
    exact ⟨⟨T, .idle⟩, by simp [Config.executeSecond],
      ⟨⟨σ, chain, h⟩, fun _ _ _ e => (by cases e), fun _ _ e => (by cases e)⟩, rfl⟩
  · obtain ⟨a, rfl⟩ := first_detached h.rep.lists hp
    obtain ⟨T', chain', heq, hkept, -, hadd⟩ := h.launch .second
    refine ⟨⟨T', .inCall .second (.node a) (T.listNext (.node a))⟩, ?_,
      ⟨⟨_, chain', hkept⟩, fun _ _ _ e => (by cases e; exact ⟨a, rfl⟩), fun _ _ e => (by cases e)⟩, hadd⟩
    rw [Config.executeSecond, if_neg hp]
    exact heq

theorem executeFirst_kept (h : Kept T none p σ chain) (hlt : T.time + 1 < 2 ^ 26) :
    ∃ c', Config.executeFirst T p = .ok c' ∧ c'.Keeps ∧ c'.timer.added = T.added := by
  by_cases hp : p = .null
  · subst hp
    obtain ⟨T₁, σ₁, heq, hrel, h₁, hsame, hfree, hplaced⟩ :=
      timerShift_placed h.rep.lists h.low hlt h.placed
    obtain ⟨nx, pv, q, heq₂, h₂⟩ := listClear_rep h₁ (near_initialised T₁.time)
    have htime : T₁.time = T.time + 1 := by rw [hrel]
    generalize hT₂ : ({ T₁ with listNext := nx, listPrev := pv } : CoreTimer) = T₂ at heq₂
    have h₂ : T₂.Lists (σ₁.detach (.near (T₁.time &&& TIME_NEAR_MASK))) q := by
      rw [← hT₂]
      exact h₂
    have hrel₂ : Relinked { T with time := T.time + 1 } T₂ := by
      refine hrel.trans ?_
      rw [← hT₂]
      rfl
    have hkept : Kept T₂ none q (σ₁.detach (.near (T₁.time &&& TIME_NEAR_MASK))) chain := by
      refine h.relink hrel₂ h₂ (hsame.trans (sameKind_detach _)) hfree hlt ?_
      rw [htime]
      exact placed_detach hplaced
    obtain ⟨c', heq₃, hkeeps, hadd⟩ := executeSecond_kept hkept
    refine ⟨c', ?_, hkeeps, by rw [hadd, hrel₂]⟩
    simp only [Config.executeFirst, if_pos, heq, ok_bind, heq₂, heq₃]
  · obtain ⟨a, rfl⟩ := first_detached h.rep.lists hp
    obtain ⟨T', chain', heq, hkept, htime, hadd⟩ := h.launch .first
    refine ⟨⟨T', .inCall .first (.node a) (T.listNext (.node a))⟩, ?_,
      ⟨⟨_, chain', hkept⟩, fun _ _ _ e => (by cases e; exact ⟨a, rfl⟩), fun _ _ _ => ?_⟩, hadd⟩
    · rw [Config.executeFirst, if_neg hp]
      exact heq
    · show T'.time + 1 < 2 ^ 26
      rw [htime]
      exact hlt

/-- **One step** meets no fault and keeps the invariant. -/
theorem step_kept (h : c.Keeps) (l : Config.Label) (hlow : c.StaysLow l) (hbetween : c.BetweenTicks l)
    (hadd : c.timer.added + additions [l] < 2 ^ 32) :
    ∃ c', c.step l = .ok c' ∧ c'.Keeps ∧ c'.timer.added ≤ c.timer.added + additions [l] := by
  obtain ⟨⟨σ, chain, hkept⟩, hnode, hfirst⟩ := h
  obtain ⟨T, ctl⟩ := c
  cases l with
  | add a addr =>
    by_cases haddr : addr ∈ T.mapped
    · exact ⟨_, by simp [Config.step, haddr], ⟨⟨σ, chain, hkept⟩, hnode, hfirst⟩, Nat.le_add_right _ _⟩
    obtain ⟨T', σ', chain', heq, hkept', htime, hadded⟩ := hkept.add a haddr hlow hadd
    refine ⟨⟨T', ctl⟩, by simp [Config.step, haddr, heq], ⟨⟨σ', chain', hkept'⟩, hnode,
      fun r n hr => ?_⟩, le_of_eq hadded⟩
    show T'.time + 1 < 2 ^ 26
    rw [htime]
    exact hfirst r n hr
  | del id =>
    obtain rfl : ctl = .idle := hbetween
    rcases hkept.del hadd id with ⟨a, T', σ', chain', -, -, heq, hkept', -, -, hadded⟩ | ⟨-, heq⟩
    · exact ⟨⟨T', .idle⟩, by simp [Config.step, heq], ⟨⟨σ', chain', hkept'⟩, hnode,
        fun r n hr => (by cases hr)⟩, le_of_eq hadded⟩
    · exact ⟨⟨T, .idle⟩, by simp [Config.step, heq], ⟨⟨σ, chain, hkept⟩, hnode, hfirst⟩,
        Nat.le_add_right _ _⟩
  | tick =>
    cases ctl with
    | inCall phase r n =>
      exact ⟨_, rfl, ⟨⟨σ, chain, hkept⟩, hnode, hfirst⟩, Nat.le_add_right _ _⟩
    | idle =>
      have hkept : Kept T none .null σ chain := hkept
      have hlt : T.time + 1 < 2 ^ 26 := hlow rfl
      obtain ⟨nx, pv, q, heq, h₁⟩ := listClear_rep hkept.rep.lists (near_initialised T.time)
      have hkept₁ : Kept { T with listNext := nx, listPrev := pv } none q
          (σ.detach (.near (T.time &&& TIME_NEAR_MASK))) chain :=
        hkept.relink (t := T.time) rfl h₁ (sameKind_detach _) rfl hkept.low.1
          (placed_detach fun a s ha => ⟨(hkept.placed a s ha).1.le, (hkept.placed a s ha).2⟩)
      obtain ⟨c', heq', hkeeps, hadded⟩ := executeFirst_kept hkept₁ hlt
      exact ⟨c', by simp only [Config.step, heq, ok_bind, heq'], hkeeps,
        (le_of_eq hadded).trans (Nat.le_add_right _ _)⟩
  | ret =>
    cases ctl with
    | idle => exact ⟨_, rfl, ⟨⟨σ, chain, hkept⟩, hnode, hfirst⟩, Nat.le_add_right _ _⟩
    | inCall phase r n =>
      obtain ⟨a, rfl⟩ := hnode _ _ _ rfl
      obtain ⟨T', σ', heq, hkept', htime, hadded⟩ := Kept.dealloc hkept hadd
      have hnext : Kept T' none n σ' chain := hkept'
      cases phase with
      | first =>
        have hlt : T'.time + 1 < 2 ^ 26 := by
          rw [htime]
          exact hfirst _ _ rfl
        obtain ⟨c', heq', hkeeps, hadded'⟩ := executeFirst_kept hnext hlt
        exact ⟨c', by simp only [Config.step, heq, ok_bind, heq'], hkeeps,
          (le_of_eq (hadded'.trans hadded)).trans (Nat.le_add_right _ _)⟩
      | second =>
        obtain ⟨c', heq', hkeeps, hadded'⟩ := executeSecond_kept hnext
        exact ⟨c', by simp only [Config.step, heq, ok_bind, heq'], hkeeps,
          (le_of_eq (hadded'.trans hadded)).trans (Nat.le_add_right _ _)⟩

theorem new_keeps : Config.new.Keeps := by
  obtain ⟨⟨σ, chain, hinv⟩, hnode⟩ := new_ok
  have hnone : ∀ a, σ.loc a ≠ .free ∧ ¬ (σ.loc a).Linked := by
    intro a
    have hm : σ.loc a = .none := by
      by_contra hne
      have := (hinv.rep.lists.wf.mapped_mem a).mpr hne
      cases this
    rw [hm]
    exact ⟨by simp, fun h => h⟩
  have hfree : σ.free = [] := by
    cases hl : σ.free with
    | nil => rfl
    | cons a l => exact absurd ((hinv.rep.lists.wf.free_mem a).mp (by simp [hl])) (hnone a).1
  refine ⟨⟨σ, chain, hinv.rep, hinv.cur, new_low.1, fun a s ha => ?_, ⟨rfl, fun a ha => ?_,
    fun a _ ha => ?_⟩, ⟨rfl, ?_, ?_⟩, fun k hk => absurd hk (Nat.not_lt_zero k)⟩, hnode,
    fun _ _ e => by cases e⟩
  · exact absurd (by rw [ha]; trivial) (hnone a).2
  · exact absurd ha (hnone a).2
  · exact absurd ha (hnone a).2
  · rw [hfree]
    rfl
  · rw [hfree]
    exact Nat.le_refl 0

end Machine

/-! ## Runs -/

/-- The steps admitted: below `2 ^ 26`, and no `coretimer_del` from inside a callback. -/
def Config.Calm (c : Config) (l : Config.Label) : Prop := c.StaysLow l ∧ c.BetweenTicks l

instance (c : Config) (l : Config.Label) : Decidable (c.Calm l) :=
  inferInstanceAs (Decidable (_ ∧ _))

theorem additions_cons (l : Config.Label) (ls : List Config.Label) :
    additions (l :: ls) = additions [l] + additions ls := by
  cases l <;> simp [additions]
  omega

theorem run_kept : ∀ (ls : List Config.Label) {c : Config}, c.Keeps → Config.Meets Config.Calm c ls →
    c.timer.added + additions ls < 2 ^ 32 →
    ∃ c', ls.foldlM Config.step c = .ok c' ∧ c'.Keeps ∧
      c'.timer.added ≤ c.timer.added + additions ls := by
  intro ls
  induction ls with
  | nil => exact fun h _ _ => ⟨_, rfl, h, Nat.le_add_right _ _⟩
  | cons l ls ih =>
    rintro c h ⟨⟨hlow, hbetween⟩, hrest⟩ hadd
    have hsplit := additions_cons l ls
    obtain ⟨c₁, heq, h₁, hle⟩ := step_kept h l hlow hbetween (by omega)
    rw [heq] at hrest
    obtain ⟨c', heq', h', hle'⟩ := ih h₁ hrest (by omega)
    refine ⟨c', ?_, h', by omega⟩
    rw [run_cons, heq, ok_bind, heq']

/-- The lists, chains and free nodes of a timer between two operations; the live timers are the nodes
in use. -/
structure Represents (T : CoreTimer) (lst : Slot → List Nat) (chain : Nat → List Nat)
    (free : List Nat) : Prop where
  /-- From every head, `list_next` walks a cycle and `list_prev` is its inverse; so do the `hash_*`
  links. -/
  ring : ∀ s, s.initialised = true → Seg T.listNext T.listPrev (.slot s) (nodes (lst s)) (.slot s)
  hashRing : ∀ k, k < TIMER_HASH_SIZE →
    Seg T.hashNext T.hashPrev (.hash k) (nodes (chain k)) (.hash k)
  /-- A live timer is on the wheel list that `addto_list` selects for it now, and on no other. -/
  onRing : ∀ a ∈ T.used, (place (T.expire (.node a)) T.time).initialised = true ∧
    ∀ s, a ∈ lst s ↔ s = place (T.expire (.node a)) T.time
  /-- It is on the hash chain of its id, and on no other. -/
  onChain : ∀ a ∈ T.used, ∀ k, a ∈ chain k ↔ k = HASH (T.id (.node a))
  live : ∀ a, (∃ s, a ∈ lst s) ∨ (∃ k, a ∈ chain k) → a ∈ T.used
  lst_nodup : ∀ s, (lst s).Nodup
  chain_nodup : ∀ k, (chain k).Nodup
  ids : ∀ a ∈ T.used, ∀ b ∈ T.used, T.id (.node a) = T.id (.node b) → a = b
  freeList : Path T.listNext T.freenode (nodes free) .null
  freeCnt : free.length = T.freeCnt
  freeApart : free.Nodup ∧ ∀ a ∈ free, a ∉ T.used
  useCnt : T.useCnt = T.used.length ∧ T.used.Nodup

def CoreTimer.WellLinked (T : CoreTimer) : Prop := ∃ lst chain free, Represents T lst chain free

theorem Kept.wellLinked {T : CoreTimer} {σ : Shape} {chain : Nat → List Nat}
    (h : Kept T none .null σ chain) : T.WellLinked := by
  have hwf := h.rep.lists.wf
  have hlinked : ∀ a, (σ.loc a).Linked → a ∈ T.used := fun a hl => by
    obtain ⟨k, hk⟩ := (h.rep.linked a).mpr hl
    exact h.rep.hash.used k a hk
  have hslot : ∀ a ∈ T.used, (σ.loc a).Linked := fun a ha => by
    obtain ⟨s, hs⟩ := h.on_ring ha
    rw [hs]
    trivial
  refine ⟨σ.lst, chain, σ.free, h.rep.lists.ring, h.rep.hashed.ring, fun a ha => ?_, fun a ha k => ?_,
    fun a ha => ?_, hwf.lst_nodup, h.rep.hashed.nodup, fun a ha b hb he => ?_, h.rep.lists.path,
    h.counted.free_eq.symm, ⟨hwf.free_nodup, fun a ha hu => ?_⟩, h.counted.use_eq, hwf.used_nodup⟩
  · obtain ⟨s, hs⟩ := h.on_ring ha
    obtain ⟨-, rfl⟩ := h.placed a s hs
    refine ⟨slot_initialised h.rep.lists hs, fun s => ?_⟩
    rw [hwf.lst_mem, hs]
    exact ⟨fun e => (Loc.slot.inj e).symm, fun e => by rw [e]⟩
  · refine ⟨fun hk => (h.rep.hashed.keyed k a hk).symm, ?_⟩
    rintro rfl
    exact h.in_chain ha
  · rcases ha with ⟨s, hs⟩ | ⟨k, hk⟩
    · refine hlinked a ?_
      rw [(hwf.lst_mem s a).mp hs]
      trivial
    · exact h.rep.hash.used k a hk
  · exact h.named.id_inj a b (hslot a ha) (hslot b hb) he
  · exact ((hwf.used_mem a).mp hu).1 ((hwf.free_mem a).mp ha)

/-- **The representation invariant.** A run below `2 ^ 26` with fewer than `2 ^ 32` additions that
calls `coretimer_del` between ticks only meets no fault: no assertion fails and no link through `NULL`
is followed. Between two operations the timer of every addition is in use until it has run or was
deleted, all links, ids and counters are as in `Represents`, and `coretimer_del` unlinks exactly the
live timer with the id, or nothing if there is none. -/
theorem representation (ls : List Config.Label) (h : Config.Meets Config.Calm Config.new ls)
    (hadds : additions ls < 2 ^ 32) :
    ∃ c, Config.run ls = .ok c ∧ (c.ctl = .idle → c.timer.WellLinked ∧
      (∀ k < c.timer.added, .run k ∈ c.timer.log ∨ .del k ∈ c.timer.log ∨
        ∃ a ∈ c.timer.used, c.timer.seq (.node a) = k) ∧
      ∀ id, (∃ a T', a ∈ c.timer.used ∧ c.timer.id (.node a) = id ∧
          c.timer.coretimerDel id = .ok T' ∧ T'.used = c.timer.used.erase a ∧ T'.WellLinked) ∨
        (∀ a ∈ c.timer.used, c.timer.id (.node a) ≠ id) ∧
          c.timer.coretimerDel id = .ok c.timer) := by
  have hzero : Config.new.timer.added = 0 := rfl
  obtain ⟨c, heq, ⟨⟨σ, chain, hkept⟩, -, -⟩, hle⟩ := run_kept ls new_keeps h (by omega)
  refine ⟨c, heq, fun hidle => ?_⟩
  rw [hidle] at hkept
  have hkept : Kept c.timer none .null σ chain := hkept
  refine ⟨hkept.wellLinked, fun k hk => ?_, fun id => ?_⟩
  · rcases hkept.traced k hk with hrun | hdel | ⟨a, ha, -, hseq⟩
    · exact .inl hrun
    · exact .inr (.inl hdel)
    · exact .inr (.inr ⟨a, ha, hseq⟩)
  rcases hkept.del (by omega) id with ⟨a, T', σ', chain', hau, hid, hdel, hkept', hused, -, -⟩ | hnone
  · exact .inl ⟨a, T', hau, hid, hdel, hused, hkept'.wellLinked⟩
  · exact .inr hnone

/-- Three timers, one cancelled, one tick with two callbacks and an addition from the first. -/
theorem representation_tick :
    ∃ c, Config.run (threeTimers ++ [.del 2, .tick, .add ⟨0, 9, 5000⟩ 7, .ret, .ret]) = .ok c ∧
      c.ctl = .idle ∧ c.timer.WellLinked := by
  obtain ⟨c, heq, hc⟩ := representation
    (threeTimers ++ [.del 2, .tick, .add ⟨0, 9, 5000⟩ 7, .ret, .ret]) (by decide +kernel) (by decide)
  have hidle : ((Config.run (threeTimers ++ [.del 2, .tick, .add ⟨0, 9, 5000⟩ 7, .ret, .ret])).toOption.map
      Config.ctl) = some .idle := by decide +kernel
  rw [heq] at hidle
  have hidle : c.ctl = .idle := Option.some.inj hidle
  exact ⟨c, heq, hidle, (hc hidle).1⟩

end HoNet.Timer
