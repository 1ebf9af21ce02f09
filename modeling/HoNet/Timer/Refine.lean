import HoNet.Timer.Wheel
import Mathlib.Data.List.Basic
import Mathlib.Data.List.Nodup

/-!
# The timing wheel refines the flat timer list

`Sim w f` relates a wheel to the abstract timer: every slot holds, in the order of addition, the
live timers whose canonical slot it is (`place`), and every hash chain the live timers of its
residue, newest first. Each operation of `coretimer.c` keeps it, so wheel and flat list produce the
same history (`runWheel_refines`), as long as no expiry and no id leaves its 32-bit range
(`InRange`). `shift_slots` and `insert_eq` say what the parts of the wheel do to the slots alone.
-/

namespace HoNet.Timer

/-! ## Histories only grow -/

/-- `w'` continues `w`: the history and the number of additions are extensions. -/
def Wheel.Le (w w' : Wheel) : Prop := w.added ≤ w'.added ∧ w.log <+: w'.log

theorem Wheel.Le.refl (w : Wheel) : w.Le w := ⟨Nat.le_refl _, List.prefix_rfl⟩

theorem Wheel.Le.trans {a b c : Wheel} (h₁ : a.Le b) (h₂ : b.Le c) : a.Le c :=
  ⟨h₁.1.trans h₂.1, h₁.2.trans h₂.2⟩

theorem record_le (w : Wheel) (e : Event) : w.Le (w.record e) :=
  ⟨Nat.le_refl _, List.prefix_append _ _⟩

theorem addtoList_log (w : Wheel) (r : TimerNode) :
    (w.addtoList r).log = w.log ∧ (w.addtoList r).added = w.added := by
  unfold Wheel.addtoList
  split_ifs <;> exact ⟨rfl, rfl⟩

theorem addtoHash_log (w : Wheel) (r : TimerNode) :
    (w.addtoHash r).log = w.log ∧ (w.addtoHash r).added = w.added := by
  unfold Wheel.addtoHash
  split_ifs <;> exact ⟨rfl, rfl⟩

theorem coretimerAdd_le (w : Wheel) (a : AddReq) : w.Le (w.coretimerAdd a) := by
  unfold Wheel.coretimerAdd
  split
  · exact Wheel.Le.refl w
  · refine ⟨?_, ?_⟩
    · rw [(addtoHash_log _ _).2, (addtoList_log _ _).2]
      exact Nat.le_succ _
    · rw [(addtoHash_log _ _).1, (addtoList_log _ _).1]
      exact List.prefix_append _ _

theorem coretimerDel_le (w : Wheel) (id : Nat) : w.Le (w.coretimerDel id) := by
  unfold Wheel.coretimerDel
  split
  · exact Wheel.Le.refl w
  · split
    · exact Wheel.Le.refl w
    · exact ⟨Nat.le_refl _, List.prefix_append _ _⟩

theorem foldl_add_le (as : List AddReq) (w : Wheel) : w.Le (as.foldl Wheel.coretimerAdd w) := by
  induction as generalizing w with
  | nil => exact Wheel.Le.refl w
  | cons a as ih => exact (coretimerAdd_le w a).trans (ih _)

theorem executeLoop_le (rs : List TimerNode) (cb : List (List AddReq)) (w : Wheel) :
    w.Le (Wheel.executeLoop rs cb w).1 := by
  induction rs generalizing cb w with
  | nil => exact Wheel.Le.refl w
  | cons r rs ih =>
    unfold Wheel.executeLoop
    split
    · exact Wheel.Le.refl w
    · have h₁ : w.Le ((w.delfromHash r).record (.run r)) :=
        ⟨Nat.le_refl _, List.prefix_append _ _⟩
      exact h₁.trans ((foldl_add_le _ _).trans (ih _ _))

theorem timerExecute_le (w : Wheel) (cb : List (List AddReq)) : w.Le (w.timerExecute cb).1 := by
  have h := executeLoop_le (w.slots (.near (w.time &&& TIME_NEAR_MASK))) cb
    { w with slots := Function.update w.slots (.near (w.time &&& TIME_NEAR_MASK)) [] }
  exact h

theorem foldl_addtoList_log (rs : List TimerNode) (w : Wheel) :
    (rs.foldl Wheel.addtoList w).log = w.log ∧ (rs.foldl Wheel.addtoList w).added = w.added := by
  induction rs generalizing w with
  | nil => exact ⟨rfl, rfl⟩
  | cons r rs ih =>
    rw [List.foldl_cons, (ih _).1, (ih _).2]
    exact addtoList_log w r

theorem timerShift_le (w : Wheel) : w.Le w.timerShift := by
  unfold Wheel.timerShift
  split
  · exact Wheel.Le.refl w
  · dsimp only
    split
    · unfold Wheel.listMove
      refine ⟨?_, ?_⟩
      · rw [(foldl_addtoList_log _ _).2]; exact Nat.le_refl _
      · rw [(foldl_addtoList_log _ _).1]; exact List.prefix_append _ _
    · exact record_le { w with time := _ } _
    · exact record_le { w with time := _ } _

theorem timerTick_le (w : Wheel) (cb : List (List AddReq)) : w.Le (w.timerTick cb) :=
  (timerExecute_le w cb).trans ((timerShift_le _).trans ((timerExecute_le _ _).trans
    (record_le _ _)))

theorem step_le (w : Wheel) (op : Op) : w.Le (w.step op) := by
  cases op with
  | add a => exact coretimerAdd_le w a
  | del id => exact coretimerDel_le w id
  | tick cb =>
    show w.Le (if w.aborted then w else w.timerTick cb)
    split
    · exact Wheel.Le.refl w
    · exact timerTick_le w cb

/-- Fewer than `2 ^ 32` additions so far, none of them with an expiry that reaches `2 ^ 32`. -/
def InRange (w : Wheel) : Prop :=
  w.added < 2 ^ 32 ∧ ∀ n t wait, Event.add n t wait ∈ w.log → t + max 1 (wait / 10) < 2 ^ 32

theorem InRange.of_le {w w' : Wheel} (h : InRange w') (hle : w.Le w') : InRange w :=
  ⟨Nat.lt_of_le_of_lt hle.1 h.1, fun n t wait hm => h.2 n t wait (hle.2.subset hm)⟩

/-! ## The invariant of the flat list -/

/-- Live timers are in the order of addition, carry their own id and are not overdue. -/
structure Flat.Inv (f : Flat) : Prop where
  time_lt : f.time < 2 ^ 32
  expire : ∀ n ∈ f.live, f.time ≤ n.expire ∧ n.expire < 2 ^ 32
  sorted : f.live.Pairwise (fun m n => m.seq < n.seq)
  seq_lt : ∀ n ∈ f.live, n.seq < f.added
  id_eq : ∀ n ∈ f.live, n.id = n.seq + 1

/-- No live timer is due now: every due one has run. -/
def Flat.Quiet (f : Flat) : Prop := ∀ n ∈ f.live, n.expire ≠ f.time

theorem Flat.Inv.nodup {f : Flat} (hf : f.Inv) : f.live.Nodup :=
  hf.sorted.imp fun {m n} h e => by rw [e] at h; exact Nat.lt_irrefl _ h

theorem Flat.Inv.seq_inj {f : Flat} (hf : f.Inv) :
    ∀ m ∈ f.live, ∀ n ∈ f.live, m.seq = n.seq → m = n := by
  have hnd : (f.live.map (·.seq)).Nodup :=
    List.pairwise_map.mpr (hf.sorted.imp fun h => Nat.ne_of_lt h)
  intro m hm n hn he
  exact List.inj_on_of_nodup_map hnd hm hn he

theorem Flat.Inv.sublist {f : Flat} (hf : f.Inv) {live : List TimerNode} {log : List Event}
    (h : live.Sublist f.live) : Flat.Inv { f with live := live, log := log } :=
  ⟨hf.time_lt, fun n hn => hf.expire n (h.subset hn), hf.sorted.sublist h,
    fun n hn => hf.seq_lt n (h.subset hn), fun n hn => hf.id_eq n (h.subset hn)⟩

theorem Flat.add_inv {f : Flat} (hf : f.Inv) {a : AddReq}
    (hb : f.time + max 1 (a.wait / 10) < 2 ^ 32) : (f.add a).Inv := by
  refine ⟨hf.time_lt, ?_, ?_, ?_, ?_⟩
  · intro n hn
    rcases List.mem_append.mp hn with hn | hn
    · exact hf.expire n hn
    · rw [List.mem_singleton.mp hn]
      exact ⟨Nat.le_add_right _ _, hb⟩
  · refine List.pairwise_append.mpr ⟨hf.sorted, List.pairwise_singleton _ _, ?_⟩
    intro m hm n hn
    rw [List.mem_singleton.mp hn]
    exact hf.seq_lt m hm
  · intro n hn
    rcases List.mem_append.mp hn with hn | hn
    · exact Nat.lt_succ_of_lt (hf.seq_lt n hn)
    · rw [List.mem_singleton.mp hn]; exact Nat.lt_succ_self _
  · intro n hn
    rcases List.mem_append.mp hn with hn | hn
    · exact hf.id_eq n hn
    · rw [List.mem_singleton.mp hn]; rfl

/-- An addition is never due at once. -/
theorem Flat.add_due (f : Flat) (a : AddReq) :
    (f.add a).live.filter (fun n => n.expire = f.time) =
      f.live.filter (fun n => n.expire = f.time) := by
  have : (f.node a).expire ≠ f.time := by simp only [Flat.node]; omega
  simp [Flat.add, this]

/-! ## Simulation -/

/-- A live timer that belongs into slot `s` and is not due yet. -/
def slotted (time : Nat) (s : Slot) (n : TimerNode) : Bool :=
  decide (n.expire ≠ time ∧ place n.expire time = s)

/-- The wheel holds the live timers of `f`, those due now apart: `timer_execute` has detached
them. -/
structure Sim (w : Wheel) (f : Flat) : Prop where
  ok : w.aborted = false
  time : w.time = f.time
  index : w.index = f.added
  added : w.added = f.added
  log : w.log = f.log
  slots : ∀ s, w.slots s = f.live.filter (slotted f.time s)
  h : ∀ k, w.h k = (f.live.filter (fun n => HASH n.id = k)).reverse

/-- An addition in range gets the next id and an expiry that does not wrap. -/
theorem coretimerAdd_bounds {w : Wheel} {f : Flat} (hs : Sim w f) (a : AddReq)
    (hr : InRange (w.coretimerAdd a)) :
    (w.index + 1) % 2 ^ 32 = f.added + 1 ∧ f.time + max 1 (a.wait / 10) < 2 ^ 32 ∧
      (w.time + waitTicks a.wait) % 2 ^ 32 = f.time + max 1 (a.wait / 10) := by
  have hadd : (w.coretimerAdd a).added = w.added + 1 := by
    unfold Wheel.coretimerAdd
    rw [if_neg (by simp [hs.ok])]
    rw [(addtoHash_log _ _).2, (addtoList_log _ _).2]; rfl
  have hidx : (w.index + 1) % 2 ^ 32 = f.added + 1 := by
    have := hr.1
    rw [hadd, hs.added] at this
    rw [hs.index]; exact Nat.mod_eq_of_lt this
  have hb : f.time + max 1 (a.wait / 10) < 2 ^ 32 := by
    have hm : ∃ n, Event.add n w.time a.wait ∈ (w.coretimerAdd a).log := by
      unfold Wheel.coretimerAdd
      rw [if_neg (by simp [hs.ok]), (addtoHash_log _ _).1, (addtoList_log _ _).1]
      exact ⟨_, List.mem_append_right _ (List.mem_singleton.mpr rfl)⟩
    obtain ⟨n, hn⟩ := hm
    rw [← hs.time]
    exact hr.2 n w.time a.wait hn
  refine ⟨hidx, hb, ?_⟩
  rw [hs.time, waitTicks_eq_max]
  exact Nat.mod_eq_of_lt hb

theorem coretimerAdd_sim {w : Wheel} {f : Flat} (hs : Sim w f) (hf : f.Inv) (a : AddReq)
    (hr : InRange (w.coretimerAdd a)) : Sim (w.coretimerAdd a) (f.add a) ∧ (f.add a).Inv := by
  obtain ⟨hidx, hb, hexp⟩ := coretimerAdd_bounds hs a hr
  refine ⟨?_, Flat.add_inv hf hb⟩
  have hnode : (f.node a).expire = f.time + max 1 (a.wait / 10) := rfl
  have hlt : ¬ (f.node a).expire < w.time := by rw [hnode, hs.time]; omega
  have heq : w.coretimerAdd a =
      { w with
        index := f.added + 1
        added := w.added + 1
        log := w.log ++ [Event.add (f.node a) w.time a.wait]
        slots := Function.update w.slots (place (f.node a).expire w.time)
          (w.slots (place (f.node a).expire w.time) ++ [f.node a])
        h := Function.update w.h (HASH (f.node a).id) (f.node a :: w.h (HASH (f.node a).id)) } := by
    unfold Wheel.coretimerAdd
    rw [if_neg (by simp [hs.ok])]
    dsimp only
    rw [hidx, hexp, hs.added]
    change ((Wheel.record _ (.add (f.node a) w.time a.wait)).addtoList (f.node a)).addtoHash
      (f.node a) = _
    unfold Wheel.addtoHash Wheel.addtoList Wheel.record
    simp only [hs.ok, Bool.false_eq_true, if_false, hlt]
  rw [heq]
  refine ⟨hs.ok, hs.time, rfl, congrArg (· + 1) hs.added, ?_, ?_, ?_⟩
  · show w.log ++ [Event.add (f.node a) w.time a.wait] =
      f.log ++ [Event.add (f.node a) f.time a.wait]
    rw [hs.log, hs.time]
  · intro s
    have hne : (f.node a).expire ≠ f.time := by rw [hnode]; omega
    show Function.update w.slots _ _ s = _
    rw [hs.time]
    by_cases hsp : s = place (f.node a).expire f.time
    · subst hsp
      rw [Function.update_self, hs.slots]
      simp [Flat.add, List.filter_append, slotted, hne]
    · rw [Function.update_of_ne hsp, hs.slots]
      have : ¬ place (f.node a).expire f.time = s := fun h => hsp h.symm
      simp [Flat.add, List.filter_append, slotted, this]
  · intro k
    show Function.update w.h _ _ k = _
    by_cases hk : k = HASH (f.node a).id
    · subst hk
      rw [Function.update_self, hs.h]
      simp [Flat.add, List.filter_append]
    · rw [Function.update_of_ne hk, hs.h]
      have : ¬ HASH (f.node a).id = k := fun h => hk h.symm
      simp [Flat.add, List.filter_append, this]

theorem foldl_add_sim (as : List AddReq) {w : Wheel} {f : Flat} (hs : Sim w f) (hf : f.Inv)
    (hr : InRange (as.foldl Wheel.coretimerAdd w)) :
    Sim (as.foldl Wheel.coretimerAdd w) (as.foldl Flat.add f) ∧ (as.foldl Flat.add f).Inv ∧
      (as.foldl Flat.add f).time = f.time ∧
      (as.foldl Flat.add f).live.filter (fun n => n.expire = f.time) =
        f.live.filter (fun n => n.expire = f.time) := by
  induction as generalizing w f with
  | nil => exact ⟨hs, hf, rfl, rfl⟩
  | cons a as ih =>
    obtain ⟨hs₁, hf₁⟩ := coretimerAdd_sim hs hf a (hr.of_le (foldl_add_le as _))
    obtain ⟨hs₂, hf₂, ht, hd⟩ := ih hs₁ hf₁ hr
    exact ⟨hs₂, hf₂, ht, hd.trans (Flat.add_due f a)⟩

/-- Erasing one node commutes with selecting a sublist. -/
theorem erase_filter_nodup {l : List TimerNode} (hl : l.Nodup) (r : TimerNode)
    (p : TimerNode → Bool) : (l.filter p).erase r = (l.erase r).filter p := by
  rw [(hl.filter p).erase_eq_filter, hl.erase_eq_filter, List.filter_filter, List.filter_filter]
  simp only [Bool.and_comm]

theorem erase_reverse_filter {l : List TimerNode} (hl : l.Nodup) (r : TimerNode)
    (p : TimerNode → Bool) :
    (l.filter p).reverse.erase r = ((l.erase r).filter p).reverse := by
  rw [(List.nodup_reverse.mpr (hl.filter p)).erase_eq_filter, List.filter_reverse,
    ← (hl.filter p).erase_eq_filter, erase_filter_nodup hl]

/-- `coretimer_del` finds a live timer through its hash chain iff the flat list has it. -/
theorem find_hash_eq {w : Wheel} {f : Flat} (hs : Sim w f) (hf : f.Inv) (id : Nat) :
    (w.h (HASH id)).find? (fun r => r.id = id) = f.live.find? (fun r => r.id = id) := by
  rw [hs.h]
  have hid : ∀ m ∈ f.live, ∀ n ∈ f.live, m.id = n.id → m = n := by
    intro m hm n hn he
    rw [hf.id_eq m hm, hf.id_eq n hn] at he
    exact hf.seq_inj m hm n hn (by omega)
  cases h : f.live.find? (fun r => r.id = id) with
  | none =>
    rw [List.find?_eq_none] at h ⊢
    intro r hr
    exact h r (List.mem_filter.mp (List.mem_reverse.mp hr)).1
  | some r =>
    have hrm := List.mem_of_find?_eq_some h
    have hri : r.id = id := by simpa using List.find?_some h
    have hmem : r ∈ (f.live.filter (fun n => HASH n.id = HASH id)).reverse := by
      simp [hrm, hri]
    cases h' : (f.live.filter (fun n => HASH n.id = HASH id)).reverse.find?
        (fun r => r.id = id) with
    | none =>
      rw [List.find?_eq_none] at h'
      exact absurd hri (by simpa using h' r hmem)
    | some r' =>
      have hm' := List.mem_of_find?_eq_some h'
      have hi' : r'.id = id := by simpa using List.find?_some h'
      have hml : r' ∈ f.live := (List.mem_filter.mp (List.mem_reverse.mp hm')).1
      rw [hid r' hml r hrm (hi'.trans hri.symm)]

theorem coretimerDel_sim {w : Wheel} {f : Flat} (hs : Sim w f) (hf : f.Inv) (id : Nat) :
    Sim (w.coretimerDel id) (f.del id) ∧ (f.del id).Inv := by
  unfold Wheel.coretimerDel Flat.del
  rw [if_neg (by simp [hs.ok]), find_hash_eq hs hf]
  split
  · exact ⟨hs, hf⟩
  · rename_i r _
    refine ⟨⟨hs.ok, hs.time, hs.index, hs.added, ?_, ?_, ?_⟩, hf.sublist List.erase_sublist⟩
    · show w.log ++ [Event.del r] = f.log ++ [Event.del r]
      rw [hs.log]
    · intro s
      show (w.slots s).erase r = _
      rw [hs.slots, erase_filter_nodup hf.nodup]
    · intro k
      show (w.h k).erase r = _
      rw [hs.h, erase_reverse_filter hf.nodup]

/-- Calling one due timer: it leaves its hash chain; its slot was emptied before. -/
theorem run_sim {w : Wheel} {f : Flat} (hs : Sim w f) (hf : f.Inv) {r : TimerNode}
    (hr : r.expire = f.time) :
    Sim ((w.delfromHash r).record (.run r))
      { f with live := f.live.erase r, log := f.log ++ [Event.run r] } := by
  refine ⟨hs.ok, hs.time, hs.index, hs.added, ?_, ?_, ?_⟩
  · show w.log ++ [Event.run r] = f.log ++ [Event.run r]
    rw [hs.log]
  · intro s
    show w.slots s = (f.live.erase r).filter (slotted f.time s)
    rw [hs.slots, ← erase_filter_nodup hf.nodup, List.erase_of_not_mem]
    simp [slotted, hr]
  · intro k
    show (w.h k).erase r = _
    rw [hs.h, erase_reverse_filter hf.nodup]

/-- The loop of `timer_execute` over the timers due now, whatever its callbacks add. -/
theorem executeLoop_sim (rs : List TimerNode) (cb : List (List AddReq)) {w : Wheel} {f : Flat}
    (hs : Sim w f) (hf : f.Inv) (hrs : f.live.filter (fun n => n.expire = f.time) = rs)
    (hr : InRange (Wheel.executeLoop rs cb w).1) :
    Sim (Wheel.executeLoop rs cb w).1 (Flat.runDue rs cb f) ∧ (Flat.runDue rs cb f).Inv ∧
      (Flat.runDue rs cb f).Quiet := by
  induction rs generalizing cb w f with
  | nil =>
    refine ⟨hs, hf, fun n (hn : n ∈ f.live) (he : n.expire = f.time) => ?_⟩
    have : n ∈ f.live.filter (fun n => n.expire = f.time) := by simp [hn, he]
    rw [hrs] at this
    cases this
  | cons r rs ih =>
    have hmem : r ∈ f.live.filter (fun n => n.expire = f.time) := by rw [hrs]; simp
    have hexp : r.expire = f.time := by simpa using (List.mem_filter.mp hmem).2
    have hs₁ := run_sim hs hf hexp
    have hf₁ : Flat.Inv { f with live := f.live.erase r, log := f.log ++ [Event.run r] } :=
      hf.sublist List.erase_sublist
    have hrest : (f.live.erase r).filter (fun n => n.expire = f.time) = rs := by
      rw [← erase_filter_nodup hf.nodup, hrs, List.erase_cons_head]
    have hunf : Wheel.executeLoop (r :: rs) cb w = Wheel.executeLoop rs cb.tail
        ((cb.headD []).foldl Wheel.coretimerAdd ((w.delfromHash r).record (.run r))) := by
      rw [Wheel.executeLoop, if_neg (by simp [hs.ok])]
    rw [hunf] at hr ⊢
    obtain ⟨hs₂, hf₂, ht₂, hd₂⟩ :=
      foldl_add_sim (cb.headD []) hs₁ hf₁ (hr.of_le (executeLoop_le _ _ _))
    refine ih cb.tail hs₂ hf₂ ?_ hr
    rw [ht₂]
    exact hd₂.trans hrest

/-- As `Sim`, with the due timers still in their slot. -/
structure SimAll (w : Wheel) (f : Flat) : Prop where
  ok : w.aborted = false
  time : w.time = f.time
  index : w.index = f.added
  added : w.added = f.added
  log : w.log = f.log
  slots : ∀ s, w.slots s = f.live.filter (fun n => place n.expire f.time = s)
  h : ∀ k, w.h k = (f.live.filter (fun n => HASH n.id = k)).reverse

theorem Sim.all {w : Wheel} {f : Flat} (hs : Sim w f) (hq : f.Quiet) : SimAll w f := by
  refine ⟨hs.ok, hs.time, hs.index, hs.added, hs.log, fun s => ?_, hs.h⟩
  rw [hs.slots]
  refine List.filter_congr fun n hn => ?_
  have hne : n.expire ≠ f.time := hq n hn
  simp [slotted, hne]

/-- The slot `timer_execute` looks at holds exactly the timers due now. -/
theorem SimAll.due {w : Wheel} {f : Flat} (hs : SimAll w f) :
    w.slots (.near (w.time &&& TIME_NEAR_MASK)) = f.live.filter (fun n => n.expire = f.time) := by
  rw [hs.slots, hs.time]
  simp only [place_eq_near_self]

/-- `list_clear` on that slot. -/
theorem SimAll.clear {w : Wheel} {f : Flat} (hs : SimAll w f) :
    Sim { w with slots := Function.update w.slots (.near (w.time &&& TIME_NEAR_MASK)) [] } f := by
  refine ⟨hs.ok, hs.time, hs.index, hs.added, hs.log, fun s => ?_, hs.h⟩
  show Function.update w.slots _ _ s = _
  rw [hs.time]
  by_cases hne : s = .near (f.time &&& TIME_NEAR_MASK)
  · subst hne
    rw [Function.update_self]
    symm
    refine List.filter_eq_nil_iff.mpr fun n _ => ?_
    simp [slotted, place_eq_near_self]
  · rw [Function.update_of_ne hne, hs.slots]
    refine List.filter_congr fun n _ => ?_
    by_cases hp : place n.expire f.time = s
    · have : n.expire ≠ f.time := fun he => hne (by rw [← hp, place_eq_near_self.mpr he])
      simp [slotted, hp, this]
    · simp [slotted, hp]

theorem timerExecute_sim {w : Wheel} {f : Flat} (hs : SimAll w f) (hf : f.Inv)
    (cb : List (List AddReq)) (hr : InRange (w.timerExecute cb).1) :
    Sim (w.timerExecute cb).1
        (Flat.runDue (f.live.filter (fun n => n.expire = f.time)) cb f) ∧
      (Flat.runDue (f.live.filter (fun n => n.expire = f.time)) cb f).Inv ∧
      (Flat.runDue (f.live.filter (fun n => n.expire = f.time)) cb f).Quiet := by
  unfold Wheel.timerExecute at hr ⊢
  dsimp only at hr ⊢
  rw [hs.due] at hr ⊢
  exact executeLoop_sim _ cb hs.clear hf rfl hr

/-- The first `timer_execute` of a tick finds nothing to run. -/
theorem timerExecute_quiet {w : Wheel} {f : Flat} (hs : Sim w f) (hq : f.Quiet)
    (cb : List (List AddReq)) : Sim (w.timerExecute cb).1 f ∧ (w.timerExecute cb).2 = cb := by
  have hdue : f.live.filter (fun n => n.expire = f.time) = [] :=
    List.filter_eq_nil_iff.mpr fun n hn => by simp [hq n hn]
  unfold Wheel.timerExecute
  dsimp only
  rw [(hs.all hq).due, hdue]
  exact ⟨(hs.all hq).clear, rfl⟩

/-- The loop of `list_move`: it appends every node to its slot for the new time. -/
theorem foldl_addtoList_slots (rs : List TimerNode) {w : Wheel} (hok : w.aborted = false)
    (hrs : ∀ n ∈ rs, w.time ≤ n.expire) :
    ∃ slots, rs.foldl Wheel.addtoList w = { w with slots := slots } ∧
      ∀ s, slots s = w.slots s ++ rs.filter (fun n => place n.expire w.time = s) := by
  induction rs generalizing w with
  | nil => exact ⟨w.slots, rfl, fun s => by simp⟩
  | cons r rs ih =>
    have hr : ¬ r.expire < w.time := Nat.not_lt.mpr (hrs r List.mem_cons_self)
    have hadd : w.addtoList r =
        { w with
          slots := Function.update w.slots (place r.expire w.time)
            (w.slots (place r.expire w.time) ++ [r]) } := by
      unfold Wheel.addtoList
      rw [if_neg (by simp [hok]), if_neg hr]
    rw [List.foldl_cons, hadd]
    obtain ⟨slots, heq, hsl⟩ := @ih
      { w with
        slots := Function.update w.slots (place r.expire w.time)
          (w.slots (place r.expire w.time) ++ [r]) }
      hok (fun n hn => hrs n (List.mem_cons_of_mem _ hn))
    refine ⟨slots, heq, fun s => ?_⟩
    rw [hsl s]
    by_cases hsp : s = place r.expire w.time
    · subst hsp
      simp
    · have : ¬ place r.expire w.time = s := fun h => hsp h.symm
      simp [Function.update_of_ne hsp, this]

/-- A cascade restores the canonical slots for the new time. -/
theorem listMove_slots {w : Wheel} {live : List TimerNode} {c l idx : Nat}
    (hok : w.aborted = false) (htime : w.time = c + 1) (hc : c + 1 < 2 ^ 32)
    (hexp : ∀ n ∈ live, c + 1 ≤ n.expire ∧ n.expire < 2 ^ 32)
    (hm : shiftMove (c + 1) = .move l idx)
    (hsl : ∀ s, w.slots s = live.filter (fun n => place n.expire c = s)) :
    ∃ slots, w.listMove l idx = { w with slots := slots } ∧
      ∀ s, slots s = live.filter (fun n => place n.expire (c + 1) = s) := by
  unfold Wheel.listMove
  dsimp only
  have hmoved : ∀ n ∈ w.slots (.level l idx), n ∈ live ∧ place n.expire c = .level l idx := by
    intro n hn
    rw [hsl] at hn
    simpa using hn
  obtain ⟨slots, heq, happ⟩ := foldl_addtoList_slots (w.slots (.level l idx))
    (w := { w with slots := Function.update w.slots (.level l idx) [] }) hok
    (fun n hn => htime ▸ (hexp n (hmoved n hn).1).1)
  refine ⟨slots, heq, fun s => ?_⟩
  rw [happ s]
  dsimp only
  rw [htime, hsl (.level l idx), List.filter_filter]
  have hstay : ∀ n ∈ live, place n.expire c ≠ .level l idx →
      place n.expire (c + 1) = place n.expire c := by
    intro n hn hne
    refine place_succ_of_ne (hexp n hn).1 ?_ (by rw [hm]; simp)
    intro l' idx' hm'
    rw [hm] at hm'
    cases hm'
    exact hne
  by_cases hs : s = .level l idx
  -- the moved slot itself ends empty
  · subst hs
    rw [Function.update_self, List.nil_append]
    refine List.filter_congr fun n hn => ?_
    by_cases hp : place n.expire c = .level l idx
    · simp [hp]
    · simp [hp, hstay n hn hp]
  · rw [Function.update_of_ne hs, hsl s]
    by_cases hrecv : ∃ n ∈ live, place n.expire c = .level l idx ∧ place n.expire (c + 1) = s
    -- a receiving slot held nothing before
    · obtain ⟨n, hn, hpn, hsn⟩ := hrecv
      have hempty : live.filter (fun n => place n.expire c = s) = [] := by
        refine List.filter_eq_nil_iff.mpr fun n' hn' hp' => ?_
        have hp'' : place n'.expire c = s := by simpa using hp'
        have hstay' : place n'.expire (c + 1) = s := by
          rw [hstay n' hn' (by rw [hp'']; exact hs), hp'']
        have := place_cascade_target (hexp n hn).2 hc (hexp n' hn').1 hm hpn
          (hstay'.trans hsn.symm)
        exact hs (hp''.symm.trans this)
      rw [hempty, List.nil_append]
      refine List.filter_congr fun n' hn' => ?_
      by_cases hs' : place n'.expire (c + 1) = s
      · have := place_cascade_target (hexp n hn).2 hc (hexp n' hn').1 hm hpn (hs'.trans hsn.symm)
        simp [hs', this]
      · simp [hs']
    · have hnone : live.filter (fun n => decide (place n.expire (c + 1) = s) &&
          decide (place n.expire c = .level l idx)) = [] := by
        refine List.filter_eq_nil_iff.mpr fun n hn hb => hrecv ⟨n, hn, ?_⟩
        simpa [and_comm] using hb
      rw [hnone, List.append_nil]
      refine List.filter_congr fun n hn => ?_
      by_cases hp : place n.expire c = .level l idx
      · have h₁ : ¬ place n.expire (c + 1) = s := fun h => hrecv ⟨n, hn, hp, h⟩
        have h₂ : ¬ Slot.level l idx = s := fun h => hs h.symm
        simp [hp, h₁, h₂]
      · rw [hstay n hn hp]

theorem timerShift_sim {w : Wheel} {f : Flat} (hs : Sim w f) (hf : f.Inv) (hq : f.Quiet) :
    SimAll w.timerShift
        { f with
          time := (f.time + 1) % 2 ^ 32
          log := f.log ++ [Event.tick ((f.time + 1) % 2 ^ 32)] } ∧
      Flat.Inv { f with
        time := (f.time + 1) % 2 ^ 32
        log := f.log ++ [Event.tick ((f.time + 1) % 2 ^ 32)] } := by
  have hall := hs.all hq
  have hfut : ∀ n ∈ f.live, f.time + 1 ≤ n.expire ∧ n.expire < 2 ^ 32 := fun n hn =>
    ⟨Nat.lt_of_le_of_ne (hf.expire n hn).1 (Ne.symm (hq n hn)), (hf.expire n hn).2⟩
  have hslots : ∃ slots,
      w.timerShift =
        { w with
          time := (f.time + 1) % 2 ^ 32
          log := w.log ++ [Event.tick ((f.time + 1) % 2 ^ 32)]
          slots := slots } ∧
      ∀ s, slots s = f.live.filter (fun n => place n.expire ((f.time + 1) % 2 ^ 32) = s) := by
    unfold Wheel.timerShift
    rw [if_neg (by simp [hs.ok]), hs.time]
    dsimp only
    by_cases hwrap : f.time + 1 < 2 ^ 32
    · rw [Nat.mod_eq_of_lt hwrap]
      cases hm : shiftMove (f.time + 1) with
      | turning => exact absurd hm (shiftMove_ne_turning hwrap)
      | noMove =>
        refine ⟨w.slots, rfl, fun s => ?_⟩
        rw [hall.slots]
        refine List.filter_congr fun n hn => ?_
        have hz := (shiftMove_noMove_iff (Nat.succ_ne_zero f.time)).mp hm
        rw [place_congr (show f.time / 256 = (f.time + 1) / 256 by omega)]
      | move l idx =>
        exact listMove_slots (w := ({ w with time := f.time + 1 } : Wheel).record
          (.tick (f.time + 1))) hs.ok rfl hwrap hfut hm hall.slots
    -- the wrap of the clock finds no live timer
    · have hlive : f.live = [] := by
        refine List.eq_nil_iff_forall_not_mem.mpr fun n hn => ?_
        have := hfut n hn
        omega
      have hempty : ∀ s, w.slots s = [] := fun s => by rw [hall.slots, hlive]; rfl
      have h0 : (f.time + 1) % 2 ^ 32 = 0 := by have := hf.time_lt; omega
      rw [h0, hlive]
      refine ⟨w.slots, ?_, fun s => by simp [hempty s]⟩
      have hm : shiftMove 0 = .move 3 0 := rfl
      rw [hm]
      show Wheel.listMove (({ w with time := 0 } : Wheel).record (.tick 0)) 3 0 = _
      unfold Wheel.listMove Wheel.record
      dsimp only
      rw [hempty, List.foldl_nil]
      have hupd : Function.update w.slots (.level 3 0) [] = w.slots := by
        rw [← hempty (.level 3 0), Function.update_eq_self]
      rw [hupd]
  obtain ⟨slots, heq, hsl⟩ := hslots
  refine ⟨?_, ?_⟩
  · rw [heq]
    refine ⟨hs.ok, rfl, hs.index, hs.added, ?_, hsl, hs.h⟩
    show w.log ++ _ = f.log ++ _
    rw [hs.log]
  · refine ⟨Nat.mod_lt _ (by norm_num), fun n hn => ?_, hf.sorted, hf.seq_lt, hf.id_eq⟩
    have := hfut n hn
    have hlt : f.time + 1 < 2 ^ 32 := by omega
    show (f.time + 1) % 2 ^ 32 ≤ n.expire ∧ n.expire < 2 ^ 32
    rw [Nat.mod_eq_of_lt hlt]
    exact this

theorem timerTick_sim {w : Wheel} {f : Flat} (hs : Sim w f) (hf : f.Inv) (hq : f.Quiet)
    (cb : List (List AddReq)) (hr : InRange (w.timerTick cb)) :
    Sim (w.timerTick cb) (f.tick cb) ∧ (f.tick cb).Inv ∧ (f.tick cb).Quiet := by
  obtain ⟨hs₁, hcb⟩ := timerExecute_quiet hs hq cb
  obtain ⟨hs₂, hf₂⟩ := timerShift_sim hs₁ hf hq
  have htick : w.timerTick cb =
      (((w.timerExecute cb).1.timerShift.timerExecute cb).1).record .tock := by
    show ((w.timerExecute cb).1.timerShift.timerExecute (w.timerExecute cb).2).1.record .tock = _
    rw [hcb]
  rw [htick] at hr ⊢
  obtain ⟨hs₃, hf₃, hq₃⟩ := timerExecute_sim hs₂ hf₂ cb (hr.of_le (record_le _ _))
  refine ⟨⟨hs₃.ok, hs₃.time, hs₃.index, hs₃.added, ?_, hs₃.slots, hs₃.h⟩, ?_, hq₃⟩
  · exact congrArg (· ++ [Event.tock]) hs₃.log
  · exact hf₃.sublist (List.Sublist.refl _)

theorem step_sim {w : Wheel} {f : Flat} (hs : Sim w f) (hf : f.Inv) (hq : f.Quiet) (op : Op)
    (hr : InRange (w.step op)) :
    Sim (w.step op) (f.step op) ∧ (f.step op).Inv ∧ (f.step op).Quiet := by
  cases op with
  | add a =>
    obtain ⟨hs₁, hf₁⟩ := coretimerAdd_sim hs hf a hr
    refine ⟨hs₁, hf₁, fun n hn => ?_⟩
    rcases List.mem_append.mp hn with hn | hn
    · exact hq n hn
    · rw [List.mem_singleton.mp hn]
      show f.time + max 1 (a.wait / 10) ≠ f.time
      omega
  | del id =>
    obtain ⟨hs₁, hf₁⟩ := coretimerDel_sim hs hf id
    refine ⟨hs₁, hf₁, ?_⟩
    show (f.del id).Quiet
    unfold Flat.del
    split
    · exact hq
    · exact fun n hn => hq n (List.mem_of_mem_erase hn)
  | tick cb =>
    have hstep : w.step (.tick cb) = w.timerTick cb := if_neg (by simp [hs.ok])
    rw [hstep] at hr ⊢
    exact timerTick_sim hs hf hq cb hr

theorem foldl_step_le (ops : List Op) (w : Wheel) : w.Le (ops.foldl Wheel.step w) := by
  induction ops generalizing w with
  | nil => exact Wheel.Le.refl w
  | cons op ops ih => exact (step_le w op).trans (ih _)

theorem foldl_step_sim (ops : List Op) {w : Wheel} {f : Flat} (hs : Sim w f) (hf : f.Inv)
    (hq : f.Quiet) (hr : InRange (ops.foldl Wheel.step w)) :
    Sim (ops.foldl Wheel.step w) (ops.foldl Flat.step f) ∧ (ops.foldl Flat.step f).Inv ∧
      (ops.foldl Flat.step f).Quiet := by
  induction ops generalizing w f with
  | nil => exact ⟨hs, hf, hq⟩
  | cons op ops ih =>
    obtain ⟨hs₁, hf₁, hq₁⟩ := step_sim hs hf hq op (hr.of_le (foldl_step_le ops _))
    exact ih hs₁ hf₁ hq₁ hr

theorem startAt_sim {t : Nat} (ht : t < 2 ^ 32) :
    Sim (startAt t) (Flat.startAt t) ∧ (Flat.startAt t).Inv ∧ (Flat.startAt t).Quiet := by
  refine ⟨⟨rfl, rfl, rfl, rfl, rfl, fun _ => rfl, fun _ => rfl⟩, ?_, fun n hn => by cases hn⟩
  exact ⟨ht, fun n hn => absurd hn List.not_mem_nil, List.Pairwise.nil,
    fun n hn => absurd hn List.not_mem_nil, fun n hn => absurd hn List.not_mem_nil⟩

theorem runFlat_append (ops : List Op) (op : Op) :
    runFlat (ops ++ [op]) = (runFlat ops).step op := by
  simp [runFlat]

/-- **The wheel refines the flat timer list** along every run that stays in range. -/
theorem runWheel_refines (ops : List Op) (hr : InRange (runWheel ops)) :
    Sim (runWheel ops) (runFlat ops) ∧ (runFlat ops).Inv ∧ (runFlat ops).Quiet := by
  obtain ⟨hs, hf, hq⟩ := startAt_sim (t := 0) (by norm_num)
  exact foldl_step_sim ops hs hf hq hr

/-! ## What the parts of the wheel do -/

section Parts

variable {w : Wheel}

/-- A node outside the slot that is moved stays where it is. -/
theorem place_stays {c : Nat} {e : Nat} (hc : c + 1 < 2 ^ 32) (he : c + 1 ≤ e)
    (h : ∀ l idx, shiftMove (c + 1) = .move l idx → place e c ≠ .level l idx) :
    place e (c + 1) = place e c :=
  place_succ_of_ne he h (shiftMove_ne_turning hc)

/-- `timer_shift` moves every node to its slot for the new time. -/
theorem shift_slots (hok : w.aborted = false) (hc : w.time + 1 < 2 ^ 32)
    (hs : ∀ l, ∀ r ∈ w.slots l, w.time + 1 ≤ r.expire ∧ place r.expire w.time = l) :
    ∃ slots, w.timerShift = { w with
        time := w.time + 1
        log := w.log ++ [.tick (w.time + 1)]
        slots := slots } ∧
      ∀ l r, r ∈ slots l ↔ place r.expire (w.time + 1) = l ∧ r ∈ w.slots (place r.expire w.time) := by
  rw [Wheel.timerShift, if_neg (by simp [hok]), Nat.mod_eq_of_lt hc]
  dsimp only
  cases hm : shiftMove (w.time + 1) with
  | turning => exact absurd hm (shiftMove_ne_turning hc)
  | noMove =>
    have hstay : ∀ l, ∀ r ∈ w.slots l, place r.expire (w.time + 1) = l := fun l r hr =>
      (place_stays hc (hs l r hr).1 (by simp [hm])).trans (hs l r hr).2
    refine ⟨w.slots, rfl, fun l r => ⟨fun hr => ⟨hstay l r hr, ?_⟩, ?_⟩⟩
    · rwa [(hs l r hr).2]
    · rintro ⟨hl, hr⟩
      rwa [← hl, hstay _ r hr]
  | move m idx =>
    set v : Wheel := { w with
      time := w.time + 1
      log := w.log ++ [.tick (w.time + 1)]
      slots := Function.update w.slots (.level m idx) [] } with hv
    obtain ⟨slots, heq, happ⟩ := foldl_addtoList_slots (w.slots (.level m idx)) (w := v) hok
      fun n hn => (hs _ n hn).1
    refine ⟨slots, heq, fun l r => ?_⟩
    have hmem : r ∈ slots l ↔ l ≠ .level m idx ∧ r ∈ w.slots l ∨
        place r.expire (w.time + 1) = l ∧ r ∈ w.slots (.level m idx) := by
      rw [happ l, List.mem_append, List.mem_filter]
      by_cases hl : l = .level m idx
      · subst hl
        simp [hv, and_comm]
      · simp [hv, hl, and_comm]
    have hstay : ∀ l', l' ≠ .level m idx → r ∈ w.slots l' → place r.expire (w.time + 1) = l' := by
      intro l' hne hr
      refine (place_stays hc (hs l' r hr).1 fun m' idx' hm' => ?_).trans (hs l' r hr).2
      rw [hm] at hm'
      cases hm'
      rw [(hs l' r hr).2]
      exact hne
    rw [hmem]
    constructor
    · rintro (⟨hne, hr⟩ | ⟨hl, hr⟩)
      · exact ⟨hstay l hne hr, by rwa [(hs l r hr).2]⟩
      · exact ⟨hl, by rwa [(hs _ r hr).2]⟩
    · rintro ⟨hl, hr⟩
      by_cases hp : place r.expire w.time = .level m idx
      · exact .inr ⟨hl, hp ▸ hr⟩
      · refine .inl ?_
        rw [← hl, hstay _ hp hr]
        exact ⟨hp, hr⟩

/-- The locked part of `coretimer_add` with its assertion met. -/
theorem insert_eq {r : TimerNode} (hok : w.aborted = false) (hr : w.time ≤ r.expire) :
    ∃ h, (w.addtoList r).addtoHash r = { w with
      slots := Function.update w.slots (place r.expire w.time)
        (w.slots (place r.expire w.time) ++ [r])
      h := h } := by
  have hadd : w.addtoList r = { w with
      slots := Function.update w.slots (place r.expire w.time)
        (w.slots (place r.expire w.time) ++ [r]) } := by
    rw [Wheel.addtoList, if_neg (by simp [hok]), if_neg (Nat.not_lt.mpr hr)]
  rw [hadd, Wheel.addtoHash, if_neg (by simp [hok])]
  exact ⟨_, rfl⟩

/-- Who is in a slot that got one more node. -/
theorem mem_update_snoc {slots : Slot → List TimerNode} {l l' : Slot} {r n : TimerNode} :
    n ∈ Function.update slots l (slots l ++ [r]) l' ↔ n ∈ slots l' ∨ l' = l ∧ n = r := by
  by_cases hl : l' = l
  · subst hl
    simp
  · simp [hl]

/-- Who is left when a slot is emptied. -/
theorem mem_update_nil {slots : Slot → List TimerNode} {l l' : Slot} {n : TimerNode} :
    n ∈ Function.update slots l [] l' ↔ l' ≠ l ∧ n ∈ slots l' := by
  by_cases hl : l' = l
  · subst hl
    simp
  · simp [hl]

end Parts

end HoNet.Timer
