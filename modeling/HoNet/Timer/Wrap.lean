import HoNet.Timer.History

/-!
# The timer at the wrap of its clock

From any value of the 32-bit clock with empty lists a timer runs in exactly the tick it waits for, as
long as its expiry does not pass `2 ^ 32`. `timer_shift` has a case for a clock that becomes 0, but
no timer ever waits for it: where the expiry wraps it is less than the time, and `addto_list` stops
on its assertion.

* `fate_step` — what one call does to a timer that waits.
* `runs_on_time` — a timer of any run in range.
* `survives_wrap_iff` — the result.
-/

namespace HoNet.Timer

def Op.isTick : Op → Bool
  | .tick _ => true
  | _ => false

/-! ## One timer on the flat list -/

section Flat

variable {n : TimerNode} {f : Flat}

theorem foldl_add_time (as : List AddReq) (f : Flat) : (as.foldl Flat.add f).time = f.time := by
  induction as generalizing f with
  | nil => rfl
  | cons a as ih => exact ih (f.add a)

theorem foldl_add_run (as : List AddReq) :
    Event.run n ∈ (as.foldl Flat.add f).log ↔ Event.run n ∈ f.log := by
  induction as generalizing f with
  | nil => rfl
  | cons a as ih =>
    rw [List.foldl_cons, ih]
    simp [Flat.add]

theorem foldl_add_live (as : List AddReq) (hn : n ∈ f.live) : n ∈ (as.foldl Flat.add f).live := by
  induction as generalizing f with
  | nil => exact hn
  | cons a as ih => exact ih (f := f.add a) (List.mem_append_left _ hn)

theorem runDue_time (rs : List TimerNode) (cb : List (List AddReq)) (f : Flat) :
    (Flat.runDue rs cb f).time = f.time := by
  induction rs generalizing cb f with
  | nil => rfl
  | cons r rs ih =>
    rw [Flat.runDue, ih, foldl_add_time]

theorem runDue_run (rs : List TimerNode) (cb : List (List AddReq)) :
    Event.run n ∈ (Flat.runDue rs cb f).log ↔ Event.run n ∈ f.log ∨ n ∈ rs := by
  induction rs generalizing cb f with
  | nil => simp [Flat.runDue]
  | cons r rs ih =>
    rw [Flat.runDue, ih, foldl_add_run]
    simp [or_assoc]

theorem runDue_live (rs : List TimerNode) (cb : List (List AddReq)) (hn : n ∈ f.live) (hrs : n ∉ rs) :
    n ∈ (Flat.runDue rs cb f).live := by
  induction rs generalizing cb f with
  | nil => exact hn
  | cons r rs ih =>
    rw [List.mem_cons, not_or] at hrs
    refine ih cb.tail (foldl_add_live _ ?_) hrs.2
    exact (List.mem_erase_of_ne hrs.1).mpr hn

/-- The timer `n`, which waits for `d` ticks, after `k` of them. -/
def Fate (n : TimerNode) (d k : Nat) (f : Flat) : Prop :=
  if k < d then n ∈ f.live ∧ f.time + (d - k) = n.expire ∧ Event.run n ∉ f.log
  else Event.run n ∈ f.log

/-- A tick: the timer runs if it is the last one it waits for. -/
theorem fate_tick {d k : Nat} (h : Fate n d k f) (hf : f.Inv) (cb : List (List AddReq)) :
    Fate n d (k + 1) (f.tick cb) := by
  unfold Fate at h ⊢
  have hrun : Event.run n ∈ (f.tick cb).log ↔
      Event.run n ∈ f.log ∨ n ∈ f.live ∧ n.expire = (f.time + 1) % 2 ^ 32 := by
    simp [Flat.tick, runDue_run]
  by_cases hk : k < d
  · rw [if_pos hk] at h
    obtain ⟨hlive, htime, hnot⟩ := h
    have hlt := (hf.expire n hlive).2
    have hnow : (f.time + 1) % 2 ^ 32 = f.time + 1 := Nat.mod_eq_of_lt (by omega)
    rw [hnow] at hrun
    by_cases hk' : k + 1 < d
    · rw [if_pos hk']
      have hne : n.expire ≠ f.time + 1 := by omega
      refine ⟨?_, ?_, fun hm => ?_⟩
      · refine runDue_live _ cb hlive fun hm => hne ?_
        rw [hnow] at hm
        simpa using (List.mem_filter.mp hm).2
      · have htick : (f.tick cb).time = (f.time + 1) % 2 ^ 32 := runDue_time _ cb _
        rw [htick, hnow]
        omega
      · exact (hrun.mp hm).elim hnot fun hx => hne hx.2
    · rw [if_neg hk', hrun]
      exact .inr ⟨hlive, by omega⟩
  · rw [if_neg hk] at h
    rw [if_neg (by omega), hrun]
    exact .inl h

/-- **One call**, which does not delete the timer. -/
theorem fate_step {d k : Nat} (h : Fate n d k f) (hf : f.Inv) (op : Op)
    (hdel : Event.del n ∉ (f.step op).log) :
    Fate n d (k + if op.isTick then 1 else 0) (f.step op) := by
  cases op with
  | tick cb => exact fate_tick h hf cb
  | add a =>
    show Fate n d k (f.add a)
    unfold Fate at h ⊢
    split_ifs at h ⊢ with hk
    · exact ⟨List.mem_append_left _ h.1, h.2.1, by simpa [Flat.add] using h.2.2⟩
    · exact List.mem_append_left _ h
  | del id =>
    show Fate n d k (f.del id)
    have hdel : Event.del n ∉ (f.del id).log := hdel
    rcases Flat.del_cases f id with heq | ⟨r, -, heq⟩ <;> rw [heq] at hdel ⊢
    · exact h
    · have hne : n ≠ r := by
        rintro rfl
        exact hdel (by simp)
      unfold Fate at h ⊢
      split_ifs at h ⊢ with hk
      · exact ⟨(List.mem_erase_of_ne hne).mpr h.1, h.2.1, by simpa using h.2.2⟩
      · exact List.mem_append_left _ h

/-- Every timer the history is about was added before. -/
def Flat.Seen (f : Flat) : Prop := ∀ e ∈ f.log, ∀ n, e.node? = some n → n.seq < f.added

theorem Flat.Seen.snoc {e : Event} {live : List TimerNode} {time added : Nat} (h : f.Seen)
    (hle : f.added ≤ added) (he : ∀ n, e.node? = some n → n.seq < added) :
    Flat.Seen ⟨live, time, added, f.log ++ [e]⟩ := by
  intro x hx m hm
  rcases mem_append_singleton hx with hx | rfl
  · exact Nat.lt_of_lt_of_le (h x hx m hm) hle
  · exact he m hm

theorem foldl_add_seen (as : List AddReq) (h : f.Seen) :
    (as.foldl Flat.add f).Seen ∧ f.added ≤ (as.foldl Flat.add f).added := by
  induction as generalizing f with
  | nil => exact ⟨h, le_rfl⟩
  | cons a as ih =>
    have h₁ : (f.add a).Seen := h.snoc (Nat.le_succ _) fun m hm => by
      obtain rfl : f.node a = m := Option.some.inj hm
      exact Nat.lt_succ_self _
    obtain ⟨hs, hle⟩ := ih h₁
    exact ⟨hs, (Nat.le_succ _).trans hle⟩

theorem runDue_seen (rs : List TimerNode) (cb : List (List AddReq)) (h : f.Seen)
    (hrs : ∀ r ∈ rs, r.seq < f.added) : (Flat.runDue rs cb f).Seen := by
  induction rs generalizing cb f with
  | nil => exact h
  | cons r rs ih =>
    have h₁ : Flat.Seen { f with live := f.live.erase r, log := f.log ++ [.run r] } :=
      h.snoc le_rfl fun m hm => by
        obtain rfl : r = m := Option.some.inj hm
        exact hrs r List.mem_cons_self
    obtain ⟨h₂, hle⟩ := foldl_add_seen (cb.headD []) h₁
    exact ih cb.tail h₂ fun m hm => Nat.lt_of_lt_of_le (hrs m (List.mem_cons_of_mem _ hm)) hle

theorem seen_step (h : f.Seen) (hf : f.Inv) (op : Op) : (f.step op).Seen := by
  cases op with
  | add a => exact (foldl_add_seen [a] h).1
  | del id =>
    show (f.del id).Seen
    rcases Flat.del_cases f id with heq | ⟨r, hr, heq⟩ <;> rw [heq]
    · exact h
    · refine h.snoc le_rfl fun m hm => ?_
      obtain rfl : r = m := Option.some.inj hm
      exact hf.seq_lt r hr
  | tick cb =>
    have h₁ : Flat.Seen { f with
        time := (f.time + 1) % 2 ^ 32, log := f.log ++ [.tick ((f.time + 1) % 2 ^ 32)] } :=
      h.snoc le_rfl fun m hm => by cases hm
    have h₂ := runDue_seen (f.live.filter fun n => n.expire = (f.time + 1) % 2 ^ 32) cb h₁
      fun r hr => hf.seq_lt r (List.mem_filter.mp hr).1
    exact h₂.snoc le_rfl fun m hm => by cases hm

end Flat

/-! ## One timer of a run -/

theorem filed_eq {w : Wheel} {f : Flat} (hs : Sim w f) (a : AddReq)
    (hr : InRange (w.coretimerAdd a)) : w.filed a = f.node a := by
  obtain ⟨hidx, -, hexp⟩ := coretimerAdd_bounds hs a hr
  rw [Wheel.filed, hidx, hexp, hs.added]
  rfl

theorem foldl_step_seen (ops : List Op) {w : Wheel} {f : Flat} (hs : Sim w f) (hf : f.Inv)
    (hq : f.Quiet) (h : f.Seen) (hr : InRange (ops.foldl Wheel.step w)) :
    (ops.foldl Flat.step f).Seen := by
  induction ops generalizing w f with
  | nil => exact h
  | cons op ops ih =>
    obtain ⟨hs₁, hf₁, hq₁⟩ := step_sim hs hf hq op (hr.of_le (foldl_step_le ops _))
    exact ih hs₁ hf₁ hq₁ (seen_step h hf op) hr

theorem foldl_step_fate (ops : List Op) {w : Wheel} {f : Flat} {n : TimerNode} {d k : Nat}
    (hs : Sim w f) (hf : f.Inv) (hq : f.Quiet) (h : Fate n d k f)
    (hr : InRange (ops.foldl Wheel.step w)) (hdel : Event.del n ∉ (ops.foldl Wheel.step w).log) :
    Fate n d (k + ops.countP Op.isTick) (ops.foldl Flat.step f) := by
  induction ops generalizing w f k with
  | nil => exact h
  | cons op ops ih =>
    have hle := foldl_step_le ops (w.step op)
    obtain ⟨hs₁, hf₁, hq₁⟩ := step_sim hs hf hq op (hr.of_le hle)
    have hdel₁ : Event.del n ∉ (f.step op).log := by
      rw [← hs₁.log]
      exact fun hm => hdel (hle.2.subset hm)
    have := ih hs₁ hf₁ hq₁ (fate_step h hf op hdel₁) hr hdel
    rw [List.countP_cons, Nat.add_comm (ops.countP Op.isTick), ← Nat.add_assoc]
    exact this

/-- **A timer of a run in range**, from any time with empty lists: it runs in exactly the last of the
ticks it waits for, unless it is deleted. -/
theorem runs_on_time {t : Nat} (ht : t < 2 ^ 32) (pre post : List Op) (a : AddReq) :
    let w₀ := pre.foldl Wheel.step (startAt t)
    let w := post.foldl Wheel.step (w₀.coretimerAdd a)
    InRange w → Event.del (w₀.filed a) ∉ w.log →
      w.aborted = false ∧
      (Event.run (w₀.filed a) ∈ w.log ↔ max 1 (a.wait / 10) ≤ post.countP Op.isTick) := by
  intro w₀ w hr hdel
  obtain ⟨hs, hf, hq⟩ := startAt_sim ht
  have hle : (w₀.coretimerAdd a).Le w := foldl_step_le post _
  have hr₁ : InRange (w₀.coretimerAdd a) := hr.of_le hle
  have hr₀ : InRange w₀ := hr₁.of_le (coretimerAdd_le w₀ a)
  obtain ⟨hs₀, hf₀, hq₀⟩ := foldl_step_sim pre hs hf hq hr₀
  have hseen := foldl_step_seen pre hs hf hq (fun e he => by cases he) hr₀
  set f₀ := pre.foldl Flat.step (Flat.startAt t)
  obtain ⟨hs₁, hf₁, hq₁⟩ := step_sim hs₀ hf₀ hq₀ (.add a) hr₁
  rw [filed_eq hs₀ a hr₁] at hdel ⊢
  -- the timer has its expiry ahead and has not run
  have hfate : Fate (f₀.node a) (max 1 (a.wait / 10)) 0 (f₀.add a) := by
    rw [Fate, if_pos (by omega)]
    refine ⟨by simp [Flat.add], rfl, fun hm => ?_⟩
    rcases mem_append_singleton hm with hm | hm
    · exact absurd (hseen _ hm _ rfl) (Nat.lt_irrefl _)
    · cases hm
  have hfate' := foldl_step_fate post hs₁ hf₁ hq₁ hfate hr hdel
  have hs₂ : Sim w (post.foldl Flat.step (f₀.add a)) := (foldl_step_sim post hs₁ hf₁ hq₁ hr).1
  refine ⟨hs₂.ok, ?_⟩
  rw [hs₂.log]
  rw [Fate, Nat.zero_add] at hfate'
  split_ifs at hfate' with hk
  · exact iff_of_false hfate'.2.2 (by omega)
  · exact iff_of_true hfate' (by omega)

/-! ## The timer alone -/

/-- `coretimer_add` at time `t` with empty lists does not stop, and after `k` ticks the callback has
run iff `k` has reached the ticks to wait for. -/
def SurvivesWrap (t : Nat) (a : AddReq) : Prop :=
  ((startAt t).coretimerAdd a).aborted = false ∧
  ∀ k, let w := (List.replicate k (Op.tick [])).foldl Wheel.step ((startAt t).coretimerAdd a)
    w.aborted = false ∧ (Event.run ((startAt t).filed a) ∈ w.log ↔ max 1 (a.wait / 10) ≤ k)

section Alone

variable {w : Wheel}

/-- An event of a tick whose callbacks add nothing. -/
def Event.ofTick : Event → Bool
  | .add _ _ _ => false
  | .del _ => false
  | _ => true

/-- `w'` continues `w` by nothing but such events. -/
def OnlyTicks (w w' : Wheel) : Prop :=
  w'.added = w.added ∧ ∀ e ∈ w'.log, e ∈ w.log ∨ e.ofTick = true

theorem OnlyTicks.refl (w : Wheel) : OnlyTicks w w := ⟨rfl, fun _ he => .inl he⟩

theorem OnlyTicks.trans {w w' w'' : Wheel} (h : OnlyTicks w w') (h' : OnlyTicks w' w'') :
    OnlyTicks w w'' :=
  ⟨h'.1.trans h.1, fun e he => (h'.2 e he).elim (h.2 e) .inr⟩

theorem OnlyTicks.snoc {w w' : Wheel} {e : Event} (hadd : w'.added = w.added)
    (hlog : w'.log = w.log ++ [e]) (he : e.ofTick = true) : OnlyTicks w w' := by
  refine ⟨hadd, fun x hx => ?_⟩
  rw [hlog] at hx
  rcases mem_append_singleton hx with hx | rfl
  · exact .inl hx
  · exact .inr he

theorem executeLoop_nil (rs : List TimerNode) :
    (Wheel.executeLoop rs [] w).2 = [] ∧ OnlyTicks w (Wheel.executeLoop rs [] w).1 := by
  induction rs generalizing w with
  | nil => exact ⟨rfl, .refl w⟩
  | cons r rs ih =>
    rw [Wheel.executeLoop]
    split_ifs
    · exact ⟨rfl, .refl w⟩
    · obtain ⟨hcb, hticks⟩ := ih (w := (w.delfromHash r).record (.run r))
      have hrun : OnlyTicks w ((w.delfromHash r).record (.run r)) := .snoc rfl rfl rfl
      exact ⟨hcb, hrun.trans hticks⟩

theorem timerExecute_nil : (w.timerExecute []).2 = [] ∧ OnlyTicks w (w.timerExecute []).1 := by
  obtain ⟨hcb, hticks⟩ := executeLoop_nil (w.slots (.near (w.time &&& TIME_NEAR_MASK)))
    (w := { w with slots := Function.update w.slots (.near (w.time &&& TIME_NEAR_MASK)) [] })
  exact ⟨hcb, hticks⟩

theorem timerShift_onlyTicks : OnlyTicks w w.timerShift := by
  unfold Wheel.timerShift
  split
  · exact .refl w
  · dsimp only
    split
    · unfold Wheel.listMove
      exact .snoc (foldl_addtoList_log _ _).2 (foldl_addtoList_log _ _).1 rfl
    · exact .snoc rfl rfl rfl
    · exact .snoc rfl rfl rfl

theorem tick_nil_onlyTicks : OnlyTicks w (w.step (.tick [])) := by
  show OnlyTicks w (if w.aborted then w else w.timerTick [])
  split
  · exact .refl w
  · obtain ⟨hcb, h₁⟩ := timerExecute_nil (w := w)
    obtain ⟨-, h₂⟩ := timerExecute_nil (w := (w.timerExecute []).1.timerShift)
    have htick : w.timerTick [] =
        ((w.timerExecute []).1.timerShift.timerExecute []).1.record .tock := by
      show ((w.timerExecute []).1.timerShift.timerExecute (w.timerExecute []).2).1.record .tock = _
      rw [hcb]
    rw [htick]
    exact h₁.trans (timerShift_onlyTicks.trans (h₂.trans (.snoc rfl rfl rfl)))

theorem ticks_onlyTicks (k : Nat) :
    OnlyTicks w ((List.replicate k (Op.tick [])).foldl Wheel.step w) := by
  induction k generalizing w with
  | zero => exact .refl w
  | succ k ih => exact tick_nil_onlyTicks.trans ih

end Alone

theorem coretimerAdd_log {w : Wheel} (hok : w.aborted = false) (a : AddReq) :
    (w.coretimerAdd a).log = w.log ++ [.add (w.filed a) w.time a.wait] ∧
      (w.coretimerAdd a).added = w.added + 1 := by
  unfold Wheel.coretimerAdd
  rw [if_neg (by simp [hok])]
  dsimp only
  rw [(addtoHash_log _ _).1, (addtoList_log _ _).1, (addtoHash_log _ _).2, (addtoList_log _ _).2]
  exact ⟨rfl, rfl⟩

theorem addtoHash_aborted (w : Wheel) (r : TimerNode) : (w.addtoHash r).aborted = w.aborted := by
  unfold Wheel.addtoHash
  split_ifs <;> rfl

theorem addtoList_stops {w : Wheel} {r : TimerNode} (hok : w.aborted = false)
    (h : r.expire < w.time) : (w.addtoList r).aborted = true := by
  rw [Wheel.addtoList, if_neg (by simp [hok]), if_pos h]

/-- Where the expiry wraps, `addto_list` stops. -/
theorem coretimerAdd_wraps {t : Nat} (ht : t < 2 ^ 32) {a : AddReq} (hw : a.wait < 2 ^ 32)
    (h : 2 ^ 32 ≤ t + max 1 (a.wait / 10)) : ((startAt t).coretimerAdd a).aborted = true := by
  have hlt : (t + waitTicks a.wait) % 2 ^ 32 < t := by
    rw [waitTicks_eq_max]
    omega
  rw [Wheel.coretimerAdd, if_neg (show ¬ (startAt t).aborted = true from Bool.false_ne_true)]
  dsimp only
  rw [addtoHash_aborted]
  exact addtoList_stops rfl hlt

theorem survives_of_lt {t : Nat} (ht : t < 2 ^ 32) {a : AddReq}
    (h : t + max 1 (a.wait / 10) < 2 ^ 32) : SurvivesWrap t a := by
  suffices halone : ∀ k,
      let w := (List.replicate k (Op.tick [])).foldl Wheel.step ((startAt t).coretimerAdd a)
      w.aborted = false ∧ (Event.run ((startAt t).filed a) ∈ w.log ↔ max 1 (a.wait / 10) ≤ k) from
    ⟨(halone 0).1, halone⟩
  intro k w
  obtain ⟨hlog, hadded⟩ := coretimerAdd_log (w := startAt t) rfl a
  obtain ⟨hadd, hev⟩ := ticks_onlyTicks (w := (startAt t).coretimerAdd a) k
  have hr : InRange w := by
    refine ⟨by rw [hadd, hadded]; exact Nat.one_lt_two_pow (by norm_num), fun n t' wait hm => ?_⟩
    rcases hev _ hm with hm | hm
    · rw [hlog] at hm
      obtain ⟨-, rfl, rfl⟩ := Event.add.inj (List.mem_singleton.mp hm)
      exact h
    · cases hm
  have hdel : Event.del ((startAt t).filed a) ∉ w.log := by
    intro hm
    rcases hev _ hm with hm | hm
    · rw [hlog] at hm
      cases List.mem_singleton.mp hm
    · cases hm
  have hrun := runs_on_time ht [] (List.replicate k (Op.tick [])) a hr hdel
  rwa [List.countP_replicate, if_pos (show (Op.tick []).isTick = true from rfl)] at hrun

/-- **The wrap of the clock.** A timer added at time `t` to empty lists survives iff its expiry does
not wrap; with any other calls before and after it, all in range, it runs in exactly the last of the
ticks it waits for, unless it is deleted. -/
theorem survives_wrap_iff (t : Nat) (ht : t < 2 ^ 32) (a : AddReq) (hw : a.wait < 2 ^ 32) :
    (SurvivesWrap t a ↔ t + max 1 (a.wait / 10) < 2 ^ 32) ∧
    ∀ pre post : List Op,
      let w₀ := pre.foldl Wheel.step (startAt t)
      let w := post.foldl Wheel.step (w₀.coretimerAdd a)
      InRange w → Event.del (w₀.filed a) ∉ w.log →
        w.aborted = false ∧
        (Event.run (w₀.filed a) ∈ w.log ↔ max 1 (a.wait / 10) ≤ post.countP Op.isTick) := by
  refine ⟨⟨fun h => ?_, fun h => ?_⟩, fun pre post => runs_on_time ht pre post a⟩
  · by_contra hge
    have := coretimerAdd_wraps ht hw (Nat.not_lt.mp hge)
    rw [h.1] at this
    cases this
  · exact survives_of_lt ht h

/-- At `2 ^ 32 - 20` a wait of 190 ms ends in the last tick before the wrap. -/
theorem survives_wrap_iff_last :
    (SurvivesWrap (2 ^ 32 - 20) ⟨7, 1, 190⟩ ↔ 2 ^ 32 - 20 + max 1 (190 / 10) < 2 ^ 32) ∧
    SurvivesWrap (2 ^ 32 - 20) ⟨7, 1, 190⟩ := by
  have h := (survives_wrap_iff (2 ^ 32 - 20) (by norm_num) ⟨7, 1, 190⟩ (by norm_num)).1
  exact ⟨h, h.mpr (by norm_num)⟩

/-- At `2 ^ 32 - 1` a wait of 10 ms has the expiry 0, and `addto_list` stops. -/
theorem not_survivesWrap_last : ¬ SurvivesWrap (2 ^ 32 - 1) ⟨7, 1, 10⟩ := by
  rintro ⟨h, -⟩
  exact absurd h (by decide +kernel)

end HoNet.Timer
