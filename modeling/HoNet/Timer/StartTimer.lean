import HoNet.Lib.Pool
import HoNet.Timer.History
import HoNet.Timer.Threads

/-!
# The timer of `timer.cpp` under threads

`iocp::start_timer` and `iocp::stop_timer` hold the lock from the beginning of `timer::add` and
`timer::del` to their end, so that the expiry of a timer is computed and filed in one step.
`timer::execute` and `timer::shift` read like those of `coretimer.c`; the thread that updates gives the
lock back between their parts.

Here any number of threads, running callbacks among them, start timers at any time. They stop timers
while the updating thread is not between `shift` and the end of the tick, where the nodes it has
detached must not be unlinked. `timer::timer` leaves the heads of `n[3]` unset, so that times and
expiries stay below `2 ^ 26`. Assumed is that `timer::alloc` gives every start a node of its own: the
free list is left out, and its race in `execute`, which the module on the free nodes is about, breaks
that.

* `Inv.tick` — one step of the updating thread on the flat list.
* `histories` — every run has a history of the flat list.
* `threads_on_time` — what that says about each single timer.
-/

namespace HoNet.Frame.Timer

open HoNet.Pool HoNet.Timer HoNet.Timer.Threads

structure Shared where
  wheel : Wheel
  phase : Threads.Phase

inductive Pc where
  | startTimer (a : AddReq)
  | stopTimer (id : Nat)
  /-- `timer::update`. -/
  | update
  deriving DecidableEq, Repr

/-- The next part of `timer::tick` between two changes of the lock. -/
def Shared.tick (s : Shared) : Shared :=
  match s.phase with
  | .idle => { s with phase := .execute true }
  | .execute first =>
    let idx := s.wheel.time &&& TIME_NEAR_MASK
    let r := s.wheel.slots (.near idx)
    { s with
      wheel := { s.wheel with slots := Function.update s.wheel.slots (.near idx) [] }
      phase := .loop first r }
  | .loop first (r :: n) => { s with wheel := s.wheel.delfromHash r, phase := .call first r n }
  | .loop true [] => { s with phase := .shift }
  | .loop false [] => { s with wheel := s.wheel.record .tock, phase := .idle }
  | .call first r n => { s with wheel := s.wheel.record (.run r), phase := .loop first n }
  | .shift => { s with wheel := s.wheel.timerShift, phase := .execute false }

def next (s : Shared) : Pc → Shared × Option Pc
  | .startTimer a => ({ s with wheel := s.wheel.coretimerAdd a }, none)
  | .stopTimer id => ({ s with wheel := s.wheel.coretimerDel id }, none)
  | .update => (s.tick, some .update)

/-- The interface may be called at any time. -/
def program : Program Shared Pc where
  next := next
  start s s' p := s' = s ∧ p ≠ .update

/-- The updating thread and a new timer. -/
def begin : Sys Shared Pc := ⟨⟨coretimerNew, .idle⟩, {.update}⟩

/-- From `shift` to the end of the tick. -/
def Phase.expiring : Threads.Phase → Bool
  | .execute first | .loop first _ | .call first _ _ => !first
  | _ => false

/-- The ids do not wrap, no expiry and no time reaches `2 ^ 26`, and no timer is stopped while the due
ones are called. -/
def admitted (s : Shared) (p : Pc) (_ : Multiset Pc) : Prop :=
  match p with
  | .startTimer a => s.wheel.added + 1 < 2 ^ 32 ∧ s.wheel.time + waitTicks a.wait < 2 ^ 26
  | .stopTimer _ => Phase.expiring s.phase = false
  | .update => s.phase = .shift → s.wheel.time + 1 < 2 ^ 26

instance (s : Shared) (R : Multiset Pc) : (p : Pc) → Decidable (admitted s p R)
  | .startTimer a => inferInstanceAs (Decidable (s.wheel.added + 1 < 2 ^ 32 ∧
      s.wheel.time + waitTicks a.wait < 2 ^ 26))
  | .stopTimer _ => inferInstanceAs (Decidable (Phase.expiring s.phase = false))
  | .update => inferInstanceAs (Decidable (s.phase = .shift → s.wheel.time + 1 < 2 ^ 26))

/-! ## The flat list -/

variable {w : Wheel} {f : Flat} {s : Shared} {T R : Multiset Pc} {p : Pc}

def dueNow (f : Flat) : List TimerNode := f.live.filter fun n => n.expire = f.time

/-- The flat list `f` at each phase, and the timers of the tick that are still to be called. -/
def Tracks (s : Shared) (f : Flat) (due : Option (List TimerNode)) : Prop :=
  match s.phase with
  | .idle | .execute true | .loop true [] | .shift => Sim s.wheel f ∧ f.Quiet ∧ due = none
  | .execute false => SimAll s.wheel f ∧ due = some (dueNow f)
  | .loop false r => Sim s.wheel f ∧ dueNow f = r ∧ due = some r
  | .call false r n => Sim s.wheel f ∧ dueNow f = n ∧ r.expire = f.time ∧ due = some (r :: n)
  | _ => False

/-- The timer that is being called is still live in the history. -/
def Phase.calling : Threads.Phase → List TimerNode → List TimerNode
  | .call _ r _, live => live.erase r
  | _, live => live

/-- Nothing reaches the heads of `n[3]`. -/
def Low (f : Flat) : Prop := f.time < 2 ^ 26 ∧ ∀ n ∈ f.live, n.expire < 2 ^ 26

/-- The wheel holds a flat list with a history, in range. -/
def Inv (s : Shared) : Prop :=
  InRange s.wheel ∧ ∃ f live due, Tracks s f due ∧ f.Inv ∧ Low f ∧
    Hist f.log ⟨live, f.time, f.added, due⟩ ∧ f.live = Phase.calling s.phase live

/-! ## Starting a timer -/

/-- An addition in range, on the wheel. -/
theorem coretimerAdd_eq {r : TimerNode} (hok : w.aborted = false) {a : AddReq} (hr : w.filed a = r)
    (hle : w.time ≤ r.expire) :
    w.coretimerAdd a = { w with
      index := r.id
      added := w.added + 1
      log := w.log ++ [.add r w.time a.wait]
      slots := Function.update w.slots (place r.expire w.time)
        (w.slots (place r.expire w.time) ++ [r])
      h := Function.update w.h (HASH r.id) (r :: w.h (HASH r.id)) } := by
  subst hr
  rw [Wheel.coretimerAdd, if_neg (by simp [hok])]
  show ((Wheel.record _ (.add (w.filed a) w.time a.wait)).addtoList (w.filed a)).addtoHash
    (w.filed a) = _
  have hlt : ¬ (w.filed a).expire < w.time := Nat.not_lt.mpr hle
  unfold Wheel.addtoHash Wheel.addtoList Wheel.record
  simp only [hok, Bool.false_eq_true, if_false, hlt]
  rfl

theorem inRange_add (h : InRange w) (hok : w.aborted = false) {a : AddReq}
    (hadded : w.added + 1 < 2 ^ 32) (htime : w.time + waitTicks a.wait < 2 ^ 32) :
    InRange (w.coretimerAdd a) := by
  have hexp : (w.filed a).expire = w.time + waitTicks a.wait := Nat.mod_eq_of_lt htime
  rw [coretimerAdd_eq hok rfl (by rw [hexp]; exact Nat.le_add_right _ _)]
  refine ⟨hadded, fun n t wait hm => ?_⟩
  rcases mem_append_singleton hm with hm | hm
  · exact h.2 n t wait hm
  · obtain ⟨-, rfl, rfl⟩ := Event.add.inj hm
    rw [← waitTicks_eq_max]
    exact htime

/-- An addition between `shift` and the `list_clear` behind it. -/
theorem SimAll.add (hs : SimAll w f) (hf : f.Inv) (a : AddReq) (hadded : w.added + 1 < 2 ^ 32)
    (htime : w.time + waitTicks a.wait < 2 ^ 32) :
    SimAll (w.coretimerAdd a) (f.add a) ∧ (f.add a).Inv := by
  have hexp : (w.time + waitTicks a.wait) % 2 ^ 32 = f.time + max 1 (a.wait / 10) := by
    rw [Nat.mod_eq_of_lt htime, hs.time, waitTicks_eq_max]
  have hid : (w.index + 1) % 2 ^ 32 = f.added + 1 := by
    rw [hs.index, ← hs.added]
    exact Nat.mod_eq_of_lt hadded
  have hr : w.filed a = f.node a := by
    unfold Wheel.filed Flat.node
    rw [hexp, hid, hs.added]
  have hle : w.time ≤ (f.node a).expire := by
    rw [hs.time]
    exact Nat.le_add_right _ _
  have hb : f.time + max 1 (a.wait / 10) < 2 ^ 32 := by
    rw [← waitTicks_eq_max, ← hs.time]
    exact htime
  rw [coretimerAdd_eq hs.ok hr hle]
  refine ⟨⟨hs.ok, hs.time, rfl, congrArg (· + 1) hs.added, ?_, fun l => ?_, fun k => ?_⟩,
    Flat.add_inv hf hb⟩
  · show w.log ++ [Event.add (f.node a) w.time a.wait] = _
    rw [hs.log, hs.time]
    rfl
  · show Function.update w.slots _ _ l =
      (f.live ++ [f.node a]).filter fun n => place n.expire f.time = l
    rw [List.filter_append, ← hs.slots l, hs.time]
    by_cases hl : l = place (f.node a).expire f.time
    · subst hl
      rw [Function.update_self]
      simp
    · have hne : ¬ place (f.node a).expire f.time = l := fun he => hl he.symm
      rw [Function.update_of_ne hl]
      simp [hne]
  · show Function.update w.h _ _ k = ((f.live ++ [f.node a]).filter _).reverse
    rw [List.filter_append, List.reverse_append, ← hs.h k]
    by_cases hk : k = HASH (f.node a).id
    · subst hk
      rw [Function.update_self]
      simp
    · have hne : ¬ HASH (f.node a).id = k := fun he => hk he.symm
      rw [Function.update_of_ne hk]
      simp [hne]

theorem Tracks.ok {due : Option (List TimerNode)} (h : Tracks s f due) :
    s.wheel.aborted = false := by
  unfold Tracks at h
  split at h <;> first | exact h.1.ok | exact h.elim

theorem Tracks.log {due : Option (List TimerNode)} (h : Tracks s f due) :
    s.wheel.log = f.log := by
  unfold Tracks at h
  split at h <;> first | exact h.1.log | exact h.elim

theorem Tracks.add {due : Option (List TimerNode)} (h : Tracks s f due) (hf : f.Inv) {a : AddReq}
    (hr : InRange (s.wheel.coretimerAdd a)) (hadded : s.wheel.added + 1 < 2 ^ 32)
    (htime : s.wheel.time + waitTicks a.wait < 2 ^ 32) :
    Tracks { s with wheel := s.wheel.coretimerAdd a } (f.add a) due ∧ (f.add a).Inv := by
  have hdue : dueNow (f.add a) = dueNow f := Flat.add_due f a
  have hquiet (hq : f.Quiet) : (f.add a).Quiet := by
    intro n hn
    rcases List.mem_append.mp hn with hn | hn
    · exact hq n hn
    · rw [List.mem_singleton.mp hn]
      show f.time + max 1 (a.wait / 10) ≠ f.time
      omega
  obtain ⟨w, phase⟩ := s
  have hsim (hs : Sim w f) : Sim (w.coretimerAdd a) (f.add a) ∧ (f.add a).Inv :=
    coretimerAdd_sim hs hf a hr
  cases phase with
  | idle | shift =>
    obtain ⟨hs, hq, hnone⟩ := h
    exact ⟨⟨(hsim hs).1, hquiet hq, hnone⟩, (hsim hs).2⟩
  | execute first =>
    cases first with
    | true =>
      obtain ⟨hs, hq, hnone⟩ := h
      exact ⟨⟨(hsim hs).1, hquiet hq, hnone⟩, (hsim hs).2⟩
    | false =>
      obtain ⟨hs, hd⟩ := h
      obtain ⟨hs', hf'⟩ := SimAll.add hs hf a hadded htime
      exact ⟨⟨hs', hd.trans (congrArg some hdue.symm)⟩, hf'⟩
  | loop first r =>
    cases first with
    | true =>
      cases r with
      | nil =>
        obtain ⟨hs, hq, hnone⟩ := h
        exact ⟨⟨(hsim hs).1, hquiet hq, hnone⟩, (hsim hs).2⟩
      | cons r n => exact h.elim
    | false =>
      obtain ⟨hs, hd, hsome⟩ := h
      exact ⟨⟨(hsim hs).1, hdue.trans hd, hsome⟩, (hsim hs).2⟩
  | call first r n =>
    cases first with
    | true => exact h.elim
    | false =>
      obtain ⟨hs, hd, hexp, hsome⟩ := h
      exact ⟨⟨(hsim hs).1, hdue.trans hd, hexp, hsome⟩, (hsim hs).2⟩

theorem Tracks.time {due : Option (List TimerNode)} (h : Tracks s f due) : s.wheel.time = f.time := by
  unfold Tracks at h
  split at h <;> first | exact h.1.time | exact h.elim

/-- Where nothing reaches `2 ^ 26`, the heads of `n[3]` are not in use. -/
theorem Tracks.top {due : Option (List TimerNode)} (h : Tracks s f due) (hlow : Low f) (idx : Nat) :
    s.wheel.slots (.level 3 idx) = [] := by
  have hplace : ∀ n ∈ f.live, place n.expire f.time ≠ .level 3 idx :=
    fun n hn => place_ne_top (hlow.2 n hn) hlow.1
  have hsim (hs : Sim s.wheel f) : s.wheel.slots (.level 3 idx) = [] := by
    rw [hs.slots, List.filter_eq_nil_iff]
    intro n hn hslot
    exact hplace n hn (of_decide_eq_true hslot).2
  unfold Tracks at h
  split at h
  · exact hsim h.1
  · exact hsim h.1
  · exact hsim h.1
  · exact hsim h.1
  · rw [h.1.slots, List.filter_eq_nil_iff]
    intro n hn hslot
    exact hplace n hn (of_decide_eq_true hslot)
  · exact hsim h.1
  · exact hsim h.1
  · exact h.elim

theorem Low.sublist {live : List TimerNode} {log : List Event} (h : Low f) (hl : live.Sublist f.live) :
    Low { f with live := live, log := log } := ⟨h.1, fun n hn => h.2 n (hl.subset hn)⟩

theorem Low.add (h : Low f) {a : AddReq} (htime : f.time + waitTicks a.wait < 2 ^ 26) :
    Low (f.add a) := by
  refine ⟨h.1, fun n hn => ?_⟩
  rcases List.mem_append.mp hn with hn | hn
  · exact h.2 n hn
  · rw [List.mem_singleton.mp hn]
    show f.time + max 1 (a.wait / 10) < 2 ^ 26
    rw [← waitTicks_eq_max]
    exact htime

/-- `start_timer`. -/
theorem Inv.add (h : Inv s) {a : AddReq} (hadded : s.wheel.added + 1 < 2 ^ 32)
    (hbelow : s.wheel.time + waitTicks a.wait < 2 ^ 26) :
    Inv { s with wheel := s.wheel.coretimerAdd a } := by
  obtain ⟨hr, f, live, due, htr, hf, hlow, hhist, hlive⟩ := h
  have htime : s.wheel.time + waitTicks a.wait < 2 ^ 32 := hbelow.trans (by decide)
  have hok : s.wheel.aborted = false := htr.ok
  have hr' := inRange_add hr hok hadded htime
  obtain ⟨htr', hf'⟩ := htr.add hf hr' hadded htime
  refine ⟨hr', f.add a, live ++ [f.node a], due, htr', hf', hlow.add (htr.time ▸ hbelow),
    hhist.snoc (.add (f.node a) a.wait rfl rfl), ?_⟩
  show f.live ++ [f.node a] = _
  rw [hlive]
  obtain ⟨w, phase⟩ := s
  cases phase with
  | call first r n =>
    cases first with
    | true => exact htr.elim
    | false =>
      obtain ⟨-, -, -, hsome⟩ := htr
      have hmem : r ∈ live := (hhist.ordered.due _ hsome).subset List.mem_cons_self
      exact (List.erase_append_left _ hmem).symm
  | _ => rfl

/-! ## Stopping a timer -/

/-- Outside of the expiry nothing is due. -/
theorem Tracks.outside {due : Option (List TimerNode)} (h : Tracks s f due)
    (hp : Phase.expiring s.phase = false) : Sim s.wheel f ∧ f.Quiet ∧ due = none := by
  obtain ⟨w, phase⟩ := s
  cases phase with
  | idle | shift => exact h
  | execute first =>
    cases first with
    | true => exact h
    | false => cases hp
  | loop first r =>
    cases first with
    | true =>
      cases r with
      | nil => exact h
      | cons r n => exact h.elim
    | false => cases hp
  | call first r n =>
    cases first with
    | true => exact h.elim
    | false => cases hp

theorem inRange_of {w' : Wheel} (h : InRange w) (hadded : w'.added = w.added)
    (hlog : ∀ n t wait, Event.add n t wait ∈ w'.log → Event.add n t wait ∈ w.log) : InRange w' :=
  ⟨hadded.symm ▸ h.1, fun n t wait hm => h.2 n t wait (hlog n t wait hm)⟩

/-- One more event that is not an addition. -/
theorem inRange_snoc {w' : Wheel} {e : Event} (h : InRange w) (hadded : w'.added = w.added)
    (hlog : w'.log = w.log ++ [e]) (he : e.isAdd = false) : InRange w' := by
  refine inRange_of h hadded fun n t wait hm => ?_
  rw [hlog] at hm
  rcases mem_append_singleton hm with hm | rfl
  · exact hm
  · cases he

/-- A change of the wheel outside of the expiry. -/
theorem Tracks.replace {due : Option (List TimerNode)} {w' : Wheel} {f' : Flat} (h : Tracks s f due)
    (hp : Phase.expiring s.phase = false) (hs : Sim w' f') (hq : f'.Quiet) :
    Tracks { s with wheel := w' } f' none := by
  obtain ⟨w, phase⟩ := s
  cases phase with
  | idle | shift => exact ⟨hs, hq, rfl⟩
  | execute first =>
    cases first with
    | true => exact ⟨hs, hq, rfl⟩
    | false => cases hp
  | loop first r =>
    cases first with
    | true =>
      cases r with
      | nil => exact ⟨hs, hq, rfl⟩
      | cons r n => exact h.elim
    | false => cases hp
  | call first r n =>
    cases first with
    | true => exact h.elim
    | false => cases hp

/-- `stop_timer`. -/
theorem Inv.stop (h : Inv s) (hp : Phase.expiring s.phase = false) (id : Nat) :
    Inv { s with wheel := s.wheel.coretimerDel id } := by
  obtain ⟨hr, f, live, due, htr, hf, hlow, hhist, hlive⟩ := h
  obtain ⟨hs, hq, rfl⟩ := htr.outside hp
  obtain ⟨hs', hf'⟩ := coretimerDel_sim hs hf id
  have hcalling (l : List TimerNode) : Phase.calling s.phase l = l := by
    obtain ⟨w, phase⟩ := s
    cases phase with
    | call first r n =>
      cases first with
      | true => exact htr.elim
      | false => cases hp
    | _ => rfl
  rw [hcalling] at hlive
  subst hlive
  have hcases := f.del_cases id
  rcases hcases with heq | ⟨r, hmem, heq⟩
  · rw [heq] at hs'
    refine ⟨inRange_of hr (hs'.added.trans hs.added.symm) fun n t wait hm => ?_, f, f.live, none,
      htr.replace hp hs' hq, hf, hlow, hhist, (hcalling _).symm⟩
    rw [hs.log, ← hs'.log]
    exact hm
  · rw [heq] at hs' hf'
    refine ⟨inRange_snoc (e := .del r) hr (hs'.added.trans hs.added.symm) ?_ rfl, _,
      f.live.erase r, none, htr.replace hp hs' fun n hn => hq n (List.mem_of_mem_erase hn), hf',
      hlow.sublist List.erase_sublist, hhist.snoc (.del r rfl hmem), (hcalling _).symm⟩
    rw [hs.log]
    exact hs'.log

/-! ## The updating thread -/

/-- `delfrom_hash` for the next one of the detached nodes. -/
theorem unhash_sim {r : TimerNode} {n : List TimerNode} (hs : Sim w f) (hf : f.Inv)
    (hd : dueNow f = r :: n) :
    Sim (w.delfromHash r) { f with live := f.live.erase r } ∧
      dueNow { f with live := f.live.erase r } = n ∧ r.expire = f.time := by
  have hmem : r ∈ dueNow f := by
    rw [hd]
    exact List.mem_cons_self
  have hexp : r.expire = f.time := by simpa using (List.mem_filter.mp hmem).2
  have hrun := run_sim hs hf hexp
  refine ⟨⟨hs.ok, hs.time, hs.index, hs.added, hs.log, hrun.slots, hrun.h⟩, ?_, hexp⟩
  show (f.live.erase r).filter _ = n
  rw [← erase_filter_nodup hf.nodup]
  show (dueNow f).erase r = n
  rw [hd, List.erase_cons_head]

/-- **One step of the updating thread.** -/
theorem Inv.tick (h : Inv s) (hbelow : s.phase = .shift → s.wheel.time + 1 < 2 ^ 26) :
    Inv s.tick := by
  obtain ⟨hr, f, live, due, htr, hf, hlow, hhist, hlive⟩ := h
  obtain ⟨w, phase⟩ := s
  cases phase with
  | idle => exact ⟨hr, f, live, due, htr, hf, hlow, hhist, hlive⟩
  | execute first =>
    cases first with
    | true =>
      -- nothing is left from the tick before
      obtain ⟨hs, hq, hnone⟩ := htr
      have hdue : w.slots (.near (w.time &&& TIME_NEAR_MASK)) = [] := by
        rw [(hs.all hq).due]
        exact List.filter_eq_nil_iff.mpr fun n hn => by simpa using hq n hn
      refine ⟨hr, f, live, due, ?_, hf, hlow, hhist, hlive⟩
      simp only [Shared.tick, hdue]
      exact ⟨(hs.all hq).clear, hq, hnone⟩
    | false =>
      obtain ⟨hs, hsome⟩ := htr
      have hdue : w.slots (.near (w.time &&& TIME_NEAR_MASK)) = dueNow f := hs.due
      refine ⟨hr, f, live, due, ?_, hf, hlow, hhist, hlive⟩
      simp only [Shared.tick, hdue]
      exact ⟨hs.clear, rfl, hsome⟩
  | loop first r =>
    cases first with
    | true =>
      cases r with
      | nil => exact ⟨hr, f, live, due, htr, hf, hlow, hhist, hlive⟩
      | cons r n => exact htr.elim
    | false =>
      obtain ⟨hs, hd, rfl⟩ := htr
      cases r with
      | nil =>
        have hq : f.Quiet := by
          intro n hn he
          have hmem : n ∈ dueNow f := List.mem_filter.mpr ⟨hn, by simpa using he⟩
          rw [hd] at hmem
          cases hmem
        refine ⟨inRange_snoc hr rfl rfl rfl, { f with log := f.log ++ [.tock] }, live, none,
          ⟨⟨hs.ok, hs.time, hs.index, hs.added, ?_, hs.slots, hs.h⟩, hq, rfl⟩,
          hf.sublist (List.Sublist.refl _), hlow.sublist (List.Sublist.refl _),
          hhist.snoc (.tock rfl), hlive⟩
        exact congrArg (· ++ [Event.tock]) hs.log
      | cons r n =>
        obtain ⟨hs', hd', hexp⟩ := unhash_sim hs hf hd
        refine ⟨inRange_of hr rfl fun _ _ _ hm => hm, { f with live := f.live.erase r }, live, _,
          ⟨hs', hd', hexp, rfl⟩, hf.sublist List.erase_sublist, hlow.sublist List.erase_sublist, hhist,
          ?_⟩
        exact congrArg (fun l => l.erase r) hlive
  | call first r n =>
    cases first with
    | true => exact htr.elim
    | false =>
      obtain ⟨hs, hd, hexp, rfl⟩ := htr
      refine ⟨inRange_snoc hr rfl rfl rfl, { f with log := f.log ++ [.run r] }, live.erase r, _,
        ⟨⟨hs.ok, hs.time, hs.index, hs.added, ?_, hs.slots, hs.h⟩, hd, rfl⟩,
        hf.sublist (List.Sublist.refl _), hlow.sublist (List.Sublist.refl _),
        hhist.snoc (.run r n rfl), hlive⟩
      exact congrArg (· ++ [Event.run r]) hs.log
  | shift =>
    obtain ⟨hs, hq, rfl⟩ := htr
    obtain ⟨hs', hf'⟩ := timerShift_sim hs hf hq
    obtain rfl : f.live = live := hlive
    have hnext : (f.time + 1) % 2 ^ 32 < 2 ^ 26 := by
      have := hbelow rfl
      rw [← hs.time]
      omega
    refine ⟨inRange_snoc (e := .tick ((f.time + 1) % 2 ^ 32)) hr (hs'.added.trans hs.added.symm)
      ?_ rfl, _, f.live, _, ⟨hs', rfl⟩, hf', ⟨hnext, hlow.2⟩, hhist.snoc (.tick _ rfl), rfl⟩
    rw [hs.log]
    exact hs'.log

/-! ## Every run -/

theorem begin_inv : Inv begin.shared := by
  obtain ⟨hs, hf, hq⟩ := startAt_sim (t := 0) (by norm_num)
  have hr : InRange coretimerNew :=
    ⟨by norm_num [coretimerNew], fun n t wait hm => absurd hm List.not_mem_nil⟩
  have hlow : Low (Flat.startAt 0) := ⟨by decide, fun n hn => absurd hn List.not_mem_nil⟩
  exact ⟨hr, Flat.startAt 0, [], none, ⟨hs, hq, rfl⟩, hf, hlow, .nil, rfl⟩

/-- Every run has a history of the flat list. -/
theorem histories {S : Sys Shared Pc} (h : Reach program admitted begin S) : Inv S.shared := by
  refine Reach.invariant (I := fun s _ => Inv s) h begin_inv (fun s p R hok hinv => ?_) ?_
  · cases p with
    | startTimer a => exact hinv.add hok.1 hok.2
    | stopTimer id => exact hinv.stop hok id
    | update => exact hinv.tick hok
  · rintro s s' p T ⟨rfl, -⟩ hinv
    exact hinv

/-- **Timers started by any number of threads.** Whenever they are started, the assertion of
`addto_list` holds, no node is filed at a head of `n[3]`, and in the history

* the timer of the `k`-th addition has an expiry at least one tick behind the time of its addition;
* a callback runs in the first tick since its addition in which the time becomes its expiry, and
  never again;
* a timer that is not stopped before that tick has run when it is over;
* a timer that has been stopped never runs;
* the timers of one tick run in the order in which they were started. -/
theorem threads_on_time {S : Sys Shared Pc} (h : Reach program admitted begin S) :
    S.shared.wheel.aborted = false ∧
    (∀ idx, S.shared.wheel.slots (.level 3 idx) = []) ∧
    (∀ (P Q : List Event) (n : TimerNode) (t wait : Nat),
      S.shared.wheel.log = P ++ Event.add n t wait :: Q →
      n.seq = P.countP Event.isAdd ∧ t = clock P ∧ n.expire = t + max 1 (wait / 10)) ∧
    (∀ (A B : List Event) (n : TimerNode),
      S.shared.wheel.log = A ++ Event.run n :: B → Due A n ∧ Event.run n ∉ B) ∧
    (∀ (P Q B : List Event) (n : TimerNode) (t wait : Nat),
      S.shared.wheel.log = P ++ Event.add n t wait :: Q ++ Event.tick n.expire :: B →
      Event.del n ∉ Q → Event.tick n.expire ∉ Q → (∃ e ∈ B, e.isClock = true) →
      ∃ R S, B = R ++ Event.run n :: S ∧ ∀ e ∈ R, e.isClock = false) ∧
    (∀ n : TimerNode, Event.del n ∈ S.shared.wheel.log → Event.run n ∉ S.shared.wheel.log) ∧
    (∀ (A B C : List Event) (m n : TimerNode),
      S.shared.wheel.log = A ++ Event.run m :: B ++ Event.run n :: C →
      (∀ e ∈ B, e.isClock = false) → m.seq < n.seq) := by
  obtain ⟨-, f, live, due, htr, -, hlow, hhist, -⟩ := histories h
  rw [← htr.log] at hhist
  refine ⟨htr.ok, htr.top hlow, ?_, fun A B n heq => hhist.run_split heq, ?_, hhist.del_not_run,
    fun A B C m n heq hB => hhist.order.2 heq hB⟩
  · intro P Q n t wait heq
    obtain ⟨hexp, htime, hseq, -⟩ := hhist.add_split heq
    exact ⟨hseq, htime, hexp⟩
  · intro P Q B n t wait heq hdel htick hover
    rcases hhist.progress heq hdel htick with ⟨d, -, -, hB⟩ | hrun
    · obtain ⟨e, he, hclock⟩ := hover
      rw [hB e he] at hclock
      cases hclock
    · exact hrun

theorem updates {S₀ : Sys Shared Pc} (n : Nat) (h : Reach program admitted S₀ ⟨s, {.update}⟩)
    (hok : ∀ k < n, admitted (Shared.tick^[k] s) .update 0) :
    Reach program admitted S₀ ⟨Shared.tick^[n] s, {.update}⟩ := by
  induction n generalizing s with
  | zero => exact h
  | succ n ih =>
    have hfirst : admitted s .update 0 := hok 0 n.succ_pos
    exact ih (h.tail (Step.thread s Pc.update 0 hfirst)) fun k hk => hok (k + 1) (Nat.succ_lt_succ hk)

theorem started {S₀ : Sys Shared Pc} {a : AddReq} (h : Reach program admitted S₀ ⟨s, {.update}⟩)
    (hok : admitted s (.startTimer a) {.update}) :
    Reach program admitted S₀ ⟨{ s with wheel := s.wheel.coretimerAdd a }, {.update}⟩ := by
  have hcall : program.start s s (.startTimer a) := ⟨rfl, fun he => by cases he⟩
  exact (h.tail (Step.start s s _ _ hcall)).tail (Step.thread s (Pc.startTimer a) {Pc.update} hok)

/-- A timer for the next tick, and its callback starts another one. -/
theorem threads_on_time_rearm :
    ∃ s, Reach program admitted begin ⟨s, {.update}⟩ ∧ s.wheel.aborted = false ∧
      s.wheel.log = [.add ⟨1, 7, 1, 1, 0⟩ 0 0, .tick 1, .run ⟨1, 7, 1, 1, 0⟩,
        .add ⟨2, 7, 3, 2, 1⟩ 1 20, .tock] := by
  have hnew : Reach program admitted begin ⟨begin.shared, {.update}⟩ := .refl
  have hfirst := updates 7 (started (a := ⟨7, 1, 0⟩) hnew ⟨by decide, by decide⟩) (by decide +kernel)
  have hreach := updates 1 (started (a := ⟨7, 2, 20⟩) hfirst ⟨by decide +kernel, by decide +kernel⟩)
    (by decide +kernel)
  exact ⟨_, hreach, (threads_on_time hreach).1, by decide +kernel⟩

end HoNet.Frame.Timer
