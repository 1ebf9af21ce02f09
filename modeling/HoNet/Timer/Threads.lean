import HoNet.Lib.Pool
import HoNet.Timer.Refine

/-!
# Adding timers while another thread ticks

`coretimer_add` reads the clock before it takes the lock, and `timer_tick` gives the lock back
between its parts. Here any number of adding threads, each at its unlocked or at its locked part, are
interleaved with the thread that ticks. A callback that adds a timer is one more of them.

A node is filed in time if at most as many shifts as it waits for ticks have slipped in since its
expiry was computed, and fewer if the updating thread has already looked at the slot of the current
time and not yet moved the clock on.

`coretimer_new` leaves the links of the heads of `n[3]` at `NULL`. Here their lists begin empty, as
all others: below `2 ^ 26` no node is filed there and none of these lists is moved.

* `Inv.next` — one step of any thread.
* `threads_run_timers` — every run with all nodes filed in time.
* `late_add_fails` — the two ways a node filed late goes wrong.
-/

namespace HoNet.Timer.Threads

open HoNet.Pool

/-- Where the updating thread is in `timer_tick`; `first` tells its two calls of `timer_execute`
apart. -/
inductive Phase where
  | idle
  | execute (first : Bool)
  | loop (first : Bool) (r : List TimerNode)
  | call (first : Bool) (r : TimerNode) (n : List TimerNode)
  | shift
  deriving DecidableEq, Repr

/-- The memory. History variables: `shifts` counts the calls of `timer_shift`, `filed` are the nodes
`addto_list` has got, `owed` those of them that were due when the last tick began. -/
structure Shared where
  wheel : Wheel
  phase : Phase
  shifts : Nat
  filed : List TimerNode
  owed : List TimerNode

/-- Where a thread is: in `coretimer_add` before and at its lock, or the updating thread. At the lock
`ticks` and `since` are history variables: what `wait` became, and the shifts when `expire` was
computed. -/
inductive Pc where
  | add (a : AddReq)
  | insert (r : TimerNode) (ticks since : Nat)
  | timer
  deriving DecidableEq, Repr

/-- The next part of `timer_tick` between two changes of the lock. -/
def Shared.tick (s : Shared) : Shared :=
  match s.phase with
  | .idle =>
    { s with phase := .execute true, owed := s.filed.filter fun r => r.expire ≤ s.wheel.time }
  | .execute first =>
    let idx := s.wheel.time &&& TIME_NEAR_MASK
    let r := s.wheel.slots (.near idx)
    { s with
      wheel := { s.wheel with slots := Function.update s.wheel.slots (.near idx) [] }
      phase := .loop first r }
  | .loop first (r :: n) => { s with wheel := s.wheel.delfromHash r, phase := .call first r n }
  | .loop first [] => { s with phase := if first then .shift else .idle }
  | .call first r n => { s with wheel := s.wheel.record (.run r), phase := .loop first n }
  | .shift =>
    { s with wheel := s.wheel.timerShift, shifts := s.shifts + 1, phase := .execute false }

def next (s : Shared) : Pc → Shared × Option Pc
  | .add a =>
    let r := s.wheel.filed a
    ({ s with wheel := { s.wheel with index := r.id, added := s.wheel.added + 1 } },
      some (.insert r (waitTicks a.wait) s.shifts))
  | .insert r _ _ =>
    ({ s with wheel := (s.wheel.addtoList r).addtoHash r, filed := s.filed ++ [r] }, none)
  | .timer => (s.tick, some .timer)

/-- `coretimer_add` may be called at any time. -/
def program : Program Shared Pc where
  next := next
  start s s' p := s' = s ∧ ∃ a, p = .add a

/-- The updating thread and a new timer. -/
def begin : Sys Shared Pc := ⟨⟨coretimerNew, .idle, 0, [], []⟩, {.timer}⟩

/-- Between the `list_clear` of the first `timer_execute` and `timer_shift`. -/
def Phase.cleared : Phase → Bool
  | .loop true _ | .call true _ _ | .shift => true
  | _ => false

/-- No 32-bit value wraps. -/
def noWrap (s : Shared) : Pc → Prop
  | .add a => s.wheel.time + waitTicks a.wait < 2 ^ 32
  | .insert _ _ _ => True
  | .timer => s.phase = .shift → s.wheel.time + 1 < 2 ^ 32

/-- No expiry and no time reaches `2 ^ 26`, where the heads of `n[3]` would come in. -/
def low (s : Shared) : Pc → Prop
  | .add a => s.wheel.time + waitTicks a.wait < 2 ^ 26
  | .insert _ _ _ => True
  | .timer => s.phase = .shift → s.wheel.time + 1 < 2 ^ 26

theorem noWrap_of_low {s : Shared} {p : Pc} (h : low s p) : noWrap s p := by
  cases p with
  | add a => exact h.trans (by decide)
  | insert r ticks since => trivial
  | timer => exact fun hp => (h hp).trans (by decide)

/-- Not too many shifts have slipped in since the expiry was computed. -/
def inTime (s : Shared) : Pc → Prop
  | .insert _ ticks since =>
    s.shifts - since ≤ ticks ∧ (s.phase.cleared = true → s.shifts - since < ticks)
  | _ => True

instance : (s : Shared) → (p : Pc) → Decidable (low s p)
  | s, .add a => inferInstanceAs (Decidable (s.wheel.time + waitTicks a.wait < 2 ^ 26))
  | _, .insert _ _ _ => inferInstanceAs (Decidable True)
  | s, .timer => inferInstanceAs (Decidable (s.phase = .shift → s.wheel.time + 1 < 2 ^ 26))

instance : (s : Shared) → (p : Pc) → Decidable (inTime s p)
  | s, .insert _ ticks since => inferInstanceAs (Decidable (s.shifts - since ≤ ticks ∧
      (s.phase.cleared = true → s.shifts - since < ticks)))
  | _, .add _ => inferInstanceAs (Decidable True)
  | _, .timer => inferInstanceAs (Decidable True)

/-- The assertion of `addto_list` has held, nothing stands at a head of `n[3]`, and whatever was filed
and due when a tick began has run when it has ended. -/
structure RunsTimers (s : Shared) : Prop where
  asserted : s.wheel.aborted = false
  top : ∀ idx, s.wheel.slots (.level 3 idx) = []
  ran : s.phase = .idle → ∀ r ∈ s.owed, Event.run r ∈ s.wheel.log

/-! ## The invariant -/

/-- The nodes detached by `list_clear` whose callback has not been called. -/
def Phase.pending : Phase → List TimerNode
  | .loop _ r => r
  | .call _ r n => r :: n
  | _ => []

structure Inv (s : Shared) (T : Multiset Pc) : Prop where
  ok : s.wheel.aborted = false
  clock : s.shifts = s.wheel.time
  time_lt : s.wheel.time < 2 ^ 26
  waiting : ∀ r ticks since, Pc.insert r ticks since ∈ T →
    r.expire = since + ticks ∧ r.expire < 2 ^ 26 ∧ since ≤ s.shifts
  slots : ∀ l, ∀ r ∈ s.wheel.slots l,
    s.wheel.time ≤ r.expire ∧ r.expire < 2 ^ 26 ∧ place r.expire s.wheel.time = l
  cleared : s.phase.cleared = true → ∀ l, ∀ r ∈ s.wheel.slots l, r.expire ≠ s.wheel.time
  filed : ∀ r ∈ s.filed, Event.run r ∈ s.wheel.log ∨ r ∈ s.phase.pending ∨
    r ∈ s.wheel.slots (place r.expire s.wheel.time)
  owed : ∀ r ∈ s.owed, Event.run r ∈ s.wheel.log ∨ r ∈ s.phase.pending ∨
    s.phase = .execute true ∧ r ∈ s.wheel.slots (.near (s.wheel.time &&& TIME_NEAR_MASK))

theorem Inv.runsTimers {s : Shared} {T : Multiset Pc} (h : Inv s T) : RunsTimers s := by
  refine ⟨h.ok, fun idx => ?_, fun hidle r hr => ?_⟩
  · rw [List.eq_nil_iff_forall_not_mem]
    intro r hr
    obtain ⟨-, hlow, hplace⟩ := h.slots _ r hr
    exact place_ne_top hlow h.time_lt hplace
  rcases h.owed r hr with hrun | hpend | ⟨hex, -⟩
  · exact hrun
  · rw [hidle] at hpend
    cases hpend
  · rw [hidle] at hex
    cases hex

/-! ## One step -/

section Step

variable {s : Shared} {T R : Multiset Pc}

theorem Inv.threads (h : Inv s T) (hT : ∀ r ticks since, Pc.insert r ticks since ∈ R →
    Pc.insert r ticks since ∈ T) : Inv s R :=
  { h with waiting := fun r ticks since hm => h.waiting r ticks since (hT r ticks since hm) }

/-- **The unlocked part** of `coretimer_add`. -/
theorem Inv.add {a : AddReq} (h : Inv s (.add a ::ₘ R)) (hw : low s (.add a)) :
    Inv (next s (.add a)).1 (put (next s (.add a)).2 R) where
  ok := h.ok
  clock := h.clock
  time_lt := h.time_lt
  waiting r ticks since hm := by
    rcases Multiset.mem_cons.mp hm with heq | hm
    · obtain ⟨rfl, rfl, rfl⟩ := Pc.insert.inj heq
      have hexp : (s.wheel.filed a).expire = s.wheel.time + waitTicks a.wait :=
        Nat.mod_eq_of_lt (noWrap_of_low hw)
      refine ⟨?_, ?_, le_rfl⟩
      · rw [hexp, h.clock]
      · rw [hexp]
        exact hw
    · exact h.waiting r ticks since (Multiset.mem_cons_of_mem hm)
  slots := h.slots
  cleared := h.cleared
  filed := h.filed
  owed := h.owed

/-- **The locked part**, in time. -/
theorem Inv.insert {r : TimerNode} {ticks since : Nat} (h : Inv s (.insert r ticks since ::ₘ R))
    (ht : inTime s (.insert r ticks since)) :
    Inv (next s (.insert r ticks since)).1 (put (next s (.insert r ticks since)).2 R) := by
  obtain ⟨hexp, hlt, hsince⟩ := h.waiting r ticks since (Multiset.mem_cons_self _ _)
  have hclock := h.clock
  obtain ⟨hle, hcleared⟩ := ht
  have hr : s.wheel.time ≤ r.expire := by omega
  obtain ⟨chains, heq⟩ := insert_eq h.ok hr
  simp only [next, heq]
  exact {
    ok := h.ok
    clock := h.clock
    time_lt := h.time_lt
    waiting := fun n k t hm => h.waiting n k t (Multiset.mem_cons_of_mem hm)
    slots := by
      intro l n hn
      rcases mem_update_snoc.mp hn with hn | ⟨rfl, rfl⟩
      · exact h.slots l n hn
      · exact ⟨hr, hlt, rfl⟩
    cleared := by
      intro hc l n hn
      rcases mem_update_snoc.mp hn with hn | ⟨rfl, rfl⟩
      · exact h.cleared hc l n hn
      · have := hcleared hc
        exact (by omega : n.expire ≠ s.wheel.time)
    filed := by
      intro n hn
      rcases List.mem_append.mp hn with hn | hn
      · rcases h.filed n hn with hrun | hpend | hslot
        · exact .inl hrun
        · exact .inr (.inl hpend)
        · exact .inr (.inr (mem_update_snoc.mpr (.inl hslot)))
      · obtain rfl := List.mem_singleton.mp hn
        exact .inr (.inr (mem_update_snoc.mpr (.inr ⟨rfl, rfl⟩)))
    owed := by
      intro n hn
      rcases h.owed n hn with hrun | hpend | ⟨hex, hslot⟩
      · exact .inl hrun
      · exact .inr (.inl hpend)
      · exact .inr (.inr ⟨hex, mem_update_snoc.mpr (.inl hslot)⟩) }

/-- A tick begins: whatever is filed and due has run or stands in the slot of the current time. -/
theorem Inv.tick_idle (h : Inv s T) (hp : s.phase = .idle) : Inv s.tick T := by
  have hpend : s.phase.pending = [] := by rw [hp]; rfl
  simp only [Shared.tick, hp]
  refine ⟨h.ok, h.clock, h.time_lt, h.waiting, h.slots, (fun h => by cases h), fun r hr => ?_, fun r hr => ?_⟩
  · rcases h.filed r hr with hrun | hm | hslot
    · exact .inl hrun
    · rw [hpend] at hm
      cases hm
    · exact .inr (.inr hslot)
  · obtain ⟨hr, hdue⟩ := List.mem_filter.mp hr
    have hdue : r.expire ≤ s.wheel.time := by simpa using hdue
    rcases h.filed r hr with hrun | hm | hslot
    · exact .inl hrun
    · rw [hpend] at hm
      cases hm
    · have hnow : r.expire = s.wheel.time := Nat.le_antisymm hdue (h.slots _ r hslot).1
      rw [place_eq_near_self.mpr hnow] at hslot
      exact .inr (.inr ⟨rfl, hslot⟩)

/-- `list_clear` detaches the nodes of the current time. -/
theorem Inv.tick_execute {first : Bool} (h : Inv s T) (hp : s.phase = .execute first) :
    Inv s.tick T := by
  have hpend : s.phase.pending = [] := by rw [hp]; rfl
  have hstay : ∀ l, ∀ r ∈ Function.update s.wheel.slots (.near (s.wheel.time &&& TIME_NEAR_MASK)) [] l,
      l ≠ .near (s.wheel.time &&& TIME_NEAR_MASK) ∧ r ∈ s.wheel.slots l :=
    fun l r hr => mem_update_nil.mp hr
  simp only [Shared.tick, hp]
  refine ⟨h.ok, h.clock, h.time_lt, h.waiting, fun l r hr => h.slots l r (hstay l r hr).2,
    fun _ l r hr => ?_, fun r hr => ?_, fun r hr => ?_⟩
  · obtain ⟨hne, hr⟩ := hstay l r hr
    intro hnow
    exact hne (by rw [← (h.slots l r hr).2.2, place_eq_near_self.mpr hnow])
  · rcases h.filed r hr with hrun | hm | hslot
    · exact .inl hrun
    · rw [hpend] at hm
      cases hm
    · by_cases hl : place r.expire s.wheel.time = .near (s.wheel.time &&& TIME_NEAR_MASK)
      · rw [hl] at hslot
        exact .inr (.inl hslot)
      · exact .inr (.inr (mem_update_nil.mpr ⟨hl, hslot⟩))
  · rcases h.owed r hr with hrun | hm | ⟨-, hslot⟩
    · exact .inl hrun
    · rw [hpend] at hm
      cases hm
    · exact .inr (.inl hslot)

/-- A step that changes neither slots nor clock, with the same nodes pending except those that have
run now. -/
theorem Inv.tick_same {s' : Shared} (h : Inv s T) (hp : s.phase ≠ .execute true)
    (hok : s'.wheel.aborted = s.wheel.aborted) (hslots : s'.wheel.slots = s.wheel.slots)
    (htime : s'.wheel.time = s.wheel.time) (hshifts : s'.shifts = s.shifts)
    (hfiled : s'.filed = s.filed) (howed : s'.owed = s.owed)
    (hlog : ∀ r, Event.run r ∈ s.wheel.log → Event.run r ∈ s'.wheel.log)
    (hpend : ∀ r ∈ s.phase.pending, Event.run r ∈ s'.wheel.log ∨ r ∈ s'.phase.pending)
    (hcleared : s'.phase.cleared = true → s.phase.cleared = true) : Inv s' T where
  ok := hok.trans h.ok
  clock := by rw [hshifts, htime, h.clock]
  time_lt := by rw [htime]; exact h.time_lt
  waiting := by rw [hshifts]; exact h.waiting
  slots := by rw [hslots, htime]; exact h.slots
  cleared hc := by rw [hslots, htime]; exact h.cleared (hcleared hc)
  filed r hr := by
    rw [hfiled] at hr
    rw [hslots, htime]
    rcases h.filed r hr with hrun | hm | hslot
    · exact .inl (hlog r hrun)
    · exact (hpend r hm).imp_right .inl
    · exact .inr (.inr hslot)
  owed r hr := by
    rw [howed] at hr
    rcases h.owed r hr with hrun | hm | ⟨hex, -⟩
    · exact .inl (hlog r hrun)
    · exact (hpend r hm).imp_right .inl
    · exact absurd hex hp

/-- `timer_shift`: nothing that is filed was due. -/
theorem Inv.tick_shift (h : Inv s T) (hp : s.phase = .shift) (hw : s.wheel.time + 1 < 2 ^ 26) :
    Inv s.tick T := by
  have hpend : s.phase.pending = [] := by rw [hp]; rfl
  have hcleared := h.cleared (by rw [hp]; rfl)
  have hfut : ∀ l, ∀ r ∈ s.wheel.slots l, s.wheel.time + 1 ≤ r.expire ∧
      place r.expire s.wheel.time = l := fun l r hr =>
    ⟨Nat.lt_of_le_of_ne (h.slots l r hr).1 (Ne.symm (hcleared l r hr)), (h.slots l r hr).2.2⟩
  obtain ⟨slots, heq, hmem⟩ := shift_slots h.ok (hw.trans (by decide)) hfut
  have hrun : ∀ r, Event.run r ∈ s.wheel.log →
      Event.run r ∈ s.wheel.log ++ [Event.tick (s.wheel.time + 1)] :=
    fun r hr => List.mem_append_left _ hr
  simp only [Shared.tick, hp, heq]
  refine ⟨h.ok, congrArg (· + 1) h.clock, hw, fun r ticks since hm => ?_, fun l r hr => ?_,
    (fun h => by cases h), fun r hr => ?_, fun r hr => ?_⟩
  · obtain ⟨h₁, h₂, h₃⟩ := h.waiting r ticks since hm
    exact ⟨h₁, h₂, Nat.le_succ_of_le h₃⟩
  · obtain ⟨hl, hr⟩ := (hmem l r).mp hr
    exact ⟨(hfut _ r hr).1, (h.slots _ r hr).2.1, hl⟩
  · rcases h.filed r hr with hr | hm | hslot
    · exact .inl (hrun r hr)
    · rw [hpend] at hm
      cases hm
    · exact .inr (.inr ((hmem _ r).mpr ⟨rfl, hslot⟩))
  · rcases h.owed r hr with hr | hm | ⟨hex, -⟩
    · exact .inl (hrun r hr)
    · rw [hpend] at hm
      cases hm
    · rw [hp] at hex
      cases hex

/-- **The updating thread.** -/
theorem Inv.tick (h : Inv s T) (hw : low s .timer) : Inv s.tick T := by
  cases hp : s.phase with
  | idle => exact h.tick_idle hp
  | execute first => exact h.tick_execute hp
  | shift => exact h.tick_shift hp (hw hp)
  | call first r n =>
    refine h.tick_same (by simp [hp]) ?_ ?_ ?_ ?_ ?_ ?_ ?_ ?_ ?_ <;>
      simp only [Shared.tick, hp, Wheel.record]
    · exact fun x hx => List.mem_append_left _ hx
    · intro x hx
      rcases List.mem_cons.mp hx with rfl | hx
      · exact .inl (by simp)
      · exact .inr hx
    · cases first <;> exact id
  | loop first rs =>
    cases rs with
    | nil =>
      refine h.tick_same (by simp [hp]) ?_ ?_ ?_ ?_ ?_ ?_ ?_ ?_ ?_ <;>
        simp only [Shared.tick, hp]
      · exact fun x hx => hx
      · intro x hx
        cases hx
      · cases first
        · intro h
          cases h
        · exact id
    | cons r rs =>
      refine h.tick_same (by simp [hp]) ?_ ?_ ?_ ?_ ?_ ?_ ?_ ?_ ?_ <;>
        simp only [Shared.tick, hp, Wheel.delfromHash]
      · exact fun x hx => hx
      · exact fun x hx => .inr hx
      · cases first <;> exact id

/-- **One step** of any thread. -/
theorem Inv.next {p : Pc} (h : Inv s (p ::ₘ R)) (hw : low s p) (ht : inTime s p) :
    Inv (Threads.next s p).1 (put (Threads.next s p).2 R) := by
  cases p with
  | add a => exact h.add hw
  | insert r ticks since => exact h.insert ht
  | timer => exact h.tick hw

end Step

theorem begin_inv : Inv begin.shared begin.threads where
  ok := rfl
  clock := rfl
  time_lt := by decide
  waiting r ticks since hm := by simp [begin] at hm
  slots _ _ hr := by cases hr
  cleared h := by cases h
  filed _ hr := by cases hr
  owed _ hr := by cases hr

/-- **Adding timers while another thread ticks.** In every run in which expiries and time stay below
`2 ^ 26` and every node is filed in time, the assertion of `addto_list` holds, no head of `n[3]` is
reached, and a timer that was filed and due when a tick began has run when that tick has ended. -/
theorem threads_run_timers (S : Sys Shared Pc)
    (h : Reach program (fun s p _ => low s p ∧ inTime s p) begin S) : RunsTimers S.shared := by
  have hinv : Inv S.shared S.threads := by
    refine Reach.invariant (I := Inv) h begin_inv ?_ ?_
    · exact fun s p R hok hI => hI.next hok.1 hok.2
    · rintro s s' p T ⟨rfl, a, rfl⟩ hI
      refine hI.threads fun r ticks since hm => ?_
      rcases Multiset.mem_cons.mp hm with hm | hm
      · cases hm
      · exact hm
  exact hinv.runsTimers

/-! ## A node that is filed late -/

section Late

variable {ok : Shared → Pc → Multiset Pc → Prop} {k : Shared → Pc → Bool}

/-- The memory after the unlocked part of an addition and `n` steps of the updating thread. -/
def slipped (a : AddReq) (n : Nat) : Shared :=
  (solo program n (next begin.shared (.add a)).1 (some .timer)).1

/-- The node of that addition at its locked part. -/
def late (a : AddReq) : Pc := .insert (coretimerNew.filed a) (waitTicks a.wait) 0

/-- The memory after the locked part and `m` further steps of the updating thread. -/
def settled (a : AddReq) (n m : Nat) : Shared :=
  (solo program m (next (slipped a n) (late a)).1 (some .timer)).1

/-- All these steps are of the kind `k`. -/
def settledAll (k : Shared → Pc → Bool) (a : AddReq) (n m : Nat) : Bool :=
  k begin.shared (.add a) && soloAll program k n (next begin.shared (.add a)).1 (some .timer) &&
    k (slipped a n) (late a) && soloAll program k m (next (slipped a n) (late a)).1 (some .timer)

theorem solo_timer (n : Nat) (s : Shared) : (solo program n s (some .timer)).2 = some .timer := by
  induction n generalizing s with
  | zero => rfl
  | succ n ih => exact ih _

theorem settled_reach (hk : ∀ s p R, k s p = true → ok s p R) {a : AddReq} {n m : Nat}
    (hall : settledAll k a n m = true) : Reach program ok begin ⟨settled a n m, {.timer}⟩ := by
  simp only [settledAll, Bool.and_eq_true] at hall
  obtain ⟨⟨⟨hadd, hn⟩, hins⟩, hm⟩ := hall
  have hswap : put (some Pc.timer) {late a} = late a ::ₘ {.timer} := Multiset.pair_comm _ _
  have hstart : Reach program ok begin ⟨begin.shared, .add a ::ₘ {.timer}⟩ := by
    have hcall : program.start begin.shared begin.shared (.add a) := ⟨rfl, a, rfl⟩
    exact Relation.ReflTransGen.single (.start _ _ _ _ hcall)
  have hcomputed : Reach program ok begin
      ⟨(next begin.shared (.add a)).1, put (some .timer) {late a}⟩ := by
    have h := hstart.tail (.thread begin.shared (.add a) {.timer} (hk _ _ _ hadd))
    rw [hswap]
    exact h
  have hslipped := Reach.solo n hcomputed (fun s p hp => hk s p _ hp) hn
  rw [solo_timer] at hslipped
  have hfiled : Reach program ok begin
      ⟨(next (slipped a n) (late a)).1, put (some .timer) 0⟩ := by
    rw [hswap] at hslipped
    exact hslipped.tail (.thread (slipped a n) (late a) {.timer} (hk _ _ _ hins))
  have hsettled := Reach.solo m hfiled (fun s p hp => hk s p _ hp) hm
  rw [solo_timer] at hsettled
  exact hsettled

/-- One tick slips in before a node for the next tick is filed: it runs in the tick after. -/
theorem threads_run_timers_oneTick :
    RunsTimers (settled ⟨7, 1, 10⟩ 6 8) ∧ (settled ⟨7, 1, 10⟩ 6 8).phase = .idle ∧
      (settled ⟨7, 1, 10⟩ 6 8).owed = [⟨1, 7, 1, 1, 0⟩] := by
  have hreach : Reach program (fun s p _ => low s p ∧ inTime s p) begin
      ⟨settled ⟨7, 1, 10⟩ 6 8, {.timer}⟩ :=
    settled_reach (k := fun s p => decide (low s p ∧ inTime s p))
      (fun s p _ h => of_decide_eq_true h) (by decide +kernel)
  exact ⟨threads_run_timers _ hreach, by decide +kernel, by decide +kernel⟩

/-- With two ticks between its two parts an addition for the next tick stops on the assertion. With
one tick and the first `timer_execute` of another between them the node is filed in a slot that has
been looked at: the tick that begins next ends without it. -/
theorem late_add_fails :
    (∃ S, Reach program (fun s p _ => noWrap s p) begin S ∧ S.shared.wheel.aborted = true) ∧
    ∃ S, Reach program (fun s p _ => noWrap s p) begin S ∧ S.shared.wheel.aborted = false ∧
      S.shared.phase = .idle ∧ ∃ r ∈ S.shared.owed, Event.run r ∉ S.shared.wheel.log := by
  have hreach : ∀ n m, settledAll (fun s p => decide (low s p)) ⟨7, 1, 10⟩ n m = true →
      Reach program (fun s p _ => noWrap s p) begin ⟨settled ⟨7, 1, 10⟩ n m, {.timer}⟩ :=
    fun n m => settled_reach (k := fun s p => decide (low s p)) fun s p _ h =>
      noWrap_of_low (of_decide_eq_true h)
  refine ⟨⟨_, hreach 12 0 (by decide +kernel), by decide +kernel⟩,
    ⟨_, hreach 9 9 (by decide +kernel), by decide +kernel, by decide +kernel,
      ⟨1, 7, 1, 1, 0⟩, by decide +kernel, by decide +kernel⟩⟩

end Late

end HoNet.Timer.Threads
