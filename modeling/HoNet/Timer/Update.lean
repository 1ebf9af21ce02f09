import HoNet.Timer.Refine

/-!
# The clock readings of `coretimer_update`

`coretimer_update` reads the system time, runs one `timer_tick` for each unit that went by since the
reading in `timer_tick`, and stores the new one. The difference is taken in 64 bits and cut to 32. The
system time can be set back; then the branch for it does not compute 0.

`coretimer_new` leaves the links of the heads of `n[3]` at `NULL`, so that `list_add` and `list_clear`
crash there. The lists of a `Wheel` begin empty; the two agree below `2 ^ 26`, where nothing is filed
at `n[3]` and none of its lists is moved (`Wheel.InPlace`).

* `Wheel.InPlace.tick` — a tick below `2 ^ 26`.
* `ticksDue_back` — what the branch for a clock that went back computes.
* `ticksDue_eq_iff` — when one update runs the right number of ticks.
* `elapsed_iff` — the sequences of readings for which all updates do.
-/

namespace HoNet.Timer

/-- `gettime`, from the `FILETIME` that the system returns. -/
def gettime (ft : UInt64) : Nat := ft.toNat / 10 / 1000 / TIME_SLOT_LEN

/-- `diff` of `coretimer_update`: the 64-bit differences, cut to 32 bits. -/
def ticksDue (last now : Nat) : Nat :=
  if now < last then (2 ^ 64 - 1 - last + now) % 2 ^ 64 % 2 ^ 32
  else if now ≠ last then (now - last) % 2 ^ 32
  else 0

/-- The wheel and the field `timer_tick` of `struct core_timer`. `ticks` is a history variable: the
number of calls of the function `timer_tick`. -/
structure Clocked where
  wheel : Wheel
  timerTick : Nat
  ticks : Nat

namespace Clocked

/-- `coretimer_new`, which takes the first reading. -/
def new (ft : UInt64) : Clocked := ⟨coretimerNew, gettime ft, 0⟩

/-- `for (i = 0; i<diff; i++) timer_tick(timer, io);` — `cb i` are the additions that the callbacks of
the round `i` make. -/
def tickLoop (cb : Nat → List (List AddReq)) : Nat → Nat → Clocked → Clocked
  | 0, _, T => T
  | rounds + 1, i, T =>
    tickLoop cb rounds (i + 1) { T with wheel := T.wheel.step (.tick (cb i)), ticks := T.ticks + 1 }

def coretimerUpdate (T : Clocked) (ft : UInt64) (cb : Nat → List (List AddReq)) : Clocked :=
  let nowTick := gettime ft
  let diff := ticksDue T.timerTick nowTick
  if diff > 0 then tickLoop cb diff 0 { T with timerTick := nowTick } else T

end Clocked

/-- The calls from outside: the lock makes each of them one step. -/
inductive Visit where
  | add (a : AddReq)
  | del (id : Nat)
  | update (ft : UInt64) (cb : Nat → List (List AddReq))

/-! ## The property -/

/-- Each update runs one tick for each unit since the reading `r` before it, none if the clock went
back, and a clock that did not advance leaves the timers alone. No assertion fails, and nothing
stands at a head of `n[3]`. -/
def Elapsed : Clocked → Nat → List Visit → Prop
  | _, _, [] => True
  | T, r, .add a :: vs => Elapsed { T with wheel := T.wheel.coretimerAdd a } r vs
  | T, r, .del id :: vs => Elapsed { T with wheel := T.wheel.coretimerDel id } r vs
  | T, r, .update ft cb :: vs =>
    let T' := T.coretimerUpdate ft cb
    T'.ticks = T.ticks + (gettime ft - r) ∧ (gettime ft ≤ r → T'.wheel = T.wheel) ∧
      (T'.wheel.aborted = false ∧ ∀ idx, T'.wheel.slots (.level 3 idx) = []) ∧
      Elapsed T' (gettime ft) vs

def readings : List Visit → List Nat
  | [] => []
  | .update ft _ :: vs => gettime ft :: readings vs
  | _ :: vs => readings vs

/-- No expiry and no time reaches `2 ^ 26` from the time `t` and the reading `r` on, if each update runs
one tick for each unit: the expiries of additions from outside and, round by round, of those that
callbacks make. -/
def BelowTop : Nat → Nat → List Visit → Prop
  | _, _, [] => True
  | t, r, .add a :: vs => t + waitTicks a.wait < 2 ^ 26 ∧ BelowTop t r vs
  | t, r, .del _ :: vs => BelowTop t r vs
  | t, r, .update ft cb :: vs =>
    let due := gettime ft - r
    t + due < 2 ^ 26 ∧
      (∀ i < due, ∀ as ∈ cb i, ∀ a ∈ as, t + (i + 1) + waitTicks a.wait < 2 ^ 26) ∧
      BelowTop (t + due) (gettime ft) vs

/-- Every forward step of the clock is below `2 ^ 32`. -/
def SmallSteps : Nat → List Nat → Prop
  | _, [] => True
  | r, now :: rest => now < r + 2 ^ 32 ∧ SmallSteps now rest

/-- The condition on one reading: `last` is the field `timer_tick`, `r` the reading before. A clock
that goes back does so to one unit past `last`, up to multiples of `2 ^ 32`; one that goes forward
from such a reading does not end at `last`. -/
def Settled (last r now : Nat) : Prop :=
  if r ≤ now then now = last → r = last else (last + 1 - now) % 2 ^ 32 = 0

/-- The condition along a sequence of readings; `last` is the last one before which the clock had
advanced. -/
def Steady : Nat → Nat → List Nat → Prop
  | _, _, [] => True
  | last, r, now :: rest => Settled last r now ∧ Steady (if r < now then now else last) now rest

/-- A clock that never goes back meets the condition. -/
theorem steady_of_sorted {r : Nat} {rs : List Nat} (h : (r :: rs).Pairwise (· ≤ ·)) :
    Steady r r rs := by
  induction rs generalizing r with
  | nil => trivial
  | cons now rest ih =>
    obtain ⟨hr, hrest⟩ := List.pairwise_cons.mp h
    have hle : r ≤ now := hr now List.mem_cons_self
    refine ⟨?_, ?_⟩
    · rw [Settled, if_pos hle]
      intro _
      rfl
    · have hnext : (if r < now then now else r) = now := by
        split <;> omega
      rw [hnext]
      exact ih hrest

/-! ## Below `2 ^ 26` -/

/-- Every node stands in the slot of its expiry, which is ahead and below `2 ^ 26`. -/
structure Wheel.InPlace (w : Wheel) : Prop where
  ok : w.aborted = false
  time_lt : w.time < 2 ^ 26
  slots : ∀ l, ∀ r ∈ w.slots l, w.time < r.expire ∧ r.expire < 2 ^ 26 ∧ place r.expire w.time = l

section InPlace

variable {w : Wheel}

theorem startAt_inPlace {t : Nat} (ht : t < 2 ^ 26) : (startAt t).InPlace :=
  ⟨rfl, ht, fun _ _ hr => by cases hr⟩

theorem Wheel.InPlace.top (h : w.InPlace) (idx : Nat) : w.slots (.level 3 idx) = [] := by
  rw [List.eq_nil_iff_forall_not_mem]
  intro r hr
  obtain ⟨-, hlow, hplace⟩ := h.slots _ r hr
  exact place_ne_top hlow h.time_lt hplace

/-- Fewer nodes at the same time. -/
theorem Wheel.InPlace.of_subset {w' : Wheel} (h : w.InPlace) (hok : w'.aborted = w.aborted)
    (htime : w'.time = w.time) (hslots : ∀ l, w'.slots l ⊆ w.slots l) : w'.InPlace := by
  refine ⟨hok.trans h.ok, htime ▸ h.time_lt, fun l r hr => ?_⟩
  rw [htime]
  exact h.slots l r (hslots l hr)

theorem Wheel.InPlace.add (h : w.InPlace) (a : AddReq) (ha : w.time + waitTicks a.wait < 2 ^ 26) :
    (w.coretimerAdd a).InPlace ∧ (w.coretimerAdd a).time = w.time := by
  have hexp : (w.filed a).expire = w.time + waitTicks a.wait :=
    Nat.mod_eq_of_lt (ha.trans (by decide))
  have hpos := waitTicks_pos a.wait
  obtain ⟨chains, heq⟩ := insert_eq (r := w.filed a)
    (w := { w with
      index := (w.filed a).id
      added := w.added + 1
      log := w.log ++ [.add (w.filed a) w.time a.wait] }) h.ok (by rw [hexp]; exact Nat.le_add_right _ _)
  have hadd : w.coretimerAdd a = _ := (if_neg (by simp [h.ok])).trans heq
  rw [hadd]
  refine ⟨⟨h.ok, h.time_lt, fun l r hr => ?_⟩, rfl⟩
  rcases mem_update_snoc.mp hr with hr | ⟨rfl, rfl⟩
  · exact h.slots l r hr
  · rw [hexp]
    exact ⟨Nat.lt_add_of_pos_right hpos, ha, rfl⟩

theorem Wheel.InPlace.del (h : w.InPlace) (id : Nat) :
    (w.coretimerDel id).InPlace ∧ (w.coretimerDel id).time = w.time := by
  unfold Wheel.coretimerDel
  rw [if_neg (by simp [h.ok])]
  split
  · exact ⟨h, rfl⟩
  · exact ⟨h.of_subset rfl rfl fun l => List.erase_subset, rfl⟩

theorem Wheel.InPlace.adds (h : w.InPlace) (as : List AddReq)
    (has : ∀ a ∈ as, w.time + waitTicks a.wait < 2 ^ 26) :
    (as.foldl Wheel.coretimerAdd w).InPlace ∧ (as.foldl Wheel.coretimerAdd w).time = w.time := by
  induction as generalizing w with
  | nil => exact ⟨h, rfl⟩
  | cons a as ih =>
    obtain ⟨ha, htime⟩ := h.add a (has a List.mem_cons_self)
    obtain ⟨hrest, htime'⟩ := ih ha fun b hb => by
      rw [htime]
      exact has b (List.mem_cons_of_mem a hb)
    exact ⟨hrest, htime'.trans htime⟩

/-- The loop of `timer_execute`, with the callbacks that are left for the next one. -/
theorem Wheel.InPlace.loop (h : w.InPlace) (rs : List TimerNode) (cb : List (List AddReq))
    (hcb : ∀ as ∈ cb, ∀ a ∈ as, w.time + waitTicks a.wait < 2 ^ 26) :
    (executeLoop rs cb w).1.InPlace ∧ (executeLoop rs cb w).1.time = w.time ∧
      (executeLoop rs cb w).2 ⊆ cb := by
  induction rs generalizing cb w with
  | nil => exact ⟨h, rfl, List.Subset.refl cb⟩
  | cons r rs ih =>
    have hrun : ((w.delfromHash r).record (.run r)).InPlace :=
      h.of_subset rfl rfl fun l => List.Subset.refl _
    have hhead : ∀ a ∈ cb.headD [], w.time + waitTicks a.wait < 2 ^ 26 := by
      cases cb with
      | nil => exact fun a ha => by cases ha
      | cons as cb => exact hcb as List.mem_cons_self
    obtain ⟨hadds, htime⟩ := hrun.adds _ hhead
    have htime : ((cb.headD []).foldl coretimerAdd ((w.delfromHash r).record (.run r))).time =
        w.time := htime
    obtain ⟨hrest, htime', hsub⟩ := ih hadds cb.tail fun as has a ha => by
      rw [htime]
      exact hcb as (List.mem_of_mem_tail has) a ha
    rw [executeLoop, if_neg (by simp [h.ok])]
    exact ⟨hrest, htime'.trans htime, fun as has => List.mem_of_mem_tail (hsub has)⟩

/-- `timer_execute` while nothing is overdue. -/
theorem Wheel.InPlace.execute (hok : w.aborted = false) (hlt : w.time < 2 ^ 26)
    (hs : ∀ l, ∀ r ∈ w.slots l, w.time ≤ r.expire ∧ r.expire < 2 ^ 26 ∧ place r.expire w.time = l)
    (cb : List (List AddReq)) (hcb : ∀ as ∈ cb, ∀ a ∈ as, w.time + waitTicks a.wait < 2 ^ 26) :
    (w.timerExecute cb).1.InPlace ∧ (w.timerExecute cb).1.time = w.time ∧
      (w.timerExecute cb).2 ⊆ cb := by
  have hclear : Wheel.InPlace { w with
      slots := Function.update w.slots (.near (w.time &&& TIME_NEAR_MASK)) [] } := by
    refine ⟨hok, hlt, fun l r hr => ?_⟩
    obtain ⟨hne, hr⟩ := mem_update_nil.mp hr
    obtain ⟨hle, hlow, hplace⟩ := hs l r hr
    have hnow : r.expire ≠ w.time := by
      intro hnow
      exact hne (hplace.symm.trans (place_eq_near_self.mpr hnow))
    exact ⟨Nat.lt_of_le_of_ne hle (Ne.symm hnow), hlow, hplace⟩
  exact hclear.loop _ cb hcb

/-- **A tick** below `2 ^ 26`. -/
theorem Wheel.InPlace.tick (h : w.InPlace) (ht : w.time + 1 < 2 ^ 26) (cb : List (List AddReq))
    (hcb : ∀ as ∈ cb, ∀ a ∈ as, w.time + 1 + waitTicks a.wait < 2 ^ 26) :
    (w.step (.tick cb)).InPlace ∧ (w.step (.tick cb)).time = w.time + 1 := by
  obtain ⟨hex, htime, hsub⟩ := Wheel.InPlace.execute h.ok h.time_lt
    (fun l r hr => ⟨(h.slots l r hr).1.le, (h.slots l r hr).2⟩) cb fun as has a ha => by
      have := hcb as has a ha
      omega
  have hnext : ∀ l, ∀ r ∈ (w.timerExecute cb).1.slots l,
      (w.timerExecute cb).1.time + 1 ≤ r.expire ∧ place r.expire (w.timerExecute cb).1.time = l :=
    fun l r hr => ⟨(hex.slots l r hr).1, (hex.slots l r hr).2.2⟩
  obtain ⟨slots, heq, hmem⟩ := shift_slots hex.ok (by rw [htime]; omega) hnext
  obtain ⟨hlast, htime', -⟩ := Wheel.InPlace.execute (w := (w.timerExecute cb).1.timerShift)
    (by rw [heq]; exact hex.ok) (by rw [heq, htime]; exact ht)
    (fun l r hr => by
      rw [heq] at hr ⊢
      obtain ⟨hl, hr⟩ := (hmem l r).mp hr
      obtain ⟨hlt, hlow, -⟩ := hex.slots _ r hr
      exact ⟨hlt, hlow, hl⟩)
    (w.timerExecute cb).2 fun as has a ha => by
      rw [heq, htime]
      exact hcb as (hsub has) a ha
  have hstep : w.step (.tick cb) =
      ((w.timerExecute cb).1.timerShift.timerExecute (w.timerExecute cb).2).1.record .tock :=
    if_neg (by simp [h.ok])
  rw [hstep]
  refine ⟨hlast.of_subset rfl rfl fun l => List.Subset.refl _, ?_⟩
  show (Wheel.timerExecute _ _).1.time = _
  rw [htime', heq, htime]

end InPlace

/-! ## One update -/

theorem gettime_lt (ft : UInt64) : gettime ft < 2 ^ 48 := by
  have := ft.toNat_lt
  unfold gettime TIME_SLOT_LEN
  omega

/-- A clock that went back by `last - now` units makes for `2 ^ 32 - 1 - (last - now)` ticks, up to
multiples of `2 ^ 32`. -/
theorem ticksDue_back {last now : Nat} (hback : now < last) (hlast : last < 2 ^ 48) :
    (ticksDue last now + (last + 1 - now)) % 2 ^ 32 = 0 := by
  rw [ticksDue, if_pos hback]
  omega

theorem ticksDue_lt (last now : Nat) : ticksDue last now < 2 ^ 32 := by
  unfold ticksDue
  split
  · exact Nat.mod_lt _ (by decide)
  · split
    · exact Nat.mod_lt _ (by decide)
    · decide

/-- The field `timer_tick` is the reading before, or a larger one that is one unit short of it up to
multiples of `2 ^ 32`. -/
def Tracks (last r : Nat) : Prop := last = r ∨ r < last ∧ (last + 1 - r) % 2 ^ 32 = 0

/-- **One update** runs the right number of ticks exactly if the reading meets the condition. -/
theorem ticksDue_eq_iff {last r now : Nat} (ht : Tracks last r) (hlast : last < 2 ^ 48)
    (hstep : now < r + 2 ^ 32) : ticksDue last now = now - r ↔ Settled last r now := by
  have hlt := ticksDue_lt last now
  by_cases hle : r ≤ now
  · rw [Settled, if_pos hle]
    rcases Nat.lt_trichotomy now last with hback | rfl | hfwd
    · -- the clock is behind the field, from a reading that was so too
      have hmod := ticksDue_back hback hlast
      obtain ⟨hr, hr0⟩ : r < last ∧ (last + 1 - r) % 2 ^ 32 = 0 := ht.resolve_left (by omega)
      constructor
      · intro _ he
        omega
      · intro _
        omega
    · have hzero : ticksDue now now = 0 := by simp [ticksDue]
      rw [hzero]
      constructor
      · intro he _
        omega
      · intro he
        have := he rfl
        omega
    · have heq : ticksDue last now = (now - last) % 2 ^ 32 := by
        rw [ticksDue, if_neg (by omega), if_pos (by omega)]
      rw [heq]
      rcases ht with rfl | ⟨hr, hr0⟩
      · constructor
        · intro _ he
          omega
        · intro _
          exact Nat.mod_eq_of_lt (by omega)
      · -- a field that is ahead of the reading before is ahead by `2 ^ 32 - 1` at least
        omega
  · rw [Settled, if_neg hle]
    have hlast' : r ≤ last := by
      rcases ht with rfl | ⟨hr, -⟩
      · exact le_rfl
      · omega
    have hmod := ticksDue_back (show now < last by omega) hlast
    constructor
    · intro he
      rw [he, Nat.sub_eq_zero_of_le (by omega), Nat.zero_add] at hmod
      exact hmod
    · intro he
      omega

theorem Tracks.next {last r now : Nat} (ht : Tracks last r) (hs : Settled last r now) :
    Tracks (if r < now then now else last) now := by
  by_cases hfwd : r < now
  · rw [if_pos hfwd]
    exact .inl rfl
  · rw [if_neg hfwd]
    by_cases he : now = r
    · rw [he]
      exact ht
    · have hback : ¬ r ≤ now := by omega
      rw [Settled, if_neg hback] at hs
      refine .inr ⟨?_, hs⟩
      rcases ht with rfl | ⟨hr, -⟩ <;> omega

namespace Clocked

variable {T : Clocked} {ft : UInt64} {cb : Nat → List (List AddReq)}

theorem tickLoop_spec (rounds i : Nat) :
    (tickLoop cb rounds i T).ticks = T.ticks + rounds ∧
      (tickLoop cb rounds i T).timerTick = T.timerTick := by
  induction rounds generalizing i T with
  | zero => exact ⟨rfl, rfl⟩
  | succ rounds ih =>
    obtain ⟨hticks, htick⟩ := ih (T := { T with
      wheel := T.wheel.step (.tick (cb i)), ticks := T.ticks + 1 }) (i + 1)
    refine ⟨?_, htick⟩
    rw [tickLoop, hticks]
    show T.ticks + 1 + rounds = _
    omega

theorem tickLoop_inPlace {rounds i : Nat} (h : T.wheel.InPlace)
    (hlt : T.wheel.time + rounds < 2 ^ 26)
    (hcb : ∀ j < rounds, ∀ as ∈ cb (i + j), ∀ a ∈ as,
      T.wheel.time + (j + 1) + waitTicks a.wait < 2 ^ 26) :
    (tickLoop cb rounds i T).wheel.InPlace ∧
      (tickLoop cb rounds i T).wheel.time = T.wheel.time + rounds := by
  induction rounds generalizing i T with
  | zero => exact ⟨h, rfl⟩
  | succ rounds ih =>
    obtain ⟨hstep, htime⟩ := h.tick (by omega) (cb i) (hcb 0 (Nat.succ_pos rounds))
    obtain ⟨hrest, htime'⟩ := ih (i := i + 1) (T := { T with
        wheel := T.wheel.step (.tick (cb i)), ticks := T.ticks + 1 }) hstep
      (by
        show (T.wheel.step _).time + rounds < _
        omega)
      fun j hj as has a ha => by
        have hbound := hcb (j + 1) (Nat.succ_lt_succ hj) as (by rwa [← Nat.add_assoc,
          Nat.add_right_comm]) a ha
        show (T.wheel.step _).time + (j + 1) + waitTicks a.wait < _
        omega
    refine ⟨hrest, htime'.trans ?_⟩
    show (T.wheel.step _).time + rounds = _
    omega

theorem coretimerUpdate_ticks :
    (T.coretimerUpdate ft cb).ticks = T.ticks + ticksDue T.timerTick (gettime ft) := by
  unfold coretimerUpdate
  dsimp only
  split
  · exact (tickLoop_spec _ _).1
  · omega

theorem coretimerUpdate_timerTick :
    (T.coretimerUpdate ft cb).timerTick =
      if ticksDue T.timerTick (gettime ft) > 0 then gettime ft else T.timerTick := by
  unfold coretimerUpdate
  dsimp only
  split
  · exact (tickLoop_spec _ _).2
  · rfl

/-- An update that runs no tick changes nothing. -/
theorem coretimerUpdate_idle (h : ticksDue T.timerTick (gettime ft) = 0) :
    T.coretimerUpdate ft cb = T := by
  unfold coretimerUpdate
  dsimp only
  rw [h, if_neg (Nat.lt_irrefl 0)]

end Clocked

/-! ## Sequences of readings -/

/-- An update with the right number of ticks, below `2 ^ 26`. -/
theorem update_inPlace {T : Clocked} {r : Nat} {ft : UInt64} {cb : Nat → List (List AddReq)}
    (h : T.wheel.InPlace) (hdue : ticksDue T.timerTick (gettime ft) = gettime ft - r)
    (hlt : T.wheel.time + (gettime ft - r) < 2 ^ 26)
    (hcb : ∀ i < gettime ft - r, ∀ as ∈ cb i, ∀ a ∈ as,
      T.wheel.time + (i + 1) + waitTicks a.wait < 2 ^ 26) :
    (T.coretimerUpdate ft cb).wheel.InPlace ∧
      (T.coretimerUpdate ft cb).wheel.time = T.wheel.time + (gettime ft - r) := by
  unfold Clocked.coretimerUpdate
  dsimp only
  rw [hdue]
  split
  · refine Clocked.tickLoop_inPlace (T := { T with timerTick := gettime ft }) h hlt ?_
    intro j hj as has
    rw [Nat.zero_add] at has
    exact hcb j hj as has
  · exact ⟨h, by omega⟩

/-- Along a sequence of calls, with the field and the reading before as in `Tracks`. -/
theorem elapsed_iff_tracks {T : Clocked} {r : Nat} {vs : List Visit} (hT : T.wheel.InPlace)
    (ht : Tracks T.timerTick r) (hlast : T.timerTick < 2 ^ 48) (hsmall : SmallSteps r (readings vs))
    (hlow : BelowTop T.wheel.time r vs) :
    Elapsed T r vs ↔ Steady T.timerTick r (readings vs) := by
  induction vs generalizing T r with
  | nil => exact Iff.rfl
  | cons v vs ih =>
    cases v with
    | add a =>
      obtain ⟨hadd, htime⟩ := hT.add a hlow.1
      exact ih (T := { T with wheel := T.wheel.coretimerAdd a }) hadd ht hlast hsmall
        (htime ▸ hlow.2)
    | del id =>
      obtain ⟨hdel, htime⟩ := hT.del id
      exact ih (T := { T with wheel := T.wheel.coretimerDel id }) hdel ht hlast hsmall
        (htime ▸ hlow)
    | update ft cb =>
      obtain ⟨hstep, hsmall⟩ := hsmall
      obtain ⟨hlt, hcb, hlow⟩ := hlow
      have hone := ticksDue_eq_iff ht hlast hstep
      have hcount : (T.coretimerUpdate ft cb).ticks = T.ticks + (gettime ft - r) ↔
          Settled T.timerTick r (gettime ft) := by
        rw [Clocked.coretimerUpdate_ticks, Nat.add_left_cancel_iff, hone]
      show (_ ∧ _ ∧ _ ∧ _) ↔ (_ ∧ _)
      rw [hcount]
      refine and_congr_right fun hs => ?_
      -- the reading is a good one: what it leaves behind
      have hdue := hone.mpr hs
      have hfield : (T.coretimerUpdate ft cb).timerTick =
          if r < gettime ft then gettime ft else T.timerTick := by
        rw [Clocked.coretimerUpdate_timerTick, hdue]
        exact if_congr (by omega) rfl rfl
      obtain ⟨hplace, htime⟩ := update_inPlace hT hdue hlt hcb
      have hrest := ih (T := T.coretimerUpdate ft cb) (r := gettime ft) hplace
        (by rw [hfield]; exact ht.next hs)
        (by rw [hfield]; split; exacts [gettime_lt ft, hlast]) hsmall (by rw [htime]; exact hlow)
      rw [hrest, hfield]
      refine ⟨fun h => h.2.2, fun h => ⟨fun hle => ?_, ⟨hplace.ok, hplace.top⟩, h⟩⟩
      rw [Clocked.coretimerUpdate_idle (by rw [hdue]; omega)]

/-- **Elapsed time.** From every state with its nodes in place, and for every sequence of calls whose
readings have forward steps below `2 ^ 32` and which stays below `2 ^ 26`: each `coretimer_update`
runs as many ticks as the clock advanced, and none if it went back, if and only if the readings are
steady. -/
theorem elapsed_iff (T : Clocked) (hT : T.wheel.InPlace) (ft₀ : UInt64)
    (h₀ : T.timerTick = gettime ft₀) (vs : List Visit)
    (hsmall : SmallSteps (gettime ft₀) (readings vs))
    (hlow : BelowTop T.wheel.time (gettime ft₀) vs) :
    Elapsed T (gettime ft₀) vs ↔ Steady (gettime ft₀) (gettime ft₀) (readings vs) := by
  have h := elapsed_iff_tracks hT (.inl h₀) (by rw [h₀]; exact gettime_lt ft₀) hsmall hlow
  rwa [h₀] at h

/-- From reading `2 ^ 32 + 5` the clock goes back by `2 ^ 32 - 1` units, a timer is added, and the clock
goes on by two units. -/
theorem elapsed_iff_back :
    Elapsed (.new 429496730100000) (gettime 429496730100000)
      [.update 600000 fun _ => [], .add ⟨1, 2, 20⟩, .update 800000 fun _ => []] := by
  have hlow : BelowTop 0 (gettime 429496730100000)
      [.update 600000 fun _ => [], .add ⟨1, 2, 20⟩, .update 800000 fun _ => []] := by
    have hnone (i due : Nat) (_ : i < due) : ∀ as ∈ ([] : List (List AddReq)), ∀ a ∈ as,
        0 + (i + 1) + waitTicks a.wait < 2 ^ 26 := fun _ has => absurd has List.not_mem_nil
    exact ⟨by decide, fun i => hnone i _, by decide, by decide, fun i => hnone i _, trivial⟩
  refine (elapsed_iff _ (startAt_inPlace (by decide)) 429496730100000 rfl _ ?_ hlow).mpr ?_
  · exact ⟨by decide, by decide, trivial⟩
  · refine ⟨?_, ?_, trivial⟩
    · rw [Settled, if_neg (by decide)]
      decide
    · rw [Settled, if_pos (by decide)]
      decide

/-- A clock that goes back by `2 ^ 32 - 4` units makes for three ticks, and one that goes back by one
unit for a `diff` of 4294967294. -/
theorem rewind_ticks :
    ¬ Elapsed (.new 429496730100000) (gettime 429496730100000) [.update 900000 fun _ => []] ∧
      ((Clocked.new 429496730100000).coretimerUpdate 900000 fun _ => []).ticks = 3 ∧
      gettime 429496730100000 = 2 ^ 32 + 5 ∧ gettime 900000 = 9 ∧
      ¬ Elapsed (.new 500000) (gettime 500000) [.update 400000 fun _ => []] ∧
      ticksDue (gettime 500000) (gettime 400000) = 4294967294 := by
  have hthree : ((Clocked.new 429496730100000).coretimerUpdate 900000 fun _ => []).ticks = 3 := by
    rw [Clocked.coretimerUpdate_ticks]
    decide
  have hmany : ((Clocked.new 500000).coretimerUpdate 400000 fun _ => []).ticks = 4294967294 := by
    rw [Clocked.coretimerUpdate_ticks]
    decide
  refine ⟨fun h => ?_, hthree, by decide, by decide, fun h => ?_, by decide⟩
  · have hcount := h.1
    rw [hthree] at hcount
    exact absurd hcount (by decide)
  · have hcount := h.1
    rw [hmany] at hcount
    exact absurd hcount (by decide)

end HoNet.Timer
