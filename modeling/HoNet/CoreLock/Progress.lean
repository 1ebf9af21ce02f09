import HoNet.CoreLock
import HoNet.Lib.Progress

/-!
# Progress of the read-write lock of `corelock.c`

Once a writer has claimed `lock->write`, the readers it waits for have a bounded number of steps
before them: those that hold the lock return it, those that have announced themselves step back, and
no other one comes in. Whatever the threads have done before, they can all still get the lock and
return it.

`sys::rwlock` of `lock.h` has the same statements.

* `Claimed.thread` — one step beside a writer that waits.
* `writer_gets_in` — what the readers still do before a writer holds the lock.
* `lock_drains` — no reachable state is a deadlock.
-/

namespace HoNet.CoreLock

open HoNet.Pool

/-- The steps of a thread before it has returned the read lock or waits for the writer. -/
def Pc.steps : Pc → ℤ
  | .rInc => 3
  | .rTest => 2
  | .rBack | .rHeld => 1
  | _ => 0

/-- The next step of the thread is more than another turn of a spinning loop. -/
def moves (lock : RwLock) (p : Pc) : ℤ := if next lock p = (lock, some p) then 0 else 1

/-- No writer that has claimed the lock gets it. -/
def barred (lock : RwLock) (p : Pc) (_ : Multiset Pc) : Prop := p = .wWait → lock.read ≠ 0

/-- A writer has claimed the lock and waits; at most `k` threads hold the read lock. -/
structure Claimed (k : ℕ) (lock : RwLock) (T : Multiset Pc) : Prop extends Inv lock T where
  waits : .wWait ∈ T
  held : T.count .rHeld ≤ k

variable {lock : RwLock} {T R : Multiset Pc} {p : Pc} {k : ℕ}

theorem Pc.steps_nonneg (p : Pc) : 0 ≤ p.steps := by
  cases p <;> decide

theorem Claimed.write_ne (h : Claimed k lock T) : lock.write ≠ 0 := by
  have := write_pos h.write_eq h.waits rfl
  omega

/-- There is one writer. -/
theorem Claimed.not_held (h : Claimed k lock (.wHeld ::ₘ R)) : False := by
  have hmem := (Multiset.mem_cons.mp h.waits).resolve_left (by rintro ⟨⟩)
  obtain ⟨R, rfl⟩ := Multiset.exists_cons_of_mem hmem
  have hw := h.write_eq
  have hle := h.write_le
  rw [load_cons, load_cons] at hw
  have hR := load_nonneg Pc.writing_nonneg R
  simp only [Pc.writing] at hw
  omega

/-- The thread that stays where it is. -/
theorem moves_stay (h : next lock p = (lock, some p)) : moves lock p = 0 := if_pos h

/-- The writer still waits when another thread has moved. -/
theorem waits_put {o : Option Pc} (h : .wWait ∈ p ::ₘ R) (hp : p ≠ .wWait) : .wWait ∈ put o R :=
  mem_put.mpr (.inr ((Multiset.mem_cons.mp h).resolve_left hp.symm))

/-- **One step** beside a writer that waits: a thread that moves has a step less before it, and none
gets the read lock. -/
theorem Claimed.thread (h : Claimed k lock (p ::ₘ R)) (hok : barred lock p R) :
    Claimed k (next lock p).1 (put (next lock p).2 R) ∧
      moves lock p + load Pc.steps (put (next lock p).2 R) = load Pc.steps (p ::ₘ R) := by
  have hne := h.write_ne
  have hinv := h.toInv.thread
  have hheld := h.held
  have hstay (heq : next lock p = (lock, some p)) :
      Claimed k (next lock p).1 (put (next lock p).2 R) ∧
        moves lock p + load Pc.steps (put (next lock p).2 R) = load Pc.steps (p ::ₘ R) := by
    rw [moves_stay heq, heq]
    exact ⟨h, zero_add _⟩
  cases p with
  | rWait => exact hstay (by simp only [next, if_pos hne])
  | wTry => exact hstay (by simp only [next, if_neg hne])
  | wWait => exact hstay (by simp only [next, if_pos (hok rfl)])
  | wHeld => exact h.not_held.elim
  | rInc =>
    refine ⟨⟨hinv, waits_put h.waits (by rintro ⟨⟩), ?_⟩, ?_⟩
    · simpa [next, put] using hheld
    · simp [moves, next, put, Pc.steps]
      omega
  | rTest =>
    have hnext : next lock .rTest = (lock, some .rBack) := by simp only [next, if_pos hne]
    rw [hnext] at hinv ⊢
    refine ⟨⟨hinv, waits_put h.waits (by rintro ⟨⟩), ?_⟩, ?_⟩
    · simpa [put] using hheld
    · simp [moves, hnext, put, Pc.steps]
      omega
  | rBack =>
    refine ⟨⟨hinv, waits_put h.waits (by rintro ⟨⟩), ?_⟩, ?_⟩
    · simpa [next, put] using hheld
    · simp [moves, next, put, Pc.steps]
  | rHeld =>
    refine ⟨⟨hinv, waits_put h.waits (by rintro ⟨⟩), ?_⟩, ?_⟩
    · rw [Multiset.count_cons_self] at hheld
      exact (Nat.le_succ _).trans hheld
    · simp [moves, next, put, Pc.steps]

theorem Claimed.start (h : Claimed k lock T) {lock' : RwLock} (hs : Start lock lock' p) :
    Claimed k lock' (p ::ₘ T) ∧ load Pc.steps (p ::ₘ T) = load Pc.steps T := by
  have hinv := h.toInv.start hs
  have hnew : p.steps = 0 ∧ .rHeld ≠ p := by
    cases hs <;> exact ⟨rfl, by rintro ⟨⟩⟩
  refine ⟨⟨hinv, Multiset.mem_cons_of_mem h.waits, ?_⟩, ?_⟩
  · rw [Multiset.count_cons_of_ne hnew.2]
    exact h.held
  · rw [load_cons, hnew.1, zero_add]

/-- A thread that has announced itself is not held up by a writer. -/
theorem moves_of_steps (hp : 0 < p.steps) : moves lock p = 1 := by
  cases p <;> simp [Pc.steps] at hp <;> simp [moves, next]
  split <;> simp

/-- The writer waits for threads that have steps before them. -/
theorem reading_le_steps (p : Pc) : p.reading ≤ p.steps := by
  cases p <;> decide

theorem steps_le (p : Pc) : p.steps ≤ 3 := by
  cases p <;> decide

theorem Inv.read_le (h : Inv lock T) : 0 ≤ lock.read ∧ lock.read ≤ load Pc.steps T := by
  rw [h.read_eq]
  exact ⟨load_nonneg Pc.reading_nonneg T, load_mono reading_le_steps T⟩

theorem load_steps_le (T : Multiset Pc) : load Pc.steps T ≤ 3 * T.card := by
  induction T using Multiset.induction_on with
  | empty => exact le_rfl
  | cons p T ih =>
    have := steps_le p
    rw [load_cons, Multiset.card_cons]
    push_cast
    omega

theorem reach_inv {S : Sys RwLock Pc} (hrun : Reach program anyStep ⟨rwlockInit, 0⟩ S) :
    Inv S.shared S.threads :=
  hrun.invariant (I := Inv) ⟨rfl, rfl, by decide, fun hm => absurd hm (Multiset.notMem_zero _)⟩
    (fun _ _ _ _ h => h.thread) (fun _ _ _ _ hs h => h.start hs)

/-- **A writer gets in.** From the moment it has claimed the lock, and while it waits, whatever the
other threads do and however many join them: they make at most three steps for each thread there
was, spinning apart, and the number still to come is known; none of these threads waits for another;
none that did not hold the read lock gets it; and when no step is left, the count the writer waits
for is 0. -/
theorem writer_gets_in {S S' : Sys RwLock Pc} {n : ℤ}
    (hrun : Reach program anyStep ⟨rwlockInit, 0⟩ S) (hclaim : .wWait ∈ S.threads)
    (hwait : Spent program barred moves S n S') :
    n + load Pc.steps S'.threads = load Pc.steps S.threads ∧ n ≤ 3 * S.threads.card ∧
      (∀ p ∈ S'.threads, 0 < p.steps → moves S'.shared p = 1) ∧
      S'.threads.count .rHeld ≤ S.threads.count .rHeld ∧
      .wWait ∈ S'.threads ∧ S'.shared.write = 1 ∧
      (load Pc.steps S'.threads = 0 → S'.shared.read = 0) := by
  obtain ⟨hend, hsum⟩ := hwait.conserved (I := Claimed (S.threads.count .rHeld))
    (m := load Pc.steps) ⟨reach_inv hrun, hclaim, le_rfl⟩ (fun _ _ _ hok h => h.thread hok)
    (fun _ _ _ _ hs h => h.start hs)
  have hrest := load_nonneg Pc.steps_nonneg S'.threads
  have hmost := load_steps_le S.threads
  refine ⟨hsum, by omega, fun p _ hp => moves_of_steps hp, hend.held, hend.waits, ?_, ?_⟩
  · have := write_pos hend.write_eq hend.waits rfl
    have := hend.write_le
    omega
  · intro hzero
    have := hend.toInv.read_le
    omega

/-- A reader has seen no writer, and then one claims the lock. -/
theorem reach_claimed :
    Reach program anyStep ⟨rwlockInit, 0⟩ ⟨⟨0, 1⟩, .rInc ::ₘ .wWait ::ₘ 0⟩ := by
  have hreader : Reach program anyStep ⟨rwlockInit, 0⟩ ⟨rwlockInit, .rInc ::ₘ 0⟩ :=
    (Relation.ReflTransGen.single
      (Step.start (P := program) _ _ Pc.rWait 0 (.rlock rwlockInit))).tail
      (Step.thread (P := program) rwlockInit Pc.rWait 0 trivial)
  have hwriter := (hreader.tail (Step.start (P := program) _ _ Pc.wTry _ (.wlock rwlockInit))).tail
    (Step.thread (P := program) rwlockInit Pc.wTry (.rInc ::ₘ 0) trivial)
  rw [Multiset.cons_swap]
  exact hwriter

/-- The reader announces itself, sees the writer and steps back. -/
theorem writer_gets_in_three :
    (3 : ℤ) + load Pc.steps (.rWait ::ₘ .wWait ::ₘ 0) = load Pc.steps (.rInc ::ₘ .wWait ::ₘ 0) := by
  have h₁ : Spent program barred moves ⟨⟨0, 1⟩, .rInc ::ₘ .wWait ::ₘ 0⟩ (0 + 1)
      ⟨⟨1, 1⟩, .rTest ::ₘ .wWait ::ₘ 0⟩ :=
    .thread (p := Pc.rInc) .refl (by rintro ⟨⟩)
  have h₂ : Spent program barred moves ⟨⟨0, 1⟩, .rInc ::ₘ .wWait ::ₘ 0⟩ (0 + 1 + 1)
      ⟨⟨1, 1⟩, .rBack ::ₘ .wWait ::ₘ 0⟩ :=
    .thread (p := Pc.rTest) h₁ (by rintro ⟨⟩)
  have h₃ : Spent program barred moves ⟨⟨0, 1⟩, .rInc ::ₘ .wWait ::ₘ 0⟩ (0 + 1 + 1 + 1)
      ⟨⟨0, 1⟩, .rWait ::ₘ .wWait ::ₘ 0⟩ :=
    .thread (p := Pc.rBack) h₂ (by rintro ⟨⟩)
  exact (writer_gets_in reach_claimed (by decide) h₃).1

/-! ## No deadlock -/

/-- The readers before a writer that waits can go. -/
theorem readers_leave (h : Inv lock T) (hw : .wWait ∈ T) :
    ∃ lock' T', Reach program.closed anyStep ⟨lock, T⟩ ⟨lock', T'⟩ ∧ Inv lock' T' ∧ .wWait ∈ T' ∧
      T'.card ≤ T.card ∧ lock'.read = 0 := by
  induction hk : (load Pc.steps T).toNat using Nat.strong_induction_on generalizing lock T with
  | _ k ih =>
    by_cases hzero : lock.read = 0
    · exact ⟨lock, T, .refl, h, hw, le_rfl, hzero⟩
    · have hsum := load_nonneg Pc.steps_nonneg T
      obtain ⟨p, hp, hpos⟩ : ∃ p ∈ T, 0 < p.reading := by
        by_contra hnone
        push Not at hnone
        refine hzero ?_
        rw [h.read_eq, load]
        exact Multiset.sum_eq_zero fun x hx => by
          obtain ⟨p, hp, rfl⟩ := Multiset.mem_map.mp hx
          exact le_antisymm (hnone p hp) p.reading_nonneg
      obtain ⟨R, rfl⟩ := Multiset.exists_cons_of_mem hp
      have hclaimed : Claimed ((p ::ₘ R).count .rHeld) lock (p ::ₘ R) := ⟨h, hw, le_rfl⟩
      have hne : p ≠ .wWait := by
        rintro rfl
        exact absurd hpos (by decide)
      obtain ⟨hnext, hpaid⟩ := hclaimed.thread (fun hp => absurd hp hne)
      have hmove : moves lock p = 1 := moves_of_steps (hpos.trans_le (reading_le_steps p))
      have hrest := load_nonneg Pc.steps_nonneg (put (next lock p).2 R)
      rw [hmove] at hpaid
      have hless : (load Pc.steps (put (next lock p).2 R)).toNat < k := by
        rw [← hk, ← hpaid]
        omega
      obtain ⟨lock', T', hrest, hinv, hwait, hcard, hread⟩ := ih _ hless hnext.toInv hnext.waits rfl
      have hfirst : Reach program.closed anyStep ⟨lock, p ::ₘ R⟩
          ⟨(next lock p).1, put (next lock p).2 R⟩ :=
        .single (Step.thread (P := program.closed) lock p R trivial)
      refine ⟨lock', T', hfirst.trans hrest, hinv, hwait, hcard.trans ?_, hread⟩
      cases (next lock p).2 <;> simp [put]

/-- A run without new calls keeps the invariant. -/
theorem Inv.closed {lock' : RwLock} {T' : Multiset Pc} (h : Inv lock T)
    (hrun : Reach program.closed anyStep ⟨lock, T⟩ ⟨lock', T'⟩) : Inv lock' T' :=
  hrun.invariant (I := Inv) h (fun _ _ _ _ h => h.thread) (fun _ _ _ _ hs => hs.elim)

/-- A writer that waits can get the lock and return it. -/
theorem writer_leaves (h : Inv lock T) (hw : .wWait ∈ T) :
    ∃ lock' T', Reach program.closed anyStep ⟨lock, T⟩ ⟨lock', T'⟩ ∧ T'.card < T.card := by
  obtain ⟨lock', T', hrun, hinv, hwait, hcard, hread⟩ := readers_leave h hw
  obtain ⟨R, rfl⟩ := Multiset.exists_cons_of_mem hwait
  have hlast := Reach.beside (p := some .wWait) (R := R) 2 hrun fun _ _ => trivial
  have hsolo : (solo program.closed 2 lock' (some .wWait)).2 = none := by
    simp [solo, Program.closed, program, next, hread]
  rw [hsolo] at hlast
  rw [Multiset.card_cons] at hcard
  exact ⟨_, R, hlast, hcard⟩

/-- Some thread can be brought to return. -/
theorem one_leaves (h : Inv lock T) (hne : T ≠ 0) :
    ∃ lock' T', Reach program.closed anyStep ⟨lock, T⟩ ⟨lock', T'⟩ ∧ T'.card < T.card := by
  have halone {p : Pc} {R : Multiset Pc} (hT : T = p ::ₘ R) (n : ℕ)
      (hret : (solo program.closed n lock (some p)).2 = none) :
      ∃ lock' T', Reach program.closed anyStep ⟨lock, T⟩ ⟨lock', T'⟩ ∧ T'.card < T.card := by
    have hrun : Reach program.closed anyStep ⟨lock, T⟩
        ⟨(solo program.closed n lock (some p)).1, put (solo program.closed n lock (some p)).2 R⟩ :=
      Reach.beside n (hT ▸ .refl) fun _ _ => trivial
    rw [hret] at hrun
    exact ⟨_, R, hrun, by rw [hT, Multiset.card_cons]; exact Nat.lt_succ_self _⟩
  by_cases hheld : .wHeld ∈ T
  · obtain ⟨R, hT⟩ := Multiset.exists_cons_of_mem hheld
    exact halone hT 1 rfl
  by_cases hwait : .wWait ∈ T
  · exact writer_leaves h hwait
  -- no writer: the lock is free for whoever is there
  have hfree : lock.write = 0 := by
    rw [h.write_eq, load]
    refine Multiset.sum_eq_zero fun x hx => ?_
    obtain ⟨p, hp, rfl⟩ := Multiset.mem_map.mp hx
    cases p with
    | wWait => exact absurd hp hwait
    | wHeld => exact absurd hp hheld
    | _ => rfl
  obtain ⟨p, hp⟩ := Multiset.exists_mem_of_ne_zero hne
  obtain ⟨R, hT⟩ := Multiset.exists_cons_of_mem hp
  cases p with
  | rWait => exact halone hT 4 (by simp [solo, Program.closed, program, next, hfree])
  | rInc => exact halone hT 3 (by simp [solo, Program.closed, program, next, hfree])
  | rTest => exact halone hT 2 (by simp [solo, Program.closed, program, next, hfree])
  | rBack => exact halone hT 5 (by simp [solo, Program.closed, program, next, hfree])
  | rHeld => exact halone hT 1 rfl
  | wHeld => exact absurd hp hheld
  | wWait => exact absurd hp hwait
  | wTry =>
    -- it claims the lock and is then a writer that waits
    subst hT
    have hclaim : Reach program.closed anyStep ⟨lock, .wTry ::ₘ R⟩
        ⟨{ lock with write := 1 }, .wWait ::ₘ R⟩ := by
      have hstep : Step program.closed anyStep ⟨lock, .wTry ::ₘ R⟩
          ⟨(program.closed.next lock .wTry).1, put (program.closed.next lock .wTry).2 R⟩ :=
        .thread lock .wTry R trivial
      have hnext : next lock .wTry = ({ lock with write := 1 }, some .wWait) := if_pos hfree
      simp only [Program.closed, program, hnext] at hstep
      exact .single hstep
    obtain ⟨lock', T', hrest, hcard⟩ :=
      writer_leaves (h.closed hclaim) (Multiset.mem_cons_self _ _)
    rw [Multiset.card_cons] at hcard ⊢
    exact ⟨lock', T', hclaim.trans hrest, hcard⟩

/-- **No deadlock.** Whatever the threads have done, steps of their own bring all of them to get the
lock they wait for and to return it, and then the lock is as `rwlock_init` leaves it. -/
theorem lock_drains {S : Sys RwLock Pc} (hrun : Reach program anyStep ⟨rwlockInit, 0⟩ S) :
    Reach program.closed anyStep S ⟨rwlockInit, 0⟩ := by
  have hfewer : ∀ lock T, Inv lock T → T ≠ 0 → ∃ lock' T',
      Reach program.closed anyStep ⟨lock, T⟩ ⟨lock', T'⟩ ∧ Inv lock' T' ∧ T'.card < T.card := by
    intro lock T h hne
    obtain ⟨lock', T', hsome, hcard⟩ := one_leaves h hne
    exact ⟨lock', T', hsome, h.closed hsome, hcard⟩
  obtain ⟨lock, hend, hinv⟩ := Reach.drains hfewer (reach_inv hrun)
  have hread : lock.read = 0 := hinv.read_eq
  have hwrite : lock.write = 0 := hinv.write_eq
  obtain ⟨read, write⟩ := lock
  obtain rfl : read = 0 := hread
  obtain rfl : write = 0 := hwrite
  exact hend

/-- The reader and the writer above both get the lock. -/
theorem lock_drains_two :
    Reach program.closed anyStep ⟨⟨0, 1⟩, .rInc ::ₘ .wWait ::ₘ 0⟩ ⟨rwlockInit, 0⟩ :=
  lock_drains reach_claimed

end HoNet.CoreLock
