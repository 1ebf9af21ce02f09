import HoNet.Lib.Pool

/-!
# The read-write lock of `corelock.c`

A reader announces itself in `lock->read` and steps back when it then sees a writer; a writer claims
`lock->write` and then waits until `lock->read` is 0. Every read of one of the two words and every
interlocked operation is one step.

A thread here is one matched pair of a lock and an unlock call; a thread of the program that uses
several pairs is several of them. The two words are integers: the bound of a `long` is out of reach of
the number of threads a process can have.

* `Inv` — the two words count the threads behind them, and no reader holds the lock beside a writer.
* `rwlock_exclusion` — whole runs.
-/

namespace HoNet.CoreLock

open HoNet.Pool

structure RwLock where
  read : Int
  write : Int
  deriving DecidableEq, Repr

def rwlockInit : RwLock := ⟨0, 0⟩

/-- The statement a thread executes next. -/
inductive Pc where
  /-- `rwlock_rlock`: `while (lock->write)`, the increment, the second look, the way back. -/
  | rWait
  | rInc
  | rTest
  | rBack
  /-- The read lock is held; `rwlock_runlock` is next. -/
  | rHeld
  /-- `rwlock_wlock`: the compare-exchange, `while (lock->read)`. -/
  | wTry
  | wWait
  /-- The write lock is held; `rwlock_wunlock` is next. -/
  | wHeld
  deriving DecidableEq, Repr

def next (lock : RwLock) : Pc → RwLock × Option Pc
  | .rWait => (lock, some (if lock.write ≠ 0 then .rWait else .rInc))
  | .rInc => ({ lock with read := lock.read + 1 }, some .rTest)
  | .rTest => (lock, some (if lock.write ≠ 0 then .rBack else .rHeld))
  | .rBack => ({ lock with read := lock.read - 1 }, some .rWait)
  | .rHeld => ({ lock with read := lock.read - 1 }, none)
  | .wTry => if lock.write = 0 then ({ lock with write := 1 }, some .wWait) else (lock, some .wTry)
  | .wWait => (lock, some (if lock.read ≠ 0 then .wWait else .wHeld))
  | .wHeld => ({ lock with write := 0 }, none)

/-- A thread calls `rwlock_rlock` or `rwlock_wlock`. -/
inductive Start : RwLock → RwLock → Pc → Prop
  | rlock (lock : RwLock) : Start lock lock .rWait
  | wlock (lock : RwLock) : Start lock lock .wTry

def program : Program RwLock Pc := ⟨next, Start⟩

/-! ## The invariant -/

/-- The thread is between its increment of `lock->read` and the matching decrement. -/
def Pc.reading : Pc → ℤ
  | .rTest | .rBack | .rHeld => 1
  | _ => 0

/-- The thread is between its compare-exchange of `lock->write` and `rwlock_wunlock`. -/
def Pc.writing : Pc → ℤ
  | .wWait | .wHeld => 1
  | _ => 0

theorem Pc.reading_nonneg (p : Pc) : 0 ≤ p.reading := by
  cases p <;> decide

theorem Pc.writing_nonneg (p : Pc) : 0 ≤ p.writing := by
  cases p <;> decide

structure Inv (lock : RwLock) (T : Multiset Pc) : Prop where
  read_eq : lock.read = load Pc.reading T
  write_eq : lock.write = load Pc.writing T
  write_le : lock.write ≤ 1
  apart : .wHeld ∈ T → .rHeld ∉ T

variable {lock : RwLock} {T R : Multiset Pc} {p : Pc}

/-- A writer is seen in `lock->write`. -/
theorem write_pos (h : lock.write = load Pc.writing T) (hp : p ∈ T) (hw : p.writing = 1) :
    0 < lock.write := by
  obtain ⟨R, rfl⟩ := Multiset.exists_cons_of_mem hp
  rw [load_cons, hw] at h
  have := load_nonneg Pc.writing_nonneg R
  omega

/-- A reader that holds the lock is seen in `lock->read`. -/
theorem read_pos (h : lock.read = load Pc.reading T) (hp : p ∈ T) (hr : p.reading = 1) :
    0 < lock.read := by
  obtain ⟨R, rfl⟩ := Multiset.exists_cons_of_mem hp
  rw [load_cons, hr] at h
  have := load_nonneg Pc.reading_nonneg R
  omega

/-- A thread that moves on to `q` without having acquired a lock. -/
theorem apart_put (h : .wHeld ∈ p ::ₘ R → .rHeld ∉ p ::ₘ R) {o : Option Pc}
    (hw : .wHeld ∉ o) (hr : .rHeld ∉ o) : .wHeld ∈ put o R → .rHeld ∉ put o R := by
  intro hm hn
  have hm := (mem_put.mp hm).resolve_left hw
  have hn := (mem_put.mp hn).resolve_left hr
  exact h (Multiset.mem_cons_of_mem hm) (Multiset.mem_cons_of_mem hn)

theorem Inv.thread (h : Inv lock (p ::ₘ R)) :
    Inv (next lock p).1 (put (next lock p).2 R) := by
  have hread := h.read_eq
  have hwrite := h.write_eq
  have hle := h.write_le
  have hR := load_nonneg Pc.writing_nonneg R
  rw [load_cons] at hread hwrite
  cases p with
  | rWait =>
    simp only [next]
    refine ⟨?_, ?_, hle, apart_put h.apart ?_ ?_⟩
    · rw [put, load_cons, hread]
      split <;> rfl
    · rw [put, load_cons, hwrite]
      split <;> rfl
    · split <;> rintro ⟨⟩
    · split <;> rintro ⟨⟩
  | rInc =>
    refine ⟨?_, ?_, hle, apart_put h.apart (by rintro ⟨⟩) (by rintro ⟨⟩)⟩
    · show lock.read + 1 = load Pc.reading (.rTest ::ₘ R)
      rw [load_cons, hread]
      simp only [Pc.reading]
      omega
    · show lock.write = load Pc.writing (.rTest ::ₘ R)
      rw [load_cons, hwrite]
      rfl
  | rTest =>
    simp only [next]
    split
    · exact ⟨by rw [put, load_cons, hread]; rfl, by rw [put, load_cons, hwrite]; rfl, hle,
        apart_put h.apart (by rintro ⟨⟩) (by rintro ⟨⟩)⟩
    · next hw0 =>
      refine ⟨by rw [put, load_cons, hread]; rfl, by rw [put, load_cons, hwrite]; rfl, hle, ?_⟩
      -- The reader has seen no writer after its increment, so none holds the lock.
      intro hm
      have hm := (mem_put.mp hm).resolve_left (by rintro ⟨⟩)
      have := write_pos h.write_eq (Multiset.mem_cons_of_mem hm) rfl
      omega
  | rBack =>
    refine ⟨?_, ?_, hle, apart_put h.apart (by rintro ⟨⟩) (by rintro ⟨⟩)⟩
    · show lock.read - 1 = load Pc.reading (.rWait ::ₘ R)
      rw [load_cons, hread]
      simp only [Pc.reading]
      omega
    · show lock.write = load Pc.writing (.rWait ::ₘ R)
      rw [load_cons, hwrite]
      rfl
  | rHeld =>
    refine ⟨?_, ?_, hle, apart_put (o := none) h.apart (by rintro ⟨⟩) (by rintro ⟨⟩)⟩
    · show lock.read - 1 = load Pc.reading R
      simp only [Pc.reading] at hread
      omega
    · show lock.write = load Pc.writing R
      simp only [Pc.writing] at hwrite
      omega
  | wTry =>
    simp only [next]
    split
    · next hw0 =>
      refine ⟨?_, ?_, le_rfl, apart_put h.apart (by rintro ⟨⟩) (by rintro ⟨⟩)⟩
      · show lock.read = load Pc.reading (.wWait ::ₘ R)
        rw [load_cons, hread]
        rfl
      · show 1 = load Pc.writing (.wWait ::ₘ R)
        rw [load_cons]
        simp only [Pc.writing] at hwrite ⊢
        omega
    · exact ⟨by rw [put, load_cons, hread], by rw [put, load_cons, hwrite], hle,
        apart_put h.apart (by rintro ⟨⟩) (by rintro ⟨⟩)⟩
  | wWait =>
    simp only [next]
    split
    · exact ⟨by rw [put, load_cons, hread], by rw [put, load_cons, hwrite], hle,
        apart_put h.apart (by rintro ⟨⟩) (by rintro ⟨⟩)⟩
    · next hr0 =>
      refine ⟨by rw [put, load_cons, hread]; rfl, by rw [put, load_cons, hwrite]; rfl, hle, ?_⟩
      -- No reader holds the lock while the count is 0, and the flag keeps new ones out.
      intro _ hn
      have hn := (mem_put.mp hn).resolve_left (by rintro ⟨⟩)
      have := read_pos h.read_eq (Multiset.mem_cons_of_mem hn) rfl
      omega
  | wHeld =>
    simp only [Pc.writing] at hwrite
    have hzero : load Pc.writing R = 0 := by omega
    refine ⟨?_, ?_, zero_le_one, apart_put (o := none) h.apart (by rintro ⟨⟩) (by rintro ⟨⟩)⟩
    · show lock.read = load Pc.reading R
      simp only [Pc.reading] at hread
      omega
    · show 0 = load Pc.writing R
      omega

theorem Inv.start (h : Inv lock T) {lock' : RwLock} (hs : Start lock lock' p) :
    Inv lock' (p ::ₘ T) := by
  have hnew : p.reading = 0 ∧ p.writing = 0 ∧ .wHeld ≠ p ∧ .rHeld ≠ p ∧ lock' = lock := by
    cases hs <;> exact ⟨rfl, rfl, by rintro ⟨⟩, by rintro ⟨⟩, rfl⟩
  obtain ⟨hr, hw, hwp, hrp, rfl⟩ := hnew
  refine ⟨?_, ?_, h.write_le, fun hm hn => ?_⟩
  · rw [load_cons, h.read_eq, hr, zero_add]
  · rw [load_cons, h.write_eq, hw, zero_add]
  · have hm := (Multiset.mem_cons.mp hm).resolve_left hwp
    have hn := (Multiset.mem_cons.mp hn).resolve_left hrp
    exact h.apart hm hn

theorem load_reading (T : Multiset Pc) :
    load Pc.reading T = T.countP fun p => p.reading = 1 := by
  induction T using Multiset.induction_on with
  | empty => rfl
  | cons p T ih =>
    rw [load_cons, ih, Multiset.countP_cons]
    cases p <;> simp [Pc.reading] <;> omega

/-- **Exclusion.** For any number of threads and every interleaving: no two threads hold the write
lock, no thread holds the read lock beside one that holds the write lock, `lock->write` is 0 or 1, and
`lock->read` is the number of threads between their increment and the matching decrement. -/
theorem rwlock_exclusion {S : Sys RwLock Pc} (hrun : Reach program anyStep ⟨rwlockInit, 0⟩ S) :
    (∀ p q R, S.threads = p ::ₘ q ::ₘ R → p = .wHeld → q ≠ .wHeld ∧ q ≠ .rHeld) ∧
    (S.shared.write = 0 ∨ S.shared.write = 1) ∧
    S.shared.read = S.threads.countP (fun p => p.reading = 1) ∧ 0 ≤ S.shared.read := by
  have h : Inv S.shared S.threads :=
    hrun.invariant (I := Inv) ⟨rfl, rfl, by decide, fun hm => absurd hm (Multiset.notMem_zero _)⟩
      (fun lock p R _ h => h.thread) (fun lock lock' p T hs h => h.start hs)
  have hread : S.shared.read = S.threads.countP (fun p => p.reading = 1) := by
    rw [← load_reading]
    exact h.read_eq
  refine ⟨fun p q R hT hp => ⟨?_, ?_⟩, ?_, hread, ?_⟩
  · rintro rfl
    have hw := h.write_eq
    have hle := h.write_le
    rw [hT, hp, load_cons, load_cons] at hw
    have hR := load_nonneg Pc.writing_nonneg R
    simp only [Pc.writing] at hw
    omega
  · rintro rfl
    refine h.apart ?_ ?_
    · rw [hT, hp]
      exact Multiset.mem_cons_self _ _
    · rw [hT]
      exact Multiset.mem_cons_of_mem (Multiset.mem_cons_self _ _)
  · have hle := h.write_le
    have hnn := load_nonneg Pc.writing_nonneg S.threads
    rw [← h.write_eq] at hnn
    omega
  · rw [hread]
    exact Int.natCast_nonneg _

/-- A reader holds the lock and a writer that has claimed it waits. -/
theorem rwlock_exclusion_waiting :
    ∃ S : Sys RwLock Pc, Reach program anyStep ⟨rwlockInit, 0⟩ S ∧
      S.threads = .wWait ::ₘ .rHeld ::ₘ 0 ∧
      S.shared.read = S.threads.countP (fun p => p.reading = 1) := by
  have h₀ : Reach program anyStep ⟨rwlockInit, 0⟩ ⟨⟨0, 0⟩, .rWait ::ₘ 0⟩ :=
    .tail .refl (Step.start (P := program) rwlockInit rwlockInit Pc.rWait 0 (Start.rlock rwlockInit))
  have h₁ : Reach program anyStep ⟨rwlockInit, 0⟩ ⟨⟨0, 0⟩, .rInc ::ₘ 0⟩ :=
    h₀.tail (Step.thread (P := program) (⟨0, 0⟩ : RwLock) Pc.rWait 0 trivial)
  have h₂ : Reach program anyStep ⟨rwlockInit, 0⟩ ⟨⟨1, 0⟩, .rTest ::ₘ 0⟩ :=
    h₁.tail (Step.thread (P := program) (⟨0, 0⟩ : RwLock) Pc.rInc 0 trivial)
  have h₃ : Reach program anyStep ⟨rwlockInit, 0⟩ ⟨⟨1, 0⟩, .rHeld ::ₘ 0⟩ :=
    h₂.tail (Step.thread (P := program) (⟨1, 0⟩ : RwLock) Pc.rTest 0 trivial)
  have h₄ : Reach program anyStep ⟨rwlockInit, 0⟩ ⟨⟨1, 0⟩, .wTry ::ₘ .rHeld ::ₘ 0⟩ :=
    h₃.tail (Step.start (P := program) _ _ Pc.wTry (Pc.rHeld ::ₘ 0) (Start.wlock ⟨1, 0⟩))
  have h₅ : Reach program anyStep ⟨rwlockInit, 0⟩ ⟨⟨1, 1⟩, .wWait ::ₘ .rHeld ::ₘ 0⟩ :=
    h₄.tail (Step.thread (P := program) (⟨1, 0⟩ : RwLock) Pc.wTry (Pc.rHeld ::ₘ 0) trivial)
  exact ⟨_, h₅, rfl, (rwlock_exclusion h₅).2.2.1⟩

end HoNet.CoreLock
