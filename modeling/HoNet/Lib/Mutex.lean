import HoNet.Lib.Pool

/-!
# One lock among the threads

A word that a thread sets from 0 when it enters a section and clears when it leaves. `inside` says at
which statements a thread is in the section.

* `Guarded` — the word tells whether a thread is inside, and there is at most one.
* `Guarded.stay`, `Guarded.enter`, `Guarded.leave` — what the steps of a thread do to that.
* `Guarded.alone` — the others are outside.
-/

namespace HoNet.Pool

variable {π : Type} {inside : π → Bool} {lock : Bool} {p q : π} {R T : Multiset π}

def Guarded (inside : π → Bool) (lock : Bool) (T : Multiset π) : Prop :=
  T.countP (fun p => inside p = true) = lock.toNat

theorem guarded_zero (inside : π → Bool) : Guarded inside false 0 := rfl

theorem guarded_cons :
    Guarded inside lock (p ::ₘ R) ↔
      R.countP (fun q => inside q = true) + (inside p).toNat = lock.toNat := by
  unfold Guarded
  rw [Multiset.countP_cons]
  cases inside p <;> rfl

/-- A thread comes that is outside. -/
theorem Guarded.add (h : Guarded inside lock T) (hp : inside p = false) :
    Guarded inside lock (p ::ₘ T) := by
  rw [guarded_cons, hp]
  exact h

/-- A thread moves on within the section or outside of it. -/
theorem Guarded.stay (h : Guarded inside lock (p ::ₘ R)) (hpq : inside q = inside p) :
    Guarded inside lock (q ::ₘ R) := by
  rw [guarded_cons] at h ⊢
  rw [hpq]
  exact h

theorem Guarded.enter (h : Guarded inside false (p ::ₘ R)) (hq : inside q = true) :
    Guarded inside true (q ::ₘ R) := by
  rw [guarded_cons] at h ⊢
  rw [hq]
  simp only [Bool.toNat_false, Bool.toNat_true] at h ⊢
  omega

theorem Guarded.leave (h : Guarded inside lock (p ::ₘ R)) (hp : inside p = true)
    (hq : inside q = false) : Guarded inside false (q ::ₘ R) := by
  rw [guarded_cons] at h ⊢
  rw [hp] at h
  rw [hq]
  have := Bool.toNat_le lock
  simp only [Bool.toNat_false, Bool.toNat_true] at h ⊢
  omega

/-- A thread outside returns. -/
theorem Guarded.gone (h : Guarded inside lock (p ::ₘ R)) (hp : inside p = false) :
    Guarded inside lock R := by
  rw [guarded_cons, hp] at h
  exact h

/-- Beside a thread inside all others are outside, and the lock is taken. -/
theorem Guarded.alone (h : Guarded inside lock (p ::ₘ R)) (hp : inside p = true) :
    lock = true ∧ ∀ q ∈ R, inside q = false := by
  rw [guarded_cons, hp] at h
  have hle := Bool.toNat_le lock
  simp only [Bool.toNat_true] at h
  refine ⟨?_, ?_⟩
  · cases lock with
    | true => rfl
    | false =>
      simp only [Bool.toNat_false] at h
      omega
  · intro q hq
    have hzero : R.countP (fun q => inside q = true) = 0 := by omega
    exact Bool.eq_false_of_not_eq_true (Multiset.countP_eq_zero.mp hzero q hq)

/-- With the lock free nobody is inside. -/
theorem Guarded.outside (h : Guarded inside false T) : ∀ p ∈ T, inside p = false := by
  intro p hp
  exact Bool.eq_false_of_not_eq_true (Multiset.countP_eq_zero.mp h p hp)

end HoNet.Pool
