import Mathlib.Algebra.BigOperators.Group.Multiset.Basic
import Mathlib.Algebra.Order.BigOperators.Group.Multiset
import Mathlib.Logic.Relation
import Mathlib.Tactic

/-!
# Threads over a shared memory

A thread is the program counter of a function that is being executed. `next s p` is its next atomic
step in the memory `s`; it may return, and then the thread is gone. `start s s' p` says that a call
or an event may begin a thread at `p` and turn the memory to `s'`. A run interleaves any number of
threads; `ok s p R` says which steps of `p` beside the threads `R` are admitted.

* `Reach.invariant` — the induction over a run.
* `load` — a quantity summed over all threads, such as the references they hold.
-/

namespace HoNet.Pool

variable {σ π : Type}

structure Program (σ π : Type) where
  next : σ → π → σ × Option π
  start : σ → σ → π → Prop

structure Sys (σ π : Type) where
  shared : σ
  threads : Multiset π

/-- The threads when one of them has moved on or returned. -/
def put : Option π → Multiset π → Multiset π
  | none, R => R
  | some p, R => p ::ₘ R

theorem mem_put {o : Option π} {p : π} {R : Multiset π} : p ∈ put o R ↔ p ∈ o ∨ p ∈ R := by
  cases o <;> simp [put, eq_comm]

inductive Step (P : Program σ π) (ok : σ → π → Multiset π → Prop) : Sys σ π → Sys σ π → Prop
  | thread (s : σ) (p : π) (R : Multiset π) (h : ok s p R) :
    Step P ok ⟨s, p ::ₘ R⟩ ⟨(P.next s p).1, put (P.next s p).2 R⟩
  | start (s s' : σ) (p : π) (T : Multiset π) (h : P.start s s' p) :
    Step P ok ⟨s, T⟩ ⟨s', p ::ₘ T⟩

def Reach (P : Program σ π) (ok : σ → π → Multiset π → Prop) : Sys σ π → Sys σ π → Prop :=
  Relation.ReflTransGen (Step P ok)

/-- Every step is admitted. -/
def anyStep (_ : σ) (_ : π) (_ : Multiset π) : Prop := True

variable {P : Program σ π} {ok : σ → π → Multiset π → Prop} {S S' : Sys σ π}

/-- **Induction over a run.** -/
theorem Reach.invariant {I : σ → Multiset π → Prop} (h : Reach P ok S S')
    (h0 : I S.shared S.threads)
    (hthread : ∀ s p R, ok s p R → I s (p ::ₘ R) → I (P.next s p).1 (put (P.next s p).2 R))
    (hstart : ∀ s s' p T, P.start s s' p → I s T → I s' (p ::ₘ T)) :
    I S'.shared S'.threads := by
  induction h with
  | refl => exact h0
  | tail _ hstep ih =>
    cases hstep with
    | thread s p R hok => exact hthread s p R hok ih
    | start s s' p T hs => exact hstart s s' p T hs ih

/-- The single thread runs for some steps. -/
def solo (P : Program σ π) : Nat → σ → Option π → σ × Option π
  | 0, s, p => (s, p)
  | _ + 1, s, none => (s, none)
  | n + 1, s, some p => solo P n (P.next s p).1 (P.next s p).2

/-- All its steps are of the kind `k`. -/
def soloAll (P : Program σ π) (k : σ → π → Bool) : Nat → σ → Option π → Bool
  | 0, _, _ => true
  | _ + 1, _, none => true
  | n + 1, s, some p => k s p && soloAll P k n (P.next s p).1 (P.next s p).2

/-- A thread that runs for some steps while the others wait. -/
theorem Reach.solo {S₀ : Sys σ π} {s : σ} {p : Option π} {R : Multiset π} {k : σ → π → Bool} (n : Nat)
    (h : Reach P ok S₀ ⟨s, put p R⟩) (hk : ∀ s p, k s p = true → ok s p R)
    (hall : soloAll P k n s p = true) :
    Reach P ok S₀ ⟨(solo P n s p).1, put (solo P n s p).2 R⟩ := by
  induction n generalizing s p with
  | zero => exact h
  | succ n ih =>
    cases p with
    | none => exact h
    | some p =>
      rw [soloAll, Bool.and_eq_true] at hall
      exact ih (h.tail (.thread s p R (hk s p hall.1))) hall.2

/-- A thread that runs while the others wait. -/
theorem Reach.beside {S₀ : Sys σ π} {s : σ} {p : Option π} {R : Multiset π} (n : Nat)
    (h : Reach P ok S₀ ⟨s, put p R⟩) (hok : ∀ s p, ok s p R) :
    Reach P ok S₀ ⟨(Pool.solo P n s p).1, put (Pool.solo P n s p).2 R⟩ := by
  induction n generalizing s p with
  | zero => exact h
  | succ n ih =>
    cases p with
    | none => exact h
    | some p => exact ih (h.tail (.thread s p R (hok s p)))

/-- A thread that runs alone until it returns. -/
theorem Reach.alone {S₀ : Sys σ π} {s : σ} {p : Option π} {k : σ → π → Bool} (n : Nat)
    (h : Reach P ok S₀ ⟨s, put p 0⟩) (hk : ∀ s p, k s p = true → ok s p 0)
    (hall : soloAll P k n s p = true) (hret : (Pool.solo P n s p).2 = none) :
    Reach P ok S₀ ⟨(Pool.solo P n s p).1, 0⟩ := by
  have hrun := Reach.solo n h hk hall
  rw [hret] at hrun
  exact hrun

/-- A call or a completion whose thread runs alone until it returns. -/
theorem Reach.call {S₀ : Sys σ π} {s s' : σ} {p : π} {k : σ → π → Bool} (n : Nat)
    (h : Reach P ok S₀ ⟨s, 0⟩) (hs : P.start s s' p) (hk : ∀ s p, k s p = true → ok s p 0)
    (hall : soloAll P k n s' (some p) = true) (hret : (Pool.solo P n s' (some p)).2 = none) :
    Reach P ok S₀ ⟨(Pool.solo P n s' (some p)).1, 0⟩ :=
  Reach.alone n (h.tail (.start s s' p 0 hs)) hk hall hret

/-! ## Sums over the threads -/

def load (f : π → ℤ) (T : Multiset π) : ℤ := (T.map f).sum

variable {f : π → ℤ} {p : π} {T R : Multiset π}

@[simp] theorem load_zero : load f 0 = 0 := rfl

@[simp] theorem load_cons : load f (p ::ₘ T) = f p + load f T := by
  simp [load]

theorem load_nonneg (hf : ∀ p, 0 ≤ f p) (T : Multiset π) : 0 ≤ load f T :=
  Multiset.sum_nonneg fun x hx => by
    obtain ⟨p, -, rfl⟩ := Multiset.mem_map.mp hx
    exact hf p

theorem load_mono {g : π → ℤ} (h : ∀ p, f p ≤ g p) (T : Multiset π) : load f T ≤ load g T :=
  Multiset.sum_map_le_sum_map f g fun p _ => h p

theorem load_put (o : Option π) : load f (put o R) = o.elim 0 f + load f R := by
  cases o <;> simp [put]

/-- Nothing is carried in all when no thread carries anything. -/
theorem load_eq_zero (hf : ∀ p, 0 ≤ f p) (h : load f T = 0) : ∀ p ∈ T, f p = 0 := by
  intro p hp
  obtain ⟨R, rfl⟩ := Multiset.exists_cons_of_mem hp
  rw [load_cons] at h
  have := load_nonneg hf R
  have := hf p
  omega

end HoNet.Pool
