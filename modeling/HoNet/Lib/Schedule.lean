import HoNet.Lib.Pool

/-!
# Runs by schedule

A schedule picks, step by step, the thread that moves. What the schedule computes is reached, if all
its steps are admitted.
-/

namespace HoNet.Pool

variable {σ π : Type} {P : Program σ π} {ok : σ → π → Multiset π → Prop}
  {k : σ → π → List π → Bool} {S₀ : Sys σ π} {s : σ} {l : List π}

/-- The thread at an index takes its next step. -/
def pick (P : Program σ π) (s : σ) (l : List π) (i : Nat) : σ × List π :=
  match l[i]? with
  | none => (s, l)
  | some p =>
    match P.next s p with
    | (s', some q) => (s', l.set i q)
    | (s', none) => (s', l.eraseIdx i)

def picks (P : Program σ π) : List Nat → σ → List π → σ × List π
  | [], s, l => (s, l)
  | i :: is, s, l => picks P is (pick P s l i).1 (pick P s l i).2

/-- All its steps are of the kind `k`. -/
def picksAll (P : Program σ π) (k : σ → π → List π → Bool) : List Nat → σ → List π → Bool
  | [], _, _ => true
  | i :: is, s, l =>
    l[i]?.all (fun p => k s p (l.eraseIdx i)) && picksAll P k is (pick P s l i).1 (pick P s l i).2

theorem Reach.pick {i : Nat} (h : Reach P ok S₀ ⟨s, l⟩)
    (hok : ∀ p, l[i]? = some p → ok s p (l.eraseIdx i)) :
    Reach P ok S₀ ⟨(Pool.pick P s l i).1, (Pool.pick P s l i).2⟩ := by
  unfold Pool.pick
  split
  · exact h
  · rename_i p hp
    obtain ⟨hi, rfl⟩ := List.getElem?_eq_some_iff.mp hp
    have hl : (l : Multiset π) = l[i] ::ₘ (l.eraseIdx i : Multiset π) :=
      Multiset.coe_eq_coe.mpr (List.getElem_cons_eraseIdx_perm hi).symm
    rw [hl] at h
    have hstep := h.tail (Step.thread s l[i] (l.eraseIdx i) (hok _ hp))
    split
    · rename_i s' q hq
      have hset : ((l.set i q : List π) : Multiset π) = q ::ₘ (l.eraseIdx i : Multiset π) :=
        Multiset.coe_eq_coe.mpr (List.set_perm_cons_eraseIdx hi q)
      rw [hq] at hstep
      rw [hset]
      exact hstep
    · rename_i s' hq
      rw [hq] at hstep
      exact hstep

/-- **A schedule is a run.** -/
theorem Reach.picks (is : List Nat) (h : Reach P ok S₀ ⟨s, l⟩)
    (hk : ∀ s p l, k s p l = true → ok s p l) (hall : picksAll P k is s l = true) :
    Reach P ok S₀ ⟨(Pool.picks P is s l).1, (Pool.picks P is s l).2⟩ := by
  induction is generalizing s l with
  | nil => exact h
  | cons i is ih =>
    rw [picksAll, Bool.and_eq_true] at hall
    refine ih (h.pick fun p hp => hk s p _ ?_) hall.2
    have hi := hall.1
    rw [hp] at hi
    exact hi

/-- Calls that leave the memory as it is. -/
theorem Reach.calls (l : List π) (hs : ∀ p ∈ l, P.start s s p) :
    Reach P ok ⟨s, 0⟩ ⟨s, (l : Multiset π)⟩ := by
  induction l with
  | nil => exact .refl
  | cons p l ih =>
    have h := ih fun q hq => hs q (List.mem_cons_of_mem p hq)
    exact h.tail (Step.start s s p l (hs p List.mem_cons_self))

end HoNet.Pool
