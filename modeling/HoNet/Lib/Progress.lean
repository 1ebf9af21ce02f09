import HoNet.Lib.Pool

/-!
# Progress of threads

A spinning thread takes steps that lead nowhere. What can be bounded is the number of the others:
every step pays its cost out of a potential, which no call that begins refills.

* `Spent.conserved` — the costs of a run come out of the potential.
* `Reach.drains` — if the threads can always be brought to be fewer, they can all return.
-/

namespace HoNet.Pool

variable {σ π : Type} {P : Program σ π} {ok : σ → π → Multiset π → Prop} {c : σ → π → ℤ}
  {S S' : Sys σ π} {n : ℤ}

/-- A run from `S` with the sum of the costs of its steps. -/
inductive Spent (P : Program σ π) (ok : σ → π → Multiset π → Prop) (c : σ → π → ℤ) (S : Sys σ π) :
    ℤ → Sys σ π → Prop
  | refl : Spent P ok c S 0 S
  | thread {n : ℤ} {s : σ} {p : π} {R : Multiset π} (h : Spent P ok c S n ⟨s, p ::ₘ R⟩)
    (hok : ok s p R) : Spent P ok c S (n + c s p) ⟨(P.next s p).1, put (P.next s p).2 R⟩
  | start {n : ℤ} {s s' : σ} {p : π} {T : Multiset π} (h : Spent P ok c S n ⟨s, T⟩)
    (hs : P.start s s' p) : Spent P ok c S n ⟨s', p ::ₘ T⟩

/-- **The costs of a run come out of the potential** `m`, if a step takes its cost out of it and a
call that begins leaves it. -/
theorem Spent.conserved {I : σ → Multiset π → Prop} {m : Multiset π → ℤ} (h : Spent P ok c S n S')
    (h0 : I S.shared S.threads)
    (hthread : ∀ s p R, ok s p R → I s (p ::ₘ R) →
      I (P.next s p).1 (put (P.next s p).2 R) ∧ c s p + m (put (P.next s p).2 R) = m (p ::ₘ R))
    (hstart : ∀ s s' p T, P.start s s' p → I s T → I s' (p ::ₘ T) ∧ m (p ::ₘ T) = m T) :
    I S'.shared S'.threads ∧ n + m S'.threads = m S.threads := by
  induction h with
  | refl => exact ⟨h0, zero_add _⟩
  | thread h hok ih =>
    obtain ⟨hinv, hsum⟩ := ih
    obtain ⟨hinv', hpaid⟩ := hthread _ _ _ hok hinv
    refine ⟨hinv', ?_⟩
    show _ + m (put _ _) = _
    rw [← hsum, ← hpaid, add_assoc]
  | start h hs ih =>
    obtain ⟨hinv, hsum⟩ := ih
    obtain ⟨hinv', hsame⟩ := hstart _ _ _ _ hs hinv
    refine ⟨hinv', ?_⟩
    show _ + m (_ ::ₘ _) = _
    rw [hsame]
    exact hsum

/-- The program without new calls. -/
def Program.closed (P : Program σ π) : Program σ π := { P with start := fun _ _ _ => False }

theorem Reach.of_closed (h : Reach P.closed ok S S') : Reach P ok S S' := by
  induction h with
  | refl => exact .refl
  | tail _ hstep ih =>
    cases hstep with
    | thread s p R hok => exact ih.tail (.thread s p R hok)
    | start s s' p T hs => exact hs.elim

/-- **All threads can return**, if they can always be brought to be fewer. -/
theorem Reach.drains {I : σ → Multiset π → Prop}
    (hfewer : ∀ s T, I s T → T ≠ 0 →
      ∃ s' T', Reach P ok ⟨s, T⟩ ⟨s', T'⟩ ∧ I s' T' ∧ T'.card < T.card)
    {s : σ} {T : Multiset π} (h : I s T) : ∃ s', Reach P ok ⟨s, T⟩ ⟨s', 0⟩ ∧ I s' 0 := by
  induction hk : T.card using Nat.strong_induction_on generalizing s T with
  | _ k ih =>
    rcases eq_or_ne T 0 with rfl | hne
    · exact ⟨s, .refl, h⟩
    · obtain ⟨s₁, T₁, hrun, hinv, hlt⟩ := hfewer s T h hne
      obtain ⟨s₂, hrest, hend⟩ := ih T₁.card (hk ▸ hlt) hinv rfl
      exact ⟨s₂, hrun.trans hrest, hend⟩

end HoNet.Pool
