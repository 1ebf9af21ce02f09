import HoNet.Lib.Pool

/-!
# One program of threads in terms of another

A finer program whose memory and program counters are mapped to those of a coarser one. Each of its
steps is a step of the coarser program or is not seen there. Then its runs are runs of the coarser
program, and what was proved about those holds of it.

* `Simulates.reach` — the run that is seen.
* `Reach.invariant_along` — the induction over a run, with what is known of the states reached.
-/

namespace HoNet.Pool

variable {σ π τ ρ : Type}

/-- The system as it is seen through the maps. -/
def Sys.view (f : σ → τ) (g : π → ρ) (S : Sys σ π) : Sys τ ρ := ⟨f S.shared, S.threads.map g⟩

structure Simulates (P : Program σ π) (ok : σ → π → Multiset π → Prop) (Q : Program τ ρ)
    (ok' : τ → ρ → Multiset ρ → Prop) (f : σ → τ) (g : π → ρ) : Prop where
  thread : ∀ s p R, ok s p R →
    (f (P.next s p).1 = f s ∧ (P.next s p).2.map g = some (g p)) ∨
    (ok' (f s) (g p) (R.map g) ∧ Q.next (f s) (g p) = (f (P.next s p).1, (P.next s p).2.map g))
  start : ∀ s s' p, P.start s s' p → Q.start (f s) (f s') (g p)

variable {P : Program σ π} {Q : Program τ ρ} {ok : σ → π → Multiset π → Prop}
  {ok' : τ → ρ → Multiset ρ → Prop} {f : σ → τ} {g : π → ρ} {S S' : Sys σ π}

theorem map_put (o : Option π) (R : Multiset π) : (put o R).map g = put (o.map g) (R.map g) := by
  cases o with
  | none => rfl
  | some p => exact Multiset.map_cons g p R

/-- **The run that is seen.** -/
theorem Simulates.reach (h : Simulates P ok Q ok' f g) (hrun : Reach P ok S S') :
    Reach Q ok' (S.view f g) (S'.view f g) := by
  induction hrun with
  | refl => exact .refl
  | tail _ hstep ih =>
    cases hstep with
    | thread s p R hok =>
      have hview : Sys.view f g ⟨s, p ::ₘ R⟩ = ⟨f s, g p ::ₘ R.map g⟩ := by
        rw [Sys.view, Multiset.map_cons]
      rcases h.thread s p R hok with ⟨hshared, hpc⟩ | ⟨hok', hnext⟩
      · have hsame : Sys.view f g ⟨(P.next s p).1, put (P.next s p).2 R⟩ =
            Sys.view f g ⟨s, p ::ₘ R⟩ := by
          rw [hview, Sys.view, map_put, hshared, hpc]
          rfl
        rw [hsame]
        exact ih
      · have hseen : Sys.view f g ⟨(P.next s p).1, put (P.next s p).2 R⟩ =
            ⟨(Q.next (f s) (g p)).1, put (Q.next (f s) (g p)).2 (R.map g)⟩ := by
          rw [Sys.view, map_put, hnext]
        rw [hseen]
        rw [hview] at ih
        exact ih.tail (.thread (f s) (g p) (R.map g) hok')
    | start s s' p T hs =>
      have hview : Sys.view f g ⟨s', p ::ₘ T⟩ = ⟨f s', g p ::ₘ T.map g⟩ := by
        rw [Sys.view, Multiset.map_cons]
      rw [hview]
      exact ih.tail (.start (f s) (f s') (g p) (T.map g) (h.start s s' p hs))

/-- **Induction over a run** whose states are known to have been reached. -/
theorem Reach.invariant_along {I : σ → Multiset π → Prop} (h : Reach P ok S S')
    (h0 : I S.shared S.threads)
    (hthread : ∀ s p R, Reach P ok S ⟨s, p ::ₘ R⟩ → ok s p R → I s (p ::ₘ R) →
      I (P.next s p).1 (put (P.next s p).2 R))
    (hstart : ∀ s s' p T, P.start s s' p → I s T → I s' (p ::ₘ T)) :
    I S'.shared S'.threads := by
  induction h with
  | refl => exact h0
  | tail hreach hstep ih =>
    cases hstep with
    | thread s p R hok => exact hthread s p R hreach hok ih
    | start s s' p T hs => exact hstart s s' p T hs ih

end HoNet.Pool
