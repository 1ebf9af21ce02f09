import HoNet.Lib.Pool

/-!
# Who updates the timers

The loop of `THREAD_START_ROUTINE` around `io->in_timer`: a worker whose compare-exchange finds 0 runs
`coretimer_update` and then exchanges the field back to 0. `corepoller_new` stores every other field
of the `core_poller` it has allocated, but not this one, so that it starts as `malloc` left it.

* `Inv.next` — one step keeps `io->in_timer` the number of elected workers.
* `stuck` — from any other start nobody is ever elected.
* `election_iff` — the election works exactly when the memory happened to be 0.
-/

namespace HoNet.CorePoller.Election

open HoNet.Pool

structure Io where
  inTimer : Int
  deriving DecidableEq, Repr

/-- `corepoller_new`, with what `malloc` left in the place of `in_timer`. -/
def corepollerNew (garbage : Int) : Io := ⟨garbage⟩

/-- What `GetQueuedCompletionStatus` returns with. -/
inductive Wake where
  | timeout
  | quit
  | message
  deriving DecidableEq, Repr

/-- Where a worker is; `ws` are the completions it will get, and without one it waits for good. -/
inductive Pc where
  | cas (ws : List Wake)
  | update (ws : List Wake)
  | exchange (ws : List Wake)
  | wait (ws : List Wake)
  | call (ws : List Wake)
  deriving DecidableEq, Repr

def next (io : Io) : Pc → Io × Option Pc
  | .cas ws => if io.inTimer = 0 then (⟨1⟩, some (.update ws)) else (io, some (.wait ws))
  | .update ws => (io, some (.exchange ws))
  | .exchange ws => (⟨0⟩, some (.wait ws))
  | .wait [] => (io, some (.wait []))
  | .wait (.timeout :: ws) => (io, some (.cas ws))
  | .wait (.quit :: _) => (io, none)
  | .wait (.message :: ws) => (io, some (.call ws))
  | .call ws => (io, some (.cas ws))

/-- `_beginthread` may start a worker at any time. -/
def program : Program Io Pc where
  next := next
  start io io' p := io' = io ∧ ∃ ws, p = .cas ws

/-- Inside `coretimer_update`. -/
def Pc.updating : Pc → Bool
  | .update _ => true
  | _ => false

/-- Between the successful compare-exchange and the exchange to 0. -/
def Pc.elected : Pc → Bool
  | .update _ | .exchange _ => true
  | _ => false

/-- At most one worker updates, the flag is set only for an elected one, and a worker at the
compare-exchange runs the timers when no other is elected. -/
structure Elects (io : Io) (T : Multiset Pc) : Prop where
  one : T.countP (fun p => p.updating = true) ≤ 1
  flag : io.inTimer ≠ 0 → ∃ p ∈ T, p.elected = true
  wins : ∀ ws R, T = .cas ws ::ₘ R → (∀ q ∈ R, q.elected = false) →
    (program.next io (.cas ws)).2 = some (.update ws)

/-! ## From 0 -/

/-- The number of elected workers. -/
def electedCount (T : Multiset Pc) : Nat := T.countP fun p => p.elected = true

variable {io : Io} {p : Pc} {T R : Multiset Pc} {ws : List Wake}

theorem electedCount_cons :
    electedCount (p ::ₘ T) = electedCount T + if p.elected = true then 1 else 0 := by
  rw [electedCount, Multiset.countP_cons]
  rfl

/-- The flag counts the elected workers. -/
def Inv (io : Io) (T : Multiset Pc) : Prop :=
  electedCount T = if io.inTimer = 0 then 0 else 1

/-- **One step** keeps the invariant. -/
theorem Inv.next (h : Inv io (p ::ₘ R)) :
    Inv (Election.next io p).1 (put (Election.next io p).2 R) := by
  unfold Inv at h ⊢
  rw [electedCount_cons] at h
  cases p with
  | cas ws =>
    simp only [Election.next]
    split
    · rename_i hzero
      rw [if_pos hzero] at h
      rw [put, electedCount_cons]
      simp only [Pc.elected, Bool.false_eq_true, if_false, if_true] at h ⊢
      rw [if_neg (by decide)]
      omega
    · rename_i hne
      rw [if_neg hne] at h
      rw [put, electedCount_cons]
      exact h
  | update ws =>
    simp only [Election.next, put, electedCount_cons]
    exact h
  | exchange ws =>
    simp only [Election.next, put, electedCount_cons]
    simp only [Pc.elected, Bool.false_eq_true, if_false, if_true] at h ⊢
    split at h <;> omega
  | wait ws =>
    rcases ws with _ | ⟨_ | _ | _, ws⟩
    case cons.quit => exact h
    all_goals
      simp only [Election.next, put, electedCount_cons]
      exact h
  | call ws =>
    simp only [Election.next, put, electedCount_cons]
    exact h

theorem updating_le (T : Multiset Pc) : T.countP (fun p => p.updating = true) ≤ electedCount T := by
  induction T using Multiset.induction_on with
  | empty => exact le_rfl
  | cons p T ih =>
    have himp : (if p.updating = true then 1 else 0) ≤ if p.elected = true then 1 else 0 := by
      cases p <;> simp [Pc.updating, Pc.elected]
    rw [electedCount_cons, Multiset.countP_cons]
    omega

theorem Inv.elects (h : Inv io T) : Elects io T := by
  unfold Inv at h
  refine ⟨?_, fun hne => ?_, fun ws R hT hR => ?_⟩
  · have hle := updating_le T
    split at h <;> omega
  · rw [if_neg hne] at h
    obtain ⟨p, hp, hel⟩ := Multiset.countP_pos.mp (show 0 < electedCount T by omega)
    exact ⟨p, hp, hel⟩
  · -- nobody is elected, so the flag is 0
    have hnone : electedCount T = 0 := by
      rw [hT, electedCount_cons, electedCount, Multiset.countP_eq_zero.mpr]
      · rfl
      · intro q hq
        rw [hR q hq]
        decide
    have hzero : io.inTimer = 0 := by
      by_contra hne
      rw [if_neg hne] at h
      omega
    simp only [program, Election.next, if_pos hzero]

/-- **A run** from 0 keeps the election sound. -/
theorem reach_elects {S : Sys Io Pc} (h : Reach program anyStep ⟨corepollerNew 0, 0⟩ S) :
    Elects S.shared S.threads := by
  refine Inv.elects (h.invariant (I := Inv) rfl (fun io p R _ hinv => hinv.next) ?_)
  rintro io io' p T ⟨rfl, ws, rfl⟩ hinv
  unfold Inv at hinv ⊢
  rw [electedCount_cons]
  exact hinv

/-! ## From anything else -/

/-- The flag keeps its value and nobody is elected. -/
def Stuck (g : Int) (io : Io) (T : Multiset Pc) : Prop :=
  io.inTimer = g ∧ ∀ p ∈ T, p.elected = false

theorem Stuck.next {g : Int} (hg : g ≠ 0) (h : Stuck g io (p ::ₘ R)) :
    Stuck g (Election.next io p).1 (put (Election.next io p).2 R) := by
  obtain ⟨hio, hT⟩ := h
  have hp := hT p (Multiset.mem_cons_self p R)
  have hrest : ∀ q ∈ R, q.elected = false := fun q hq => hT q (Multiset.mem_cons_of_mem hq)
  have hmove {o : Option Pc} (ho : ∀ q ∈ o, q.elected = false) : ∀ q ∈ put o R, q.elected = false := by
    intro q hq
    exact (mem_put.mp hq).elim (ho q) (hrest q)
  cases p with
  | cas ws =>
    have hne : io.inTimer ≠ 0 := by rwa [hio]
    simp only [Election.next, if_neg hne]
    exact ⟨hio, hmove (by simp [Pc.elected])⟩
  | update ws => cases hp
  | exchange ws => cases hp
  | wait ws =>
    rcases ws with _ | ⟨_ | _ | _, ws⟩
    case cons.quit => exact ⟨hio, hrest⟩
    all_goals exact ⟨hio, hmove (by simp [Election.next, Pc.elected])⟩
  | call ws => exact ⟨hio, hmove (by simp [Election.next, Pc.elected])⟩

/-- **The timers stop for good**: when the field does not start as 0, no worker is ever elected. -/
theorem stuck {g : Int} (hg : g ≠ 0) {S : Sys Io Pc}
    (h : Reach program anyStep ⟨corepollerNew g, 0⟩ S) :
    S.shared.inTimer = g ∧ ∀ p ∈ S.threads, p.elected = false := by
  refine h.invariant (I := Stuck g) ⟨rfl, by simp⟩ (fun io p R _ hinv => hinv.next hg) ?_
  rintro io io' p T ⟨rfl, ws, rfl⟩ hinv
  refine ⟨hinv.1, fun q hq => ?_⟩
  rcases Multiset.mem_cons.mp hq with rfl | hq
  · rfl
  · exact hinv.2 q hq

/-- **Timer update election.** What `malloc` left in the place of `in_timer` decides it: all runs of
any number of workers elect as they should exactly when it is 0. -/
theorem election_iff (g : Int) :
    (∀ S, Reach program anyStep ⟨corepollerNew g, 0⟩ S → Elects S.shared S.threads) ↔ g = 0 := by
  constructor
  · intro h
    by_contra hg
    obtain ⟨p, hp, -⟩ := (h _ .refl).flag hg
    exact Multiset.notMem_zero p hp
  · rintro rfl
    exact fun S => reach_elects

/-- What a debug heap fills memory with. -/
theorem not_elects_debugHeap :
    ¬ ∀ S, Reach program anyStep ⟨corepollerNew (-842150451), 0⟩ S → Elects S.shared S.threads := by
  intro h
  have hstart : Reach program anyStep ⟨corepollerNew (-842150451), 0⟩
      ⟨corepollerNew (-842150451), .cas [] ::ₘ 0⟩ := .single (.start _ _ _ _ ⟨rfl, [], rfl⟩)
  have hnext := (h _ hstart).wins [] 0 rfl (by simp)
  exact absurd hnext (by decide)

end HoNet.CorePoller.Election
