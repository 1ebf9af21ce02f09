import HoNet.Lib.Mutex
import HoNet.Lib.Progress
import HoNet.Lib.Simulation

/-!
# Sections under a lock

The calls of an object run under a lock, statement by statement, while other threads wait for the
lock or, if it is one for readers and writers, read beside. `Object` is what is done under the lock,
`Lock` the lock with what it promises, `Lock.guard` the program of the two.

* `Object.Serial` — calls one after another.
* `Lock.serializable` — every run is one of calls one after another, in the order in which they give
  the lock back.
* `spinlock` — a lock of one word.
* `spin_drains` — under it there is no deadlock.
-/

namespace HoNet.Pool

variable {σ ι κ ρ τ π : Type}

/-! ## Objects -/

/-- The calls `ι` on the memory `σ`: a call enters at some statement, each statement leads to the
next one or to the result. A call that reads does so to its end. -/
structure Object (σ ι κ ρ : Type) where
  enter : ι → κ
  step : σ → κ → σ × (κ ⊕ ρ)
  reads : κ → Bool
  step_reads : ∀ m k, reads k = true → (step m k).1 = m
  next_reads : ∀ m k k', (step m k).2 = .inl k' → reads k' = reads k

namespace Object

variable {O : Object σ ι κ ρ}

/-- The statements from `k` on, with nobody beside. -/
inductive Runs (O : Object σ ι κ ρ) : σ → κ → σ → ρ → Prop
  | last {m k m' r} (h : O.step m k = (m', .inr r)) : Runs O m k m' r
  | more {m k m₁ k₁ m' r} (h : O.step m k = (m₁, .inl k₁)) (hrest : Runs O m₁ k₁ m' r) :
    Runs O m k m' r

theorem Runs.unique {m m₁ m₂ : σ} {k : κ} {r₁ r₂ : ρ} (h₁ : O.Runs m k m₁ r₁)
    (h₂ : O.Runs m k m₂ r₂) : m₁ = m₂ ∧ r₁ = r₂ := by
  induction h₁ with
  | last hstep =>
    cases h₂ with
    | last hstep' =>
      obtain ⟨rfl, hr⟩ := Prod.mk.inj (hstep.symm.trans hstep')
      exact ⟨rfl, Sum.inr.inj hr⟩
    | more hstep' _ =>
      obtain ⟨-, hr⟩ := Prod.mk.inj (hstep.symm.trans hstep')
      cases hr
  | more hstep _ ih =>
    cases h₂ with
    | last hstep' =>
      obtain ⟨-, hr⟩ := Prod.mk.inj (hstep.symm.trans hstep')
      cases hr
    | more hstep' hrest =>
      obtain ⟨rfl, hk⟩ := Prod.mk.inj (hstep.symm.trans hstep')
      obtain rfl := Sum.inl.inj hk
      exact ih hrest

/-- Every call ends whose statements lead ever closer to its end. -/
theorem runs_ends {left : κ → ℕ}
    (h : ∀ m k k', (O.step m k).2 = .inl k' → left k' < left k) (m : σ) (k : κ) :
    ∃ m' r, O.Runs m k m' r := by
  induction hn : left k using Nat.strong_induction_on generalizing m k with
  | _ n ih =>
    cases hstep : O.step m k with
    | mk m₁ phase =>
      cases phase with
      | inl k₁ =>
        have hlt : left k₁ < left k := h m k k₁ (congrArg Prod.snd hstep)
        obtain ⟨m', r, hrest⟩ := ih _ (hn ▸ hlt) m₁ k₁ rfl
        exact ⟨m', r, .more hstep hrest⟩
      | inr r => exact ⟨m₁, r, .last hstep⟩

/-- Calls one after another, with their results. -/
inductive Serial (O : Object σ ι κ ρ) (m₀ : σ) : List (ι × ρ) → σ → Prop
  | nil : Serial O m₀ [] m₀
  | snoc {calls m m' i r} (h : Serial O m₀ calls m) (hr : O.Runs m (O.enter i) m' r) :
    Serial O m₀ (calls ++ [(i, r)]) m'

/-- **Induction over calls one after another.** -/
theorem Serial.invariant {m₀ m : σ} {calls : List (ι × ρ)} {I : List (ι × ρ) → σ → Prop}
    (h : O.Serial m₀ calls m) (h0 : I [] m₀)
    (hcall : ∀ calls m m' i r, I calls m → O.Runs m (O.enter i) m' r → I (calls ++ [(i, r)]) m') :
    I calls m := by
  induction h with
  | nil => exact h0
  | snoc _ hr ih => exact hcall _ _ _ _ _ ih hr

/-- What is left of a call ends in `m'` with `r`. -/
def Rest (O : Object σ ι κ ρ) (m : σ) : κ ⊕ ρ → σ → ρ → Prop
  | .inl k, m', r => O.Runs m k m' r
  | .inr r₀, m', r => m' = m ∧ r = r₀

/-- The call `i` began in the memory `base` and is at `phase` in the memory `m`. -/
def Within (O : Object σ ι κ ρ) (base : σ) (i : ι) (m : σ) (phase : κ ⊕ ρ) : Prop :=
  ∀ m' r, O.Rest m phase m' r → O.Runs base (O.enter i) m' r

theorem Within.begin (m : σ) (i : ι) : O.Within m i m (.inl (O.enter i)) := fun _ _ h => h

/-- One more statement. -/
theorem Within.step {base m : σ} {i : ι} {k : κ} (h : O.Within base i m (.inl k)) :
    O.Within base i (O.step m k).1 (O.step m k).2 := by
  intro m' r hrest
  apply h
  cases hstep : O.step m k with
  | mk m₁ phase =>
    rw [hstep] at hrest
    cases phase with
    | inl k₁ => exact .more hstep hrest
    | inr r₀ =>
      obtain ⟨rfl, rfl⟩ := hrest
      exact .last hstep

theorem Within.done {base m : σ} {i : ι} {r : ρ} (h : O.Within base i m (.inr r)) :
    O.Runs base (O.enter i) m r := h m r ⟨rfl, rfl⟩

end Object

/-! ## Locks -/

/-- A lock call and the unlock call behind it, as a program of their own. `holds` is at the unlock
call; `shares` says that the lock was asked for to read. -/
structure Lock (τ π : Type) where
  program : Program τ π
  init : τ
  holds : π → Bool
  shares : π → Bool
  start_out : ∀ l l' p, program.start l l' p → holds p = false
  next_shares : ∀ l p q, (program.next l p).2 = some q → shares q = shares p
  release : ∀ l p, holds p = true → (program.next l p).2 = none
  exclusive : ∀ S, Reach program anyStep ⟨init, 0⟩ S → ∀ p q R, S.threads = p ::ₘ q ::ₘ R →
    holds p = true → holds q = true → shares p = true ∧ shares q = true

/-- The lock, what it guards, and as a history variable the calls that have returned. -/
structure Locked (τ σ ι ρ : Type) where
  lock : τ
  mem : σ
  log : List (ι × ρ)

/-- A call: the lock is asked for, the statements are executed, the lock is given back. -/
structure Call (ι κ ρ π : Type) where
  op : ι
  pc : π
  phase : κ ⊕ ρ
  deriving DecidableEq

namespace Lock

variable {K : Lock τ π} {O : Object σ ι κ ρ} {m₀ : σ} {s : Locked τ σ ι ρ} {c : Call ι κ ρ π}
  {T R : Multiset (Call ι κ ρ π)} {S : Sys (Locked τ σ ι ρ) (Call ι κ ρ π)}

/-- The thread moves on in the code of the lock. -/
def move (K : Lock τ π) (s : Locked τ σ ι ρ) (c : Call ι κ ρ π) (log : List (ι × ρ)) :
    Locked τ σ ι ρ × Option (Call ι κ ρ π) :=
  ({ s with lock := (K.program.next s.lock c.pc).1, log := log },
    (K.program.next s.lock c.pc).2.map fun q => { c with pc := q })

def next (K : Lock τ π) (O : Object σ ι κ ρ) (s : Locked τ σ ι ρ) (c : Call ι κ ρ π) :
    Locked τ σ ι ρ × Option (Call ι κ ρ π) :=
  if K.holds c.pc then
    match c.phase with
    | .inl k => ({ s with mem := (O.step s.mem k).1 }, some { c with phase := (O.step s.mem k).2 })
    | .inr r => K.move s c (s.log ++ [(c.op, r)])
  else K.move s c s.log

def guard (K : Lock τ π) (O : Object σ ι κ ρ) : Program (Locked τ σ ι ρ) (Call ι κ ρ π) where
  next := K.next O
  start s s' c := c.phase = .inl (O.enter c.op) ∧ K.shares c.pc = O.reads (O.enter c.op) ∧
    K.program.start s.lock s'.lock c.pc ∧ s'.mem = s.mem ∧ s'.log = s.log

def begin (K : Lock τ π) (m₀ : σ) : Sys (Locked τ σ ι ρ) (Call ι κ ρ π) := ⟨⟨K.init, m₀, []⟩, 0⟩

/-! ## The lock alone -/

/-- What is seen of a run at the lock. -/
theorem guard_simulates (K : Lock τ π) (O : Object σ ι κ ρ) :
    Simulates (K.guard O) anyStep K.program anyStep Locked.lock Call.pc where
  thread s c R _ := by
    show ((K.next O s c).1.lock = s.lock ∧ (K.next O s c).2.map Call.pc = some c.pc) ∨ True ∧
      K.program.next s.lock c.pc = ((K.next O s c).1.lock, (K.next O s c).2.map Call.pc)
    have hmove (log : List (ι × ρ)) : K.program.next s.lock c.pc =
        ((K.move s c log).1.lock, (K.move s c log).2.map Call.pc) := by
      unfold move
      rw [Option.map_map]
      exact Prod.ext rfl Option.map_id'.symm
    unfold next
    split
    · split
      · exact .inl ⟨rfl, rfl⟩
      · exact .inr ⟨trivial, hmove _⟩
    · exact .inr ⟨trivial, hmove _⟩
  start _ _ _ h := h.2.2.1

/-- Two threads with the lock are readers. -/
theorem alone (hrun : Reach (K.guard O) anyStep (K.begin m₀) ⟨s, c ::ₘ R⟩)
    (hc : K.holds c.pc = true) {d : Call ι κ ρ π} (hd : d ∈ R) (hdh : K.holds d.pc = true) :
    K.shares c.pc = true ∧ K.shares d.pc = true := by
  have hlock := (guard_simulates K O).reach hrun
  obtain ⟨R, rfl⟩ := Multiset.exists_cons_of_mem hd
  apply K.exclusive _ hlock c.pc d.pc (R.map Call.pc) _ hc hdh
  rw [Sys.view, Multiset.map_cons, Multiset.map_cons]

/-! ## The invariant -/

/-- `base` is the memory behind the calls that have returned. -/
structure Inv (K : Lock τ π) (O : Object σ ι κ ρ) (m₀ base : σ) (s : Locked τ σ ι ρ)
    (T : Multiset (Call ι κ ρ π)) : Prop where
  serial : O.Serial m₀ s.log base
  within : ∀ c ∈ T, K.holds c.pc = true → O.Within base c.op s.mem c.phase
  waits : ∀ c ∈ T, K.holds c.pc = false → c.phase = .inl (O.enter c.op)
  reads : ∀ c ∈ T, ∀ k, c.phase = .inl k → O.reads k = K.shares c.pc
  same : (∀ c ∈ T, K.holds c.pc = true → K.shares c.pc = true) → s.mem = base

/-- A thread asks for the lock, waits for it or gets it. -/
theorem Inv.ask {base : σ} (h : Inv K O m₀ base s (c ::ₘ R)) (hc : K.holds c.pc = false)
    (hrun : Reach (K.guard O) anyStep (K.begin m₀)
      ⟨(K.move s c s.log).1, put (K.move s c s.log).2 R⟩) :
    Inv K O m₀ base (K.move s c s.log).1 (put (K.move s c s.log).2 R) := by
  have hphase := h.waits c (Multiset.mem_cons_self c R) hc
  have hreads := h.reads c (Multiset.mem_cons_self c R)
  unfold move at *
  cases hnext : (K.program.next s.lock c.pc).2 with
  | none =>
    refine ⟨h.serial, fun d hd => h.within d (Multiset.mem_cons_of_mem hd),
      fun d hd => h.waits d (Multiset.mem_cons_of_mem hd),
      fun d hd => h.reads d (Multiset.mem_cons_of_mem hd), fun hall => h.same fun d hd hh => ?_⟩
    rcases Multiset.mem_cons.mp hd with rfl | hd
    · rw [hc] at hh
      cases hh
    · exact hall d hd hh
  | some q =>
    rw [hnext] at hrun
    have hsame (hall : ∀ d ∈ R, K.holds d.pc = true → K.shares d.pc = true) : s.mem = base := by
      apply h.same
      intro d hd hh
      rcases Multiset.mem_cons.mp hd with rfl | hd
      · rw [hc] at hh
        cases hh
      · exact hall d hd hh
    refine ⟨h.serial, fun d hd hh => ?_, fun d hd hh => ?_, fun d hd k hk => ?_, fun hall => ?_⟩
    · rcases Multiset.mem_cons.mp hd with rfl | hd
      · -- with the lock in hand nobody else writes
        have hbase := hsame fun d hd hdh => (alone hrun hh hd hdh).2
        show O.Within base c.op s.mem c.phase
        rw [hphase, hbase]
        exact .begin base c.op
      · exact h.within d (Multiset.mem_cons_of_mem hd) hh
    · rcases Multiset.mem_cons.mp hd with rfl | hd
      · exact hphase
      · exact h.waits d (Multiset.mem_cons_of_mem hd) hh
    · rcases Multiset.mem_cons.mp hd with rfl | hd
      · rw [K.next_shares s.lock c.pc q hnext]
        exact hreads k hk
      · exact h.reads d (Multiset.mem_cons_of_mem hd) k hk
    · exact hsame fun d hd => hall d (Multiset.mem_cons_of_mem hd)

/-- A statement under the lock. -/
theorem Inv.statement {base : σ} {k : κ} (h : Inv K O m₀ base s (c ::ₘ R))
    (hrun : Reach (K.guard O) anyStep (K.begin m₀) ⟨s, c ::ₘ R⟩) (hc : K.holds c.pc = true)
    (hphase : c.phase = .inl k) :
    Inv K O m₀ base { s with mem := (O.step s.mem k).1 }
      ({ c with phase := (O.step s.mem k).2 } ::ₘ R) := by
  have hreads := h.reads c (Multiset.mem_cons_self c R) k hphase
  have hwithin := h.within c (Multiset.mem_cons_self c R) hc
  rw [hphase] at hwithin
  refine ⟨h.serial, fun d hd hh => ?_, fun d hd hh => ?_, fun d hd k' hk => ?_, fun hall => ?_⟩
  · rcases Multiset.mem_cons.mp hd with rfl | hd
    · exact hwithin.step
    · have hshares := (alone hrun hc hd hh).1
      show O.Within base d.op (O.step s.mem k).1 d.phase
      rw [O.step_reads s.mem k (hreads.trans hshares)]
      exact h.within d (Multiset.mem_cons_of_mem hd) hh
  · rcases Multiset.mem_cons.mp hd with rfl | hd
    · cases hh.symm.trans hc
    · exact h.waits d (Multiset.mem_cons_of_mem hd) hh
  · rcases Multiset.mem_cons.mp hd with rfl | hd
    · rw [O.next_reads s.mem k k' hk]
      exact hreads
    · exact h.reads d (Multiset.mem_cons_of_mem hd) k' hk
  · have hshares := hall _ (Multiset.mem_cons_self _ R) hc
    show (O.step s.mem k).1 = base
    rw [O.step_reads s.mem k (hreads.trans hshares)]
    apply h.same
    intro d hd hh
    rcases Multiset.mem_cons.mp hd with rfl | hd
    · exact hshares
    · exact hall d (Multiset.mem_cons_of_mem hd) hh

/-- The lock is given back. -/
theorem Inv.leave {base : σ} {r : ρ} (h : Inv K O m₀ base s (c ::ₘ R))
    (hrun : Reach (K.guard O) anyStep (K.begin m₀) ⟨s, c ::ₘ R⟩) (hc : K.holds c.pc = true)
    (hphase : c.phase = .inr r) :
    Inv K O m₀ s.mem (K.move s c (s.log ++ [(c.op, r)])).1
      (put (K.move s c (s.log ++ [(c.op, r)])).2 R) := by
  have hwithin := h.within c (Multiset.mem_cons_self c R) hc
  rw [hphase] at hwithin
  unfold move
  rw [K.release s.lock c.pc hc]
  refine ⟨h.serial.snoc hwithin.done, fun d hd hh => ?_,
    fun d hd => h.waits d (Multiset.mem_cons_of_mem hd),
    fun d hd => h.reads d (Multiset.mem_cons_of_mem hd), fun _ => rfl⟩
  -- beside another thread with the lock this was a reader
  have hbase : s.mem = base := by
    apply h.same
    intro e he heh
    rcases Multiset.mem_cons.mp he with rfl | he
    · exact (alone hrun heh hd hh).1
    · exact (alone hrun hc he heh).2
  show O.Within s.mem d.op s.mem d.phase
  rw [hbase]
  have hd' := h.within d (Multiset.mem_cons_of_mem hd) hh
  rw [hbase] at hd'
  exact hd'

theorem Inv.thread {base : σ} (h : Inv K O m₀ base s (c ::ₘ R))
    (hrun : Reach (K.guard O) anyStep (K.begin m₀) ⟨s, c ::ₘ R⟩) :
    ∃ base, Inv K O m₀ base (K.next O s c).1 (put (K.next O s c).2 R) := by
  have hrun' := hrun.tail (Step.thread s c R trivial)
  change Reach _ _ _ ⟨(K.next O s c).1, put (K.next O s c).2 R⟩ at hrun'
  unfold next at *
  by_cases hc : K.holds c.pc = true
  · rw [if_pos hc]
    cases hphase : c.phase with
    | inl k => exact ⟨base, h.statement hrun hc hphase⟩
    | inr r => exact ⟨s.mem, h.leave hrun hc hphase⟩
  · rw [if_neg hc] at hrun' ⊢
    exact ⟨base, h.ask (Bool.eq_false_of_not_eq_true hc) hrun'⟩

theorem Inv.start {base : σ} {s' : Locked τ σ ι ρ} (h : Inv K O m₀ base s T)
    (hs : (K.guard O).start s s' c) : Inv K O m₀ base s' (c ::ₘ T) := by
  obtain ⟨hphase, hshares, hstart, hmem, hlog⟩ := hs
  have hout := K.start_out s.lock s'.lock c.pc hstart
  refine ⟨hlog ▸ h.serial, fun d hd hh => ?_, fun d hd hh => ?_, fun d hd k hk => ?_,
    fun hall => ?_⟩
  · rcases Multiset.mem_cons.mp hd with rfl | hd
    · cases hout.symm.trans hh
    · rw [hmem]
      exact h.within d hd hh
  · rcases Multiset.mem_cons.mp hd with rfl | hd
    · exact hphase
    · exact h.waits d hd hh
  · rcases Multiset.mem_cons.mp hd with rfl | hd
    · rw [hphase] at hk
      obtain rfl := Sum.inl.inj hk
      exact hshares.symm
    · exact h.reads d hd k hk
  · rw [hmem]
    exact h.same fun d hd => hall d (Multiset.mem_cons_of_mem hd)

/-- **Sections are executed one after another.** In every run the calls that have returned, in the
order in which they have given the lock back, are a run of calls one after another, and as long as
no writer has the lock the memory is that behind them. -/
theorem serializable (hrun : Reach (K.guard O) anyStep (K.begin m₀) S) :
    ∃ base, O.Serial m₀ S.shared.log base ∧
      ((∀ c ∈ S.threads, K.holds c.pc = true → K.shares c.pc = true) → S.shared.mem = base) := by
  obtain ⟨base, h⟩ : ∃ base, Inv K O m₀ base S.shared S.threads :=
    hrun.invariant_along (I := fun s T => ∃ base, Inv K O m₀ base s T)
      ⟨m₀, .nil, fun c hc => absurd hc (Multiset.notMem_zero c),
        fun c hc => absurd hc (Multiset.notMem_zero c),
        fun c hc => absurd hc (Multiset.notMem_zero c), fun _ => rfl⟩
      (fun s c R hreach _ h => by
        obtain ⟨base, h⟩ := h
        exact h.thread hreach)
      (fun s s' c T hs h => by
        obtain ⟨base, h⟩ := h
        exact ⟨base, h.start hs⟩)
  exact ⟨base, h.serial, h.same⟩

/-- The statements of a section, up to the unlock call. -/
theorem reach_section {l : τ} {m m' : σ} {log : List (ι × ρ)} {op : ι} {pc : π} {k : κ} {r : ρ}
    (hpc : K.holds pc = true) (h : O.Runs m k m' r) :
    Reach (K.guard O).closed anyStep ⟨⟨l, m, log⟩, ⟨op, pc, .inl k⟩ ::ₘ R⟩
      ⟨⟨l, m', log⟩, ⟨op, pc, .inr r⟩ ::ₘ R⟩ := by
  have hone (m : σ) (k : κ) :
      Reach (K.guard O).closed anyStep ⟨⟨l, m, log⟩, ⟨op, pc, .inl k⟩ ::ₘ R⟩
        ⟨⟨l, (O.step m k).1, log⟩, ⟨op, pc, (O.step m k).2⟩ ::ₘ R⟩ := by
    have hnext : (K.guard O).closed.next ⟨l, m, log⟩ ⟨op, pc, .inl k⟩ =
        (⟨l, (O.step m k).1, log⟩, some ⟨op, pc, (O.step m k).2⟩) := if_pos hpc
    have hstep : Step (K.guard O).closed anyStep ⟨⟨l, m, log⟩, ⟨op, pc, .inl k⟩ ::ₘ R⟩ _ :=
      .thread _ _ R trivial
    rw [hnext] at hstep
    exact .tail .refl hstep
  induction h with
  | @last m k _ _ h =>
    have hlast := hone m k
    rw [h] at hlast
    exact hlast
  | @more m k _ _ _ _ h _ ih =>
    have hfirst := hone m k
    rw [h] at hfirst
    exact hfirst.trans ih

end Lock

/-! ## A lock of one word -/

inductive SpinPc where
  | wait
  | held
  deriving DecidableEq, Repr

/-- The word is set from 0 by a compare-exchange, and cleared. -/
def spinProgram : Program Bool SpinPc where
  next l
    | .wait => if l then (l, some .wait) else (true, some .held)
    | .held => (false, none)
  start l l' p := l' = l ∧ p = .wait

def SpinPc.inside : SpinPc → Bool
  | .wait => false
  | .held => true

theorem spin_guarded {S : Sys Bool SpinPc} (hrun : Reach spinProgram anyStep ⟨false, 0⟩ S) :
    Guarded SpinPc.inside S.shared S.threads := by
  refine hrun.invariant (I := Guarded SpinPc.inside) (guarded_zero _) (fun l p R _ h => ?_)
    fun l l' p T hs h => ?_
  · cases p with
    | wait =>
      cases l with
      | true => exact h
      | false => exact h.enter rfl
    | held =>
      have hleave := h.leave (q := .wait) rfl rfl
      exact hleave.gone rfl
  · obtain ⟨rfl, rfl⟩ := hs
    exact h.add rfl

/-- A lock without readers. -/
def spinlock : Lock Bool SpinPc where
  program := spinProgram
  init := false
  holds := SpinPc.inside
  shares _ := false
  start_out _ _ _ h := by
    rw [h.2]
    rfl
  next_shares _ _ _ _ := rfl
  release _ p h := by
    cases p with
    | wait => cases h
    | held => rfl
  exclusive S hrun p q R hT hp hq := by
    have h := spin_guarded hrun
    rw [hT] at h
    have hout := (h.alone hp).2 q (Multiset.mem_cons_self q R)
    rw [hq] at hout
    cases hout

/-! ## Progress -/

section Spin

variable {O : Object σ ι κ ρ} {m₀ : σ} {c : Call ι κ ρ SpinPc} {R : Multiset (Call ι κ ρ SpinPc)}
  {S : Sys (Locked Bool σ ι ρ) (Call ι κ ρ SpinPc)}

/-- The thread with the lock returns. -/
theorem spin_finish (hO : ∀ m k, ∃ m' r, O.Runs m k m' r) (s : Locked Bool σ ι ρ)
    (hc : c.pc = .held) :
    ∃ s' r, Reach (spinlock.guard O).closed anyStep ⟨s, c ::ₘ R⟩ ⟨s', R⟩ ∧
      s'.log = s.log ++ [(c.op, r)] := by
  obtain ⟨op, pc, phase⟩ := c
  obtain rfl : pc = .held := hc
  have hunlock (m : σ) (r : ρ) :
      Reach (spinlock.guard O).closed anyStep ⟨⟨s.lock, m, s.log⟩, ⟨op, .held, .inr r⟩ ::ₘ R⟩
        ⟨⟨false, m, s.log ++ [(op, r)]⟩, R⟩ :=
    .tail .refl (.thread _ _ R trivial)
  cases phase with
  | inl k =>
    obtain ⟨m', r, hruns⟩ := hO s.mem k
    have hsection : Reach (spinlock.guard O).closed anyStep
        ⟨⟨s.lock, s.mem, s.log⟩, ⟨op, .held, .inl k⟩ ::ₘ R⟩
        ⟨⟨s.lock, m', s.log⟩, ⟨op, .held, .inr r⟩ ::ₘ R⟩ := Lock.reach_section rfl hruns
    exact ⟨_, r, hsection.trans (hunlock m' r), rfl⟩
  | inr r => exact ⟨_, r, hunlock s.mem r, rfl⟩

/-- While the lock is free a thread that waits gets it. -/
theorem spin_enter {s : Locked Bool σ ι ρ} (hs : s.lock = false) (hc : c.pc = .wait) :
    Reach (spinlock.guard O).closed anyStep ⟨s, c ::ₘ R⟩
      ⟨{ s with lock := true }, { c with pc := .held } ::ₘ R⟩ := by
  obtain ⟨op, pc, phase⟩ := c
  obtain ⟨lock, mem, log⟩ := s
  obtain rfl : pc = .wait := hc
  obtain rfl : lock = false := hs
  exact .tail .refl (.thread _ _ R trivial)

/-- One of the threads there are returns. -/
theorem spin_returns (hO : ∀ m k, ∃ m' r, O.Runs m k m' r) {s : Locked Bool σ ι ρ}
    {T : Multiset (Call ι κ ρ SpinPc)} (hT : T ≠ 0)
    (hrun : Reach (spinlock.guard O) anyStep (spinlock.begin m₀) ⟨s, T⟩) :
    ∃ s' c r R, T = c ::ₘ R ∧ Reach (spinlock.guard O).closed anyStep ⟨s, T⟩ ⟨s', R⟩ ∧
      s'.log = s.log ++ [(c.op, r)] := by
  by_cases hheld : ∃ c ∈ T, c.pc = .held
  · obtain ⟨c, hm, hc⟩ := hheld
    obtain ⟨R, rfl⟩ := Multiset.exists_cons_of_mem hm
    obtain ⟨s', r, hreach, hlog⟩ := spin_finish (R := R) hO s hc
    exact ⟨s', c, r, R, rfl, hreach, hlog⟩
  · obtain ⟨c, hm⟩ := Multiset.exists_mem_of_ne_zero hT
    obtain ⟨R, rfl⟩ := Multiset.exists_cons_of_mem hm
    have hwait : ∀ d ∈ c ::ₘ R, d.pc = .wait := by
      intro d hd
      cases hpc : d.pc with
      | wait => rfl
      | held => exact absurd ⟨d, hd, hpc⟩ hheld
    have hguard := spin_guarded ((Lock.guard_simulates spinlock O).reach hrun)
    have hfree : s.lock = false := by
      have hout : ((c ::ₘ R).map Call.pc).countP (fun p => p.inside = true) = 0 := by
        rw [Multiset.countP_eq_zero]
        intro p hp
        obtain ⟨d, hd, rfl⟩ := Multiset.mem_map.mp hp
        rw [hwait d hd]
        decide
      have hcount : s.lock.toNat = 0 := hguard.symm.trans hout
      cases hl : s.lock with
      | false => rfl
      | true =>
        rw [hl] at hcount
        cases hcount
    obtain ⟨s', r, hreach, hlog⟩ := spin_finish (R := R) (c := { c with pc := .held }) hO
      { s with lock := true } rfl
    exact ⟨s', c, r, R, rfl, (spin_enter hfree (hwait c hm)).trans hreach, hlog⟩

/-- **No deadlock.** If every section ends, the threads there are can all return, whatever they have
done before, and each of them has then made its call. -/
theorem spin_drains (hO : ∀ m k, ∃ m' r, O.Runs m k m' r)
    (hrun : Reach (spinlock.guard O) anyStep (spinlock.begin m₀) S) :
    ∃ s, Reach (spinlock.guard O).closed anyStep S ⟨s, 0⟩ ∧
      (s.log.map Prod.fst : Multiset ι) =
        (S.shared.log.map Prod.fst : Multiset ι) + S.threads.map Call.op := by
  obtain ⟨s, hreach, -, hops⟩ := Reach.drains
    (I := fun s T => Reach (spinlock.guard O) anyStep (spinlock.begin m₀) ⟨s, T⟩ ∧
      (s.log.map Prod.fst : Multiset ι) + T.map Call.op =
        (S.shared.log.map Prod.fst : Multiset ι) + S.threads.map Call.op)
    (fun s T h hT => by
      obtain ⟨s', c, r, R, rfl, hreach, hlog⟩ := spin_returns hO hT h.1
      refine ⟨s', R, hreach, ⟨h.1.trans hreach.of_closed, ?_⟩, ?_⟩
      · rw [← h.2, hlog, List.map_append, ← Multiset.coe_add, Multiset.map_cons, add_assoc]
        rfl
      · rw [Multiset.card_cons]
        exact Nat.lt_succ_self _)
    ⟨hrun, rfl⟩
  rw [Multiset.map_zero, add_zero] at hops
  exact ⟨s, hreach, hops⟩

end Spin

end HoNet.Pool
