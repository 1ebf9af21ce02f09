import HoNet.Lib.FreeList
import HoNet.Lib.Mutex

/-!
# The node pool of `coretimer.c`

`timernode_alloc` takes a node from the chain at `freenode` or else from `malloc`, and
`timernode_dealloc` links it in again or frees it. The chain and the counters change under the lock;
`malloc`, `free` and the choice between keeping and freeing are outside of it, the choice after a
look at the counters that is over by then. Each statement is one step.

A thread here is the way of one node through `timernode_alloc`, its use in the wheel and
`timernode_dealloc`, whichever threads of the program these are; in its use the link `list_next` is
written. Assumed is that a node is given back once, and not touched then: `coretimer_del` from a
callback can give back the node that `timer_execute` has kept as its next one, and break that. The
counters are natural numbers: `2 ^ 32` nodes do not fit in the address space.

* `Nodes`, `Counts` — what holds between two steps.
* `Inv.thread` — one step of any thread.
* `pool_safe` — whole runs: every node is in one hand or once in the chain, and the chain is short.
-/

namespace HoNet.Timer.NodePool

open HoNet.Linked HoNet.Pool

/-- The pool. History variables: the nodes that `malloc` gave and `free` did not get, the largest
`use_cnt`, the threads that will link their node in, and the most of these there have been. -/
structure Shared where
  lock : Bool
  freenode : Option Nat
  listNext : Nat → Option Nat
  freeCnt : Nat
  useCnt : Nat
  alive : Multiset Nat
  peak : Nat
  keeping : Nat
  crowd : Nat

/-- What a thread is about: the node that `malloc` will give it if it is asked, and the values that
`list_next` gets in use. -/
structure Job where
  addr : Nat
  stores : List (Option Nat)
  deriving DecidableEq, Repr

/-- The statement a thread executes next. -/
inductive Pc where
  /-- `timernode_alloc`. -/
  | aLock (j : Job)
  | aHead (j : Job)
  | aPop (j : Job) (node : Nat)
  | aCount (j : Job) (node : Nat)
  | aUse (j : Job) (node : Option Nat)
  | aUnlock (j : Job) (node : Option Nat)
  | aMalloc (j : Job)
  /-- The node is in use. -/
  | hold (node : Nat) (stores : List (Option Nat))
  /-- `timernode_dealloc`. -/
  | dLock (node : Nat)
  | dUse (node : Nat)
  | dRead (node use : Nat)
  | dUnlock (node use freeCnt : Nat)
  | dTest (node use freeCnt : Nat)
  | dFree (node : Nat)
  | dLockAgain (node : Nat)
  | dLink (node : Nat)
  | dHead (node : Nat)
  | dCount
  | dUnlockAgain
  deriving DecidableEq, Repr

/-- `use = use ? use : 1;` -/
def atLeastOne (use : Nat) : Nat := if use ≠ 0 then use else 1

def next (s : Shared) : Pc → Shared × Option Pc
  | .aLock j => if s.lock then (s, some (.aLock j)) else ({ s with lock := true }, some (.aHead j))
  | .aHead j => (s, some (s.freenode.elim (.aUse j none) (.aPop j)))
  | .aPop j node => ({ s with freenode := s.listNext node }, some (.aCount j node))
  | .aCount j node => ({ s with freeCnt := s.freeCnt - 1 }, some (.aUse j (some node)))
  | .aUse j node =>
    ({ s with useCnt := s.useCnt + 1, peak := max s.peak (s.useCnt + 1) },
      some (.aUnlock j node))
  | .aUnlock j node =>
    ({ s with lock := false }, some (node.elim (.aMalloc j) fun r => .hold r j.stores))
  | .aMalloc j => ({ s with alive := j.addr ::ₘ s.alive }, some (.hold j.addr j.stores))
  | .hold node [] => (s, some (.dLock node))
  | .hold node (v :: stores) =>
    ({ s with listNext := Function.update s.listNext node v }, some (.hold node stores))
  | .dLock node =>
    if s.lock then (s, some (.dLock node)) else ({ s with lock := true }, some (.dUse node))
  | .dUse node =>
    ({ s with useCnt := s.useCnt - 1 }, some (.dRead node ((s.useCnt - 1) >>> 3)))
  | .dRead node use =>
    (if s.freeCnt < atLeastOne use then
        { s with keeping := s.keeping + 1, crowd := max s.crowd (s.keeping + 1) }
      else s,
      some (.dUnlock node use s.freeCnt))
  | .dUnlock node use freeCnt =>
    ({ s with lock := false }, some (.dTest node (atLeastOne use) freeCnt))
  | .dTest node use freeCnt =>
    (s, some (if freeCnt ≥ use then .dFree node else .dLockAgain node))
  | .dFree node => ({ s with alive := s.alive.erase node }, none)
  | .dLockAgain node =>
    if s.lock then (s, some (.dLockAgain node))
    else ({ s with lock := true }, some (.dLink node))
  | .dLink node =>
    ({ s with listNext := Function.update s.listNext node s.freenode }, some (.dHead node))
  | .dHead node =>
    ({ s with freenode := some node, keeping := s.keeping - 1 }, some .dCount)
  | .dCount => ({ s with freeCnt := s.freeCnt + 1 }, some .dUnlockAgain)
  | .dUnlockAgain => ({ s with lock := false }, none)

/-- A timer may be added at any time. -/
def program : Program Shared Pc where
  next := next
  start s s' p := s' = s ∧ ∃ j, p = .aLock j

/-- The pool of `coretimer_new`. -/
def begin (listNext : Nat → Option Nat) : Sys Shared Pc :=
  ⟨⟨false, none, listNext, 0, 0, 0, 0, 0, 0⟩, 0⟩

/-- The node that `malloc` gives now. -/
def Pc.given : Pc → Option Nat
  | .aMalloc j => some j.addr
  | _ => none

/-- `malloc` gives memory that is not in use. -/
def fresh (s : Shared) (p : Pc) (_ : Multiset Pc) : Prop := ∀ a ∈ p.given, a ∉ s.alive

/-! ## What a thread is at -/

def Pc.inside : Pc → Bool
  | .aHead _ | .aPop _ _ | .aCount _ _ | .aUse _ _ | .aUnlock _ _ => true
  | .dUse _ | .dRead _ _ | .dUnlock _ _ _ | .dLink _ | .dHead _ | .dCount | .dUnlockAgain => true
  | _ => false

/-- The node in the hands of the thread. -/
def Pc.hand : Pc → Multiset Nat
  | .aCount _ node | .hold node _ | .dLock node | .dUse node | .dRead node _ | .dUnlock node _ _
  | .dTest node _ _ | .dFree node | .dLockAgain node | .dLink node | .dHead node => {node}
  | .aUse _ node | .aUnlock _ node => node.elim 0 fun r => {r}
  | _ => 0

def hands (T : Multiset Pc) : Multiset Nat := T.bind Pc.hand

/-- The thread is counted in `use_cnt`. -/
def Pc.inUse : Pc → ℤ
  | .aUnlock _ _ | .aMalloc _ | .hold _ _ | .dLock _ | .dUse _ => 1
  | _ => 0

/-- What `free_cnt` is ahead of the chain. -/
def Pc.ahead : Pc → ℤ
  | .aCount _ _ => 1
  | .dCount => -1
  | _ => 0

/-- The thread will link its node in. -/
def Pc.keeps : Pc → ℤ
  | .dUnlock _ use freeCnt => if freeCnt < atLeastOne use then 1 else 0
  | .dTest _ use freeCnt => if freeCnt < use then 1 else 0
  | .dLockAgain _ | .dLink _ | .dHead _ => 1
  | _ => 0

/-- What a thread under the lock has read or written is still so. -/
def Pc.Fact (s : Shared) : Pc → Prop
  | .aPop _ node => s.freenode = some node
  | .dRead _ use => use ≤ s.peak / 8
  | .dHead node => s.listNext node = s.freenode
  | _ => True

/-- The nodes a statement reads, writes or frees. -/
def Pc.touches : Pc → Multiset Nat
  | .aPop _ node | .dFree node | .dLink node => {node}
  | .hold node (_ :: _) => {node}
  | _ => 0

/-- The chain after a step. -/
def Pc.chain (L : List Nat) : Pc → List Nat
  | .aPop _ _ => L.tail
  | .dHead node => node :: L
  | _ => L

/-! ## The invariant -/

variable {s : Shared} {L : List Nat} {T R : Multiset Pc} {p : Pc}

/-- Every node is in one hand or once in the chain. -/
abbrev Nodes (L : List Nat) (s : Shared) (T : Multiset Pc) : Prop :=
  FreeList s.listNext s.freenode (hands T) s.alive L

/-- The counters, and the length of the chain. -/
structure Counts (L : List Nat) (s : Shared) (T : Multiset Pc) : Prop where
  free_eq : s.freeCnt = L.length + load Pc.ahead T
  use_eq : s.useCnt = load Pc.inUse T
  keep_eq : s.keeping = load Pc.keeps T
  use_le : s.useCnt ≤ s.peak
  keep_le : s.keeping ≤ s.crowd
  short : L.length + s.keeping ≤ max 1 (s.peak / 8) + (s.crowd - 1)

structure Inv (L : List Nat) (s : Shared) (T : Multiset Pc) : Prop where
  guarded : Guarded Pc.inside s.lock T
  nodes : Nodes L s T
  counts : Counts L s T
  fact : ∀ p ∈ T, p.Fact s

@[simp] theorem hands_cons : hands (p ::ₘ R) = p.hand + hands R := Multiset.cons_bind ..

@[simp] theorem hands_zero : hands 0 = 0 := Multiset.zero_bind _

theorem Pc.inUse_nonneg (p : Pc) : 0 ≤ p.inUse := by
  cases p <;> simp [Pc.inUse]

theorem Pc.keeps_nonneg (p : Pc) : 0 ≤ p.keeps := by
  cases p <;> simp only [Pc.keeps] <;> try split
  all_goals decide

/-- Only a thread under the lock has the counter apart from the chain. -/
theorem Pc.ahead_outside (h : p.inside = false) : p.ahead = 0 := by
  cases p <;> first | rfl | cases h

theorem Pc.fact_outside (h : p.inside = false) : p.Fact s := by
  cases p <;> trivial

theorem load_ahead (h : ∀ q ∈ R, Pc.inside q = false) : load Pc.ahead R = 0 := by
  refine Multiset.sum_eq_zero fun x hx => ?_
  obtain ⟨q, hq, rfl⟩ := Multiset.mem_map.mp hx
  exact Pc.ahead_outside (h q hq)

/-! ## One step -/

theorem guarded_next (h : Guarded Pc.inside s.lock (p ::ₘ R)) :
    Guarded Pc.inside (next s p).1.lock (put (next s p).2 R) := by
  have henter {q : Pc} (hlock : s.lock = false) (hq : q.inside = true) :
      Guarded Pc.inside true (q ::ₘ R) := by
    rw [hlock] at h
    exact h.enter hq
  cases p with
  | aLock j =>
    by_cases hlock : s.lock = true
    · simp only [next, if_pos hlock]
      exact h
    · simp only [next, if_neg hlock]
      exact henter (Bool.eq_false_of_not_eq_true hlock) rfl
  | aHead j => cases hfree : s.freenode <;> simp only [next, hfree] <;> exact h.stay rfl
  | aPop j node => exact h.stay rfl
  | aCount j node => exact h.stay rfl
  | aUse j node => exact h.stay rfl
  | aUnlock j node => cases node <;> exact h.leave rfl rfl
  | aMalloc j => exact h.stay rfl
  | hold node stores => cases stores <;> exact h.stay rfl
  | dLock node =>
    by_cases hlock : s.lock = true
    · simp only [next, if_pos hlock]
      exact h
    · simp only [next, if_neg hlock]
      exact henter (Bool.eq_false_of_not_eq_true hlock) rfl
  | dUse node => exact h.stay rfl
  | dRead node use =>
    simp only [next]
    split <;> exact h.stay rfl
  | dUnlock node use freeCnt => exact h.leave rfl rfl
  | dTest node use freeCnt =>
    simp only [next]
    split <;> exact h.stay rfl
  | dFree node => exact h.gone rfl
  | dLockAgain node =>
    by_cases hlock : s.lock = true
    · simp only [next, if_pos hlock]
      exact h
    · simp only [next, if_neg hlock]
      exact henter (Bool.eq_false_of_not_eq_true hlock) rfl
  | dLink node => exact h.stay rfl
  | dHead node => exact h.stay rfl
  | dCount => exact h.stay rfl
  | dUnlockAgain =>
    have hleave := h.leave (q := .dLock 0) rfl rfl
    exact hleave.gone rfl

/-- **One step** and the nodes. -/
theorem nodes_next (h : Nodes L s (p ::ₘ R)) (hfact : p.Fact s) (hok : fresh s p R) :
    Nodes (p.chain L) (next s p).1 (put (next s p).2 R) := by
  unfold Nodes at *
  rw [hands_cons] at h
  cases p with
  | aLock j =>
    simp only [next]
    split <;> simpa [put, Pc.hand, Pc.chain] using h
  | aHead j =>
    cases hfree : s.freenode <;> rw [hfree] at h <;>
      simpa [next, hfree, put, Pc.hand, Pc.chain] using h
  | aPop j node =>
    have hhead : s.freenode = some node := hfact
    rw [hhead] at h
    have hpop := h.pop
    simpa [next, put, Pc.hand, Pc.chain] using hpop
  | aUnlock j node => cases node <;> simpa [next, put, Pc.hand, Pc.chain] using h
  | aMalloc j =>
    have hmalloc := h.malloc (hok j.addr rfl)
    simpa [next, put, Pc.hand, Pc.chain] using hmalloc
  | hold node stores =>
    cases stores with
    | nil => simpa [next, put, Pc.hand, Pc.chain] using h
    | cons v stores =>
      have hlink := h.link (Multiset.mem_add.mpr (.inl (Multiset.mem_singleton_self node))) v
      simpa [next, put, Pc.hand, Pc.chain] using hlink
  | dLock node =>
    simp only [next]
    split <;> simpa [put, Pc.hand, Pc.chain] using h
  | dRead node use =>
    simp only [next]
    split <;> simpa [put, Pc.hand, Pc.chain] using h
  | dTest node use freeCnt =>
    simp only [next]
    split <;> simpa [put, Pc.hand, Pc.chain] using h
  | dFree node =>
    have hfree := h.free
    simpa [next, put, Pc.hand, Pc.chain] using hfree
  | dLockAgain node =>
    simp only [next]
    split <;> simpa [put, Pc.hand, Pc.chain] using h
  | dLink node =>
    have hlink := h.link (Multiset.mem_add.mpr (.inl (Multiset.mem_singleton_self node))) s.freenode
    simpa [next, put, Pc.hand, Pc.chain] using hlink
  | dHead node =>
    have hpush := h.push hfact
    simpa [next, put, Pc.hand, Pc.chain] using hpush
  | _ => simpa [next, put, Pc.hand, Pc.chain] using h

/-- A step that leaves the counters. -/
theorem Counts.keep {s' : Shared} {o : Option Pc} (h : Counts L s (p ::ₘ R))
    (hfree : s'.freeCnt = s.freeCnt) (huse : s'.useCnt = s.useCnt) (hpeak : s'.peak = s.peak)
    (hkeep : s'.keeping = s.keeping) (hcrowd : s'.crowd = s.crowd)
    (hahead : o.elim 0 Pc.ahead = p.ahead) (hin : o.elim 0 Pc.inUse = p.inUse)
    (hkeeps : o.elim 0 Pc.keeps = p.keeps) : Counts L s' (put o R) := by
  obtain ⟨h₁, h₂, h₃, h₄, h₅, h₆⟩ := h
  rw [load_cons] at h₁ h₂ h₃
  rw [← hfree, ← hahead, ← load_put] at h₁
  rw [← huse, ← hin, ← load_put] at h₂
  rw [← hkeep, ← hkeeps, ← load_put] at h₃
  rw [← huse, ← hpeak] at h₄
  rw [← hkeep, ← hcrowd] at h₅
  rw [← hkeep, ← hcrowd, ← hpeak] at h₆
  exact ⟨h₁, h₂, h₃, h₄, h₅, h₆⟩

/-- The choice to keep a node: the chain is short then, and so it stays but for the others that have
made the same choice. -/
theorem Counts.choose {node use : Nat} (h : Counts L s (.dRead node use ::ₘ R))
    (hR : load Pc.ahead R = 0) (huse : use ≤ s.peak / 8) (hlt : s.freeCnt < atLeastOne use) :
    Counts L { s with keeping := s.keeping + 1, crowd := max s.crowd (s.keeping + 1) }
      (.dUnlock node use s.freeCnt ::ₘ R) := by
  obtain ⟨h₁, h₂, h₃, h₄, h₅, h₆⟩ := h
  simp only [load_cons, Pc.ahead, Pc.inUse, Pc.keeps] at h₁ h₂ h₃
  have hbelow : L.length < max 1 (s.peak / 8) := by
    unfold atLeastOne at hlt
    split at hlt <;> omega
  refine ⟨?_, ?_, ?_, h₄, le_max_right _ _, ?_⟩
  · simp only [load_cons, Pc.ahead]
    exact h₁
  · simp only [load_cons, Pc.inUse]
    exact h₂
  · simp only [load_cons, Pc.keeps, if_pos hlt]
    push_cast
    omega
  · show L.length + (s.keeping + 1) ≤ max 1 (s.peak / 8) + (max s.crowd (s.keeping + 1) - 1)
    omega

/-- **One step** and the counters. -/
theorem Counts.thread (h : Counts L s (p ::ₘ R)) (hL : Chain s.listNext s.freenode L none)
    (hfact : p.Fact s) (hR : p.inside = true → load Pc.ahead R = 0) :
    Counts (p.chain L) (next s p).1 (put (next s p).2 R) := by
  have huseR := load_nonneg Pc.inUse_nonneg R
  have hkeepR := load_nonneg Pc.keeps_nonneg R
  cases p with
  | aLock j =>
    simp only [next]
    split <;> exact h.keep rfl rfl rfl rfl rfl rfl rfl rfl
  | aHead j =>
    cases hfree : s.freenode <;> simp only [next, hfree] <;>
      exact h.keep rfl rfl rfl rfl rfl rfl rfl rfl
  | aPop j node =>
    have hhead : s.freenode = some node := hfact
    obtain ⟨h₁, h₂, h₃, h₄, h₅, h₆⟩ := h
    simp only [load_cons, Pc.ahead, Pc.inUse, Pc.keeps] at h₁ h₂ h₃
    cases L with
    | nil =>
      have hnone : s.freenode = none := hL
      rw [hnone] at hhead
      cases hhead
    | cons x L =>
      simp only [List.length_cons] at h₁ h₆
      refine ⟨?_, ?_, ?_, h₄, h₅, ?_⟩ <;>
        simp only [next, put, load_cons, Pc.chain, List.tail_cons, Pc.ahead, Pc.inUse, Pc.keeps]
      · push_cast at h₁
        omega
      · exact h₂
      · exact h₃
      · omega
  | aCount j node =>
    obtain ⟨h₁, h₂, h₃, h₄, h₅, h₆⟩ := h
    simp only [load_cons, Pc.ahead, Pc.inUse, Pc.keeps] at h₁ h₂ h₃
    have hzero := hR rfl
    refine ⟨?_, ?_, ?_, h₄, h₅, h₆⟩ <;>
      simp only [next, put, load_cons, Pc.chain, Pc.ahead, Pc.inUse, Pc.keeps]
    · omega
    · exact h₂
    · exact h₃
  | aUse j node =>
    obtain ⟨h₁, h₂, h₃, h₄, h₅, h₆⟩ := h
    simp only [load_cons, Pc.ahead, Pc.inUse, Pc.keeps] at h₁ h₂ h₃
    refine ⟨?_, ?_, ?_, le_max_right _ _, h₅, ?_⟩ <;>
      simp only [next, put, load_cons, Pc.chain, Pc.ahead, Pc.inUse, Pc.keeps]
    · exact h₁
    · push_cast
      omega
    · exact h₃
    · have hdiv : s.peak / 8 ≤ max s.peak (s.useCnt + 1) / 8 :=
        Nat.div_le_div_right (le_max_left _ _)
      omega
  | aUnlock j node => cases node <;> exact h.keep rfl rfl rfl rfl rfl rfl rfl rfl
  | aMalloc j => exact h.keep rfl rfl rfl rfl rfl rfl rfl rfl
  | hold node stores => cases stores <;> exact h.keep rfl rfl rfl rfl rfl rfl rfl rfl
  | dLock node =>
    simp only [next]
    split <;> exact h.keep rfl rfl rfl rfl rfl rfl rfl rfl
  | dUse node =>
    obtain ⟨h₁, h₂, h₃, h₄, h₅, h₆⟩ := h
    simp only [load_cons, Pc.ahead, Pc.inUse, Pc.keeps] at h₁ h₂ h₃
    refine ⟨?_, ?_, ?_, ?_, h₅, h₆⟩ <;>
      simp only [next, put, load_cons, Pc.chain, Pc.ahead, Pc.inUse, Pc.keeps]
    · exact h₁
    · omega
    · exact h₃
    · omega
  | dRead node use =>
    by_cases hlt : s.freeCnt < atLeastOne use
    · simp only [next, if_pos hlt]
      exact h.choose (hR rfl) hfact hlt
    · simp only [next, if_neg hlt]
      exact h.keep rfl rfl rfl rfl rfl rfl rfl (if_neg hlt)
  | dUnlock node use freeCnt => exact h.keep rfl rfl rfl rfl rfl rfl rfl rfl
  | dTest node use freeCnt =>
    by_cases hge : freeCnt ≥ use
    · simp only [next, if_pos hge]
      exact h.keep rfl rfl rfl rfl rfl rfl rfl (if_neg (Nat.not_lt.mpr hge)).symm
    · simp only [next, if_neg hge]
      exact h.keep rfl rfl rfl rfl rfl rfl rfl (if_pos (Nat.lt_of_not_le hge)).symm
  | dFree node => exact h.keep (o := none) rfl rfl rfl rfl rfl rfl rfl rfl
  | dLockAgain node =>
    simp only [next]
    split <;> exact h.keep rfl rfl rfl rfl rfl rfl rfl rfl
  | dLink node => exact h.keep rfl rfl rfl rfl rfl rfl rfl rfl
  | dHead node =>
    obtain ⟨h₁, h₂, h₃, h₄, h₅, h₆⟩ := h
    simp only [load_cons, Pc.ahead, Pc.inUse, Pc.keeps] at h₁ h₂ h₃
    refine ⟨?_, ?_, ?_, h₄, ?_, ?_⟩ <;>
      simp only [next, put, load_cons, Pc.chain, Pc.ahead, Pc.inUse, Pc.keeps, List.length_cons]
    · push_cast
      omega
    · exact h₂
    · omega
    · omega
    · omega
  | dCount =>
    obtain ⟨h₁, h₂, h₃, h₄, h₅, h₆⟩ := h
    simp only [load_cons, Pc.ahead, Pc.inUse, Pc.keeps] at h₁ h₂ h₃
    refine ⟨?_, ?_, ?_, h₄, h₅, h₆⟩ <;>
      simp only [next, put, load_cons, Pc.chain, Pc.ahead, Pc.inUse, Pc.keeps]
    · push_cast
      omega
    · exact h₂
    · exact h₃
  | dUnlockAgain => exact h.keep (o := none) rfl rfl rfl rfl rfl rfl rfl rfl

/-- What a thread has read is still so when another one moves. -/
theorem Pc.Fact.other {q : Pc} (hq : q.Fact s) (hp : p.inside = false)
    (hhand : ∀ r ∈ p.hand, r ∉ q.hand) : q.Fact (next s p).1 := by
  cases p with
  | aHead _ | aPop _ _ | aCount _ _ | aUse _ _ | aUnlock _ _ => cases hp
  | dUse _ | dRead _ _ | dUnlock _ _ _ | dLink _ | dHead _ | dCount | dUnlockAgain => cases hp
  | aLock j =>
    simp only [next]
    split <;> exact hq
  | dLock node =>
    simp only [next]
    split <;> exact hq
  | dLockAgain node =>
    simp only [next]
    split <;> exact hq
  | aMalloc j => exact hq
  | dTest node use freeCnt => exact hq
  | dFree node => exact hq
  | hold node stores =>
    cases stores with
    | nil => exact hq
    | cons v stores =>
      cases q with
      | dHead r =>
        have hne : r ≠ node := by
          rintro rfl
          exact hhand r (Multiset.mem_singleton_self r) (Multiset.mem_singleton_self r)
        show Function.update s.listNext node v r = s.freenode
        rw [Function.update_of_ne hne]
        exact hq
      | _ => exact hq

/-- The facts of the thread that has moved. -/
theorem fact_moved (h : Inv L s (p ::ₘ R)) {q : Pc} (hq : q ∈ (next s p).2) :
    q.Fact (next s p).1 := by
  cases p with
  | aHead j =>
    cases hfree : s.freenode with
    | none =>
      simp only [next, hfree] at hq
      obtain rfl : Pc.aUse j none = q := Option.some.inj hq
      trivial
    | some node =>
      simp only [next, hfree] at hq
      obtain rfl : Pc.aPop j node = q := Option.some.inj hq
      exact hfree
  | dUse node =>
    obtain rfl : Pc.dRead node ((s.useCnt - 1) >>> 3) = q := Option.some.inj hq
    have hle := h.counts.use_le
    show (s.useCnt - 1) >>> 3 ≤ s.peak / 8
    rw [Nat.shiftRight_eq_div_pow]
    exact Nat.div_le_div_right (by omega)
  | dLink node =>
    obtain rfl : Pc.dHead node = q := Option.some.inj hq
    exact Function.update_self ..
  | dFree node => cases hq
  | dUnlockAgain => cases hq
  | aPop j node | aMalloc j => cases hq; trivial
  | aCount j node | aUse j node => cases hq; trivial
  | dUnlock node use freeCnt | dCount => cases hq; trivial
  | dRead node use | dHead node => cases hq; trivial
  | aUnlock j node => cases node <;> cases hq <;> trivial
  | hold node stores => cases stores <;> cases hq <;> trivial
  | aLock j | dLock node | dLockAgain node | dTest node use freeCnt =>
    simp only [next] at hq
    split at hq <;> cases hq <;> trivial

/-- **One step** of any thread. -/
theorem Inv.thread (h : Inv L s (p ::ₘ R)) (hok : fresh s p R) :
    Inv (p.chain L) (next s p).1 (put (next s p).2 R) := by
  have hfact : p.Fact s := h.fact p (Multiset.mem_cons_self p R)
  refine ⟨guarded_next h.guarded, nodes_next h.nodes hfact hok,
    h.counts.thread h.nodes.chain hfact fun hin => load_ahead (h.guarded.alone hin).2,
    fun q hq => ?_⟩
  rcases mem_put.mp hq with hq | hq
  · exact fact_moved h hq
  · cases hin : p.inside with
    | true => exact Pc.fact_outside ((h.guarded.alone hin).2 q hq)
    | false =>
      refine (h.fact q (Multiset.mem_cons_of_mem hq)).other hin fun r hr hr' => ?_
      -- no node is in two hands
      obtain ⟨R, rfl⟩ := Multiset.exists_cons_of_mem hq
      have hnd := h.nodes.nodup
      rw [h.nodes.alive_eq, hands_cons, hands_cons, add_assoc, Multiset.nodup_add] at hnd
      refine Multiset.disjoint_left.mp hnd.2.2 hr ?_
      exact Multiset.mem_add.mpr (.inl (Multiset.mem_add.mpr (.inl hr')))

theorem Inv.start (h : Inv L s T) (j : Job) : Inv L s (.aLock j ::ₘ T) := by
  refine ⟨h.guarded.add rfl, ?_, ?_, fun q hq => ?_⟩
  · have hnodes := h.nodes
    simpa [Nodes, Pc.hand] using hnodes
  · obtain ⟨h₁, h₂, h₃, h₄, h₅, h₆⟩ := h.counts
    refine ⟨?_, ?_, ?_, h₄, h₅, h₆⟩ <;> rw [load_cons]
    · exact h₁.trans (by simp only [Pc.ahead, zero_add])
    · exact h₂.trans (by simp only [Pc.inUse, zero_add])
    · exact h₃.trans (by simp only [Pc.keeps, zero_add])
  · rcases Multiset.mem_cons.mp hq with rfl | hq
    · trivial
    · exact h.fact q hq

theorem Inv.begin (link : Nat → Option Nat) :
    Inv [] (begin link).shared (begin link).threads := by
  refine ⟨guarded_zero _, .empty link, ⟨rfl, rfl, rfl, le_rfl, le_rfl, ?_⟩,
    fun p hp => absurd hp (Multiset.notMem_zero p)⟩
  exact Nat.zero_le _

/-- A node that a statement touches has not been freed. -/
theorem Inv.touched (h : Inv L s T) (hp : p ∈ T) {r : Nat} (hr : r ∈ p.touches) : r ∈ s.alive := by
  have hhand (hin : r ∈ p.hand) : r ∈ s.alive := by
    apply h.nodes.mem_alive
    exact Multiset.mem_bind.mpr ⟨p, hp, hin⟩
  have hfact := h.fact p hp
  cases p with
  | aPop j node =>
    obtain rfl : r = node := Multiset.mem_singleton.mp hr
    have hhead : s.freenode = some r := hfact
    have hnodes := h.nodes
    unfold Nodes at hnodes
    rw [hhead] at hnodes
    exact hnodes.head_alive
  | dFree node => exact hhand hr
  | dLink node => exact hhand hr
  | hold node stores =>
    cases stores with
    | nil => exact absurd hr (Multiset.notMem_zero r)
    | cons v stores => exact hhand hr
  | _ => exact absurd hr (Multiset.notMem_zero r)

instance (s : Shared) (p : Pc) : Decidable (fresh s p 0) :=
  inferInstanceAs (Decidable (∀ a ∈ p.given, a ∉ s.alive))

end HoNet.Timer.NodePool
