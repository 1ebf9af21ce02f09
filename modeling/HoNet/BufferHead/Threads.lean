import HoNet.BufferQueue
import HoNet.Lib.Schedule
import HoNet.Lib.Section
import Mathlib.Data.List.ReduceOption

/-!
# A `buffer_head` under threads

`push_back`, `push_front` and `pop_front` hold the spin lock of the queue from their first statement
to their last. Here each statement is one step, and any number of threads call the three.

* `runs_exec` — the statements of one call, with nobody beside.
* `Queued.call` — one call on the list.
* `queue_serializable` — whole runs.
* `queue_drains` — no reachable state is a deadlock.
-/

namespace HoNet.BufferHead.Threads

open HoNet.Pool

/-- The buffers and the two ends of the queue. -/
abbrev Memory := BufMem × BufferHead

/-- The statement that is executed next. -/
inductive Stmt where
  /-- `push_back`: `if (head == NULL)`, the two stores of `tail = head = b`, `tail->next = b`. -/
  | backTest (b : Nat)
  | backHead (b : Nat)
  | backLink (b : Nat)
  | backTail (b : Nat)
  /-- `push_front`: `b->next = head`, `if (head == NULL)`, the stores. -/
  | frontNext (b : Nat)
  | frontTest (b : Nat)
  | frontHead (b : Nat)
  | frontTail (b : Nat)
  | frontOnly (b : Nat)
  /-- `pop_front`: `ret = head`, `if (head)`, `head = head->next`, `if (head == NULL)`,
  `tail = NULL`. -/
  | popRet
  | popTest (ret : Option Nat)
  | popHead (ret : Option Nat)
  | popEmpty (ret : Option Nat)
  | popTail (ret : Option Nat)
  deriving DecidableEq, Repr

/-- The first statement of a call. -/
def enter : HeadOp → Stmt
  | .pushBack b => .backTest b
  | .pushFront b => .frontNext b
  | .popFront => .popRet

/-- What a call returns; `none` when a null pointer was followed. -/
abbrev Outcome := Option (Option Nat)

def step (m : Memory) : Stmt → Memory × (Stmt ⊕ Outcome)
  | .backTest b => (m, .inl (if m.2.head = none then .backHead b else .backLink b))
  | .backHead b => ((m.1, { m.2 with head := some b }), .inl (.backTail b))
  | .backLink b =>
    match m.2.tail with
    | none => (m, .inr none)
    | some t => ((setNext m.1 t (some b), m.2), .inl (.backTail b))
  | .backTail b => ((m.1, { m.2 with tail := some b }), .inr (some none))
  | .frontNext b => ((setNext m.1 b m.2.head, m.2), .inl (.frontTest b))
  | .frontTest b => (m, .inl (if m.2.head = none then .frontHead b else .frontOnly b))
  | .frontHead b => ((m.1, { m.2 with head := some b }), .inl (.frontTail b))
  | .frontTail b => ((m.1, { m.2 with tail := some b }), .inr (some none))
  | .frontOnly b => ((m.1, { m.2 with head := some b }), .inr (some none))
  | .popRet => (m, .inl (.popTest m.2.head))
  | .popTest ret => (m, .inl (if m.2.head = none then .popEmpty ret else .popHead ret))
  | .popHead ret =>
    match m.2.head with
    | none => (m, .inr none)
    | some h => ((m.1, { m.2 with head := (m.1 h).next }), .inl (.popEmpty ret))
  | .popEmpty ret => (m, if m.2.head = none then .inl (.popTail ret) else .inr (some ret))
  | .popTail ret => ((m.1, { m.2 with tail := none }), .inr (some ret))

/-- The queue as an object without calls that only read. -/
def queue : Object Memory HeadOp Stmt Outcome where
  enter := enter
  step := step
  reads _ := false
  step_reads _ _ h := by cases h
  next_reads _ _ _ _ := rfl

/-- The calls under the lock of the queue. -/
def program : Program (Locked Bool Memory HeadOp Outcome) (Call HeadOp Stmt Outcome SpinPc) :=
  spinlock.guard queue

/-- The constructor, with buffers in any state of their links. -/
def begin (mem : BufMem) :
    Sys (Locked Bool Memory HeadOp Outcome) (Call HeadOp Stmt Outcome SpinPc) :=
  spinlock.begin (mem, ⟨none, none⟩)

/-! ## One call -/

variable {mem mem' : BufMem} {wb wb' : BufferHead} {q : List Nat} {op : HeadOp} {r : Option Nat}

/-- **The statements of a call** do together what the call does. -/
theorem runs_exec (h : exec mem wb op = some (mem', wb', r)) :
    queue.Runs (mem, wb) (enter op) (mem', wb') (some r) := by
  obtain ⟨head, tail⟩ := wb
  cases op with
  | pushBack b =>
    unfold exec pushBack at h
    cases head with
    | none =>
      obtain ⟨rfl, rfl, rfl⟩ : mem = mem' ∧ ⟨some b, some b⟩ = wb' ∧ none = r := by simpa using h
      exact .more rfl (.more rfl (.last rfl))
    | some hd =>
      cases tail with
      | none => simp at h
      | some t =>
        obtain ⟨rfl, rfl, rfl⟩ : setNext mem t (some b) = mem' ∧ ⟨some hd, some b⟩ = wb' ∧
            none = r := by simpa using h
        exact .more rfl (.more rfl (.last rfl))
  | pushFront b =>
    unfold exec pushFront at h
    cases head with
    | none =>
      obtain ⟨rfl, rfl, rfl⟩ : setNext mem b none = mem' ∧ ⟨some b, some b⟩ = wb' ∧ none = r := by
        simpa using h
      exact .more rfl (.more rfl (.more rfl (.last rfl)))
    | some hd =>
      obtain ⟨rfl, rfl, rfl⟩ : setNext mem b (some hd) = mem' ∧ ⟨some b, tail⟩ = wb' ∧
          none = r := by simpa using h
      exact .more rfl (.more rfl (.last rfl))
  | popFront =>
    unfold exec popFront at h
    cases head with
    | none =>
      obtain ⟨rfl, rfl, rfl⟩ : mem = mem' ∧ ⟨none, none⟩ = wb' ∧ none = r := by simpa using h
      exact .more rfl (.more rfl (.more rfl (.last rfl)))
    | some hd =>
      cases hn : (mem hd).next with
      | none =>
        obtain ⟨rfl, rfl, rfl⟩ : mem = mem' ∧ ⟨none, none⟩ = wb' ∧ some hd = r := by
          simpa [hn] using h
        have hempty : queue.Runs (mem, ⟨none, tail⟩) (.popEmpty (some hd)) (mem, ⟨none, none⟩)
            (some (some hd)) := .more rfl (.last rfl)
        have hnext : queue.Runs (mem, ⟨some hd, tail⟩) (.popHead (some hd)) (mem, ⟨none, none⟩)
            (some (some hd)) := .more (by simp [queue, step, hn]) hempty
        exact .more rfl (.more rfl hnext)
      | some n =>
        obtain ⟨rfl, rfl, rfl⟩ : mem = mem' ∧ ⟨some n, tail⟩ = wb' ∧ some hd = r := by
          simpa [hn] using h
        have hempty : queue.Runs (mem, ⟨some n, tail⟩) (.popEmpty (some hd)) (mem, ⟨some n, tail⟩)
            (some (some hd)) := .last rfl
        have hnext : queue.Runs (mem, ⟨some hd, tail⟩) (.popHead (some hd)) (mem, ⟨some n, tail⟩)
            (some (some hd)) := .more (by simp [queue, step, hn]) hempty
        exact .more rfl (.more rfl hnext)

/-- The statements that are left, at most. -/
def left : Stmt → ℕ
  | .popRet => 4
  | .frontNext _ | .popTest _ => 3
  | .backTest _ | .frontTest _ | .popHead _ => 2
  | .backHead _ | .backLink _ | .frontHead _ | .popEmpty _ => 1
  | .backTail _ | .frontTail _ | .frontOnly _ | .popTail _ => 0

theorem step_left (m : Memory) (k k' : Stmt) (h : (step m k).2 = .inl k') : left k' < left k := by
  cases k with
  | backTest b | frontTest b | popTest ret =>
    obtain rfl := Sum.inl.inj h
    split <;> simp only [left] <;> omega
  | backLink b =>
    simp only [step] at h
    split at h
    · cases h
    · obtain rfl := Sum.inl.inj h
      simp only [left]
      omega
  | popHead ret =>
    simp only [step] at h
    split at h
    · cases h
    · obtain rfl := Sum.inl.inj h
      simp only [left]
      omega
  | popEmpty ret =>
    simp only [step] at h
    split at h
    · obtain rfl := Sum.inl.inj h
      simp only [left]
      omega
    · cases h
  | backHead b | frontNext b | frontHead b | popRet =>
    obtain rfl := Sum.inl.inj h
    simp only [left]
    omega
  | backTail b | frontTail b | frontOnly b | popTail ret => cases h

/-! ## Calls one after another -/

/-- The buffer that a call pushes. -/
def pushed : HeadOp → Option Nat
  | .pushBack b | .pushFront b => some b
  | .popFront => none

/-- What the calls return, by the list. -/
def answers (q : List Nat) : List HeadOp → List (Option Nat)
  | [] => []
  | op :: ops => op.result q :: answers (op.step q) ops

theorem answers_append (ops : List HeadOp) (op : HeadOp) :
    answers q (ops ++ [op]) = answers q ops ++ [op.result (ops.foldl HeadOp.step q)] := by
  induction ops generalizing q with
  | nil => rfl
  | cons op' ops ih =>
    simp only [List.cons_append, answers, List.foldl_cons, ih]

abbrev Calls := List (HeadOp × Outcome)

/-- The buffers that were pushed, in that order. -/
def Calls.pushed (calls : Calls) : List Nat := (calls.map Prod.fst).filterMap Threads.pushed

/-- The list behind the calls. -/
def Calls.list (calls : Calls) : List Nat := (calls.map Prod.fst).foldl HeadOp.step []

/-- The queue behind some calls is the list behind them, and buffers that were never pushed have
null links. -/
structure Queued (calls : Calls) (m : Memory) : Prop where
  list : Is m.1 m.2 calls.list
  answered : calls.map Prod.snd = (answers [] (calls.map Prod.fst)).map some
  inside : ∀ b ∈ calls.list, b ∈ calls.pushed
  unlinked : ∀ b ∉ calls.pushed, (m.1 b).next = none

theorem Calls.pushed_snoc (calls : Calls) (o : Outcome) :
    Calls.pushed (calls ++ [(op, o)]) = calls.pushed ++ (Threads.pushed op).toList := by
  unfold Calls.pushed
  rw [List.map_append, List.filterMap_append]
  cases hop : Threads.pushed op <;> simp [hop]

theorem Calls.list_snoc (calls : Calls) (o : Outcome) :
    Calls.list (calls ++ [(op, o)]) = op.step calls.list := by
  unfold Calls.list
  rw [List.map_append, List.foldl_append]
  rfl

/-- A call leaves the links of the buffers that are neither in the queue nor pushed. -/
theorem exec_links (his : Is mem wb q) (h : exec mem wb op = some (mem', wb', r)) {b : Nat}
    (hb : b ∉ q) (hop : pushed op ≠ some b) : (mem' b).next = (mem b).next := by
  cases op with
  | pushBack c =>
    obtain ⟨heq, hmem⟩ := exec_pushBack his c
    rw [heq] at h
    obtain ⟨rfl, -⟩ := Prod.mk.inj (Option.some.inj h)
    rcases hmem with hsame | ⟨t, ht, hset⟩
    · rw [hsame]
    · have hbt : b ≠ t := by
        rintro rfl
        exact hb ht
      rw [hset]
      simp only [setNext, Function.update_of_ne hbt]
  | pushFront c =>
    obtain ⟨rfl, -⟩ := Prod.mk.inj (Option.some.inj h)
    have hbc : b ≠ c := by
      rintro rfl
      exact hop rfl
    simp only [pushFront, setNext, Function.update_of_ne hbc]
  | popFront =>
    obtain ⟨rfl, -⟩ := Prod.mk.inj (Option.some.inj h)
    rfl

theorem mem_step {b : Nat} (h : b ∈ op.step q) : b ∈ q ∨ pushed op = some b := by
  cases op with
  | pushBack c =>
    rcases List.mem_append.mp h with h | h
    · exact .inl h
    · exact .inr (congrArg some (List.mem_singleton.mp h).symm)
  | pushFront c =>
    rcases List.mem_cons.mp h with rfl | h
    · exact .inr rfl
    · exact .inl h
  | popFront => exact .inl (List.mem_of_mem_tail h)

theorem Queued.begin (hnull : ∀ b, (mem b).next = none) : Queued [] (mem, ⟨none, none⟩) :=
  ⟨Linked.deque_nil, rfl, fun _ h => h, fun b _ => hnull b⟩

/-- **One call** with a buffer that was never pushed, or of `pop_front`. -/
theorem Queued.call {calls : Calls} {m m' : Memory} {o : Outcome} (h : Queued calls m)
    (hnew : ∀ b, pushed op = some b → b ∉ calls.pushed) (hrun : queue.Runs m (enter op) m' o) :
    Queued (calls ++ [(op, o)]) m' := by
  obtain ⟨mem, wb⟩ := m
  have hlegal : op.Legal calls.list := by
    cases op with
    | pushBack b => exact fun hb => hnew b rfl (h.inside b hb)
    | pushFront b => exact fun hb => hnew b rfl (h.inside b hb)
    | popFront => trivial
  have hnull : ∀ b, op = .pushBack b → (mem b).next = none := by
    intro b hb
    apply h.unlinked
    apply hnew
    rw [hb]
    rfl
  obtain ⟨mem', wb', hexec, his⟩ := h.list.step hlegal hnull
  obtain ⟨rfl, rfl⟩ := hrun.unique (runs_exec hexec)
  refine ⟨?_, ?_, fun b hb => ?_, fun b hb => ?_⟩
  · rw [Calls.list_snoc]
    exact his
  · rw [List.map_append, List.map_append, h.answered, List.map_singleton, List.map_singleton,
      answers_append, List.map_append, List.map_singleton]
    rfl
  · rw [Calls.list_snoc] at hb
    rw [Calls.pushed_snoc, List.mem_append, Option.mem_toList]
    exact (mem_step hb).imp_left (h.inside b)
  · rw [Calls.pushed_snoc, List.mem_append, Option.mem_toList, not_or] at hb
    rw [exec_links h.list hexec (fun hm => hb.1 (h.inside b hm)) hb.2]
    exact h.unlinked b hb.1

/-- Calls one after another that push no buffer twice. -/
theorem queued_of_serial {calls : Calls} {m : Memory} (hnull : ∀ b, (mem b).next = none)
    (h : queue.Serial (mem, ⟨none, none⟩) calls m) (hnew : calls.pushed.Nodup) :
    Queued calls m := by
  revert hnew
  apply h.invariant (I := fun calls m => Calls.pushed calls |>.Nodup → Queued calls m)
  · exact fun _ => .begin hnull
  · intro calls m m' op o ih hrun hnew
    rw [Calls.pushed_snoc, List.nodup_append] at hnew
    apply (ih hnew.1).call _ hrun
    intro b hb hm
    exact hnew.2.2 b hm b (Option.mem_toList.mpr hb) rfl

/-- Without `push_front` the buffers come out in the order in which they went in. -/
theorem answers_fifo {ops : List HeadOp} (hback : ∀ b, HeadOp.pushFront b ∉ ops) :
    (answers q ops).reduceOption ++ ops.foldl HeadOp.step q = q ++ ops.filterMap pushed := by
  induction ops generalizing q with
  | nil => simp [answers]
  | cons op ops ih =>
    have hrest : ∀ b, HeadOp.pushFront b ∉ ops := fun b hb => hback b (List.mem_cons_of_mem op hb)
    cases op with
    | pushBack b =>
      have hb := @ih (q ++ [b]) hrest
      simpa [answers, HeadOp.step, HeadOp.result, pushed] using hb
    | pushFront b => exact absurd List.mem_cons_self (hback b)
    | popFront =>
      cases q with
      | nil =>
        have hb := @ih [] hrest
        simpa [answers, HeadOp.step, HeadOp.result, pushed, List.filterMap_cons] using hb
      | cons x q =>
        have hb := @ih q hrest
        simpa [answers, HeadOp.step, HeadOp.result, pushed, List.filterMap_cons] using hb

/-! ## Runs -/

/-- **The queue under threads.** For any number of threads and every interleaving of their
statements, with buffers that are pushed once and whose links are null before that: the calls that
have returned have followed no null pointer and have returned what the double-ended list returns if
they are made one after another in the order in which they have given the lock back. When no thread
has the lock the queue is that list. Without `push_front`, the buffers that have come out, followed
by those in the queue, are the buffers that were pushed, in that order. -/
theorem queue_serializable (hnull : ∀ b, (mem b).next = none)
    {S : Sys (Locked Bool Memory HeadOp Outcome) (Call HeadOp Stmt Outcome SpinPc)}
    (hrun : Reach program anyStep (begin mem) S) (hnew : (Calls.pushed S.shared.log).Nodup) :
    S.shared.log.map Prod.snd = (answers [] (S.shared.log.map Prod.fst)).map some ∧
      ((∀ c ∈ S.threads, c.pc = .wait) →
        Is S.shared.mem.1 S.shared.mem.2 (Calls.list S.shared.log)) ∧
      ((∀ b o, (.pushFront b, o) ∉ S.shared.log) →
        S.shared.log.filterMap (fun c => c.2.join) ++ Calls.list S.shared.log =
          Calls.pushed S.shared.log) := by
  obtain ⟨m, hserial, hmem⟩ := Lock.serializable hrun
  have h := queued_of_serial hnull hserial hnew
  refine ⟨h.answered, fun hfree => ?_, fun hback => ?_⟩
  · have hm : S.shared.mem = m := hmem fun c hc hh => by
      rw [hfree c hc] at hh
      cases hh
    rw [hm]
    exact h.list
  · have hout : S.shared.log.filterMap (fun c => c.2.join) =
        (answers [] (S.shared.log.map Prod.fst)).reduceOption := by
      have hjoin : S.shared.log.filterMap (fun c => c.2.join) =
          (S.shared.log.map Prod.snd).filterMap Option.join := by
        rw [List.filterMap_map]
        rfl
      rw [hjoin, h.answered, List.filterMap_map]
      rfl
    have hops : ∀ b, HeadOp.pushFront b ∉ S.shared.log.map Prod.fst := by
      intro b hb
      obtain ⟨⟨op, o⟩, hc, rfl⟩ := List.mem_map.mp hb
      exact hback b o hc
    rw [hout]
    exact answers_fifo (q := []) hops

/-- Two threads push and one pops; the first one has the lock while the others ask for it. -/
def threeCalls : List (Call HeadOp Stmt Outcome SpinPc) :=
  [.pushBack 5, .pushBack 3, .popFront].map fun op => ⟨op, .wait, .inl (enter op)⟩

def threeTurns : List Nat := [0, 1, 2, 0, 0, 0, 0, 0, 1, 0, 0, 0, 0, 0, 0, 0, 0, 0, 0]

theorem reach_threeCalls : Reach program anyStep (begin freshBuffers)
    ⟨(begin freshBuffers).shared, (threeCalls : Multiset _)⟩ := by
  apply Reach.calls threeCalls
  intro c hc
  fin_cases hc <;> exact ⟨rfl, rfl, ⟨rfl, rfl⟩, rfl, rfl⟩

theorem queue_serializable_three :
    let s := (picks program threeTurns (begin freshBuffers).shared threeCalls).1
    s.log = [(.pushBack 5, some none), (.pushBack 3, some none), (.popFront, some (some 5))] ∧
      Is s.mem.1 s.mem.2 [3] := by
  intro s
  have hrun := reach_threeCalls.picks (k := fun _ _ _ => true) threeTurns (fun _ _ _ _ => trivial)
    rfl
  have hlog : s.log =
      [(.pushBack 5, some none), (.pushBack 3, some none), (.popFront, some (some 5))] := rfl
  obtain ⟨-, hlist, -⟩ := queue_serializable (fun _ => rfl) hrun (by decide)
  exact ⟨hlog, hlist fun c hc => absurd hc (Multiset.notMem_zero c)⟩

/-- **The queue comes to rest.** From every state that is reached the calls that are under way can
all return, with no new one, whatever state the buffers are in. -/
theorem queue_drains {S : Sys (Locked Bool Memory HeadOp Outcome) (Call HeadOp Stmt Outcome SpinPc)}
    (hrun : Reach program anyStep (begin mem) S) :
    ∃ s, Reach program.closed anyStep S ⟨s, 0⟩ ∧
      (s.log.map Prod.fst : Multiset HeadOp) =
        (S.shared.log.map Prod.fst : Multiset HeadOp) + S.threads.map Call.op :=
  spin_drains (Object.runs_ends step_left) hrun

/-- With the lock in the hand of the first thread. -/
theorem queue_drains_three :
    let s := picks program [0, 1, 2, 0] (begin freshBuffers).shared threeCalls
    s.1.lock = true ∧
      ∃ s', Reach program.closed anyStep ⟨s.1, (s.2 : Multiset _)⟩ ⟨s', 0⟩ ∧
        (s'.log.map Prod.fst : Multiset HeadOp) = ↑[HeadOp.pushBack 5, .pushBack 3, .popFront] := by
  intro s
  have hrun := reach_threeCalls.picks (k := fun _ _ _ => true) [0, 1, 2, 0]
    (fun _ _ _ _ => trivial) rfl
  obtain ⟨s', hreach, hops⟩ := queue_drains hrun
  exact ⟨rfl, s', hreach, hops⟩

end HoNet.BufferHead.Threads
