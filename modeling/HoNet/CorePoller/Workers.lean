import Mathlib.Algebra.BigOperators.Group.List.Basic
import Mathlib.Tactic

/-!
# The workers of `corepoller.c`

The worker threads of a `core_poller`, and the thread that calls `corepoller_start_thread` and
`corepoller_stop_thread`, one call after the other. Every access of `io->thr`, `io->quited` and the
completion port is one step.

A worker waits in `GetQueuedCompletionStatus`. What it does with a completion other than `&io->quit`
touches none of the fields here, so only the quit messages are kept, each as its count. A quit message
is in flight from its posting until the worker that dequeued it has posted the rest of it or set
`io->quited`. `_beginthread` and `PostQueuedCompletionStatus` succeed.

* `step_inv`, `run_inv` — the invariant along a step and along a run.
* `workers_conserved` — every running worker is counted once, by `io->thr` or by a quit message.
-/

namespace HoNet.CorePoller

/-- The statement the controlling thread executes next. -/
inductive Ctl where
  | idle
  /-- `corepoller_start_thread(n)`: the loop test with `_beginthread`, `io->thr++`, the test behind the
  loop with its message, `io->thr = n`. -/
  | startLoop (n : Nat)
  | startInc (n : Nat)
  | startPost (n : Nat)
  | startStore (n : Nat)
  /-- `corepoller_stop_thread`: the test with its message, `io->thr = 0`, the wait for `io->quited`. -/
  | stopPost
  | stopStore
  | stopWait
  deriving DecidableEq, Repr

structure Poller where
  thr : Nat
  quited : Bool
  /-- The counts of the quit messages in the completion port. -/
  queue : List Nat
  /-- The workers that have not dequeued a quit message. -/
  waiting : Nat
  /-- The counts that the other workers have dequeued. -/
  held : List Nat
  ctl : Ctl
  deriving DecidableEq, Repr

/-- `corepoller_new`. -/
def corepollerNew : Poller where
  thr := 0
  quited := true
  queue := []
  waiting := 0
  held := []
  ctl := .idle

/-- A call begins, the controlling thread goes on, `corepoller_stop_thread` returns, a worker
dequeues a quit message, a worker handles the quit message it has dequeued. -/
inductive Label where
  | start (n : UInt8)
  | stop
  | go
  | ret
  | take (bytes : Nat)
  | quit (bytes : Nat)
  deriving DecidableEq, Repr

namespace Poller

/-- The next statement of the controlling thread. -/
def go (io : Poller) : Option Poller :=
  match io.ctl with
  | .idle => none
  | .startLoop n =>
    if io.thr < n then some { io with waiting := io.waiting + 1, ctl := .startInc n }
    else some { io with ctl := .startPost n }
  | .startInc n => some { io with thr := io.thr + 1, ctl := .startLoop n }
  | .startPost n =>
    if io.thr > n then some { io with queue := (io.thr - n) :: io.queue, ctl := .startStore n }
    else some { io with ctl := .startStore n }
  | .startStore n => some { io with thr := n, ctl := .idle }
  | .stopPost =>
    if io.thr > 0 then some { io with queue := io.thr :: io.queue, ctl := .stopStore }
    else some { io with ctl := .stopWait }
  | .stopStore => some { io with thr := 0, ctl := .stopWait }
  | .stopWait => none

/-- What a worker does with the quit message it has dequeued; `bytes` is a `DWORD`. -/
def quit (io : Poller) (bytes : Nat) : Poller :=
  let io := { io with held := io.held.erase bytes }
  let bytes := (bytes + (2 ^ 32 - 1)) % 2 ^ 32
  if bytes > 0 then { io with queue := bytes :: io.queue } else { io with quited := true }

/-- One step; a label that is not enabled has none. -/
def step (io : Poller) : Label → Option Poller
  | .start n =>
    if io.ctl = .idle then
      some { io with quited := false, ctl := .startLoop (if n = 0 then 1 else n.toNat) }
    else none
  | .stop => if io.ctl = .idle then some { io with ctl := .stopPost } else none
  | .go => io.go
  | .ret => if io.ctl = .stopWait ∧ io.quited = true then some { io with ctl := .idle } else none
  | .take bytes =>
    if bytes ∈ io.queue ∧ 0 < io.waiting then
      some { io with
        queue := io.queue.erase bytes
        waiting := io.waiting - 1
        held := bytes :: io.held }
    else none
  | .quit bytes => if bytes ∈ io.held then some (io.quit bytes) else none

def run (io : Poller) (ls : List Label) : Option Poller := ls.foldlM step io

def running (io : Poller) : Nat := io.waiting + io.held.length

/-- The counts of the quit messages in flight. -/
def inFlight (io : Poller) : List Nat := io.queue ++ io.held

/-- The controlling thread has started a worker or posted a message and not yet set `io->thr`. -/
def updating (io : Poller) : Bool :=
  match io.ctl with
  | .startInc _ => true
  | .startStore n => decide (io.thr ≠ n)
  | .stopStore => true
  | _ => false

/-- `io->thr` as the controlling thread is about to set it. -/
def due (io : Poller) : Nat :=
  match io.ctl with
  | .startInc _ => io.thr + 1
  | .startStore n => n
  | .stopStore => 0
  | _ => io.thr

theorem due_eq (io : Poller) (h : io.updating = false) : io.due = io.thr := by
  unfold updating at h
  unfold due
  cases hc : io.ctl with
  | startInc n => rw [hc] at h; cases h
  | stopStore => rw [hc] at h; cases h
  | startStore n =>
    rw [hc] at h
    have h := of_decide_eq_false h
    show n = io.thr
    omega
  | _ => rfl

/-! ## The invariant -/

/-- What the controlling thread knows at each statement. -/
def Placed (io : Poller) : Prop :=
  match io.ctl with
  | .idle => io.thr = 0 → io.quited = true
  | .startLoop n => 0 < n ∧ n < 256
  | .startInc n => io.thr < n ∧ n < 256
  | .startPost n => 0 < n ∧ n < 256 ∧ n ≤ io.thr
  | .startStore n => 0 < n ∧ n < 256
  | .stopPost => io.thr = 0 → io.quited = true
  | .stopStore => True
  | .stopWait => io.thr = 0

structure Inv (io : Poller) : Prop where
  law : io.running = io.due + io.inFlight.sum
  counts : ∀ c ∈ io.inFlight, 0 < c ∧ c < 256
  thr_lt : io.thr < 256
  placed : io.Placed

theorem inv_new : Inv corepollerNew :=
  ⟨rfl, fun _ hc => absurd hc List.not_mem_nil, by decide, fun _ => rfl⟩

variable {io io' : Poller}

theorem go_inv (h : Inv io) (hs : io.go = some io') : Inv io' := by
  have hlaw := h.law
  have hpl := h.placed
  have hthr := h.thr_lt
  unfold go at hs
  unfold Placed at hpl
  unfold due at hlaw
  cases hc : io.ctl with
  | idle => rw [hc] at hs; cases hs
  | stopWait => rw [hc] at hs; cases hs
  | startLoop n =>
    rw [hc] at hs hpl hlaw
    simp only at hs hpl hlaw
    split at hs
    · next hlt =>
      obtain rfl := Option.some.inj hs
      refine ⟨?_, h.counts, hthr, hlt, hpl.2⟩
      show io.waiting + 1 + io.held.length = io.thr + 1 + io.inFlight.sum
      unfold running at hlaw
      omega
    · obtain rfl := Option.some.inj hs
      exact ⟨hlaw, h.counts, hthr, hpl.1, hpl.2, show n ≤ io.thr by omega⟩
  | startInc n =>
    rw [hc] at hs hpl hlaw
    simp only at hs hpl hlaw
    obtain rfl := Option.some.inj hs
    exact ⟨hlaw, h.counts, show io.thr + 1 < 256 by omega, by omega, hpl.2⟩
  | startPost n =>
    rw [hc] at hs hpl hlaw
    simp only at hs hpl hlaw
    split at hs
    · obtain rfl := Option.some.inj hs
      refine ⟨?_, fun c hcm => ?_, hthr, hpl.1, hpl.2.1⟩
      · show io.running = n + ((io.thr - n) :: io.inFlight).sum
        rw [List.sum_cons]
        omega
      · rcases List.mem_cons.mp hcm with rfl | hcm
        · omega
        · exact h.counts c hcm
    · obtain rfl := Option.some.inj hs
      have hthr_eq : io.thr = n := by omega
      refine ⟨?_, h.counts, hthr, hpl.1, hpl.2.1⟩
      show io.running = n + io.inFlight.sum
      omega
  | startStore n =>
    rw [hc] at hs hpl hlaw
    simp only at hs hpl hlaw
    obtain rfl := Option.some.inj hs
    exact ⟨hlaw, h.counts, hpl.2, fun h0 => absurd h0 (by have := hpl.1; simp only; omega)⟩
  | stopPost =>
    rw [hc] at hs hpl hlaw
    simp only at hs hpl hlaw
    split at hs
    · obtain rfl := Option.some.inj hs
      refine ⟨?_, fun c hcm => ?_, hthr, trivial⟩
      · show io.running = 0 + (io.thr :: io.inFlight).sum
        rw [List.sum_cons]
        omega
      · rcases List.mem_cons.mp hcm with rfl | hcm
        · omega
        · exact h.counts c hcm
    · obtain rfl := Option.some.inj hs
      exact ⟨hlaw, h.counts, hthr, show io.thr = 0 by omega⟩
  | stopStore =>
    rw [hc] at hs hpl hlaw
    simp only at hs hpl hlaw
    obtain rfl := Option.some.inj hs
    exact ⟨hlaw, h.counts, show 0 < 256 by decide, rfl⟩

/-- A message that a worker takes stays in flight. -/
theorem take_spec {bytes : Nat} (hs : io.step (.take bytes) = some io') :
    0 < io.waiting ∧ io'.inFlight.Perm io.inFlight ∧
      io' = { io with
        queue := io.queue.erase bytes, waiting := io.waiting - 1, held := bytes :: io.held } := by
  simp only [step] at hs
  split at hs
  · next hen =>
    obtain rfl := Option.some.inj hs
    have hperm : (io.queue.erase bytes ++ bytes :: io.held).Perm io.inFlight := by
      refine List.perm_middle.trans ?_
      exact (List.perm_cons_erase hen.1).symm.append_right io.held
    exact ⟨hen.2, hperm, rfl⟩
  · cases hs

theorem take_inv (h : Inv io) {bytes : Nat} (hs : io.step (.take bytes) = some io') : Inv io' := by
  obtain ⟨hw, hperm, rfl⟩ := take_spec hs
  refine ⟨?_, fun c hc => h.counts c (hperm.mem_iff.mp hc), h.thr_lt, h.placed⟩
  have hlaw := h.law
  rw [hperm.sum_eq]
  show io.waiting - 1 + (bytes :: io.held).length = io.due + io.inFlight.sum
  rw [List.length_cons]
  unfold running at hlaw
  omega

theorem placed_quited (h : io.Placed) : ({ io with quited := true } : Poller).Placed := by
  unfold Placed at h ⊢
  cases hc : io.ctl with
  | idle => exact fun _ => rfl
  | stopPost => exact fun _ => rfl
  | _ => rw [hc] at h; exact h

/-- A message of count `c > 1` is passed on with `c - 1`; the last one sets `io->quited`. -/
theorem quit_eq {bytes : Nat} (h : 0 < bytes ∧ bytes < 256) :
    io.quit bytes = if bytes = 1 then { io with held := io.held.erase bytes, quited := true }
      else { io with held := io.held.erase bytes, queue := (bytes - 1) :: io.queue } := by
  have hb : (bytes + (2 ^ 32 - 1)) % 2 ^ 32 = bytes - 1 := by omega
  unfold quit
  simp only [hb]
  by_cases h1 : bytes = 1
  · rw [if_pos h1, if_neg (by omega)]
  · rw [if_neg h1, if_pos (by omega)]

theorem quit_inv (h : Inv io) {bytes : Nat} (hs : io.step (.quit bytes) = some io') : Inv io' := by
  simp only [step] at hs
  split at hs
  · next hm =>
    have hb := h.counts bytes (List.mem_append_right _ hm)
    rw [quit_eq hb] at hs
    have hlaw := h.law
    unfold running inFlight at hlaw
    rw [List.sum_append] at hlaw
    have hlen : (io.held.erase bytes).length + 1 = io.held.length := by
      rw [List.length_erase_of_mem hm]
      have := List.length_pos_of_mem hm
      omega
    have hsum : bytes + (io.held.erase bytes).sum = io.held.sum := List.sum_erase hm
    by_cases h1 : bytes = 1
    · rw [if_pos h1] at hs
      obtain rfl := Option.some.inj hs
      refine ⟨?_, fun c hc => h.counts c ?_, h.thr_lt, placed_quited h.placed⟩
      · show io.waiting + (io.held.erase bytes).length = io.due + (io.queue ++ io.held.erase bytes).sum
        rw [List.sum_append]
        omega
      · rcases List.mem_append.mp hc with hc | hc
        · exact List.mem_append_left _ hc
        · exact List.mem_append_right _ (List.mem_of_mem_erase hc)
    · rw [if_neg h1] at hs
      obtain rfl := Option.some.inj hs
      refine ⟨?_, fun c hc => ?_, h.thr_lt, h.placed⟩
      · show io.waiting + (io.held.erase bytes).length =
          io.due + ((bytes - 1) :: io.queue ++ io.held.erase bytes).sum
        rw [List.sum_append, List.sum_cons]
        omega
      · rcases List.mem_append.mp hc with hc | hc
        · rcases List.mem_cons.mp hc with rfl | hc
          · omega
          · exact h.counts c (List.mem_append_left _ hc)
        · exact h.counts c (List.mem_append_right _ (List.mem_of_mem_erase hc))
  · cases hs

/-- **One step** keeps the invariant. -/
theorem step_inv (h : Inv io) {l : Label} (hs : io.step l = some io') : Inv io' := by
  cases l with
  | start n =>
    simp only [step] at hs
    split at hs
    · next hc =>
      obtain rfl := Option.some.inj hs
      have hlaw := h.law
      unfold due at hlaw
      rw [hc] at hlaw
      refine ⟨hlaw, h.counts, h.thr_lt, ?_⟩
      show 0 < (if n = 0 then 1 else n.toNat) ∧ (if n = 0 then 1 else n.toNat) < 256
      have hlt := n.toNat_lt
      split
      · decide
      · next hn =>
        have hne : n.toNat ≠ 0 := fun e => hn (UInt8.toNat_inj.mp e)
        omega
    · cases hs
  | stop =>
    simp only [step] at hs
    split at hs
    · next hc =>
      obtain rfl := Option.some.inj hs
      have hlaw := h.law
      have hpl := h.placed
      unfold due at hlaw
      unfold Placed at hpl
      rw [hc] at hlaw hpl
      exact ⟨hlaw, h.counts, h.thr_lt, hpl⟩
    · cases hs
  | go => exact go_inv h hs
  | ret =>
    simp only [step] at hs
    split at hs
    · next hen =>
      obtain rfl := Option.some.inj hs
      have hlaw := h.law
      unfold due at hlaw
      rw [hen.1] at hlaw
      exact ⟨hlaw, h.counts, h.thr_lt, fun _ => hen.2⟩
    · cases hs
  | take bytes => exact take_inv h hs
  | quit bytes => exact quit_inv h hs

theorem run_cons (l : Label) (ls : List Label) :
    io.run (l :: ls) = (io.step l).bind fun io' => io'.run ls := rfl

/-- **A run** keeps the invariant. -/
theorem run_inv (ls : List Label) (h : Inv io) (hs : io.run ls = some io') : Inv io' := by
  induction ls generalizing io with
  | nil =>
    obtain rfl := Option.some.inj hs
    exact h
  | cons l ls ih =>
    rw [run_cons] at hs
    obtain ⟨io₁, h₁, h₂⟩ := Option.bind_eq_some_iff.mp hs
    exact ih (step_inv h h₁) h₂

/-- **Conservation of workers.** In every run from `corepoller_new`, at every point where the
controlling thread is not between changing the pool and storing `io->thr`, the running workers are as
many as `io->thr` and the quit messages in flight count together; without a quit message in flight
they are `io->thr`. Between the two statements the same holds of the value `io->thr` is about to get.
No quit message has the count 0. -/
theorem workers_conserved {ls : List Label} (hrun : corepollerNew.run ls = some io) :
    (io.updating = false → io.running = io.thr + io.inFlight.sum) ∧
    (io.updating = false → io.inFlight = [] → io.running = io.thr) ∧
    io.running = io.due + io.inFlight.sum ∧
    ∀ c ∈ io.inFlight, c ≠ 0 := by
  have h := run_inv ls inv_new hrun
  have hlaw : io.updating = false → io.running = io.thr + io.inFlight.sum := by
    intro hu
    rw [← due_eq io hu]
    exact h.law
  refine ⟨hlaw, fun hu hnil => ?_, h.law, fun c hc => ?_⟩
  · have := hlaw hu
    rw [hnil, List.sum_nil] at this
    exact this
  · have := h.counts c hc
    omega

/-- Three workers, shrunk to one with a message of count 2 that is half used up, and stopped. -/
def shrinkAndStop : List Label :=
  [.start 3, .go, .go, .go, .go, .go, .go, .go, .go, .go, .start 1, .go, .go, .go,
    .take 2, .quit 2, .stop, .go, .go]

theorem workers_conserved_shrink :
    ∃ io, corepollerNew.run shrinkAndStop = some io ∧ io.inFlight = [1, 1] ∧
      (io.updating = false → io.running = io.thr + io.inFlight.sum) := by
  refine ⟨(corepollerNew.run shrinkAndStop).get (by decide), by simp, by decide, ?_⟩
  exact (workers_conserved (Option.some_get _).symm).1

end Poller

end HoNet.CorePoller
