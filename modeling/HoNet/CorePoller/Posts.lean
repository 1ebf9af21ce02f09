import HoNet.CorePoller.Stop

/-!
# Messages in the completion port of `corepoller.c`

`corepoller_post` tests `io->thr` and then puts the message into the port, which hands each of its
packets to one worker. The same message may be posted again. That the port hands out its packets in the
order in which they were put, quit messages and others alike, is documented of the system and stands
here as the assumption `inOrder`. A worker that handles a message waits for no other. The controlling
thread and the workers that quit are those of `Poller`, whose queue is empty here: what they put goes to
the end of the port. `iocp::post` and `iocp::run` of `poller.cpp` are the same.

* `Port.step_view` — without the messages the steps are those of `Poller`.
* `Port.Inv` — every message that was put is in the port, being handled or handled.
* `stop_drains` — what `corepoller_stop_thread` waits for.
-/

namespace HoNet.CorePoller

/-- A packet of the port: `&io->quit` with its count, or a message. -/
inductive Packet where
  | quit (bytes : Nat)
  | msg (m : Nat)
  deriving DecidableEq, Repr

def Packet.quit? : Packet → Option Nat
  | .quit bytes => some bytes
  | .msg _ => none

def Packet.msg? : Packet → Option Nat
  | .quit _ => none
  | .msg m => some m

/-- The poller with its port, the oldest packet first. -/
structure Port where
  io : Poller
  queue : List Packet
  /-- The messages that workers handle. -/
  busy : List Nat
  /-- The messages of calls of `corepoller_post` behind the test of `io->thr`. -/
  posting : List Nat
  /-- The messages in the order in which they were put, and in which they were handed out. -/
  posted : List Nat
  taken : List Nat
  handled : List Nat
  /-- The messages for which `corepoller_post` returned -1. -/
  refused : List Nat
  deriving DecidableEq, Repr

namespace Port

def new : Port := ⟨corepollerNew, [], [], [], [], [], [], []⟩

inductive Event where
  /-- A step of the controlling thread, or of a worker that has a quit message. -/
  | io (l : Label)
  /-- A worker dequeues a packet, by its place in the port, and returns from the handler of a message. -/
  | take (i : Nat)
  | done (m : Nat)
  /-- `corepoller_post`: the test, and `PostQueuedCompletionStatus`. -/
  | post (m : Nat)
  | put (m : Nat)
  deriving DecidableEq, Repr

/-- The port hands out the oldest packet first. -/
def Event.inOrder : Event → Prop
  | .take i => i = 0
  | _ => True

instance : (e : Event) → Decidable e.inOrder
  | .take i => inferInstanceAs (Decidable (i = 0))
  | .io _ | .done _ | .post _ | .put _ => inferInstanceAs (Decidable True)

/-- One step; one that is not enabled has none. -/
def step (p : Port) : Event → Option Port
  | .io l => (p.io.step l).map fun io =>
    { p with io := { io with queue := [] }, queue := p.queue ++ io.queue.map .quit }
  | .take i =>
    if p.busy.length < p.io.waiting then
      match p.queue[i]? with
      | none => none
      | some (.quit bytes) => some { p with
          io := { p.io with waiting := p.io.waiting - 1, held := bytes :: p.io.held }
          queue := p.queue.eraseIdx i }
      | some (.msg m) => some { p with
          queue := p.queue.eraseIdx i, busy := m :: p.busy, taken := p.taken ++ [m] }
    else none
  | .done m =>
    if m ∈ p.busy then some { p with busy := p.busy.erase m, handled := p.handled ++ [m] } else none
  | .post m =>
    if p.io.thr = 0 then some { p with refused := p.refused ++ [m] }
    else some { p with posting := m :: p.posting }
  | .put m =>
    if m ∈ p.posting then
      some { p with
        posting := p.posting.erase m, posted := p.posted ++ [m], queue := p.queue ++ [.msg m] }
    else none

def run (p : Port) (es : List Event) : Option Port := es.foldlM step p

theorem run_cons {p : Port} (e : Event) (es : List Event) :
    p.run (e :: es) = (p.step e).bind fun p' => p'.run es := rfl

/-- The quit messages and the messages in the port. -/
def quits (p : Port) : List Nat := p.queue.filterMap Packet.quit?

def msgs (p : Port) : List Nat := p.queue.filterMap Packet.msg?

/-- The poller without the messages. -/
def view (p : Port) : Poller := { p.io with queue := p.quits }

end Port

/-! ## Without the messages -/

namespace Poller

/-- The same but for the order of the quit messages in the port. -/
def Same (a b : Poller) : Prop := ∃ q, a.queue.Perm q ∧ b = { a with queue := q }

variable {a b io io' : Poller}

theorem Same.refl (a : Poller) : Same a a := ⟨a.queue, .refl _, rfl⟩

theorem Same.inFlight (h : Same a b) : a.inFlight.Perm b.inFlight := by
  obtain ⟨q, hq, rfl⟩ := h
  exact hq.append_right a.held

theorem Same.inv (h : Same a b) (hinv : Inv a) : Inv b := by
  have hperm := h.inFlight
  obtain ⟨q, hq, rfl⟩ := h
  refine ⟨?_, fun c hc => hinv.counts c (hperm.mem_iff.mpr hc), hinv.thr_lt, hinv.placed⟩
  rw [← hperm.sum_eq]
  exact hinv.law

theorem Same.stopping (h : Same a b) (hs : Stopping a) : Stopping b := by
  have hperm := h.inFlight
  obtain ⟨q, hq, rfl⟩ := h
  refine ⟨hs.ctl, ?_, fun hne => hs.unset fun hnil => ?_, fun hc => ?_⟩
  · rw [← hperm.length_eq]
    exact hs.single
  · rw [hnil] at hperm
    exact hne hperm.symm.eq_nil
  · obtain ⟨hnil, hflag⟩ := hs.posting hc
    rw [hnil] at hperm
    exact ⟨hperm.symm.eq_nil, hflag⟩

/-- With other messages in the port a step puts the same packets. -/
theorem step_frame {l : Label} (hq : io.queue = []) (hs : io.step l = some io') (q : List Nat) :
    ({ io with queue := q } : Poller).step l = some { io' with queue := io'.queue ++ q } := by
  cases l with
  | start n | ret =>
    simp only [step] at hs ⊢
    split at hs
    · next hc =>
      obtain rfl := Option.some.inj hs
      rw [if_pos hc, hq]
      rfl
    · cases hs
  | stop =>
    simp only [step] at hs ⊢
    split at hs
    · next hc =>
      obtain rfl := Option.some.inj hs
      rw [if_pos hc, hq]
      rfl
    · cases hs
  | go =>
    simp only [step, go] at hs ⊢
    cases hc : io.ctl with
    | idle | stopWait =>
      rw [hc] at hs
      cases hs
    | startLoop n | startPost n | stopPost =>
      rw [hc] at hs
      simp only at hs ⊢
      split at hs
      · next hlt =>
        obtain rfl := Option.some.inj hs
        rw [if_pos hlt, hq]
        rfl
      · next hge =>
        obtain rfl := Option.some.inj hs
        rw [if_neg hge, hq]
        rfl
    | startInc n | startStore n | stopStore =>
      rw [hc] at hs
      obtain rfl := Option.some.inj hs
      rw [hq]
      rfl
  | take bytes =>
    simp only [step, hq] at hs
    rw [if_neg fun h => List.not_mem_nil h.1] at hs
    cases hs
  | quit bytes =>
    simp only [step] at hs ⊢
    split at hs
    · next hm =>
      obtain rfl := Option.some.inj hs
      rw [if_pos hm]
      simp only [quit]
      split <;> rw [hq] <;> rfl
    · cases hs

/-- A step with an empty port ends no wait. -/
theorem waiting_le {l : Label} (hq : io.queue = []) (hs : io.step l = some io') :
    io.waiting ≤ io'.waiting := by
  cases l with
  | start n | stop | ret =>
    simp only [step] at hs
    split at hs
    · obtain rfl := Option.some.inj hs
      exact le_rfl
    · cases hs
  | go =>
    simp only [step, go] at hs
    cases hc : io.ctl with
    | idle | stopWait =>
      rw [hc] at hs
      cases hs
    | startLoop n =>
      rw [hc] at hs
      simp only at hs
      split at hs
      · obtain rfl := Option.some.inj hs
        exact Nat.le_succ _
      · obtain rfl := Option.some.inj hs
        exact le_rfl
    | startPost n | stopPost =>
      rw [hc] at hs
      simp only at hs
      split at hs <;>
        · obtain rfl := Option.some.inj hs
          exact le_rfl
    | startInc n | startStore n | stopStore =>
      rw [hc] at hs
      obtain rfl := Option.some.inj hs
      exact le_rfl
  | take bytes =>
    simp only [step, hq] at hs
    rw [if_neg fun h => List.not_mem_nil h.1] at hs
    cases hs
  | quit bytes =>
    simp only [step] at hs
    split at hs
    · obtain rfl := Option.some.inj hs
      simp only [quit]
      split <;> exact le_rfl
    · cases hs

end Poller

namespace Port

variable {p p' : Port}

theorem filterMap_quit (q : List Nat) : (q.map Packet.quit).filterMap Packet.quit? = q := by
  rw [List.filterMap_map]
  exact List.filterMap_some

theorem filterMap_quit_msg (q : List Nat) : (q.map Packet.quit).filterMap Packet.msg? = [] := by
  rw [List.filterMap_map, List.filterMap_eq_nil_iff]
  exact fun _ _ => rfl

/-- What a worker can find at the front of the port. -/
theorem take_cases (hs : p.step (.take 0) = some p') :
    p.busy.length < p.io.waiting ∧
      ((∃ bytes q, p.queue = .quit bytes :: q ∧ p' = { p with
          io := { p.io with waiting := p.io.waiting - 1, held := bytes :: p.io.held }, queue := q }) ∨
        ∃ m q, p.queue = .msg m :: q ∧
          p' = { p with queue := q, busy := m :: p.busy, taken := p.taken ++ [m] }) := by
  simp only [step] at hs
  split at hs
  · next hlt =>
    refine ⟨hlt, ?_⟩
    cases hq : p.queue with
    | nil =>
      rw [hq] at hs
      cases hs
    | cons x q =>
      rw [hq] at hs
      cases x with
      | quit bytes => exact .inl ⟨bytes, q, rfl, (Option.some.inj hs).symm⟩
      | msg m => exact .inr ⟨m, q, rfl, (Option.some.inj hs).symm⟩
  · cases hs

/-- **Without the messages** a step is one of `Poller`, or none. -/
theorem step_view {e : Event} (ho : e.inOrder) (hq : p.io.queue = []) (hs : p.step e = some p') :
    p'.io.queue = [] ∧ (p'.view = p.view ∨
      ∃ l io', (l = .ret → e = .io .ret) ∧ p.view.step l = some io' ∧ io'.Same p'.view) := by
  cases e with
  | io l =>
    simp only [step] at hs
    obtain ⟨io', hio, rfl⟩ := Option.map_eq_some_iff.mp hs
    refine ⟨rfl, .inr ⟨l, _, fun h => by rw [h], Poller.step_frame hq hio p.quits, ?_⟩⟩
    refine ⟨p.quits ++ io'.queue, List.perm_append_comm, ?_⟩
    simp only [view, quits, List.filterMap_append, filterMap_quit]
  | take i =>
    obtain rfl : i = 0 := ho
    obtain ⟨hlt, ⟨bytes, q, hqueue, rfl⟩ | ⟨m, q, hqueue, rfl⟩⟩ := take_cases hs
    · refine ⟨hq, .inr ⟨.take bytes, _, by rintro ⟨⟩, ?_, Poller.Same.refl _⟩⟩
      have hquits : p.quits = bytes :: q.filterMap Packet.quit? := by
        rw [quits, hqueue]
        rfl
      have hen : bytes ∈ p.view.queue ∧ 0 < p.view.waiting := by
        refine ⟨?_, Nat.zero_lt_of_lt hlt⟩
        show bytes ∈ p.quits
        rw [hquits]
        exact List.mem_cons_self
      have herase : p.view.queue.erase bytes = q.filterMap Packet.quit? := by
        show p.quits.erase bytes = _
        rw [hquits, List.erase_cons_head]
      rw [Poller.step, if_pos hen, herase]
      rfl
    · refine ⟨hq, .inl ?_⟩
      simp only [view, quits, hqueue]
      rfl
  | done m =>
    simp only [step] at hs
    split at hs
    · obtain rfl := Option.some.inj hs
      exact ⟨hq, .inl rfl⟩
    · cases hs
  | post m =>
    simp only [step] at hs
    split at hs <;>
      · obtain rfl := Option.some.inj hs
        exact ⟨hq, .inl rfl⟩
  | put m =>
    simp only [step] at hs
    split at hs
    · obtain rfl := Option.some.inj hs
      refine ⟨hq, .inl ?_⟩
      simp only [view, quits, List.filterMap_append]
      simp [Packet.quit?]
    · cases hs

/-! ## The invariant -/

structure Inv (p : Port) : Prop where
  empty : p.io.queue = []
  poller : p.view.Inv
  /-- What was put was handed out, in order, or is in the port. -/
  order : p.posted = p.taken ++ p.msgs
  once : p.taken.Perm (p.handled ++ p.busy)
  room : p.busy.length ≤ p.io.waiting

theorem inv_new : Inv new where
  empty := rfl
  poller := Poller.inv_new
  order := rfl
  once := .refl _
  room := le_rfl

/-- **One step** keeps the invariant. -/
theorem Inv.step {e : Event} (h : Inv p) (ho : e.inOrder) (hs : p.step e = some p') : Inv p' := by
  obtain ⟨hempty, hview⟩ := step_view ho h.empty hs
  have hpoller : p'.view.Inv := by
    rcases hview with heq | ⟨l, io', -, hio, hsame⟩
    · rw [heq]
      exact h.poller
    · exact hsame.inv (Poller.step_inv h.poller hio)
  cases e with
  | io l =>
    simp only [Port.step] at hs
    obtain ⟨io', hio, rfl⟩ := Option.map_eq_some_iff.mp hs
    have hle : p.io.waiting ≤ io'.waiting := Poller.waiting_le h.empty hio
    refine ⟨hempty, hpoller, ?_, h.once, h.room.trans hle⟩
    show p.posted = p.taken ++ (p.queue ++ io'.queue.map Packet.quit).filterMap Packet.msg?
    rw [List.filterMap_append, filterMap_quit_msg, List.append_nil]
    exact h.order
  | take i =>
    obtain rfl : i = 0 := ho
    obtain ⟨hlt, ⟨bytes, q, hqueue, rfl⟩ | ⟨m, q, hqueue, rfl⟩⟩ := take_cases hs
    · refine ⟨hempty, hpoller, ?_, h.once, Nat.le_sub_one_of_lt hlt⟩
      have horder := h.order
      rw [msgs, hqueue] at horder
      exact horder
    · refine ⟨hempty, hpoller, ?_, ?_, hlt⟩
      · have horder := h.order
        rw [msgs, hqueue] at horder
        show p.posted = p.taken ++ [m] ++ q.filterMap Packet.msg?
        rw [List.append_assoc]
        exact horder
      · show (p.taken ++ [m]).Perm (p.handled ++ m :: p.busy)
        refine (h.once.append_right [m]).trans ?_
        rw [List.append_assoc]
        exact (List.perm_append_singleton m p.busy).append_left p.handled
  | done m =>
    simp only [Port.step] at hs
    split at hs
    · next hm =>
      obtain rfl := Option.some.inj hs
      refine ⟨hempty, hpoller, h.order, ?_, (List.length_erase_le).trans h.room⟩
      show p.taken.Perm (p.handled ++ [m] ++ p.busy.erase m)
      rw [List.append_assoc, List.singleton_append]
      exact h.once.trans ((List.perm_cons_erase hm).append_left p.handled)
    · cases hs
  | post m =>
    simp only [Port.step] at hs
    split at hs <;>
      · obtain rfl := Option.some.inj hs
        exact ⟨hempty, hpoller, h.order, h.once, h.room⟩
  | put m =>
    simp only [Port.step] at hs
    split at hs
    · obtain rfl := Option.some.inj hs
      refine ⟨hempty, hpoller, ?_, h.once, h.room⟩
      show p.posted ++ [m] = p.taken ++ (p.queue ++ [Packet.msg m]).filterMap Packet.msg?
      rw [List.filterMap_append, ← List.append_assoc, h.order]
      rfl
    · cases hs

theorem Inv.run (es : List Event) (h : Inv p) (ho : ∀ e ∈ es, e.inOrder) (hs : p.run es = some p') :
    Inv p' := by
  induction es generalizing p with
  | nil =>
    obtain rfl := Option.some.inj hs
    exact h
  | cons e es ih =>
    rw [run_cons] at hs
    obtain ⟨p₁, h₁, h₂⟩ := Option.bind_eq_some_iff.mp hs
    exact ih (h.step (ho e List.mem_cons_self) h₁) (fun e' he' => ho e' (List.mem_cons_of_mem _ he')) h₂

/-! ## What a stop waits for -/

/-- The packets in front of the first quit message are messages. -/
def ahead (p : Port) : List Nat := (p.queue.takeWhile fun x => x.quit? = none).filterMap Packet.msg?

/-- Behind a quit message nothing comes in front of it. -/
theorem takeWhile_append_of_quit {q q' : List Packet} (h : q.filterMap Packet.quit? ≠ []) :
    (q ++ q').takeWhile (fun x => x.quit? = none) = q.takeWhile fun x => x.quit? = none := by
  induction q with
  | nil => exact absurd rfl h
  | cons x q ih =>
    cases x with
    | quit bytes => rfl
    | msg m => exact congrArg (Packet.msg m :: ·) (ih h)

/-- The call of `corepoller_stop_thread` that began when `old` had been put: its quit message is behind
`old`, and has been handed out behind `old`. -/
def Behind (old : List Nat) (p : Port) : Prop :=
  (p.io.ctl = .stopPost ∧ old <+: p.posted) ∨
    (p.io.ctl ≠ .stopPost ∧ p.quits ≠ [] ∧ old <+: p.taken ++ p.ahead) ∨
    (p.io.ctl ≠ .stopPost ∧ p.quits = [] ∧ old <+: p.taken)

structure Drains (old : List Nat) (p : Port) : Prop where
  inv : Inv p
  stopping : p.view.Stopping
  behind : Behind old p
  /-- The call found workers. -/
  workers : p.io.ctl = .stopPost → 0 < p.io.thr

variable {old : List Nat}

/-- The controlling thread goes on, or a worker passes the quit message on. -/
theorem Drains.io {l : Label} (h : Drains old p) (hl : l ≠ .ret) (hs : p.step (.io l) = some p') :
    Behind old p' ∧ (p'.io.ctl = .stopPost → 0 < p'.io.thr) := by
  simp only [Port.step] at hs
  obtain ⟨io', hio, rfl⟩ := Option.map_eq_some_iff.mp hs
  have hempty := h.inv.empty
  have hctl := h.stopping.ctl
  cases l with
  | start n | stop =>
    simp only [Poller.step] at hio
    split at hio
    · next hidle =>
      have hctl' : p.io.ctl = .stopPost ∨ p.io.ctl = .stopStore ∨ p.io.ctl = .stopWait := hctl
      rw [hidle] at hctl'
      rcases hctl' with hc | hc | hc <;> cases hc
    · cases hio
  | ret => exact absurd rfl hl
  | take bytes =>
    simp only [Poller.step, hempty] at hio
    rw [if_neg fun hm => List.not_mem_nil hm.1] at hio
    cases hio
  | go =>
    simp only [Poller.step, Poller.go] at hio
    rcases hctl with hc | hc | hc
    · have hc' : p.io.ctl = .stopPost := hc
      have hthr := h.workers hc'
      rw [hc'] at hio
      simp only [if_pos hthr, hempty] at hio
      obtain rfl := Option.some.inj hio
      refine ⟨.inr (.inl ⟨by rintro ⟨⟩, ?_, ?_⟩), by rintro ⟨⟩⟩
      · simp only [quits, List.filterMap_append, filterMap_quit]
        exact List.append_ne_nil_of_right_ne_nil _ (List.cons_ne_nil _ _)
      · -- no quit message is in front of the one that was posted
        have hnil : p.quits = [] := by
          have hflight := (h.stopping.posting hc).1
          exact (List.append_eq_nil_iff.mp hflight).1
        have hold : old <+: p.posted := by
          rcases h.behind with ⟨-, hold⟩ | ⟨hne, -⟩ | ⟨hne, -⟩
          · exact hold
          · exact absurd hc' hne
          · exact absurd hc' hne
        have hall : ∀ x ∈ p.queue, decide (x.quit? = none) = true := fun x hx =>
          decide_eq_true ((List.filterMap_eq_nil_iff.mp hnil) x hx)
        have hahead : ahead { p with queue := p.queue ++ [Packet.quit p.io.thr] } = p.msgs := by
          simp only [ahead, msgs, List.takeWhile_append_of_pos hall]
          simp [Packet.quit?]
        rw [h.inv.order, ← hahead] at hold
        exact hold
    · have hc' : p.io.ctl = .stopStore := hc
      rw [hc'] at hio
      obtain rfl := Option.some.inj hio
      refine ⟨?_, by rintro ⟨⟩⟩
      rcases h.behind with ⟨heq, -⟩ | ⟨-, hne, hold⟩ | ⟨-, hnil, hold⟩
      · rw [hc'] at heq
        cases heq
      · refine .inr (.inl ⟨by rintro ⟨⟩, ?_, ?_⟩)
        · simp only [quits, hempty, List.map_nil, List.append_nil]
          exact hne
        · simp only [ahead, hempty, List.map_nil, List.append_nil]
          exact hold
      · refine .inr (.inr ⟨by rintro ⟨⟩, ?_, hold⟩)
        simp only [quits, hempty, List.map_nil, List.append_nil]
        exact hnil
    · have hc' : p.io.ctl = .stopWait := hc
      rw [hc'] at hio
      cases hio
  | quit bytes =>
    simp only [Poller.step] at hio
    split at hio
    · next hm =>
      have hquit : p.io.quit bytes = io' := Option.some.inj hio
      have hheld : bytes ∈ p.view.inFlight := List.mem_append_right _ hm
      have hctl_eq : io'.ctl = p.io.ctl := by
        rw [← hquit]
        simp only [Poller.quit]
        split <;> rfl
      have hpost : p.io.ctl ≠ .stopPost := by
        intro hc
        rw [(h.stopping.posting hc).1] at hheld
        cases hheld
      have hnone : p.quits = [] := by
        -- the only quit message is in the hands of the worker
        have hsingle := h.stopping.single
        have hpos : 0 < p.io.held.length := List.length_pos_of_mem hm
        have hlen : (p.quits ++ p.io.held).length ≤ 1 := hsingle
        rw [List.length_append] at hlen
        exact List.length_eq_zero_iff.mp (by omega)
      have hold : old <+: p.taken := by
        rcases h.behind with ⟨heq, -⟩ | ⟨-, hne, -⟩ | ⟨-, -, hold⟩
        · exact absurd heq hpost
        · exact absurd hnone hne
        · exact hold
      refine ⟨?_, fun hc => absurd (hctl_eq.symm.trans hc) hpost⟩
      by_cases hq : (p.queue ++ io'.queue.map Packet.quit).filterMap Packet.quit? = []
      · exact .inr (.inr ⟨fun hc => hpost (hctl_eq.symm.trans hc), hq, hold⟩)
      · exact .inr (.inl ⟨fun hc => hpost (hctl_eq.symm.trans hc), hq,
          hold.trans (List.prefix_append _ _)⟩)
    · cases hio

theorem Drains.take (h : Drains old p) (hs : p.step (.take 0) = some p') : Behind old p' := by
  obtain ⟨hlt, ⟨bytes, q, hqueue, rfl⟩ | ⟨m, q, hqueue, rfl⟩⟩ := take_cases hs
  · have hquits : p.quits = bytes :: q.filterMap Packet.quit? := by
      rw [quits, hqueue]
      rfl
    have hpost : p.io.ctl ≠ .stopPost := by
      intro hc
      have hnil := (List.append_eq_nil_iff.mp (h.stopping.posting hc).1).1
      have hnil' : p.quits = [] := hnil
      rw [hquits] at hnil'
      cases hnil'
    have hrest : q.filterMap Packet.quit? = [] := by
      have hlen : (p.quits ++ p.io.held).length ≤ 1 := h.stopping.single
      rw [hquits, List.length_append, List.length_cons] at hlen
      exact List.length_eq_zero_iff.mp (by omega)
    refine .inr (.inr ⟨hpost, hrest, ?_⟩)
    rcases h.behind with ⟨heq, -⟩ | ⟨-, -, hold⟩ | ⟨-, hnil, -⟩
    · exact absurd heq hpost
    · have hahead : p.ahead = [] := by
        rw [ahead, hqueue]
        rfl
      rwa [hahead, List.append_nil] at hold
    · rw [hquits] at hnil
      cases hnil
  · have hquits : p.quits = q.filterMap Packet.quit? := by
      rw [quits, hqueue]
      rfl
    rcases h.behind with ⟨heq, hold⟩ | ⟨hne, hsome, hold⟩ | ⟨hne, hnil, hold⟩
    · exact .inl ⟨heq, hold⟩
    · refine .inr (.inl ⟨hne, fun hnil => hsome (hquits.trans hnil), ?_⟩)
      have hahead : p.ahead =
          m :: (q.takeWhile fun x => x.quit? = none).filterMap Packet.msg? := by
        rw [ahead, hqueue]
        rfl
      rw [hahead] at hold
      show old <+: p.taken ++ [m] ++ _
      rw [List.append_assoc]
      exact hold
    · exact .inr (.inr ⟨hne, hquits.symm.trans hnil, hold.trans (List.prefix_append _ _)⟩)

theorem Drains.step {e : Event} (h : Drains old p) (he : e ≠ .io .ret) (ho : e.inOrder)
    (hs : p.step e = some p') : Drains old p' := by
  have hinv' := h.inv.step ho hs
  have hstopping : p'.view.Stopping := by
    obtain ⟨-, heq | ⟨l, io', hl, hio, hsame⟩⟩ := step_view ho h.inv.empty hs
    · rw [heq]
      exact h.stopping
    · exact hsame.stopping (h.stopping.step h.inv.poller (fun hret => he (hl hret)) hio)
  cases e with
  | io l =>
    obtain ⟨hb, hw⟩ := h.io (fun hret => he (by rw [hret])) hs
    exact ⟨hinv', hstopping, hb, hw⟩
  | take i =>
    obtain rfl : i = 0 := ho
    refine ⟨hinv', hstopping, h.take hs, ?_⟩
    obtain ⟨-, ⟨bytes, q, -, rfl⟩ | ⟨m, q, -, rfl⟩⟩ := take_cases hs
    · exact h.workers
    · exact h.workers
  | done m =>
    simp only [Port.step] at hs
    split at hs
    · obtain rfl := Option.some.inj hs
      exact ⟨hinv', hstopping, h.behind, h.workers⟩
    · cases hs
  | post m =>
    simp only [Port.step] at hs
    split at hs <;>
      · obtain rfl := Option.some.inj hs
        exact ⟨hinv', hstopping, h.behind, h.workers⟩
  | put m =>
    simp only [Port.step] at hs
    split at hs
    · obtain rfl := Option.some.inj hs
      refine ⟨hinv', hstopping, ?_, h.workers⟩
      have hquits : (p.queue ++ [Packet.msg m]).filterMap Packet.quit? = p.quits := by
        rw [List.filterMap_append]
        exact List.append_nil _
      rcases h.behind with ⟨heq, hold⟩ | ⟨hne, hsome, hold⟩ | ⟨hne, hnil, hold⟩
      · exact .inl ⟨heq, hold.trans (List.prefix_append _ _)⟩
      · refine .inr (.inl ⟨hne, ?_, ?_⟩)
        · exact fun hnil => hsome (hquits.symm.trans hnil)
        · simp only [ahead, takeWhile_append_of_quit hsome]
          exact hold
      · exact .inr (.inr ⟨hne, hquits.trans hnil, hold⟩)
    · cases hs

theorem Drains.run (es : List Event) (h : Drains old p) (he : Event.io .ret ∉ es)
    (ho : ∀ e ∈ es, e.inOrder) (hs : p.run es = some p') : Drains old p' := by
  induction es generalizing p with
  | nil =>
    obtain rfl := Option.some.inj hs
    exact h
  | cons e es ih =>
    rw [run_cons] at hs
    rw [List.mem_cons, not_or] at he
    obtain ⟨p₁, h₁, h₂⟩ := Option.bind_eq_some_iff.mp hs
    exact ih (h.step (Ne.symm he.1) (ho e List.mem_cons_self) h₁) he.2
      (fun e' he' => ho e' (List.mem_cons_of_mem _ he')) h₂

/-- **What a stop waits for.** The port hands out its packets in order, and `corepoller_stop_thread` is
called while workers run, no quit message is in flight and `io->quited` is not set. When it may return,
nobody handles a message, and the messages handled are those that had been put before the call and some
of those put during it; the port holds the others, and nothing else. -/
theorem stop_drains {es es' : List Event} {p₁ : Port} (ho : ∀ e ∈ es ++ es', e.inOrder)
    (hrun : new.run es = some p) (hcall : p.step (.io .stop) = some p₁)
    (hflight : p.view.inFlight = []) (hthr : 0 < p.io.thr) (hflag : p.io.quited = false)
    (hret : Event.io .ret ∉ es') (hrun' : p₁.run es' = some p')
    (hwait : p'.io.ctl = .stopWait) (hquited : p'.io.quited = true) :
    p'.view.running = 0 ∧ p'.busy = [] ∧ ∃ early late, p'.posted = p.posted ++ early ++ late ∧
      p'.handled.Perm (p.posted ++ early) ∧ p'.queue = late.map .msg := by
  have hinv := inv_new.run es (fun e he => ho e (List.mem_append_left _ he)) hrun
  have hinv₁ := hinv.step (e := .io .stop) trivial hcall
  have hidle : p.io.ctl = .idle := by
    by_contra hc
    rw [step, Poller.step, if_neg hc] at hcall
    cases hcall
  have hp₁ : p₁ = { p with io := { p.io with queue := [], ctl := .stopPost } } := by
    rw [step, Poller.step, if_pos hidle, Option.map_some, hinv.empty, List.map_nil, List.append_nil]
      at hcall
    exact (Option.some.inj hcall).symm
  have hdrains : Drains p.posted p₁ := by
    subst hp₁
    refine ⟨hinv₁, ⟨.inl rfl, ?_, ?_, ?_⟩, .inl ⟨rfl, List.prefix_refl _⟩, fun _ => hthr⟩
    · show p.view.inFlight.length ≤ 1
      rw [hflight]
      decide
    · exact fun hne => absurd hflight hne
    · exact fun _ => ⟨hflight, .inr hflag⟩
  have hend := hdrains.run es' hret (fun e he => ho e (List.mem_append_right _ he)) hrun'
  have hinv' := hend.inv
  have hnil : p'.view.inFlight = [] := by
    by_contra hne
    have hunset := hend.stopping.unset hne
    have hset : p'.view.quited = true := hquited
    rw [hunset] at hset
    cases hset
  obtain ⟨hquits, hheld⟩ := List.append_eq_nil_iff.mp hnil
  have hrunning : p'.view.running = 0 := by
    have hlaw := hinv'.poller.law
    have hpl := hinv'.poller.placed
    have hctl : p'.view.ctl = .stopWait := hwait
    unfold Poller.due at hlaw
    unfold Poller.Placed at hpl
    rw [hctl] at hlaw hpl
    simp only at hlaw hpl
    rw [hnil, List.sum_nil, hpl] at hlaw
    exact hlaw
  have hbusy : p'.busy = [] := by
    have hroom := hinv'.room
    have hwaiting : p'.io.waiting + p'.io.held.length = 0 := hrunning
    exact List.length_eq_zero_iff.mp (by omega)
  obtain ⟨early, hearly⟩ : p.posted <+: p'.taken := by
    rcases hend.behind with ⟨hc, -⟩ | ⟨-, hne, -⟩ | ⟨-, -, hold⟩
    · rw [hwait] at hc
      cases hc
    · exact absurd hquits hne
    · exact hold
  refine ⟨hrunning, hbusy, early, p'.msgs, ?_, ?_, ?_⟩
  · rw [hearly]
    exact hinv'.order
  · have honce := hinv'.once
    rw [hbusy, List.append_nil, ← hearly] at honce
    exact honce.symm
  · have hpackets : ∀ q : List Packet, q.filterMap Packet.quit? = [] →
        q = (q.filterMap Packet.msg?).map Packet.msg := by
      intro q hq
      induction q with
      | nil => rfl
      | cons x q ih =>
        cases x with
        | quit bytes => cases hq
        | msg m => exact congrArg (Packet.msg m :: ·) (ih hq)
    exact hpackets p'.queue hquits

/-- Two workers; one message is handled, one waits in the port, and one is past the test of `io->thr`
when the stop begins. -/
def working : List Event :=
  [.io (.start 2), .io .go, .io .go, .io .go, .io .go, .io .go, .io .go, .io .go, .post 1, .put 1,
    .take 0, .post 2, .put 2, .post 3]

/-- Both workers quit, and the third message is put then. -/
def stopped : List Event :=
  [.io .go, .io .go, .done 1, .take 0, .take 0, .io (.quit 2), .done 2, .take 0, .io (.quit 1), .put 3,
    .post 4]

def atWork : Port :=
  ⟨⟨2, false, [], 2, [], .idle⟩, [.msg 2], [1], [3], [1, 2], [1], [], []⟩

def drained : Port :=
  ⟨⟨0, true, [], 0, [], .stopWait⟩, [.msg 3], [], [], [1, 2, 3], [1, 2], [1, 2], [4]⟩

theorem atWork_reached : new.run working = some atWork := by decide

/-- The third message was accepted and stays in the port. -/
theorem stop_drains_late :
    ∃ p₁, new.run working = some atWork ∧ atWork.step (.io .stop) = some p₁ ∧
      p₁.run stopped = some drained ∧ drained.queue = [.msg 3] ∧
      ∃ early late, drained.posted = atWork.posted ++ early ++ late ∧
        drained.handled.Perm (atWork.posted ++ early) ∧ drained.queue = late.map .msg := by
  have hcall : atWork.step (.io .stop) =
      some { atWork with io := { atWork.io with ctl := .stopPost } } := by decide
  have hstop : Port.run { atWork with io := { atWork.io with ctl := .stopPost } } stopped =
      some drained := by decide
  exact ⟨_, atWork_reached, hcall, hstop, rfl, (stop_drains (by decide) atWork_reached hcall (by decide)
    (by decide) rfl (by decide) hstop rfl rfl).2.2⟩

end Port

end HoNet.CorePoller
