import HoNet.Timer.Refine
import Mathlib.Data.List.Infix

/-!
# What the timer does to each single timer

The history of the flat timer list is a sequence of elementary events (`Hist`). From it we read
off the fate of one timer: it runs at most once, only in the tick in which the clock becomes its
expiry for the first time after its addition, never after it was deleted, and it does run in that
tick if it was not deleted; timers of one tick run in the order of their addition. Through
`runWheel_refines` this is the fate of every timer on the wheel.
-/

namespace HoNet.Timer

/-! ## Reading a history -/

def Event.isAdd : Event → Bool
  | .add _ _ _ => true
  | _ => false

/-- A begin or an end of `timer_tick`. -/
def Event.isClock : Event → Bool
  | .tick _ => true
  | .tock => true
  | _ => false

/-- The timer an event is about. -/
def Event.node? : Event → Option TimerNode
  | .add n _ _ => some n
  | .del n => some n
  | .run n => some n
  | _ => none

/-- `timer->time` after a history. -/
def clock (L : List Event) : Nat :=
  L.foldl (fun c e => match e with | .tick t => t | _ => c) 0

theorem clock_append (L : List Event) (e : Event) :
    clock (L ++ [e]) = match e with | .tick t => t | _ => clock L := by
  simp [clock]

/-- `n` was added and has since been neither deleted nor run, and its tick has not begun. -/
def Waiting (L : List Event) (n : TimerNode) : Prop :=
  ∃ P Q t wait, L = P ++ .add n t wait :: Q ∧ .tick n.expire ∉ Q ∧ .del n ∉ Q ∧ .run n ∉ P ++ Q

/-- `n` was added, its tick has begun and not ended, and it was neither deleted nor run; it is the
first time since the addition that the clock became its expiry. -/
def Due (L : List Event) (n : TimerNode) : Prop :=
  ∃ P Q R t wait, L = P ++ .add n t wait :: Q ++ .tick n.expire :: R ∧
    .tick n.expire ∉ Q ∧ (∀ e ∈ R, e.isClock = false) ∧ .del n ∉ Q ++ R ∧ .run n ∉ P ++ Q ++ R

/-- Splitting an extended history at one of its events. -/
theorem append_singleton_split {L A B : List Event} {e x : Event}
    (h : L ++ [e] = A ++ x :: B) :
    (A = L ∧ x = e ∧ B = []) ∨ ∃ B', B = B' ++ [e] ∧ L = A ++ x :: B' := by
  rcases B.eq_nil_or_concat with rfl | ⟨B', y, rfl⟩
  · obtain ⟨h₁, h₂⟩ := List.append_inj' h rfl
    simp only [List.cons.injEq, and_true] at h₂
    exact Or.inl ⟨h₁.symm, h₂.symm, rfl⟩
  · rw [List.concat_eq_append, show A ++ x :: (B' ++ [y]) = (A ++ x :: B') ++ [y] by simp] at h
    obtain ⟨h₁, h₂⟩ := List.append_inj' h rfl
    simp only [List.cons.injEq, and_true] at h₂
    exact Or.inr ⟨B', by rw [List.concat_eq_append, h₂], h₁⟩

/-- An event of an extended history is old or the new one. -/
theorem mem_append_singleton {L : List Event} {e x : Event} (h : x ∈ L ++ [e]) : x ∈ L ∨ x = e := by
  rcases List.mem_append.mp h with h | h
  · exact Or.inl h
  · exact Or.inr (List.mem_singleton.mp h)

/-! ## The flat list, event by event -/

/-- The flat list inside a call: `due` are the timers of the current tick still to be called. -/
structure HistState where
  live : List TimerNode
  time : Nat
  added : Nat
  due : Option (List TimerNode)

/-- What one event does to the flat list, and when it may happen. -/
inductive HistStep : HistState → Event → HistState → Prop where
  | add {s : HistState} (n : TimerNode) (wait : Nat) : n.seq = s.added →
      n.expire = s.time + max 1 (wait / 10) →
      HistStep s (.add n s.time wait) { s with live := s.live ++ [n], added := s.added + 1 }
  | del {s : HistState} (n : TimerNode) : s.due = none → n ∈ s.live →
      HistStep s (.del n) { s with live := s.live.erase n }
  | tick {s : HistState} (t : Nat) : s.due = none →
      HistStep s (.tick t)
        { s with time := t, due := some (s.live.filter (fun n => n.expire = t)) }
  | run {s : HistState} (n : TimerNode) (rest : List TimerNode) : s.due = some (n :: rest) →
      HistStep s (.run n) { s with live := s.live.erase n, due := some rest }
  | tock {s : HistState} : s.due = some [] → HistStep s .tock { s with due := none }

/-- The histories the flat list can produce, with the state each leads to. -/
inductive Hist : List Event → HistState → Prop where
  | nil : Hist [] ⟨[], 0, 0, none⟩
  | snoc {L : List Event} {s s' : HistState} {e : Event} : Hist L s → HistStep s e s' →
      Hist (L ++ [e]) s'

theorem foldl_add_hist (as : List AddReq) {f : Flat} {due : Option (List TimerNode)}
    (h : Hist f.log ⟨f.live, f.time, f.added, due⟩) :
    Hist (as.foldl Flat.add f).log ⟨(as.foldl Flat.add f).live, (as.foldl Flat.add f).time,
      (as.foldl Flat.add f).added, due⟩ := by
  induction as generalizing f with
  | nil => exact h
  | cons a as ih => exact ih (f := f.add a) (h.snoc (.add (f.node a) a.wait rfl rfl))

theorem runDue_hist (rs : List TimerNode) (cb : List (List AddReq)) {f : Flat}
    (h : Hist f.log ⟨f.live, f.time, f.added, some rs⟩) :
    Hist (Flat.runDue rs cb f).log ⟨(Flat.runDue rs cb f).live, (Flat.runDue rs cb f).time,
      (Flat.runDue rs cb f).added, some []⟩ := by
  induction rs generalizing cb f with
  | nil => exact h
  | cons r rs ih => exact ih cb.tail (foldl_add_hist (cb.headD []) (h.snoc (.run r rs rfl)))

theorem Flat.del_cases (f : Flat) (id : Nat) :
    f.del id = f ∨
      ∃ r ∈ f.live,
        f.del id = { f with live := f.live.erase r, log := f.log ++ [Event.del r] } := by
  unfold Flat.del
  split
  · exact Or.inl rfl
  · rename_i r hr
    exact Or.inr ⟨r, List.mem_of_find?_eq_some hr, rfl⟩

theorem runFlat_hist (ops : List Op) :
    Hist (runFlat ops).log ⟨(runFlat ops).live, (runFlat ops).time, (runFlat ops).added, none⟩ := by
  induction ops using List.reverseRecOn with
  | nil => exact Hist.nil
  | append_singleton ops op ih =>
    rw [runFlat_append]
    cases op with
    | add a => exact ih.snoc (.add ((runFlat ops).node a) a.wait rfl rfl)
    | del id =>
      show Hist ((runFlat ops).del id).log ⟨((runFlat ops).del id).live,
        ((runFlat ops).del id).time, ((runFlat ops).del id).added, none⟩
      rcases Flat.del_cases (runFlat ops) id with heq | ⟨r, hr, heq⟩ <;> rw [heq]
      · exact ih
      · exact ih.snoc (.del r rfl hr)
    | tick cb =>
      have h₁ := ih.snoc (.tick (((runFlat ops).time + 1) % 2 ^ 32) rfl)
      have h₂ := runDue_hist _ cb (f := { runFlat ops with
        time := ((runFlat ops).time + 1) % 2 ^ 32
        log := (runFlat ops).log ++ [Event.tick (((runFlat ops).time + 1) % 2 ^ 32)] }) h₁
      exact h₂.snoc (.tock rfl)

/-! ## Numbering of the additions -/

theorem Hist.time_eq {L : List Event} {s : HistState} (h : Hist L s) : s.time = clock L := by
  induction h with
  | nil => rfl
  | snoc _ hst ih => rw [clock_append]; cases hst <;> first | exact ih | rfl

theorem Hist.added_eq {L : List Event} {s : HistState} (h : Hist L s) :
    s.added = L.countP Event.isAdd := by
  induction h with
  | nil => rfl
  | snoc _ hst ih => cases hst <;> simp [Event.isAdd, ih]

/-- Live timers are ordered by their addition; the timers of the current tick are among them. -/
structure HistState.Ordered (s : HistState) : Prop where
  sorted : s.live.Pairwise (fun m n => m.seq < n.seq)
  seq_lt : ∀ n ∈ s.live, n.seq < s.added
  due : ∀ d, s.due = some d → d.Sublist s.live

theorem HistState.Ordered.nodup {s : HistState} (h : s.Ordered) : s.live.Nodup :=
  h.sorted.imp fun {m n} hlt e => by rw [e] at hlt; exact Nat.lt_irrefl _ hlt

theorem HistStep.ordered {s s' : HistState} {e : Event} (hst : HistStep s e s')
    (ho : s.Ordered) : s'.Ordered := by
  cases hst with
  | add n wait hseq _ =>
    refine ⟨?_, ?_, fun d hd => (ho.due d hd).trans (List.sublist_append_left _ _)⟩
    · refine List.pairwise_append.mpr ⟨ho.sorted, List.pairwise_singleton _ _, ?_⟩
      intro a ha b hb
      rw [List.mem_singleton.mp hb, hseq]
      exact ho.seq_lt a ha
    · intro m hm
      rcases List.mem_append.mp hm with hm | hm
      · exact Nat.lt_succ_of_lt (ho.seq_lt m hm)
      · rw [List.mem_singleton.mp hm, hseq]; exact Nat.lt_succ_self _
  | del n hd _ =>
    refine ⟨ho.sorted.sublist List.erase_sublist,
      fun m hm => ho.seq_lt m (List.mem_of_mem_erase hm), fun d hd' => ?_⟩
    rw [show s.due = none from hd] at hd'
    cases hd'
  | tick t _ =>
    refine ⟨ho.sorted, ho.seq_lt, fun d hd => ?_⟩
    cases hd
    exact List.filter_sublist
  | run n rest hd =>
    refine ⟨ho.sorted.sublist List.erase_sublist,
      fun m hm => ho.seq_lt m (List.mem_of_mem_erase hm), fun d hd' => ?_⟩
    cases hd'
    have hsub := (ho.due _ hd).erase n
    rwa [List.erase_cons_head] at hsub
  | tock _ => exact ⟨ho.sorted, ho.seq_lt, fun d hd => by cases hd⟩

theorem Hist.ordered {L : List Event} {s : HistState} (h : Hist L s) : s.Ordered := by
  induction h with
  | nil =>
    exact ⟨List.Pairwise.nil, fun n hn => absurd hn List.not_mem_nil, fun d hd => by cases hd⟩
  | snoc _ hst ih => exact hst.ordered ih

theorem HistStep.added_le {s s' : HistState} {e : Event} (hst : HistStep s e s') :
    s.added ≤ s'.added := by
  cases hst <;> simp

theorem HistStep.node_lt {s s' : HistState} {e : Event} (hst : HistStep s e s')
    (ho : s.Ordered) {n : TimerNode} (hn : e.node? = some n) : n.seq < s'.added := by
  cases hst with
  | add m wait hseq _ => cases hn; show n.seq < s.added + 1; omega
  | del m _ hm => cases hn; exact ho.seq_lt _ hm
  | tick t _ => cases hn
  | run m rest hd => cases hn; exact ho.seq_lt _ ((ho.due _ hd).subset List.mem_cons_self)
  | tock _ => cases hn

/-- Every timer a history mentions was added before. -/
theorem Hist.seen {L : List Event} {s : HistState} (h : Hist L s) :
    ∀ e ∈ L, ∀ n, e.node? = some n → n.seq < s.added := by
  induction h with
  | nil => intro e he; cases he
  | snoc hL hst ih =>
    intro e he n hn
    rcases mem_append_singleton he with he | rfl
    · exact Nat.lt_of_lt_of_le (ih e he n hn) hst.added_le
    · exact hst.node_lt hL.ordered hn

/-- The addition of `n`: when it was made, for which expiry, and as which in number; no event
before it is about `n`. -/
theorem Hist.add_split {L : List Event} {s : HistState} (h : Hist L s) :
    ∀ {P Q : List Event} {n : TimerNode} {t wait : Nat}, L = P ++ .add n t wait :: Q →
      n.expire = t + max 1 (wait / 10) ∧ t = clock P ∧ n.seq = P.countP Event.isAdd ∧
        ∀ e ∈ P, e.node? ≠ some n := by
  induction h with
  | nil => intro P Q n t wait hL; exact absurd hL (by simp)
  | snoc hL hst ih =>
    intro P Q n t wait heq
    rcases append_singleton_split heq with ⟨rfl, rfl, -⟩ | ⟨B', -, hL'⟩
    · cases hst with
      | add m w hseq hexp =>
        refine ⟨hexp, hL.time_eq, by rw [hseq, hL.added_eq], fun e he hn => ?_⟩
        have := hL.seen e he n hn
        omega
    · exact ih hL'

/-- A timer is added once. -/
theorem Hist.add_unique {L : List Event} {s : HistState} (h : Hist L s) {P P' Q Q' : List Event}
    {n : TimerNode} {t t' wait wait' : Nat} (h₁ : L = P ++ .add n t wait :: Q)
    (h₂ : L = P' ++ .add n t' wait' :: Q') : P = P' ∧ Q = Q' := by
  have hn := (h.add_split h₁).2.2.2
  have hn' := (h.add_split h₂).2.2.2
  rw [h₁, List.append_eq_append_iff] at h₂
  rcases h₂ with ⟨C, hP, hC⟩ | ⟨C, hP, hC⟩
  · cases C with
    | nil => simp at hP hC; exact ⟨hP.symm, hC.2⟩
    | cons c C =>
      simp only [List.cons_append, List.cons.injEq] at hC
      exact absurd rfl (hn' (.add n t wait) (by rw [hP, ← hC.1]; simp))
  · cases C with
    | nil => simp at hP hC; exact ⟨hP, hC.2.symm⟩
    | cons c C =>
      simp only [List.cons_append, List.cons.injEq] at hC
      exact absurd rfl (hn (.add n t' wait') (by rw [hP, ← hC.1]; simp))

/-! ## The fate of a timer -/

/-- One more event that neither begins its tick nor removes it leaves a timer waiting. -/
theorem Waiting.snoc {L : List Event} {n : TimerNode} (h : Waiting L n) {e : Event}
    (ht : e ≠ .tick n.expire) (hd : e ≠ .del n) (hr : e ≠ .run n) : Waiting (L ++ [e]) n := by
  obtain ⟨P, Q, t, wait, rfl, h₁, h₂, h₃⟩ := h
  refine ⟨P, Q ++ [e], t, wait, by simp, ?_, ?_, ?_⟩
  · exact fun hm => (mem_append_singleton hm).elim h₁ (fun he => ht he.symm)
  · exact fun hm => (mem_append_singleton hm).elim h₂ (fun he => hd he.symm)
  · rw [← List.append_assoc]
    exact fun hm => (mem_append_singleton hm).elim h₃ (fun he => hr he.symm)

theorem Waiting.begin {L : List Event} {n : TimerNode} (h : Waiting L n) :
    Due (L ++ [Event.tick n.expire]) n := by
  obtain ⟨P, Q, t, wait, rfl, h₁, h₂, h₃⟩ := h
  exact ⟨P, Q, [], t, wait, by simp, h₁, by simp, by simpa using h₂, by simpa using h₃⟩

theorem Due.snoc {L : List Event} {n : TimerNode} (h : Due L n) {e : Event}
    (hc : e.isClock = false) (hd : e ≠ .del n) (hr : e ≠ .run n) : Due (L ++ [e]) n := by
  obtain ⟨P, Q, R, t, wait, rfl, h₁, h₂, h₃, h₄⟩ := h
  refine ⟨P, Q, R ++ [e], t, wait, by simp, h₁, ?_, ?_, ?_⟩
  · intro x hx
    rcases mem_append_singleton hx with hx | rfl
    · exact h₂ x hx
    · exact hc
  · rw [← List.append_assoc]
    exact fun hm => (mem_append_singleton hm).elim h₃ (fun he => hd he.symm)
  · rw [← List.append_assoc]
    exact fun hm => (mem_append_singleton hm).elim h₄ (fun he => hr he.symm)

theorem Due.run_not_mem {L : List Event} {n : TimerNode} (h : Due L n) : .run n ∉ L := by
  obtain ⟨P, Q, R, t, wait, rfl, _, _, _, h₄⟩ := h
  simpa [List.append_assoc] using h₄

theorem ne_of_mem_erase {l : List TimerNode} (hl : l.Nodup) {m n : TimerNode}
    (h : n ∈ l.erase m) : n ≠ m := (hl.mem_erase_iff.mp h).1

/-- Live timers are waiting, or due when they belong to the current tick. -/
theorem Hist.live_status {L : List Event} {s : HistState} (h : Hist L s) :
    ∀ n ∈ s.live, (Waiting L n ∧ ∀ d, s.due = some d → n ∉ d) ∨
      (Due L n ∧ ∃ d, s.due = some d ∧ n ∈ d) := by
  induction h with
  | nil => intro n hn; cases hn
  | @snoc L s s' e hL hst ih =>
    intro n hn
    have ho := hL.ordered
    cases hst with
    | add m wait hseq _ =>
      rcases List.mem_append.mp hn with hn | hn
      · rcases ih n hn with ⟨hw, hd⟩ | ⟨hd, hm⟩
        · exact Or.inl ⟨hw.snoc (by simp) (by simp) (by simp), hd⟩
        · exact Or.inr ⟨hd.snoc rfl (by simp) (by simp), hm⟩
      · rw [List.mem_singleton.mp hn]
        refine Or.inl ⟨⟨L, [], s.time, wait, rfl, by simp, by simp, fun hm => ?_⟩,
          fun d hd hm => ?_⟩
        · have := hL.seen (.run m) (by simpa using hm) m rfl
          omega
        · have := ho.seq_lt m ((ho.due d hd).subset hm)
          omega
    | del m hd hm =>
      have hne := ne_of_mem_erase ho.nodup hn
      rcases ih n (List.mem_of_mem_erase hn) with ⟨hw, hd'⟩ | ⟨_, d, hd', _⟩
      · exact Or.inl ⟨hw.snoc (by simp) (by simpa using hne.symm) (by simp), hd'⟩
      · rw [hd] at hd'; cases hd'
    | tick t hd =>
      rcases ih n hn with ⟨hw, _⟩ | ⟨_, d, hd', _⟩
      · by_cases ht : n.expire = t
        · subst ht
          exact Or.inr ⟨hw.begin, _, rfl, by simpa using hn⟩
        · refine Or.inl ⟨hw.snoc (by simpa using Ne.symm ht) (by simp) (by simp),
            fun d hd hm => ?_⟩
          cases hd
          exact ht (by simpa using (List.mem_filter.mp hm).2)
      · rw [hd] at hd'; cases hd'
    | run m rest hd =>
      have hne := ne_of_mem_erase ho.nodup hn
      rcases ih n (List.mem_of_mem_erase hn) with ⟨hw, hd'⟩ | ⟨hdue, d, hd', hm⟩
      · refine Or.inl ⟨hw.snoc (by simp) (by simp) (by simpa using hne.symm), fun d hd₁ hm => ?_⟩
        cases hd₁
        exact hd' _ hd (List.mem_cons_of_mem _ hm)
      · rw [hd] at hd'
        cases hd'
        refine Or.inr ⟨hdue.snoc rfl (by simp) (by simpa using hne.symm), rest, rfl, ?_⟩
        exact (List.mem_cons.mp hm).resolve_left hne
    | tock hd =>
      rcases ih n hn with ⟨hw, _⟩ | ⟨_, d, hd', hm⟩
      · exact Or.inl ⟨hw.snoc (by simp) (by simp) (by simp), fun d hd => by cases hd⟩
      · rw [hd] at hd'; cases hd'; cases hm

theorem Hist.due_of_mem {L : List Event} {s : HistState} (h : Hist L s) {d : List TimerNode}
    (hd : s.due = some d) {n : TimerNode} (hn : n ∈ d) : Due L n := by
  rcases h.live_status n ((h.ordered.due d hd).subset hn) with ⟨_, hno⟩ | ⟨hdue, _⟩
  · exact absurd hn (hno d hd)
  · exact hdue

/-- A callback runs when its timer is due, and never again. -/
theorem Hist.run_split {L : List Event} {s : HistState} (h : Hist L s) :
    ∀ {A B : List Event} {n : TimerNode}, L = A ++ Event.run n :: B →
      Due A n ∧ Event.run n ∉ B := by
  induction h with
  | nil => intro A B n hL; exact absurd hL (by simp)
  | snoc hL hst ih =>
    intro A B n heq
    rcases append_singleton_split heq with ⟨rfl, rfl, rfl⟩ | ⟨B', rfl, hL'⟩
    · cases hst with
      | run m rest hd => exact ⟨hL.due_of_mem hd List.mem_cons_self, by simp⟩
    · refine ⟨(ih hL').1, fun hm => ?_⟩
      rcases mem_append_singleton hm with hm | rfl
      · exact (ih hL').2 hm
      -- the timer called now has not run before
      · cases hst with
        | run m rest hd =>
          exact (hL.due_of_mem hd List.mem_cons_self).run_not_mem (by rw [hL']; simp)

/-- Nobody is forgotten: an added timer is live, or was deleted or run since. -/
theorem Hist.add_fate {L : List Event} {s : HistState} (h : Hist L s) :
    ∀ {P Q : List Event} {n : TimerNode} {t wait : Nat}, L = P ++ .add n t wait :: Q →
      n ∈ s.live ∨ .del n ∈ Q ∨ .run n ∈ Q := by
  induction h with
  | nil => intro P Q n t wait hL; exact absurd hL (by simp)
  | snoc hL hst ih =>
    intro P Q n t wait heq
    rcases append_singleton_split heq with ⟨rfl, rfl, -⟩ | ⟨Q', rfl, hL'⟩
    · cases hst with
      | add m w _ _ => exact Or.inl (by simp)
    · rcases ih hL' with hlive | hdel | hrun
      · cases hst with
        | add m w _ _ => exact Or.inl (List.mem_append_left _ hlive)
        | del m _ _ =>
          by_cases hne : n = m
          · exact Or.inr (Or.inl (by simp [hne]))
          · exact Or.inl ((List.mem_erase_of_ne hne).mpr hlive)
        | tick t _ => exact Or.inl hlive
        | run m rest _ =>
          by_cases hne : n = m
          · exact Or.inr (Or.inr (by simp [hne]))
          · exact Or.inl ((List.mem_erase_of_ne hne).mpr hlive)
        | tock _ => exact Or.inl hlive
      · exact Or.inr (Or.inl (List.mem_append_left _ hdel))
      · exact Or.inr (Or.inr (List.mem_append_left _ hrun))

/-- A timer whose tick has not begun since its addition has not run. -/
theorem Hist.run_after_tick {L : List Event} {s : HistState} (h : Hist L s) {P Q : List Event}
    {n : TimerNode} {t wait : Nat} (hadd : L = P ++ .add n t wait :: Q) (hrun : .run n ∈ Q) :
    .tick n.expire ∈ Q := by
  obtain ⟨Q₁, Q₂, rfl⟩ := List.append_of_mem hrun
  have hsplit : L = (P ++ Event.add n t wait :: Q₁) ++ Event.run n :: Q₂ := by rw [hadd]; simp
  obtain ⟨P', Q', R', t', wait', heq, _⟩ := (h.run_split hsplit).1
  have hfull : L = P' ++ Event.add n t' wait' ::
      (Q' ++ Event.tick n.expire :: R' ++ Event.run n :: Q₂) := by
    rw [hsplit, heq]; simp
  rw [(h.add_unique hadd hfull).2]
  simp

/-- A timer that is not deleted before its tick runs in that tick, or is about to. -/
theorem Hist.progress {L : List Event} {s : HistState} (h : Hist L s) :
    ∀ {P Q B : List Event} {n : TimerNode} {t wait : Nat},
      L = P ++ Event.add n t wait :: Q ++ Event.tick n.expire :: B →
      Event.del n ∉ Q → Event.tick n.expire ∉ Q →
      (∃ d, s.due = some d ∧ n ∈ d ∧ ∀ e ∈ B, e.isClock = false) ∨
        ∃ R S, B = R ++ Event.run n :: S ∧ ∀ e ∈ R, e.isClock = false := by
  induction h with
  | nil => intro P Q B n t wait hL; exact absurd hL (by simp)
  | @snoc L s s' e hL hst ih =>
    intro P Q B n t wait heq hdel htick
    rcases append_singleton_split heq with ⟨rfl, rfl, rfl⟩ | ⟨B', rfl, hL'⟩
    -- the tick begins: the timer is live and among its due ones
    · have hlive : n ∈ s.live := by
        rcases hL.add_fate rfl with hl | hd | hr
        · exact hl
        · exact absurd hd hdel
        · exact absurd (hL.run_after_tick rfl hr) htick
      cases hst with
      | tick t _ => exact Or.inl ⟨_, rfl, by simpa using hlive, by simp⟩
    · rcases ih hL' hdel htick with ⟨d, hd, hn, hB⟩ | ⟨R, S, rfl, hR⟩
      · have hsnoc : ∀ x : Event, x.isClock = false → ∀ y ∈ B' ++ [x], y.isClock = false := by
          intro x hx y hy
          rcases mem_append_singleton hy with hy | rfl
          · exact hB y hy
          · exact hx
        cases hst with
        | add m w _ _ => exact Or.inl ⟨d, hd, hn, hsnoc _ rfl⟩
        | del m hd' _ => rw [hd'] at hd; cases hd
        | tick t hd' => rw [hd'] at hd; cases hd
        | run m rest hd' =>
          rw [hd'] at hd
          cases hd
          rcases List.mem_cons.mp hn with rfl | hn
          · exact Or.inr ⟨B', [], rfl, hB⟩
          · exact Or.inl ⟨rest, rfl, hn, hsnoc _ rfl⟩
        | tock hd' => rw [hd'] at hd; cases hd; cases hn
      · exact Or.inr ⟨R, S ++ [e], by simp, hR⟩

/-- Timers of one tick run in the order of their addition, and before the ones still due. -/
theorem Hist.order {L : List Event} {s : HistState} (h : Hist L s) :
    (∀ {A B : List Event} {m : TimerNode}, L = A ++ Event.run m :: B →
      (∀ e ∈ B, e.isClock = false) → ∀ d, s.due = some d → ∀ n ∈ d, m.seq < n.seq) ∧
    ∀ {A B C : List Event} {m n : TimerNode}, L = A ++ Event.run m :: B ++ Event.run n :: C →
      (∀ e ∈ B, e.isClock = false) → m.seq < n.seq := by
  induction h with
  | nil =>
    exact ⟨fun hL => absurd hL (by simp), fun hL => absurd hL (by simp)⟩
  | @snoc L s s' e hL hst ih =>
    obtain ⟨ihd, iho⟩ := ih
    refine ⟨?_, ?_⟩
    · intro A B m heq hB d hd n hn
      rcases append_singleton_split heq with ⟨rfl, rfl, rfl⟩ | ⟨B', rfl, hL'⟩
      · cases hst with
        | run _ rest hd' =>
          cases hd
          have hsub := hL.ordered.sorted.sublist (hL.ordered.due _ hd')
          exact List.rel_of_pairwise_cons hsub hn
      · have hB' : ∀ e ∈ B', e.isClock = false := fun x hx => hB x (List.mem_append_left _ hx)
        have he : e.isClock = false := hB e (by simp)
        cases hst with
        | add _ _ _ _ => exact ihd hL' hB' d hd n hn
        | del _ _ _ => exact ihd hL' hB' d hd n hn
        | tick _ _ => cases he
        | run r rest hd' =>
          cases hd
          exact ihd hL' hB' _ hd' n (List.mem_cons_of_mem _ hn)
        | tock _ => cases he
    · intro A B C m n heq hB
      rcases append_singleton_split heq with ⟨rfl, rfl, rfl⟩ | ⟨C', rfl, hL'⟩
      · cases hst with
        | run _ rest hd' => exact ihd rfl hB _ hd' n List.mem_cons_self
      · exact iho hL' hB

theorem Hist.del_not_mem_of_due {L : List Event} {s : HistState} (h : Hist L s) {n : TimerNode}
    (hd : Due L n) : .del n ∉ L := by
  obtain ⟨P, Q, R, t, wait, heq, _, _, hdel, _⟩ := hd
  have hadd : L = P ++ Event.add n t wait :: (Q ++ Event.tick n.expire :: R) := by rw [heq]; simp
  intro hm
  rw [hadd] at hm
  rcases List.mem_append.mp hm with hm | hm
  · exact (h.add_split hadd).2.2.2 _ hm rfl
  · exact hdel (by simpa using hm)

/-- A deleted timer never runs. -/
theorem Hist.del_not_run {L : List Event} {s : HistState} (h : Hist L s) :
    ∀ n, .del n ∈ L → .run n ∉ L := by
  induction h with
  | nil => intro n hn; cases hn
  | @snoc L s s' e hL hst ih =>
    intro n hdel hrun
    rcases mem_append_singleton hdel with hd | rfl
    · rcases mem_append_singleton hrun with hr | rfl
      · exact ih n hd hr
      · cases hst with
        | run _ rest hdue =>
          exact hL.del_not_mem_of_due (hL.due_of_mem hdue List.mem_cons_self) hd
    · cases hst with
      | del _ _ hlive =>
        have hold : Event.run n ∈ L := (mem_append_singleton hrun).resolve_right (by simp)
        rcases hL.live_status n hlive with ⟨⟨P, Q, t, wait, rfl, _, _, hnr⟩, _⟩ | ⟨hdue, _⟩
        · exact hnr (by simpa using hold)
        · exact hdue.run_not_mem hold

/-- **The timing wheel refines a flat timer list.** Along every run in range the wheel never stops
on its assertion and produces the history of the flat list, in which

* the timer of the `k`-th addition carries the number `k` and the expiry
  `time + max 1 (wait / 10)` for the time of its addition;
* a callback that runs does so in the first tick since its addition in which the time becomes its
  expiry, and it never runs again;
* a timer that is not deleted before that tick runs in it;
* a deleted timer never runs;
* the timers of one tick run in the order in which they were added. -/
theorem wheel_runs_timers_on_time (ops : List Op) (hr : InRange (runWheel ops)) :
    (runWheel ops).aborted = false ∧ (runWheel ops).log = (runFlat ops).log ∧
    (∀ P Q n t wait, (runWheel ops).log = P ++ .add n t wait :: Q →
      n.seq = P.countP Event.isAdd ∧ t = clock P ∧ n.expire = t + max 1 (wait / 10)) ∧
    (∀ A B n, (runWheel ops).log = A ++ .run n :: B → Due A n ∧ .run n ∉ B) ∧
    (∀ P Q B n t wait, (runWheel ops).log = P ++ .add n t wait :: Q ++ .tick n.expire :: B →
      .del n ∉ Q → .tick n.expire ∉ Q →
      ∃ R S, B = R ++ .run n :: S ∧ ∀ e ∈ R, e.isClock = false) ∧
    (∀ n, .del n ∈ (runWheel ops).log → .run n ∉ (runWheel ops).log) ∧
    (∀ A B C m n, (runWheel ops).log = A ++ .run m :: B ++ .run n :: C →
      (∀ e ∈ B, e.isClock = false) → m.seq < n.seq) := by
  obtain ⟨hs, _, _⟩ := runWheel_refines ops hr
  have hH := runFlat_hist ops
  rw [hs.log]
  refine ⟨hs.ok, rfl, ?_, fun A B n h => hH.run_split h, ?_, hH.del_not_run,
    fun A B C m n h hB => hH.order.2 h hB⟩
  · intro P Q n t wait h
    obtain ⟨h₁, h₂, h₃, _⟩ := hH.add_split h
    exact ⟨h₃, h₂, h₁⟩
  · intro P Q B n t wait h hdel htick
    rcases hH.progress h hdel htick with ⟨d, hd, _⟩ | hrun
    · cases hd
    · exact hrun

/-- Two timers for the next tick, the first of which re-arms itself, a third that is deleted. -/
theorem wheel_runs_timers_on_time_rearm :
    InRange (runWheel [.add ⟨7, 1, 25⟩, .add ⟨7, 2, 0⟩, .add ⟨7, 3, 20⟩, .tick [[⟨7, 2, 10⟩]],
      .del 3, .tick []]) ∧
    (runWheel [.add ⟨7, 1, 25⟩, .add ⟨7, 2, 0⟩, .add ⟨7, 3, 20⟩, .tick [[⟨7, 2, 10⟩]],
      .del 3, .tick []]).aborted = false := by
  have hlog : (runWheel [.add ⟨7, 1, 25⟩, .add ⟨7, 2, 0⟩, .add ⟨7, 3, 20⟩, .tick [[⟨7, 2, 10⟩]],
      .del 3, .tick []]).log =
      [.add ⟨1, 7, 2, 1, 0⟩ 0 25, .add ⟨2, 7, 1, 2, 1⟩ 0 0, .add ⟨3, 7, 2, 3, 2⟩ 0 20, .tick 1,
        .run ⟨2, 7, 1, 2, 1⟩, .add ⟨2, 7, 2, 4, 3⟩ 1 10, .tock, .del ⟨3, 7, 2, 3, 2⟩, .tick 2,
        .run ⟨1, 7, 2, 1, 0⟩, .run ⟨2, 7, 2, 4, 3⟩, .tock] := by decide +kernel
  have hr : InRange (runWheel [.add ⟨7, 1, 25⟩, .add ⟨7, 2, 0⟩, .add ⟨7, 3, 20⟩,
      .tick [[⟨7, 2, 10⟩]], .del 3, .tick []]) := by
    refine ⟨by decide +kernel, fun n t wait h => ?_⟩
    rw [hlog] at h
    simp only [List.mem_cons, Event.add.injEq, reduceCtorEq, false_or, or_false,
      List.not_mem_nil] at h
    rcases h with h | h | h | h <;> obtain ⟨-, rfl, rfl⟩ := h <;> norm_num
  exact ⟨hr, (wheel_runs_timers_on_time _ hr).1⟩

end HoNet.Timer
