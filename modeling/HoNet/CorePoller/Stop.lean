import HoNet.CorePoller.Workers

/-!
# When `corepoller_stop_thread` may return

`io->quited` is set by whichever quit message is used up, so a message that only shrank the pool sets
it too. A call of `corepoller_stop_thread` waits for its own message if and only if no other one is
in flight and `io->quited` is not set already.

* `Stopping` — what holds during a call that waits for its own message.
* `drain` — a message that the waiting workers can use up.
* `stop_complete_iff` — the two directions.
-/

namespace HoNet.CorePoller.Poller

variable {io io' : Poller}

/-- `corepoller_stop_thread` has been called in `io` and may return in `io'`. -/
def MayReturn (io io' : Poller) : Prop :=
  ∃ ls, Label.ret ∉ ls ∧ io.run ls = some io' ∧ io'.ctl = .stopWait ∧ io'.quited = true

/-! ## A call that waits for its own message -/

/-- There is at most one quit message, and `io->quited` is not set before it is used up. -/
structure Stopping (io : Poller) : Prop where
  ctl : io.ctl = .stopPost ∨ io.ctl = .stopStore ∨ io.ctl = .stopWait
  single : io.inFlight.length ≤ 1
  unset : io.inFlight ≠ [] → io.quited = false
  posting : io.ctl = .stopPost → io.inFlight = [] ∧ (io.thr = 0 ∨ io.quited = false)

theorem Stopping.go (h : Stopping io) (hs : io.go = some io') : Stopping io' := by
  unfold Poller.go at hs
  rcases h.ctl with hc | hc | hc
  · obtain ⟨hnil, hflag⟩ := h.posting hc
    rw [hc] at hs
    simp only at hs
    split at hs
    · next hpos =>
      obtain rfl := Option.some.inj hs
      have hflight : (io.thr :: io.queue) ++ io.held = [io.thr] := by
        have hq : io.queue ++ io.held = [] := hnil
        rw [List.cons_append, hq]
      refine ⟨.inr (.inl rfl), ?_, fun _ => hflag.resolve_left (by omega), by rintro ⟨⟩⟩
      show ((io.thr :: io.queue) ++ io.held).length ≤ 1
      rw [hflight]
      exact le_rfl
    · obtain rfl := Option.some.inj hs
      exact ⟨.inr (.inr rfl), h.single, h.unset, by rintro ⟨⟩⟩
  · rw [hc] at hs
    obtain rfl := Option.some.inj hs
    exact ⟨.inr (.inr rfl), h.single, h.unset, by rintro ⟨⟩⟩
  · rw [hc] at hs
    cases hs

theorem Stopping.take (h : Stopping io) {bytes : Nat} (hs : io.step (.take bytes) = some io') :
    Stopping io' := by
  obtain ⟨-, hperm, he⟩ := take_spec hs
  have hctl : io'.ctl = io.ctl := by rw [he]
  have hquit : io'.quited = io.quited := by rw [he]
  have hthr : io'.thr = io.thr := by rw [he]
  refine ⟨?_, ?_, fun hne => ?_, fun hc => ?_⟩
  · rw [hctl]
    exact h.ctl
  · rw [hperm.length_eq]
    exact h.single
  · rw [hquit]
    refine h.unset fun hnil => hne ?_
    rw [hnil] at hperm
    exact hperm.eq_nil
  · -- There is nothing to take before the message is posted.
    obtain ⟨hnil, hflag⟩ := h.posting (hctl ▸ hc)
    rw [hnil] at hperm
    rw [hthr, hquit]
    exact ⟨hperm.eq_nil, hflag⟩

theorem Stopping.quit (h : Stopping io) (hinv : Inv io) {bytes : Nat}
    (hs : io.step (.quit bytes) = some io') : Stopping io' := by
  simp only [step] at hs
  split at hs
  · next hm =>
    have hb := hinv.counts bytes (List.mem_append_right _ hm)
    have hmem : bytes ∈ io.inFlight := List.mem_append_right _ hm
    -- The message is the only one, and a worker holds it.
    have hqueue : io.queue = [] := by
      have hsingle := h.single
      have hpos := List.length_pos_of_mem hm
      unfold inFlight at hsingle
      rw [List.length_append] at hsingle
      exact List.length_eq_zero_iff.mp (by omega)
    have hheld : io.held.erase bytes = [] := by
      have hsingle := h.single
      unfold inFlight at hsingle
      rw [List.length_append] at hsingle
      refine List.length_eq_zero_iff.mp ?_
      rw [List.length_erase_of_mem hm]
      omega
    have hpost : io.ctl ≠ .stopPost := by
      intro hc
      rw [(h.posting hc).1] at hmem
      cases hmem
    rw [quit_eq hb] at hs
    by_cases h1 : bytes = 1
    · rw [if_pos h1] at hs
      obtain rfl := Option.some.inj hs
      have hnil : io.queue ++ io.held.erase bytes = [] := by rw [hqueue, hheld]; rfl
      refine ⟨h.ctl, ?_, fun hne => absurd hnil hne, fun hc => absurd hc hpost⟩
      show (io.queue ++ io.held.erase bytes).length ≤ 1
      rw [hnil]
      decide
    · rw [if_neg h1] at hs
      obtain rfl := Option.some.inj hs
      refine ⟨h.ctl, ?_, fun _ => h.unset (List.ne_nil_of_mem hmem), fun hc => absurd hc hpost⟩
      show ((bytes - 1) :: io.queue ++ io.held.erase bytes).length ≤ 1
      rw [hqueue, hheld]
      exact le_rfl
  · cases hs

theorem Stopping.step (h : Stopping io) (hinv : Inv io) {l : Label} (hl : l ≠ .ret)
    (hs : io.step l = some io') : Stopping io' := by
  have hidle : io.ctl ≠ .idle := by
    intro hc
    rcases h.ctl with h' | h' | h' <;> rw [hc] at h' <;> cases h'
  cases l with
  | start n =>
    rw [Poller.step, if_neg hidle] at hs
    cases hs
  | stop =>
    rw [Poller.step, if_neg hidle] at hs
    cases hs
  | go => exact h.go hs
  | ret => exact absurd rfl hl
  | take bytes => exact h.take hs
  | quit bytes => exact h.quit hinv hs

theorem Stopping.run (ls : List Label) (h : Stopping io) (hinv : Inv io) (hl : Label.ret ∉ ls)
    (hs : io.run ls = some io') : Stopping io' := by
  induction ls generalizing io with
  | nil =>
    obtain rfl := Option.some.inj hs
    exact h
  | cons l ls ih =>
    rw [run_cons] at hs
    rw [List.mem_cons, not_or] at hl
    obtain ⟨io₁, h₁, h₂⟩ := Option.bind_eq_some_iff.mp hs
    exact ih (h.step hinv (Ne.symm hl.1) h₁) (step_inv hinv h₁) hl.2 h₂

/-! ## A message that others overtake -/

/-- A waiting worker takes the message at the head of the queue and handles it. -/
theorem run_head (io : Poller) {c : Nat} {q : List Nat} (hc : 0 < c ∧ c < 256) (hw : 0 < io.waiting)
    (hq : io.queue = c :: q) :
    io.run [.take c, .quit c] = some (if c = 1
      then { io with queue := q, waiting := io.waiting - 1, quited := true }
      else { io with queue := (c - 1) :: q, waiting := io.waiting - 1 }) := by
  have htake : io.step (.take c) =
      some { io with queue := q, waiting := io.waiting - 1, held := c :: io.held } := by
    have hen : c ∈ io.queue ∧ 0 < io.waiting := ⟨by rw [hq]; exact List.mem_cons_self, hw⟩
    rw [Poller.step, if_pos hen, hq, List.erase_cons_head]
  rw [run_cons, htake, Option.bind_some, run_cons, Poller.step, if_pos List.mem_cons_self, quit_eq hc,
    List.erase_cons_head]
  split <;> rfl

theorem run_append (ls ls' : List Label) :
    io.run (ls ++ ls') = (io.run ls).bind fun io₁ => io₁.run ls' := List.foldlM_append

/-- Enough waiting workers use up the message at the head of the queue. -/
theorem drain (io : Poller) {c : Nat} {q : List Nat} (hc : c < 255) (hw : c + 1 ≤ io.waiting)
    (hq : io.queue = (c + 1) :: q) :
    ∃ ls, Label.ret ∉ ls ∧
      io.run ls = some { io with queue := q, waiting := io.waiting - (c + 1), quited := true } := by
  induction c generalizing io with
  | zero => exact ⟨_, by simp, run_head io (by decide) (by omega) hq⟩
  | succ c ih =>
    have hstep := run_head io (c := c + 1 + 1) (q := q) (by omega) (by omega) hq
    rw [if_neg (by omega)] at hstep
    obtain ⟨ls, hl, hrun⟩ := ih { io with queue := (c + 1) :: q, waiting := io.waiting - 1 }
      (by omega) (show c + 1 ≤ io.waiting - 1 by omega) rfl
    refine ⟨[.take (c + 1 + 1), .quit (c + 1 + 1)] ++ ls, by simpa using hl, ?_⟩
    rw [run_append, hstep, Option.bind_some]
    refine hrun.trans ?_
    have hsub : io.waiting - 1 - (c + 1) = io.waiting - (c + 1 + 1) := by omega
    rw [hsub]

/-- `corepoller_stop_thread` up to its wait. -/
theorem run_post (hc : io.ctl = .stopPost) (hthr : 0 < io.thr) :
    io.run [.go, .go] =
      some { io with thr := 0, queue := io.thr :: io.queue, ctl := .stopWait } := by
  rw [run_cons]
  simp only [Poller.step, Poller.go, hc, if_pos hthr, Option.bind_some]
  rfl

/-- With another message in flight the workers can use up the one just posted. -/
theorem overtaken (h : Inv io) (hc : io.ctl = .stopPost) (hthr : 0 < io.thr) :
    MayReturn io { io with
      thr := 0, quited := true, waiting := io.waiting - io.thr, ctl := .stopWait } := by
  have hpost := run_post hc hthr
  have hw : io.thr ≤ io.waiting := by
    have hlaw := h.law
    have hle : io.held.length ≤ io.held.sum := List.length_le_sum_of_one_le io.held fun c hm =>
      (h.counts c (List.mem_append_right _ hm)).1
    unfold running due inFlight at hlaw
    rw [hc, List.sum_append] at hlaw
    simp only at hlaw
    omega
  have hlt := h.thr_lt
  obtain ⟨c, hthr_eq⟩ : ∃ c, io.thr = c + 1 := ⟨io.thr - 1, by omega⟩
  rw [hthr_eq] at hpost hw
  obtain ⟨ls, hl, hrun⟩ := drain { io with
    thr := 0, queue := (c + 1) :: io.queue, ctl := .stopWait } (q := io.queue) (by omega) hw rfl
  refine ⟨[.go, .go] ++ ls, by simpa using hl, ?_, rfl, rfl⟩
  rw [run_append, hpost, Option.bind_some, hthr_eq]
  exact hrun

/-- With `io->quited` set the call returns at once. -/
theorem premature (io : Poller) (hc : io.ctl = .stopPost) (hflag : io.quited = true) :
    ∃ io', MayReturn io io' ∧ (0 < io.thr → io'.inFlight ≠ []) ∧
      (io.thr = 0 → io'.inFlight = io.inFlight) := by
  by_cases hthr : 0 < io.thr
  · refine ⟨{ io with thr := 0, queue := io.thr :: io.queue, ctl := .stopWait },
      ⟨[.go, .go], by simp, run_post hc hthr, rfl, hflag⟩, fun _ => ?_, fun h0 => by omega⟩
    show (io.thr :: io.queue) ++ io.held ≠ []
    exact List.cons_ne_nil _ _
  · refine ⟨{ io with ctl := .stopWait }, ⟨[.go], by simp, ?_, rfl, hflag⟩,
      fun h => absurd h hthr, fun _ => ?_⟩
    · rw [run_cons]
      simp only [Poller.step, Poller.go, hc, if_neg hthr, Option.bind_some]
      rfl
    · rfl

/-! ## The two directions -/

/-- **Shutdown.** A call of `corepoller_stop_thread`, at any point of any run from `corepoller_new`,
can only return with no worker running and no quit message in flight if and only if no quit message
was in flight when it was called and, unless there are no workers, `io->quited` was not set. -/
theorem stop_complete_iff {ls : List Label} {io₁ : Poller}
    (hrun : corepollerNew.run ls = some io) (hcall : io.step .stop = some io₁) :
    (∀ io', MayReturn io₁ io' → io'.running = 0 ∧ io'.inFlight = []) ↔
      io.inFlight = [] ∧ (io.thr = 0 ∨ io.quited = false) := by
  have hinv := run_inv ls inv_new hrun
  have hinv₁ := step_inv hinv hcall
  have hidle : io.ctl = .idle := by
    by_contra hc
    rw [Poller.step, if_neg hc] at hcall
    cases hcall
  rw [Poller.step, if_pos hidle] at hcall
  obtain rfl := Option.some.inj hcall
  constructor
  · intro hall
    by_contra hcond
    -- One of the ways in which the call returns too early is open.
    rcases Bool.eq_false_or_eq_true io.quited with hflag | hflag
    · obtain ⟨io', hret, hpos, hzero⟩ := premature { io with ctl := .stopPost } rfl hflag
      have hnil := (hall io' hret).2
      rcases Nat.eq_zero_or_pos io.thr with h0 | h0
      · exact hcond ⟨(hzero h0).symm.trans hnil, .inl h0⟩
      · exact hpos h0 hnil
    · have hthr : 0 < io.thr := by
        have hpl := hinv.placed
        unfold Placed at hpl
        rw [hidle] at hpl
        refine Nat.pos_of_ne_zero fun h0 => ?_
        rw [hpl h0] at hflag
        cases hflag
      have hnil := (hall _ (overtaken hinv₁ rfl hthr)).2
      exact hcond ⟨hnil, .inr hflag⟩
  · rintro ⟨hnil, hflag⟩ io' ⟨ls', hl, hrun', hwait, hquit⟩
    have hstop : Stopping { io with ctl := .stopPost } := by
      refine ⟨.inl rfl, ?_, fun hne => absurd hnil hne, fun _ => ⟨hnil, hflag⟩⟩
      show io.inFlight.length ≤ 1
      rw [hnil]
      decide
    have hstop' := hstop.run ls' hinv₁ hl hrun'
    have hinv' := run_inv ls' hinv₁ hrun'
    have hnil' : io'.inFlight = [] := by
      by_contra hne
      rw [hstop'.unset hne] at hquit
      cases hquit
    have hlaw := hinv'.law
    have hpl := hinv'.placed
    unfold due at hlaw
    unfold Placed at hpl
    rw [hwait] at hlaw hpl
    simp only at hlaw hpl
    rw [hnil', List.sum_nil, hpl] at hlaw
    exact ⟨hlaw, hnil'⟩

/-- A pool of two workers that was not shrunk. -/
theorem stop_complete_two :
    ∃ io io₁, corepollerNew.run [.start 2, .go, .go, .go, .go, .go, .go, .go] = some io ∧
      io.step .stop = some io₁ ∧ io.running = 2 ∧
      ∀ io', MayReturn io₁ io' → io'.running = 0 ∧ io'.inFlight = [] := by
  have hrun : corepollerNew.run [.start 2, .go, .go, .go, .go, .go, .go, .go] =
      some ⟨2, false, [], 2, [], .idle⟩ := by decide
  have hcall : (⟨2, false, [], 2, [], .idle⟩ : Poller).step .stop =
      some ⟨2, false, [], 2, [], .stopPost⟩ := by decide
  exact ⟨_, _, hrun, hcall, by decide, (stop_complete_iff hrun hcall).mpr (by decide)⟩

/-- Two workers, shrunk to one: the message for the first one sets `io->quited`, and
`corepoller_stop_thread` returns while the second one runs. -/
theorem stop_after_shrink_returns_early :
    ∃ io, corepollerNew.run [.start 2, .go, .go, .go, .go, .go, .go, .go, .start 1, .go, .go, .go,
        .take 1, .quit 1, .stop, .go, .go, .ret] = some io ∧
      io.running = 1 ∧ io.inFlight = [1] := by
  decide

end HoNet.CorePoller.Poller
