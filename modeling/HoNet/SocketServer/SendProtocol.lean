import HoNet.SocketServer.Conn

/-!
# The send protocol

`ready` of the write event says who may use it: the thread that raised it from 0, then the `WSASend`
it started, then the handler of its completion, until the handler or the thread that finds the queue
empty gives it back. A thread that comes too late counts `ready` up, so that the one that finds the
queue empty looks again.

* `OpenInv` — while the owner's reference is held no handler closes the socket.
* `SendInv` — one user of the write event, no byte lost, and someone on the way for every byte that
  waits.
* `send_protocol` — the result.
-/

namespace HoNet.SocketServer

open HoNet.Pool

/-! ## The socket stays open -/

/-- No thread begins a `start_close`. -/
def noClose (_ : Conn) (p : Pc) (_ : Multiset Pc) : Prop := ∀ id, p ≠ .grub id .close

def Payload (data : List UInt8) : Prop := data ≠ [] ∧ data.length < 2 ^ 31

/-- Where a thread can be on an open socket with the id `g`. -/
def Pc.plain (g : Nat) : Pc → Prop
  | .connReserve _ | .connType _ | .connInc _ | .connEx _ => False
  | .grub id req => id = g ∧ ∀ data, req = .send data → Payload data
  | .grubCheck id req => id = g ∧ ∃ data, req = .send data ∧ Payload data
  | .push data => Payload data
  | .closeType | .closeTest | .closeSet | .closeDrop => False
  | .innerClose ref => ref = 1
  | .fcRead | .fcWrite | .fcReset => False
  | _ => True

structure OpenInv (s : Conn) (T : Multiset Pc) : Prop where
  given_ne : s.given ≠ 0
  id_eq : s.id = s.given
  type_ne : s.type ≠ .invalid
  owner : s.owner = true
  refs_le : load Pc.refs T ≤ excess s
  plain : ∀ p ∈ T, p.plain s.given

variable {s s' : Conn} {T R : Multiset Pc} {p : Pc}

theorem OpenInv.pending_ge (h : OpenInv s (p ::ₘ R)) : p.refs + 1 ≤ s.pending := by
  have hle := h.refs_le
  have hR := load_nonneg Pc.refs_nonneg R
  rw [load_cons, excess, h.owner] at hle
  simp only [Bool.toNat_true, Nat.cast_one] at hle
  omega

/-- The thread goes on to a plain statement and the socket stays as it is. -/
structure Stays (s : Conn) (p : Pc) (s' : Conn) (o : Option Pc) : Prop where
  given_eq : s'.given = s.given
  id_eq : s'.id = s.id
  type_ne : s'.type ≠ .invalid
  owner : s'.owner = true
  leak_nonneg : 0 ≤ leak s p
  leads : ∀ p' ∈ o, p'.plain s.given

section Stays

variable {p' : Pc} (hg : s'.given = s.given) (hi : s'.id = s.id) (ht : s'.type ≠ .invalid)
  (ho : s'.owner = true) (hl : 0 ≤ leak s p)
include hg hi ht ho hl

theorem Stays.on (hp : p'.plain s.given) : Stays s p s' (some p') := by
  refine ⟨hg, hi, ht, ho, hl, ?_⟩
  rintro _ ⟨⟩
  exact hp

theorem Stays.returns : Stays s p s' none := by
  refine ⟨hg, hi, ht, ho, hl, ?_⟩
  rintro _ ⟨⟩

end Stays

theorem next_open (h : OpenInv s (p ::ₘ R)) (hok : noClose s p R) :
    Stays s p (next s p).1 (next s p).2 := by
  have hge := h.pending_ge
  have ht := h.type_ne
  have ho := h.owner
  have hp := h.plain p (Multiset.mem_cons_self p R)
  cases p with
  | connReserve id | connType id | connInc id | connEx id | closeType | closeTest | closeSet
  | closeDrop | fcRead | fcWrite | fcReset => exact hp.elim
  | grub id req =>
    refine .on rfl rfl ht ho le_rfl ?_
    cases req with
    | send data => exact ⟨hp.1, data, rfl, hp.2 data rfl⟩
    | close => exact absurd rfl (hok id)
  | grubCheck id req =>
    obtain ⟨rfl, data, rfl, hdata⟩ := hp
    simp only [next, if_pos (And.intro ht h.id_eq)]
    exact .on rfl rfl ht ho le_rfl hdata
  | innerClose ref =>
    obtain rfl : ref = 1 := hp
    have hlarge : ¬ s.pending ≤ (1 : ℕ) := by
      simp only [Pc.refs] at hge
      omega
    simp only [next, innerClose, if_neg hlarge]
    exact .returns rfl rfl ht ho le_rfl
  | sentGuard | connGuard | recvGuard =>
    have hlarge : ¬ s.pending + 1 = 2 := by
      simp only [Pc.refs] at hge
      omega
    simp only [next, guard, if_neg hlarge]
    exact .on rfl rfl ht ho le_rfl trivial
  | connDone => exact .on rfl rfl (by simp [next]) ho le_rfl trivial
  | push data | storeB c x | wsaSend c chunk | sentClear | sentReset | wsaRecv c =>
    exact .on rfl rfl ht ho le_rfl trivial
  | cas c | incReady c | loadB c | decReady c | sentReadOk x sz | sentEmpty x | recvArm c =>
    simp only [next]
    split <;> exact .on rfl rfl ht ho le_rfl trivial
  | pop c =>
    rcases hpop : s.wb.popFront s.mem with ⟨wb, _ | x⟩ <;> simp only [next, hpop] <;>
      exact .on rfl rfl ht ho le_rfl trivial
  | readBuf c =>
    simp only [next]
    split
    · exact .on rfl rfl ht ho le_rfl trivial
    · split <;> exact .on rfl rfl ht ho le_rfl trivial
  | sentLoad sz =>
    simp only [next]
    split <;> exact .on rfl rfl ht ho le_rfl trivial
  | recvDone sz parsed =>
    simp only [next]
    split
    · exact .on rfl rfl ht ho le_rfl rfl
    · cases parsed
      · exact .on rfl rfl ht ho le_rfl rfl
      · exact .on rfl rfl ht ho le_rfl trivial
  | sendRet c e =>
    cases c <;> cases e <;>
      exact .returns rfl rfl ht ho (by simp [leak])
  | recvRet c => cases c <;> exact .returns rfl rfl ht ho (by simp [leak])

theorem OpenInv.thread (h : OpenInv s (p ::ₘ R)) (hok : noClose s p R) :
    OpenInv (next s p).1 (put (next s p).2 R) := by
  obtain ⟨hg, hi, ht, ho, hl, hp⟩ := next_open h hok
  have hpl := h.plain p (Multiset.mem_cons_self p R)
  refine ⟨hg ▸ h.given_ne, by rw [hi, hg, h.id_eq], ht, ho, ?_, fun q hq => ?_⟩
  · have hbal := balance_next s p (by rintro id rfl; exact hpl) (by rintro rfl; exact hpl)
    have hle := h.refs_le
    rw [load_cons] at hle
    rw [load_put]
    omega
  · rw [hg]
    rcases mem_put.mp hq with hq | hq
    · exact hp q hq
    · exact h.plain q (Multiset.mem_cons_of_mem hq)

theorem OpenInv.start (h : OpenInv s T) (hs : Start s s' p) : OpenInv s' (p ::ₘ T) := by
  have hbal := balance_start hs
  have hle := h.refs_le
  have hplain : s'.given = s.given ∧ s'.id = s.id ∧ s'.type = s.type ∧ s'.owner = s.owner ∧
      p.plain s.given := by
    cases hs with
    | startSend data hid hne hlen =>
      refine ⟨rfl, rfl, rfl, rfl, rfl, ?_⟩
      rintro _ ⟨⟩
      exact ⟨hne, hlen⟩
    | startClose hid => exact ⟨rfl, rfl, rfl, rfl, rfl, by rintro _ ⟨⟩⟩
    | _ => exact ⟨rfl, rfl, rfl, rfl, trivial⟩
  obtain ⟨hg, hi, ht, ho, hp⟩ := hplain
  refine ⟨hg ▸ h.given_ne, by rw [hi, hg, h.id_eq], ht ▸ h.type_ne, ho ▸ h.owner, ?_, ?_⟩
  · rw [load_cons]
    omega
  · intro q hq
    rw [hg]
    rcases Multiset.mem_cons.mp hq with rfl | hq
    · exact hp
    · exact h.plain q hq

/-! ## Who uses the write event -/

/-- The thread uses the write event. -/
def Pc.uses : Pc → Bool
  | .loadB _ | .pop _ | .decReady _ | .storeB _ _ | .readBuf _ | .wsaSend _ _ => true
  | .sentLoad _ | .sentReadOk _ _ | .sentEmpty _ | .sentClear | .sentReset => true
  | _ => false

def usersIn (T : Multiset Pc) : Nat := T.countP fun p => p.uses = true

theorem usersIn_user (hu : p.uses = true) : usersIn (p ::ₘ T) = usersIn T + 1 :=
  Multiset.countP_cons_of_pos (p := fun p : Pc => p.uses = true) T hu

theorem usersIn_other (hu : p.uses = false) : usersIn (p ::ₘ T) = usersIn T :=
  Multiset.countP_cons_of_neg (p := fun p : Pc => p.uses = true) T (by simp [hu])

theorem usersIn_zero (h : usersIn T = 0) : ∀ p ∈ T, p.uses = false :=
  fun p hp => by simpa using Multiset.countP_eq_zero.mp h p hp

/-- The thread is about to ask for the write event. -/
def Pc.comes : Pc → Bool
  | .cas _ | .incReady _ | .sentGuard => true
  | _ => false

/-- The bytes of the write event's buffer. -/
def held (s : Conn) : List UInt8 := s.b.elim [] fun x => (s.mem x).content

/-- The bytes of the buffers `q`. -/
def queued (s : Conn) (q : List Nat) : List UInt8 := q.flatMap fun x => (s.mem x).content

/-- The bytes that have left the queue and are not reported as sent, with a user at `p`. -/
def ahead (s : Conn) : Pc → List UInt8
  | .storeB _ x => (s.mem x).content
  | .sentLoad sz => (held s).drop sz
  | .sentReadOk _ sz => (held s).drop sz
  | _ => held s

/-- A buffer outside of the queue `q`. -/
def Aside (s : Conn) (q : List Nat) (x : Nat) : Prop :=
  (s.mem x).Filled ∧ x ∉ q ∧ x < s.fresh

/-- What the user at `p` knows. -/
def Stage (s : Conn) (q : List Nat) : Pc → Prop
  | .loadB _ => s.b ≠ none → held s ≠ []
  | .pop _ | .decReady _ => s.b = none
  | .storeB _ x => s.b = none ∧ Aside s q x ∧ (s.mem x).content ≠ []
  | .readBuf _ => held s ≠ []
  | .wsaSend _ chunk => chunk = held s ∧ held s ≠ []
  | .sentLoad sz => 0 < sz ∧ sz ≤ (held s).length
  | .sentReadOk x sz => s.b = some x ∧ sz ≤ (held s).length
  | .sentEmpty x => s.b = some x
  | .sentClear => held s = []
  | .sentReset => s.b ≠ none → held s ≠ []
  | _ => True

/-- The invariant of the send protocol; `q` is the list of the queue `wb`. -/
structure SendInv (s : Conn) (T : Multiset Pc) (q : List Nat) : Prop where
  holds : s.wb.Holds s.mem q
  queue : ∀ x ∈ q, (s.mem x).Filled ∧ (s.mem x).content ≠ [] ∧ x < s.fresh
  aside : ∀ x, s.b = some x → Aside s q x
  ready_nonneg : 0 ≤ s.ready
  users : usersIn T + s.sends.length = if s.ready = 0 then 0 else 1
  stage : ∀ p ∈ T, p.uses = true → Stage s q p ∧ s.sent ++ ahead s p ++ queued s q = s.pushed
  out : ∀ chunk ∈ s.sends,
    chunk = held s ∧ held s ≠ [] ∧ s.sent ++ held s ++ queued s q = s.pushed
  free : s.ready = 0 → (s.b ≠ none → held s ≠ []) ∧ s.sent ++ held s ++ queued s q = s.pushed
  wake : s.ready = 0 → (q ≠ [] ∨ s.b ≠ none) → ∃ p ∈ T, p.comes = true
  /-- Who found the queue empty and does not know yet that it is not. -/
  again : ∀ c, Pc.decReady c ∈ T → q ≠ [] → 2 ≤ s.ready ∨ ∃ p ∈ T, p.comes = true

variable {q : List Nat}

/-- The invariant reads the write side of the socket only. -/
theorem SendInv.frame (h : SendInv s T q) (hwb : s'.wb = s.wb) (hmem : s'.mem = s.mem)
    (hb : s'.b = s.b) (hready : s'.ready = s.ready) (hsends : s'.sends = s.sends)
    (hsent : s'.sent = s.sent) (hpushed : s'.pushed = s.pushed) (hfresh : s'.fresh = s.fresh) :
    SendInv s' T q := by
  have hheld : held s' = held s := by rw [held, held, hb, hmem]
  have hqueued : queued s' q = queued s q := by rw [queued, queued, hmem]
  have hahead : ∀ p, ahead s' p = ahead s p := fun p => by cases p <;> simp [ahead, hheld, hmem]
  have haside : ∀ x, Aside s' q x ↔ Aside s q x := fun x => by simp [Aside, hmem, hfresh]
  have hstage : ∀ p, Stage s' q p ↔ Stage s q p := fun p => by
    cases p <;> simp [Stage, hheld, hmem, hb, haside]
  refine ⟨?_, ?_, ?_, ?_, ?_, ?_, ?_, ?_, ?_, ?_⟩
  · rw [hwb, hmem]
    exact h.holds
  · rw [hmem, hfresh]
    exact h.queue
  · intro x hx
    rw [haside]
    exact h.aside x (hb ▸ hx)
  · rw [hready]
    exact h.ready_nonneg
  · rw [hready, hsends]
    exact h.users
  · intro p hp hu
    rw [hstage, hahead, hsent, hqueued, hpushed]
    exact h.stage p hp hu
  · rw [hsends, hheld, hsent, hqueued, hpushed]
    exact h.out
  · rw [hready, hb, hheld, hsent, hqueued, hpushed]
    exact h.free
  · rw [hready, hb]
    exact h.wake
  · rw [hready]
    exact h.again

/-- Other threads may come and go. -/
theorem SendInv.others {T' : Multiset Pc} (h : SendInv s T q)
    (hcount : usersIn T' = usersIn T)
    (hsub : ∀ p ∈ T', p.uses = true → p ∈ T)
    (hcomes : (∃ p ∈ T, p.comes = true) → ∃ p ∈ T', p.comes = true) : SendInv s T' q where
  holds := h.holds
  queue := h.queue
  aside := h.aside
  ready_nonneg := h.ready_nonneg
  users := by rw [hcount]; exact h.users
  stage := fun p hp hu => h.stage p (hsub p hp hu) hu
  out := h.out
  free := h.free
  wake := fun h0 hq => hcomes (h.wake h0 hq)
  again := fun c hc hq => (h.again c (hsub _ hc rfl) hq).imp_right hcomes

/-- A thread that neither uses the event nor is about to ask for it moves on or returns. -/
theorem SendInv.neutral {o : Option Pc} (h : SendInv s (p ::ₘ R) q) (hu : p.uses = false)
    (hc : p.comes = false) (ho : ∀ p' ∈ o, p'.uses = false) : SendInv s (put o R) q := by
  refine h.others ?_ ?_ ?_
  · rw [usersIn_other hu]
    cases o with
    | none => rfl
    | some p' => exact usersIn_other (ho p' rfl)
  · intro p' hp' hu'
    rcases mem_put.mp hp' with hp' | hp'
    · simp [ho p' hp'] at hu'
    · exact Multiset.mem_cons_of_mem hp'
  · rintro ⟨p', hp', hc'⟩
    rcases Multiset.mem_cons.mp hp' with rfl | hp'
    · simp [hc] at hc'
    · exact ⟨p', mem_put.mpr (.inr hp'), hc'⟩

/-- A thread is added that does not use the event. -/
theorem SendInv.add (h : SendInv s T q) (hu : p.uses = false) : SendInv s (p ::ₘ T) q := by
  refine h.others (usersIn_other hu) ?_ ?_
  · intro p' hp' hu'
    rcases Multiset.mem_cons.mp hp' with rfl | hp'
    · simp [hu] at hu'
    · exact hp'
  · rintro ⟨p', hp', hc'⟩
    exact ⟨p', Multiset.mem_cons_of_mem hp', hc'⟩

/-- A thread that uses the event is the only user. -/
theorem SendInv.alone (h : SendInv s (p ::ₘ R) q) (hu : p.uses = true) :
    usersIn R = 0 ∧ s.sends = [] ∧ 0 < s.ready := by
  have hn := h.users
  have hr := h.ready_nonneg
  rw [usersIn_user hu] at hn
  split at hn
  · omega
  · exact ⟨by omega, List.length_eq_zero_iff.mp (by omega), by omega⟩

/-- A thread is the only user of the event. -/
theorem SendInv.use (holds : s.wb.Holds s.mem q)
    (queue : ∀ x ∈ q, (s.mem x).Filled ∧ (s.mem x).content ≠ [] ∧ x < s.fresh)
    (aside : ∀ x, s.b = some x → Aside s q x) (hready : 0 < s.ready)
    (hR : usersIn R = 0) (hsends : s.sends = []) (hu : p.uses = true)
    (hstage : Stage s q p) (hall : s.sent ++ ahead s p ++ queued s q = s.pushed)
    (hagain : ∀ c, p = .decReady c → q ≠ [] → 2 ≤ s.ready ∨ ∃ p' ∈ p ::ₘ R, p'.comes = true) :
    SendInv s (p ::ₘ R) q where
  holds := holds
  queue := queue
  aside := aside
  ready_nonneg := hready.le
  users := by
    rw [usersIn_user hu, hR, hsends, if_neg hready.ne']
    rfl
  stage := fun p' hp' hu' => by
    rcases Multiset.mem_cons.mp hp' with rfl | hp'
    · exact ⟨hstage, hall⟩
    · rw [usersIn_zero hR p' hp'] at hu'
      cases hu'
  out := fun chunk hc => by
    rw [hsends] at hc
    cases hc
  free := fun h0 => absurd h0 hready.ne'
  wake := fun h0 => absurd h0 hready.ne'
  again := fun c hc hq => by
    rcases Multiset.mem_cons.mp hc with hc | hc
    · exact hagain c hc.symm hq
    · cases usersIn_zero hR _ hc

/-! ## The steps -/

/-- Both ways to get the event: `ready` goes from 0 to 1. -/
theorem SendInv.take {c : SendCaller} (h : SendInv s (p ::ₘ R) q) (h0 : s.ready = 0) :
    SendInv { s with ready := 1 } (.loadB c ::ₘ R) q := by
  have hn := h.users
  rw [if_pos h0] at hn
  have hle : usersIn R ≤ usersIn (p ::ₘ R) := Multiset.countP_le_of_le _ (Multiset.le_cons_self R p)
  obtain ⟨hb, hall⟩ := h.free h0
  exact .use h.holds h.queue h.aside Int.zero_lt_one (by omega)
    (List.length_eq_zero_iff.mp (by show s.sends.length = 0; omega)) rfl hb hall (by rintro c ⟨⟩)

theorem SendInv.cas {c : SendCaller} (h : SendInv s (.cas c ::ₘ R) q) :
    SendInv (next s (.cas c)).1 (put (next s (.cas c)).2 R) q := by
  simp only [next]
  split
  · next h0 => exact h.take h0
  · refine h.others ?_ ?_ fun _ => ⟨_, Multiset.mem_cons_self _ _, rfl⟩
    · exact (usersIn_other rfl).trans (usersIn_other rfl).symm
    · intro p' hp' hu
      rcases Multiset.mem_cons.mp hp' with rfl | hp'
      · cases hu
      · exact Multiset.mem_cons_of_mem hp'

theorem SendInv.incReady {c : SendCaller} (h : SendInv s (.incReady c ::ₘ R) q) :
    SendInv (next s (.incReady c)).1 (put (next s (.incReady c)).2 R) q := by
  have hr := h.ready_nonneg
  simp only [next]
  by_cases h0 : s.ready = 0
  · simp only [h0]
    exact h.take h0
  · rw [if_pos (by omega)]
    -- The event is in use, and its user will not miss the new value.
    have hmem : ∀ p' ∈ Pc.sendRet c .ioPending ::ₘ R, p'.uses = true →
        p' ∈ Pc.incReady c ::ₘ R := by
      intro p' hp' hu
      rcases Multiset.mem_cons.mp hp' with rfl | hp'
      · cases hu
      · exact Multiset.mem_cons_of_mem hp'
    have hone : s.ready + 1 ≠ 0 := by omega
    exact {
      holds := h.holds
      queue := h.queue
      aside := h.aside
      ready_nonneg := by show 0 ≤ s.ready + 1; omega
      users := by
        have hn := h.users
        rw [if_neg h0, usersIn_other rfl] at hn
        rw [if_neg hone, put, usersIn_other rfl]
        exact hn
      stage := fun p' hp' hu => h.stage p' (hmem p' hp' hu) hu
      out := h.out
      free := fun h0' => absurd h0' hone
      wake := fun h0' => absurd h0' hone
      again := fun _ _ _ => .inl (by show 2 ≤ s.ready + 1; omega) }

theorem held_of_none (hb : s.b = none) : held s = [] := by rw [held, hb]; rfl

theorem held_of_some {x : Nat} (hb : s.b = some x) : held s = (s.mem x).content := by
  rw [held, hb]; rfl

theorem SendInv.loadB {c : SendCaller} (h : SendInv s (.loadB c ::ₘ R) q) :
    SendInv (next s (.loadB c)).1 (put (next s (.loadB c)).2 R) q := by
  obtain ⟨hR, hsends, hready⟩ := h.alone rfl
  obtain ⟨hst, hall⟩ := h.stage _ (Multiset.mem_cons_self _ _) rfl
  simp only [next]
  split
  · next hb => exact .use h.holds h.queue h.aside hready hR hsends rfl hb hall (by rintro c ⟨⟩)
  · next hb => exact .use h.holds h.queue h.aside hready hR hsends rfl (hst hb) hall (by rintro c ⟨⟩)

theorem SendInv.pop {c : SendCaller} (h : SendInv s (.pop c ::ₘ R) q) :
    ∃ q', SendInv (next s (.pop c)).1 (put (next s (.pop c)).2 R) q' := by
  obtain ⟨hR, hsends, hready⟩ := h.alone rfl
  obtain ⟨hb, hall⟩ := h.stage _ (Multiset.mem_cons_self _ _) rfl
  have hb : s.b = none := hb
  cases q with
  | nil =>
    have hpop := h.holds.popFront_nil
    simp only [next, hpop]
    exact ⟨[], .use BufferHead.holds_nil h.queue h.aside hready hR hsends rfl hb hall
      fun _ _ hq => absurd rfl hq⟩
  | cons x q =>
    obtain ⟨hpop, hholds⟩ := h.holds.popFront_cons
    rcases hwb : s.wb.popFront s.mem with ⟨wb, o⟩
    rw [hwb] at hpop hholds
    obtain rfl : o = some x := hpop
    simp only [next, hwb]
    obtain ⟨hf, hne, hlt⟩ := h.queue x (by simp)
    have hx : x ∉ q := (List.nodup_cons.mp h.holds.nodup).1
    refine ⟨q, .use hholds (fun y hy => h.queue y (List.mem_cons_of_mem _ hy))
      (fun y hy => by cases hb.symm.trans hy) hready hR hsends rfl ⟨hb, ⟨hf, hx, hlt⟩, hne⟩ ?_
      (by rintro c ⟨⟩)⟩
    have hall : s.sent ++ held s ++ queued s (x :: q) = s.pushed := hall
    rw [held_of_none hb] at hall
    simpa [ahead, queued] using hall

theorem SendInv.decReady {c : SendCaller} (h : SendInv s (.decReady c ::ₘ R) q) :
    SendInv (next s (.decReady c)).1 (put (next s (.decReady c)).2 R) q := by
  obtain ⟨hR, hsends, hready⟩ := h.alone rfl
  obtain ⟨hb, hall⟩ := h.stage _ (Multiset.mem_cons_self _ _) rfl
  have hb : s.b = none := hb
  simp only [next]
  split
  · next hpos =>
    exact .use (s := { s with ready := s.ready - 1 }) h.holds h.queue h.aside hpos hR hsends rfl
      (fun hne => absurd hb hne) hall (by rintro c ⟨⟩)
  · next hpos =>
    have h0 : s.ready - 1 = 0 := by omega
    have hmem : ∀ p' ∈ Pc.sendRet c .buffEmpty ::ₘ R, p'.uses = false := by
      intro p' hp'
      rcases Multiset.mem_cons.mp hp' with rfl | hp'
      · rfl
      · exact usersIn_zero hR p' hp'
    exact {
      holds := h.holds
      queue := h.queue
      aside := h.aside
      ready_nonneg := by show 0 ≤ s.ready - 1; omega
      users := by simp only [put, usersIn_other (p := .sendRet c .buffEmpty) rfl, hR, hsends, h0]; rfl
      stage := fun p' hp' hu => by rw [hmem p' hp'] at hu; cases hu
      out := fun chunk hc => by
        have hc : chunk ∈ s.sends := hc
        rw [hsends] at hc
        cases hc
      free := fun _ => ⟨fun hne => absurd hb hne, hall⟩
      -- A buffer that came meanwhile has raised `ready` above 1 or has its thread on the way.
      wake := fun _ hq => by
        have hq : q ≠ [] := hq.resolve_right fun hne => hne hb
        rcases h.again c (Multiset.mem_cons_self _ _) hq with h2 | ⟨p', hp', hc⟩
        · omega
        · rcases Multiset.mem_cons.mp hp' with rfl | hp'
          · cases hc
          · exact ⟨p', Multiset.mem_cons_of_mem hp', hc⟩
      again := fun c' hc' => by cases hmem _ hc' }

theorem SendInv.storeB {c : SendCaller} {x : Nat} (h : SendInv s (.storeB c x ::ₘ R) q) :
    SendInv (next s (.storeB c x)).1 (put (next s (.storeB c x)).2 R) q := by
  obtain ⟨hR, hsends, hready⟩ := h.alone rfl
  obtain ⟨⟨-, haside, hne⟩, hall⟩ := h.stage _ (Multiset.mem_cons_self _ _) rfl
  refine .use (s := { s with b := some x }) h.holds h.queue ?_ hready hR hsends rfl hne hall
    (by rintro c ⟨⟩)
  rintro y ⟨⟩
  exact haside

theorem SendInv.readBuf {c : SendCaller} (h : SendInv s (.readBuf c ::ₘ R) q) :
    SendInv (next s (.readBuf c)).1 (put (next s (.readBuf c)).2 R) q := by
  obtain ⟨hR, hsends, hready⟩ := h.alone rfl
  obtain ⟨hne, hall⟩ := h.stage _ (Multiset.mem_cons_self _ _) rfl
  have hne : held s ≠ [] := hne
  cases hb : s.b with
  | none => exact absurd (held_of_none hb) hne
  | some x =>
    have hheld := held_of_some hb
    obtain ⟨hread, hregion⟩ := (h.aside x hb).1.readbuffer_eq (hheld ▸ hne)
    simp only [next, hb, hread, hregion]
    exact .use h.holds h.queue h.aside hready hR hsends rfl ⟨hheld.symm, hne⟩ hall
      (by rintro c ⟨⟩)

/-- The operation takes over from the thread that starts it. -/
theorem SendInv.wsaSend {c : SendCaller} {chunk : List UInt8}
    (h : SendInv s (.wsaSend c chunk ::ₘ R) q) :
    SendInv (next s (.wsaSend c chunk)).1 (put (next s (.wsaSend c chunk)).2 R) q := by
  obtain ⟨hR, hsends, hready⟩ := h.alone rfl
  obtain ⟨⟨hchunk, hne⟩, hall⟩ := h.stage _ (Multiset.mem_cons_self _ _) rfl
  have hmem : ∀ p' ∈ Pc.sendRet c .noError ::ₘ R, p'.uses = false := by
    intro p' hp'
    rcases Multiset.mem_cons.mp hp' with rfl | hp'
    · rfl
    · exact usersIn_zero hR p' hp'
  exact {
    holds := h.holds
    queue := h.queue
    aside := h.aside
    ready_nonneg := hready.le
    users := by
      show usersIn (Pc.sendRet c .noError ::ₘ R) + (chunk :: s.sends).length =
        if s.ready = 0 then 0 else 1
      rw [usersIn_other rfl, hR, hsends, if_neg hready.ne']
      rfl
    stage := fun p' hp' hu => by rw [hmem p' hp'] at hu; cases hu
    out := fun chunk' hc => by
      have hc : chunk' ∈ chunk :: s.sends := hc
      rw [hsends, List.mem_singleton] at hc
      exact ⟨hc.trans hchunk, hne, hall⟩
    free := fun h0 => absurd h0 hready.ne'
    wake := fun h0 => absurd h0 hready.ne'
    again := fun c' hc' => by cases hmem _ hc' }

theorem SendInv.sentLoad {sz : Nat} (h : SendInv s (.sentLoad sz ::ₘ R) q) :
    SendInv (next s (.sentLoad sz)).1 (put (next s (.sentLoad sz)).2 R) q := by
  obtain ⟨hR, hsends, hready⟩ := h.alone rfl
  obtain ⟨⟨hpos, hle⟩, hall⟩ := h.stage _ (Multiset.mem_cons_self _ _) rfl
  cases hb : s.b with
  | none =>
    rw [held_of_none hb, List.length_nil] at hle
    omega
  | some x =>
    simp only [next, hb]
    exact .use h.holds h.queue h.aside hready hR hsends rfl ⟨hb, hle⟩ hall (by rintro c ⟨⟩)

/-- `read_ok` drops what was reported from the buffer. -/
theorem SendInv.sentReadOk {x sz : Nat} (h : SendInv s (.sentReadOk x sz ::ₘ R) q) :
    SendInv (next s (.sentReadOk x sz)).1 (put (next s (.sentReadOk x sz)).2 R) q := by
  obtain ⟨hR, hsends, hready⟩ := h.alone rfl
  obtain ⟨⟨hb, hle⟩, hall⟩ := h.stage _ (Multiset.mem_cons_self _ _) rfl
  have hheld := held_of_some hb
  obtain ⟨hf, hx, hlt⟩ := h.aside x hb
  rw [hheld] at hle
  have hlen := hf.content_length
  have hassert : sz ≤ sub32 (s.mem x).inp (s.mem x).out := by
    have := hf.inp_le
    have := hf.size_lt
    rw [RingBuffer.sub32_eq hf.out_le (by omega)]
    omega
  obtain ⟨hf', hcont⟩ := hf.readOk hle
  have hmem : ∀ y, y ≠ x → Function.update s.mem x ((s.mem x).readOk sz) y = s.mem y :=
    fun y hy => Function.update_of_ne hy _ _
  have hq : ∀ y ∈ q, y ≠ x := fun y hy e => hx (e ▸ hy)
  simp only [next, if_pos hassert]
  refine .use ?_ ?_ ?_ hready hR hsends rfl hb ?_ (by rintro c ⟨⟩)
  · exact h.holds.congr fun y hy => congrArg RingBuffer.next (hmem y (hq y hy))
  · intro y hy
    have hy' := h.queue y hy
    rw [← hmem y (hq y hy)] at hy'
    exact hy'
  · intro y hy
    obtain rfl : x = y := Option.some_inj.mp (hb.symm.trans hy)
    exact ⟨by simpa using hf', hx, hlt⟩
  · have hall : s.sent ++ (held s).drop sz ++ queued s q = s.pushed := hall
    rw [hheld] at hall
    simp only [ahead, held, hb, Option.elim_some, Function.update_self, hcont]
    rw [← hall]
    congr 1
    exact List.flatMap_congr fun y hy => congrArg RingBuffer.content (hmem y (hq y hy))

theorem SendInv.sentEmpty {x : Nat} (h : SendInv s (.sentEmpty x ::ₘ R) q) :
    SendInv (next s (.sentEmpty x)).1 (put (next s (.sentEmpty x)).2 R) q := by
  obtain ⟨hR, hsends, hready⟩ := h.alone rfl
  obtain ⟨hb, hall⟩ := h.stage _ (Multiset.mem_cons_self _ _) rfl
  have hnil := (h.aside x hb).1.content_nil
  rw [← held_of_some hb] at hnil
  simp only [next]
  split
  · next he =>
    exact .use h.holds h.queue h.aside hready hR hsends rfl (hnil.mpr he) hall (by rintro c ⟨⟩)
  · next he =>
    exact .use h.holds h.queue h.aside hready hR hsends rfl (fun _ hn => he (hnil.mp hn)) hall
      (by rintro c ⟨⟩)

theorem SendInv.sentClear (h : SendInv s (.sentClear ::ₘ R) q) :
    SendInv (next s .sentClear).1 (put (next s .sentClear).2 R) q := by
  obtain ⟨hR, hsends, hready⟩ := h.alone rfl
  obtain ⟨hnil, hall⟩ := h.stage _ (Multiset.mem_cons_self _ _) rfl
  have hall : s.sent ++ held s ++ queued s q = s.pushed := hall
  rw [show held s = [] from hnil] at hall
  exact .use (s := { s with b := none }) h.holds h.queue (by rintro y ⟨⟩) hready hR hsends rfl
    (fun hne => absurd rfl hne) hall (by rintro c ⟨⟩)

/-- The handler gives the event back and is itself the one to come for what is left. -/
theorem SendInv.sentReset (h : SendInv s (.sentReset ::ₘ R) q) :
    SendInv (next s .sentReset).1 (put (next s .sentReset).2 R) q := by
  obtain ⟨hR, hsends, hready⟩ := h.alone rfl
  obtain ⟨hst, hall⟩ := h.stage _ (Multiset.mem_cons_self _ _) rfl
  have hmem : ∀ p' ∈ Pc.sentGuard ::ₘ R, p'.uses = false := by
    intro p' hp'
    rcases Multiset.mem_cons.mp hp' with rfl | hp'
    · rfl
    · exact usersIn_zero hR p' hp'
  exact {
    holds := h.holds
    queue := h.queue
    aside := h.aside
    ready_nonneg := le_rfl
    users := by
      show usersIn (Pc.sentGuard ::ₘ R) + s.sends.length = 0
      rw [usersIn_other rfl, hR, hsends]
      rfl
    stage := fun p' hp' hu => by rw [hmem p' hp'] at hu; cases hu
    out := fun chunk hc => by
      have hc : chunk ∈ s.sends := hc
      rw [hsends] at hc
      cases hc
    free := fun _ => ⟨hst, hall⟩
    wake := fun _ _ => ⟨.sentGuard, Multiset.mem_cons_self _ _, rfl⟩
    again := fun c' hc' => by cases hmem _ hc' }

theorem SendInv.sentGuard (h : SendInv s (.sentGuard ::ₘ R) q) (hopen : s.pending + 1 ≠ 2) :
    SendInv (next s .sentGuard).1 (put (next s .sentGuard).2 R) q := by
  have hcas : SendInv s (.cas .onEvSend ::ₘ R) q := by
    refine h.others ?_ ?_ fun _ => ⟨_, Multiset.mem_cons_self _ _, rfl⟩
    · exact (usersIn_other rfl).trans (usersIn_other rfl).symm
    · intro p' hp' hu
      rcases Multiset.mem_cons.mp hp' with rfl | hp'
      · cases hu
      · exact Multiset.mem_cons_of_mem hp'
  simp only [next, guard, if_neg hopen]
  exact hcas.frame rfl rfl rfl rfl rfl rfl rfl rfl

/-- The bytes of the buffers there were are not changed by `push_back`. -/
theorem push_bytes (s : Conn) (data : List UInt8) {x : Nat} (hx : x ≠ s.fresh) :
    ((next s (.push data)).1.mem x).content = (s.mem x).content ∧
      (((next s (.push data)).1.mem x).Filled ↔ (s.mem x).Filled) := by
  obtain ⟨n, hn⟩ := BufferHead.pushBack_bytes
    (Function.update s.mem s.fresh (RingBuffer.ofData data)) s.wb s.fresh x
  rw [Function.update_of_ne hx] at hn
  have hmem : (next s (.push data)).1.mem x = { s.mem x with next := n } := hn
  rw [hmem]
  exact ⟨rfl, fun h => ⟨h.1, h.2, h.3, h.4⟩, fun h => ⟨h.1, h.2, h.3, h.4⟩⟩

theorem push_new (s : Conn) (data : List UInt8) (hlen : data.length < 2 ^ 31) :
    ((next s (.push data)).1.mem s.fresh).content = data ∧
      ((next s (.push data)).1.mem s.fresh).Filled := by
  obtain ⟨n, hn⟩ := BufferHead.pushBack_bytes
    (Function.update s.mem s.fresh (RingBuffer.ofData data)) s.wb s.fresh s.fresh
  rw [Function.update_self] at hn
  have hmem : (next s (.push data)).1.mem s.fresh =
      { RingBuffer.ofData data with next := n } := hn
  obtain ⟨hf, hc⟩ := RingBuffer.filled_ofData data (by omega)
  rw [hmem]
  exact ⟨hc, hf.1, hf.2, hf.3, hf.4⟩

/-- A payload goes to the end of the queue and its thread comes for the event. -/
theorem SendInv.push {data : List UInt8} (h : SendInv s (.push data ::ₘ R) q) (hne : data ≠ [])
    (hlen : data.length < 2 ^ 31) :
    SendInv (next s (.push data)).1 (put (next s (.push data)).2 R) (q ++ [s.fresh]) := by
  have hold : ∀ x ∈ q, x ≠ s.fresh := fun x hx => (h.queue x hx).2.2.ne
  have hfresh : s.fresh ∉ q := fun hm => hold _ hm rfl
  obtain ⟨hnew, hfilled⟩ := push_new s data hlen
  have hholds : BufferHead.Holds (next s (.push data)).1.mem (next s (.push data)).1.wb
      (q ++ [s.fresh]) := by
    refine BufferHead.Holds.pushBack (h.holds.congr fun x hx => ?_) hfresh ?_
    · rw [Function.update_of_ne (hold x hx)]
    · rw [Function.update_self]
      exact RingBuffer.ofData_next data
  have hbne : ∀ x, s.b = some x → x ≠ s.fresh := fun x hx => (h.aside x hx).2.2.ne
  have haside : ∀ x, Aside s q x → Aside (next s (.push data)).1 (q ++ [s.fresh]) x := by
    rintro x ⟨hf, hx, hlt⟩
    refine ⟨(push_bytes s data hlt.ne).2.mpr hf, ?_, Nat.lt_succ_of_lt hlt⟩
    simp [hx, hlt.ne]
  have hheld : held (next s (.push data)).1 = held s := by
    cases hb : s.b with
    | none =>
      have hb' : (next s (.push data)).1.b = none := hb
      rw [held_of_none hb, held_of_none hb']
    | some x =>
      have hb' : (next s (.push data)).1.b = some x := hb
      rw [held_of_some hb, held_of_some hb', (push_bytes s data (hbne x hb)).1]
  have hqueued : queued (next s (.push data)).1 (q ++ [s.fresh]) = queued s q ++ data := by
    rw [queued, List.flatMap_append, List.flatMap_singleton, hnew, queued]
    congr 1
    exact List.flatMap_congr fun x hx => (push_bytes s data (hold x hx)).1
  have hall : ∀ a, s.sent ++ a ++ queued s q = s.pushed →
      s.sent ++ a ++ queued (next s (.push data)).1 (q ++ [s.fresh]) = s.pushed ++ data := by
    intro a ha
    rw [hqueued, ← List.append_assoc, ha]
  have hstage : ∀ p', Stage s q p' → Stage (next s (.push data)).1 (q ++ [s.fresh]) p' ∧
      ahead (next s (.push data)).1 p' = ahead s p' := by
    intro p' hst
    cases p' with
    | storeB c x =>
      obtain ⟨hb, ha, hc⟩ := hst
      have hcont := (push_bytes s data ha.2.2.ne).1
      exact ⟨⟨hb, haside x ha, hcont.symm ▸ hc⟩, hcont⟩
    | loadB c | readBuf c | wsaSend c chunk | sentLoad sz | sentReadOk x sz | sentClear | sentReset =>
      exact ⟨by rw [Stage, hheld]; exact hst, by simp only [ahead, hheld]⟩
    | _ => exact ⟨hst, by simp only [ahead, hheld]⟩
  have hmem : ∀ p' ∈ Pc.cas .startSend ::ₘ R, p'.uses = true → p' ∈ Pc.push data ::ₘ R := by
    intro p' hp' hu
    rcases Multiset.mem_cons.mp hp' with rfl | hp'
    · cases hu
    · exact Multiset.mem_cons_of_mem hp'
  have hcomes : ∃ p' ∈ Pc.cas .startSend ::ₘ R, p'.comes = true :=
    ⟨_, Multiset.mem_cons_self _ _, rfl⟩
  exact {
    holds := hholds
    queue := fun x hx => by
      rcases List.mem_append.mp hx with hx | hx
      · obtain ⟨hf, hc, hlt⟩ := h.queue x hx
        obtain ⟨hcont, hfill⟩ := push_bytes s data (hold x hx)
        exact ⟨hfill.mpr hf, by rw [hcont]; exact hc, Nat.lt_succ_of_lt hlt⟩
      · obtain rfl := List.mem_singleton.mp hx
        exact ⟨hfilled, by rw [hnew]; exact hne, Nat.lt_succ_self _⟩
    aside := fun x hx => haside x (h.aside x hx)
    ready_nonneg := h.ready_nonneg
    users := by
      have hn := h.users
      rw [usersIn_other rfl] at hn
      show usersIn (Pc.cas .startSend ::ₘ R) + s.sends.length = if s.ready = 0 then 0 else 1
      rw [usersIn_other rfl]
      exact hn
    stage := fun p' hp' hu => by
      obtain ⟨hst, heq⟩ := h.stage p' (hmem p' hp' hu) hu
      obtain ⟨hst', hahead⟩ := hstage p' hst
      rw [hahead]
      exact ⟨hst', hall _ heq⟩
    out := fun chunk hc => by
      obtain ⟨hch, hn, heq⟩ := h.out chunk hc
      rw [hheld]
      exact ⟨hch, hn, hall _ heq⟩
    free := fun h0 => by
      obtain ⟨hn, heq⟩ := h.free h0
      rw [hheld]
      exact ⟨hn, hall _ heq⟩
    wake := fun _ _ => hcomes
    again := fun _ _ _ => .inr hcomes }

/-- **One step of a thread.** -/
theorem SendInv.thread (h : SendInv s (p ::ₘ R) q) (ho : OpenInv s (p ::ₘ R))
    (hok : noClose s p R) : ∃ q', SendInv (next s p).1 (put (next s p).2 R) q' := by
  have hplain := ho.plain p (Multiset.mem_cons_self p R)
  cases p with
  | connReserve id | connType id | connInc id | connEx id | closeType | closeTest | closeSet
  | closeDrop | fcRead | fcWrite | fcReset => exact hplain.elim
  | push data => exact ⟨_, h.push hplain.1 hplain.2⟩
  | cas c => exact ⟨q, h.cas⟩
  | incReady c => exact ⟨q, h.incReady⟩
  | loadB c => exact ⟨q, h.loadB⟩
  | pop c => exact h.pop
  | decReady c => exact ⟨q, h.decReady⟩
  | storeB c x => exact ⟨q, h.storeB⟩
  | readBuf c => exact ⟨q, h.readBuf⟩
  | wsaSend c chunk => exact ⟨q, h.wsaSend⟩
  | sentLoad sz => exact ⟨q, h.sentLoad⟩
  | sentReadOk x sz => exact ⟨q, h.sentReadOk⟩
  | sentEmpty x => exact ⟨q, h.sentEmpty⟩
  | sentClear => exact ⟨q, h.sentClear⟩
  | sentReset => exact ⟨q, h.sentReset⟩
  | sentGuard =>
    have hge := ho.pending_ge
    simp only [Pc.refs] at hge
    exact ⟨q, h.sentGuard (by omega)⟩
  -- The rest does not touch the write side.
  | grub id req | connDone | wsaRecv c =>
    exact ⟨q, (h.neutral rfl rfl (by rintro _ ⟨⟩; rfl)).frame rfl rfl rfl rfl rfl rfl rfl rfl⟩
  | grubCheck id req =>
    simp only [next]
    split
    · cases req <;> exact ⟨q, h.neutral rfl rfl (by rintro _ ⟨⟩; rfl)⟩
    · exact ⟨q, h.neutral rfl rfl (by rintro _ ⟨⟩; rfl)⟩
  | sendRet c e =>
    cases c <;>
      exact ⟨q, (h.neutral rfl rfl (by rintro _ ⟨⟩)).frame rfl rfl rfl rfl rfl rfl rfl rfl⟩
  | connGuard | recvGuard =>
    simp only [next, guard]
    split <;>
      exact ⟨q, (h.neutral rfl rfl (by rintro _ ⟨⟩; rfl)).frame rfl rfl rfl rfl rfl rfl rfl rfl⟩
  | recvDone sz parsed =>
    simp only [next]
    split
    · exact ⟨q, h.neutral rfl rfl (by rintro _ ⟨⟩; rfl)⟩
    · cases parsed <;>
        exact ⟨q, (h.neutral rfl rfl (by rintro _ ⟨⟩; rfl)).frame rfl rfl rfl rfl rfl rfl rfl rfl⟩
  | recvArm c =>
    simp only [next]
    split
    · exact ⟨q, (h.neutral rfl rfl (by rintro _ ⟨⟩; rfl)).frame rfl rfl rfl rfl rfl rfl rfl rfl⟩
    · exact ⟨q, h.neutral rfl rfl (by rintro _ ⟨⟩; rfl)⟩
  | recvRet c =>
    cases c <;>
      exact ⟨q, (h.neutral rfl rfl (by rintro _ ⟨⟩)).frame rfl rfl rfl rfl rfl rfl rfl rfl⟩
  | innerClose ref =>
    simp only [next, innerClose]
    split
    · exact ⟨q, (h.neutral rfl rfl (by rintro _ ⟨⟩; rfl)).frame rfl rfl rfl rfl rfl rfl rfl rfl⟩
    · exact ⟨q, (h.neutral rfl rfl (by rintro _ ⟨⟩)).frame rfl rfl rfl rfl rfl rfl rfl rfl⟩

/-- The handler of a completion takes over from the operation. -/
theorem SendInv.sentOut {chunk : List UInt8} {sz : Nat} (h : SendInv s T q) (hs : chunk ∈ s.sends)
    (hpos : 0 < sz) (hle : sz ≤ chunk.length) :
    SendInv { s with sends := s.sends.erase chunk, sent := s.sent ++ chunk.take sz }
      (.sentLoad sz ::ₘ T) q := by
  have hn := h.users
  have hsome := List.length_pos_of_mem hs
  have hready : 0 < s.ready := by
    have := h.ready_nonneg
    by_cases h0 : s.ready = 0
    · rw [if_pos h0] at hn
      omega
    · omega
  rw [if_neg hready.ne'] at hn
  obtain ⟨rfl, -, hall⟩ := h.out chunk hs
  have hone : s.sends = [held s] := by
    obtain ⟨c, hc⟩ := List.length_eq_one_iff.mp (show s.sends.length = 1 by omega)
    rw [hc, List.mem_singleton] at hs
    rw [hc, hs]
  refine .use h.holds h.queue h.aside hready (by omega) ?_ rfl ⟨hpos, hle⟩ ?_ (by rintro c ⟨⟩)
  · simp [hone]
  · show s.sent ++ (held s).take sz ++ (held s).drop sz ++ queued s q = s.pushed
    rw [List.append_assoc s.sent, List.take_append_drop]
    exact hall

theorem SendInv.start (h : SendInv s T q) (hs : Start s s' p) : SendInv s' (p ::ₘ T) q := by
  cases hs with
  | startSend data hid hne hlen => exact h.add rfl
  | startClose hid => exact h.add rfl
  | connected hr hc => exact (h.add rfl).frame rfl rfl rfl rfl rfl rfl rfl rfl
  | received sz parsed hr hc => exact (h.add rfl).frame rfl rfl rfl rfl rfl rfl rfl rfl
  | sentOut chunk sz hs hpos hle => exact h.sentOut hs hpos hle

/-! ## Whole runs -/

/-- A socket with an owner on which nothing has been sent yet. -/
structure Connected (s : Conn) : Prop where
  given_ne : s.given ≠ 0
  id_eq : s.id = s.given
  type_ne : s.type ≠ .invalid
  owner : s.owner = true
  /-- The owner and the outstanding operations are counted. -/
  pending_ge : (1 : ℤ) + s.reads ≤ s.pending
  ready_eq : s.ready = 0
  b_eq : s.b = none
  wb_eq : s.wb = ⟨none, none⟩
  sends_eq : s.sends = []
  pushed_eq : s.pushed = []
  sent_eq : s.sent = []

theorem Connected.openInv (h : Connected s) : OpenInv s 0 where
  given_ne := h.given_ne
  id_eq := h.id_eq
  type_ne := h.type_ne
  owner := h.owner
  refs_le := by
    have := h.pending_ge
    rw [load_zero, excess, h.owner, h.sends_eq]
    simp only [List.length_nil, Bool.toNat_true, Nat.cast_zero, Nat.cast_one]
    omega
  plain := fun p hp => absurd hp (Multiset.notMem_zero p)

theorem Connected.sendInv (h : Connected s) : SendInv s 0 [] where
  holds := h.wb_eq ▸ BufferHead.holds_nil
  queue := fun x hx => by cases hx
  aside := fun x hx => by
    rw [h.b_eq] at hx
    cases hx
  ready_nonneg := h.ready_eq.ge
  users := by
    rw [h.sends_eq, if_pos h.ready_eq]
    rfl
  stage := fun p hp => absurd hp (Multiset.notMem_zero p)
  out := fun chunk hc => by
    rw [h.sends_eq] at hc
    cases hc
  free := fun _ => ⟨fun hne => absurd h.b_eq hne, by
    rw [held_of_none h.b_eq, h.sent_eq, h.pushed_eq]
    rfl⟩
  wake := fun _ hq => hq.elim (fun hne => absurd rfl hne) fun hne => absurd h.b_eq hne
  again := fun c hc => absurd hc (Multiset.notMem_zero _)

/-- The thread is inside `start_send` or `on_ev_send`. -/
def Pc.sending : Pc → Bool
  | .grub _ (.send _) | .grubCheck _ (.send _) | .push _ => true
  | .cas _ | .incReady _ | .loadB _ | .pop _ | .decReady _ | .storeB _ _ | .readBuf _
  | .wsaSend _ _ | .sendRet _ _ => true
  | .sentLoad _ | .sentReadOk _ _ | .sentEmpty _ | .sentClear | .sentReset | .sentGuard => true
  | _ => false

theorem Pc.sending_of_comes (h : p.comes = true) : p.sending = true := by
  cases p <;> first | rfl | cases h

theorem Pc.sending_of_uses (h : p.uses = true) : p.sending = true := by
  cases p <;> first | rfl | cases h

/-- **The send protocol.** In every state reached by any number of `start_send` calls and
completions on a socket that is not closed: at most one `WSASend` is outstanding, the bytes reported
sent are a prefix of the payloads in the order of `push_back`, and when no `WSASend` is outstanding
and no thread is inside `start_send` or `on_ev_send` nothing is left in the queue or the event. -/
theorem send_protocol {s₀ : Conn} {S : Sys Conn Pc} (h₀ : Connected s₀)
    (hrun : Reach program noClose ⟨s₀, 0⟩ S) :
    S.shared.sends.length ≤ 1 ∧ S.shared.sent <+: S.shared.pushed ∧
      (S.shared.sends = [] → (∀ p ∈ S.threads, p.sending = false) →
        S.shared.wb.head = none ∧ S.shared.b = none) := by
  have hinv : OpenInv S.shared S.threads ∧ ∃ q, SendInv S.shared S.threads q := by
    refine hrun.invariant (I := fun s T => OpenInv s T ∧ ∃ q, SendInv s T q)
      ⟨h₀.openInv, [], h₀.sendInv⟩ ?_ ?_
    · rintro s p R hok ⟨ho, q, h⟩
      exact ⟨ho.thread hok, h.thread ho hok⟩
    · rintro s s' p T hs ⟨ho, q, h⟩
      exact ⟨ho.start hs, q, h.start hs⟩
  obtain ⟨-, q, h⟩ := hinv
  have hn := h.users
  refine ⟨?_, ?_, fun hsends hidle => ?_⟩
  · split at hn <;> omega
  · -- Whoever has the event knows where in the payloads it is.
    by_cases h0 : S.shared.ready = 0
    · exact ⟨_, by rw [← List.append_assoc]; exact (h.free h0).2⟩
    · rw [if_neg h0] at hn
      by_cases hu : usersIn S.threads = 0
      · obtain ⟨chunk, hc⟩ := List.exists_mem_of_length_pos (show 0 < S.shared.sends.length by omega)
        exact ⟨_, by rw [← List.append_assoc]; exact (h.out chunk hc).2.2⟩
      · obtain ⟨p, hp, hpu⟩ := Multiset.countP_pos.mp (Nat.pos_of_ne_zero hu)
        exact ⟨_, by rw [← List.append_assoc]; exact (h.stage p hp hpu).2⟩
  · have hu : usersIn S.threads = 0 := Multiset.countP_eq_zero.mpr fun p hp hpu => by
      have := hidle p hp
      rw [Pc.sending_of_uses hpu] at this
      cases this
    have h0 : S.shared.ready = 0 := by
      by_contra h0
      rw [hu, hsends, if_neg h0] at hn
      cases hn
    have hcomes : ¬ ∃ p ∈ S.threads, p.comes = true := by
      rintro ⟨p, hp, hpc⟩
      have := hidle p hp
      rw [Pc.sending_of_comes hpc] at this
      cases this
    refine ⟨?_, ?_⟩
    · rw [h.holds.head_none]
      by_contra hq
      exact hcomes (h.wake h0 (.inl hq))
    · by_contra hb
      exact hcomes (h.wake h0 (.inr hb))

/-- A connected socket with a receive outstanding. -/
def connectedConn : Conn where
  id := 7
  type := .connected
  pending := 2
  closing := false
  rdCall := .onEvRecv
  rdReady := 1
  ready := 0
  b := none
  wb := ⟨none, none⟩
  wByte := 0
  mem := fun _ => default
  fresh := 0
  reads := 1
  sends := []
  given := 7
  owner := true
  pushed := []
  sent := []

/-- Three bytes are sent, two are reported, and the handler sends the third. -/
theorem send_protocol_partial :
    ∃ S : Sys Conn Pc, Reach program noClose ⟨connectedConn, 0⟩ S ∧
      S.shared.sends = [[3]] ∧ S.shared.sent = [1, 2] ∧ S.shared.pushed = [1, 2, 3] ∧
      S.shared.sends.length ≤ 1 ∧ S.shared.sent <+: S.shared.pushed ∧
      (S.shared.sends = [] → (∀ p ∈ S.threads, p.sending = false) →
        S.shared.wb.head = none ∧ S.shared.b = none) := by
  have h₀ : Connected connectedConn := by
    constructor <;> decide
  have hk : ∀ s p, (fun (_ : Conn) (p : Pc) => p.sending) s p = true → noClose s p 0 := by
    rintro s p hp id rfl
    cases hp
  have hrun : Reach program noClose ⟨connectedConn, 0⟩ ⟨connectedConn, 0⟩ := .refl
  have hsend := hrun.call 11 (.startSend connectedConn [1, 2, 3] (by decide) (by decide) (by decide))
    hk (by decide +kernel) (by decide +kernel)
  have hdone := hsend.call 14 (.sentOut _ [1, 2, 3] 2 (by decide +kernel) (by decide) (by decide))
    hk (by decide +kernel) (by decide +kernel)
  exact ⟨_, hdone, by decide +kernel, by decide +kernel, by decide +kernel, send_protocol h₀ hdone⟩

end HoNet.SocketServer
