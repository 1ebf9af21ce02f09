import HoNet.LogicRef

/-!
# Messages to the logics of `corelogic.c`

`default_logicmsg_handler` looks the receiver up, calls it and disposes of the message. The reference
that the lookup took is not given back, and the result of a lookup that finds nothing is a variable
that was never set.

* `Indexed` — what a lookup needs of the store.
* `defaultLogicmsgHandler_cases` — what one message can do.
* `balanced_iff` — the message histories that keep the counts balanced.
-/

namespace HoNet.LogicStore

/-! ## The handler -/

inductive Trap where
  /-- `store->slot` is `NULL`. -/
  | nullSlot
  /-- `lgc->call` is `NULL`. -/
  | nullCall
  /-- The logic is not an address of a live logic. -/
  | wildPointer
  /-- `assert(thelgc == lgc)` of `corelogic_release`. -/
  | assertion
  deriving DecidableEq, Repr

/-- `struct logic_msg`; `recver` by its bits, `data` by its address. -/
structure LogicMsg where
  sender : Int
  recver : Nat
  session : Int
  sz : Nat
  data : Nat
  deriving DecidableEq, Repr

/-- A call of `lgc->call`, with its arguments. -/
structure Call where
  lgc : Nat
  sender : Int
  session : Int
  data : Nat
  sz : Nat
  deriving DecidableEq, Repr

/-- The logics, which of them have their `call` set (their module's `init` does that), the calls made
and the messages disposed of. -/
structure Desk where
  logics : Logics
  call : Nat → Bool
  calls : List Call
  deleted : List LogicMsg

/-- `corelogic_grub`. A lookup that finds nothing returns the value `ret` that the variable of that
name happens to have. -/
def corelogicGrub (s : Logics) (id : Nat) (ret : Option Nat) : Except Trap (Logics × Option Nat) :=
  if s.store.slotSize = 0 then .error .nullSlot
  else match s.store.find id with
    | some lgc => .ok ({ s with ref := Function.update s.ref lgc (s.ref lgc + 1) }, some lgc)
    | none => .ok (s, ret)

/-- `corelogic_release`, in one piece. -/
def corelogicRelease (s : Logics) (lgc : Nat) : Except Trap Logics :=
  let s := { s with ref := Function.update s.ref lgc (s.ref lgc - 1) }
  if s.ref lgc = 0 then
    match s.store.corelogicRelease lgc with
    | .ok store => .ok { s with store := store, freed := lgc :: s.freed }
    | .error _ => .error .assertion
  else .ok s

/-- `lgc->call(io, lgc, ctx->sender, ctx->session, ctx->data, ctx->sz)`. -/
def Desk.invoke (d : Desk) (lgc : Nat) (ctx : LogicMsg) : Except Trap Desk :=
  if lgc ∈ d.logics.store.live.map Prod.fst then
    if d.call lgc then
      .ok { d with calls := d.calls ++ [⟨lgc, ctx.sender, ctx.session, ctx.data, ctx.sz⟩] }
    else .error .nullCall
  else .error .wildPointer

def Desk.logicmsgDelete (d : Desk) (ctx : LogicMsg) : Desk := { d with deleted := d.deleted ++ [ctx] }

def Desk.defaultLogicmsgHandler (d : Desk) (ctx : LogicMsg) (ret : Option Nat) : Except Trap Desk := do
  let (logics, lgc) ← corelogicGrub d.logics ctx.recver ret
  let d := { d with logics := logics }
  match lgc with
  | none => return d.logicmsgDelete ctx
  | some lgc => return (← d.invoke lgc ctx).logicmsgDelete ctx

/-- Messages one after the other, each with what the variable `ret` holds in its lookup. -/
def Desk.handle (d : Desk) (ms : List (LogicMsg × Option Nat)) : Except Trap Desk :=
  ms.foldlM (fun d m => d.defaultLogicmsgHandler m.1 m.2) d

/-! ## The property -/

/-- The id is that of a live logic. -/
def Desk.Lives (d : Desk) (id : Nat) : Prop := ∃ p, (p, id) ∈ d.logics.store.live

/-- A message for a live logic calls it once and leaves its count; another one does nothing. -/
structure Delivered (d d' : Desk) (m : LogicMsg) : Prop where
  hit : ∀ p, (p, m.recver) ∈ d.logics.store.live →
    d'.calls = d.calls ++ [⟨p, m.sender, m.session, m.data, m.sz⟩] ∧ d'.logics.ref p = d.logics.ref p
  miss : ¬ d.Lives m.recver → d'.calls = d.calls ∧ d'.logics.ref = d.logics.ref

/-- The release of the only reference on a logic takes it out of the store. -/
def Releases (s : Logics) (p id : Nat) : Prop :=
  ∃ s', corelogicRelease s p = .ok s' ∧ s'.ref p = 0 ∧ (p, id) ∉ s'.store.live ∧
    s'.store.find id = none

/-- Each message of the sequence is delivered, and after it the owner of a logic can release it. -/
structure Balanced (d : Desk) (ms : List (LogicMsg × Option Nat)) : Prop where
  each : ∀ pre m post, ms = pre ++ m :: post → ∃ d₁ d₂, d.handle pre = .ok d₁ ∧
    d₁.defaultLogicmsgHandler m.1 m.2 = .ok d₂ ∧ Delivered d₁ d₂ m.1
  last : ∃ d', d.handle ms = .ok d' ∧
    ∀ x ∈ d.logics.store.live, d.logics.ref x.1 = 1 → Releases d'.logics x.1 x.2

/-! ## Lookups -/

/-- The live logics are at the slots of their ids, and nothing else is in the table. -/
structure Store.Indexed (s : Store) : Prop where
  size : s.slotSize = 0 ∨ ∃ k, s.slotSize = 2 ^ k
  stored : ∀ x ∈ s.live, s.slotSize ≠ 0 ∧ s.logicId x.1 = x.2 ∧ s.slot (s.hash x.2) = some x.1
  content : ∀ h < s.slotSize, ∀ p, s.slot h = some p → (p, s.logicId p) ∈ s.live

/-- Every store that registrations and releases lead to has this form. -/
theorem Store.Inv.indexed {s : Store} (h : s.Inv) : s.Indexed :=
  ⟨h.size, h.stored, fun _ hi _ hp => (h.at_slot hi hp).1⟩

variable {d d' : Desk} {m : LogicMsg} {ret : Option Nat} {ms : List (LogicMsg × Option Nat)}

theorem Store.Indexed.find_live {s : Store} (h : s.Indexed) {p id : Nat} (hm : (p, id) ∈ s.live) :
    s.find id = some p := by
  obtain ⟨-, hid, hslot⟩ := h.stored _ hm
  have hid : s.logicId p = id := hid
  have hslot : s.slot (s.hash id) = some p := hslot
  simp only [Store.find, hslot, hid, if_true]

theorem Store.Indexed.live_of_find {s : Store} (h : s.Indexed) (hne : s.slotSize ≠ 0) {p id : Nat}
    (hf : s.find id = some p) : (p, id) ∈ s.live := by
  obtain ⟨hslot, hid⟩ := find_some hf
  obtain ⟨k, hk⟩ := h.size.resolve_left hne
  have hlt : s.hash id < s.slotSize := by
    rw [Store.hash_eq hk]
    exact Nat.mod_lt _ (by omega)
  have := h.content _ hlt p hslot
  rwa [hid] at this

/-- **What one message can do**, if the handler returns: call the live logic it is for, with one more
reference on it; or find nothing, and then either nothing more or a call of whatever logic the unset
variable points to. -/
theorem defaultLogicmsgHandler_cases (h : d.logics.store.Indexed)
    (heq : d.defaultLogicmsgHandler m ret = .ok d') :
    d.logics.store.slotSize ≠ 0 ∧ d'.logics.store = d.logics.store ∧
    ((∃ p, (p, m.recver) ∈ d.logics.store.live ∧ d'.logics.ref p = d.logics.ref p + 1) ∨
      (¬ d.Lives m.recver ∧ ret = none ∧ d' = d.logicmsgDelete m) ∨
      (¬ d.Lives m.recver ∧ ∃ q, ret = some q ∧ d'.calls ≠ d.calls)) := by
  unfold Desk.defaultLogicmsgHandler corelogicGrub at heq
  by_cases hz : d.logics.store.slotSize = 0
  · rw [if_pos hz] at heq
    cases heq
  refine ⟨hz, ?_⟩
  rw [if_neg hz] at heq
  -- a call leaves the logics as they are
  have hcall : ∀ {e e' : Desk} {p : Nat}, (do return (← e.invoke p m).logicmsgDelete m) = .ok e' →
      e'.logics = e.logics ∧ e'.calls ≠ e.calls := by
    intro e e' p hi
    unfold Desk.invoke at hi
    split at hi
    · split at hi
      · obtain rfl := Except.ok.inj hi
        exact ⟨rfl, by simp [Desk.logicmsgDelete]⟩
      · cases hi
    · cases hi
  cases hf : d.logics.store.find m.recver with
  | some p =>
    rw [hf] at heq
    obtain ⟨hlog, -⟩ := hcall heq
    rw [hlog]
    exact ⟨rfl, .inl ⟨p, h.live_of_find hz hf, Function.update_self ..⟩⟩
  | none =>
    have hno : ¬ d.Lives m.recver := by
      rintro ⟨p, hp⟩
      rw [h.find_live hp] at hf
      cases hf
    rw [hf] at heq
    cases ret with
    | none =>
      obtain rfl := Except.ok.inj heq
      exact ⟨rfl, .inr (.inl ⟨hno, rfl, rfl⟩)⟩
    | some q =>
      obtain ⟨hlog, hne⟩ := hcall heq
      exact ⟨congrArg Logics.store hlog, .inr (.inr ⟨hno, q, rfl, hne⟩)⟩

/-- A message for no logic whose lookup happens to return `NULL` is dropped. -/
theorem defaultLogicmsgHandler_drop (h : d.logics.store.Indexed) (hz : d.logics.store.slotSize ≠ 0)
    (hno : ¬ d.Lives m.recver) :
    d.defaultLogicmsgHandler m none = .ok (d.logicmsgDelete m) := by
  have hf : d.logics.store.find m.recver = none := by
    cases hf : d.logics.store.find m.recver with
    | none => rfl
    | some p => exact absurd ⟨p, h.live_of_find hz hf⟩ hno
  simp only [Desk.defaultLogicmsgHandler, corelogicGrub, if_neg hz, hf]
  rfl

/-! ## Histories -/

theorem handle_cons (m : LogicMsg × Option Nat) :
    d.handle (m :: ms) = d.defaultLogicmsgHandler m.1 m.2 >>= fun d' => d'.handle ms := rfl

/-- Messages do not change the store. -/
theorem handle_store (h : d.logics.store.Indexed) (heq : d.handle ms = .ok d') :
    d'.logics.store = d.logics.store := by
  induction ms generalizing d with
  | nil =>
    obtain rfl := Except.ok.inj heq
    rfl
  | cons m ms ih =>
    rw [handle_cons] at heq
    cases hm : d.defaultLogicmsgHandler m.1 m.2 with
    | error e =>
      rw [hm] at heq
      cases heq
    | ok d₁ =>
      rw [hm] at heq
      obtain ⟨-, hst, -⟩ := defaultLogicmsgHandler_cases h hm
      rw [ih (by rw [hst]; exact h) heq, hst]

/-- A history of messages that are all dropped. -/
theorem handle_drop (h : d.logics.store.Indexed)
    (hms : ∀ m ∈ ms, ¬ d.Lives m.1.recver ∧ m.2 = none ∧ d.logics.store.slotSize ≠ 0) :
    d.handle ms = .ok { d with deleted := d.deleted ++ ms.map Prod.fst } := by
  induction ms generalizing d with
  | nil =>
    rw [List.map_nil, List.append_nil]
    rfl
  | cons m ms ih =>
    obtain ⟨hno, hret, hz⟩ := hms m List.mem_cons_self
    rw [handle_cons, hret, defaultLogicmsgHandler_drop h hz hno]
    show (d.logicmsgDelete m.1).handle ms = _
    have hrest := ih (d := d.logicmsgDelete m.1) h fun m' hm' => hms m' (List.mem_cons_of_mem _ hm')
    rw [hrest]
    simp [Desk.logicmsgDelete]

theorem releases_owned (h : d.logics.store.Indexed) {x : Nat × Nat}
    (hx : x ∈ d.logics.store.live) (href : d.logics.ref x.1 = 1) : Releases d.logics x.1 x.2 := by
  obtain ⟨-, hid, hslot⟩ := h.stored x hx
  refine ⟨⟨{ d.logics.store with
    slot := Function.update d.logics.store.slot (d.logics.store.hash x.2) none
    live := d.logics.store.live.filter fun y => y.1 ≠ x.1 },
    Function.update d.logics.ref x.1 (d.logics.ref x.1 - 1), x.1 :: d.logics.freed⟩, ?_, ?_, ?_, ?_⟩
  · simp only [corelogicRelease, Function.update_self, href, Int.sub_self, if_true,
      Store.corelogicRelease, hid, hslot]
  · show Function.update d.logics.ref x.1 (d.logics.ref x.1 - 1) x.1 = 0
    rw [Function.update_self, href]
    rfl
  · simp
  · show (match Function.update d.logics.store.slot (d.logics.store.hash x.2) none
      (d.logics.store.hash x.2) with | some lgc => _ | none => none) = none
    rw [Function.update_self]

/-- **Message delivery and the counts.** From every store, a sequence of messages calls each live
receiver once, calls nothing else, leaves the counts as they were and lets the owners release their
logics if and only if none of the messages is for a live logic, the variable that a failed lookup
returns unset is `NULL` each time, and the table is there. -/
theorem balanced_iff (h : d.logics.store.Indexed) (ms : List (LogicMsg × Option Nat)) :
    Balanced d ms ↔
      ∀ m ∈ ms, ¬ d.Lives m.1.recver ∧ m.2 = none ∧ d.logics.store.slotSize ≠ 0 := by
  constructor
  · intro hb m hm
    obtain ⟨pre, post, rfl⟩ := List.append_of_mem hm
    obtain ⟨d₁, d₂, hpre, hstep, hdel⟩ := hb.each pre m post rfl
    have hst := handle_store h hpre
    have hlives : ∀ id, d₁.Lives id ↔ d.Lives id := fun id => by simp only [Desk.Lives, hst]
    obtain ⟨hz, -, hcase⟩ := defaultLogicmsgHandler_cases (by rw [hst]; exact h) hstep
    rw [hst] at hz
    rcases hcase with ⟨p, hp, href⟩ | ⟨hno, hret, -⟩ | ⟨hno, q, -, hcalls⟩
    · -- a hit leaves one reference too many
      have := (hdel.hit p hp).2
      omega
    · exact ⟨fun hl => hno ((hlives _).mpr hl), hret, hz⟩
    · exact absurd (hdel.miss hno).1 hcalls
  · intro hms
    refine ⟨fun pre m post he => ?_, ?_⟩
    · subst he
      obtain ⟨hno, hret, hz⟩ := hms m (by simp)
      let d₁ : Desk := { d with deleted := d.deleted ++ pre.map Prod.fst }
      refine ⟨d₁, d₁.logicmsgDelete m.1,
        handle_drop h fun m' hm' => hms m' (List.mem_append_left _ hm'), ?_, ?_⟩
      · rw [hret]
        exact defaultLogicmsgHandler_drop (d := d₁) h hz hno
      · exact ⟨fun p hp => absurd ⟨p, hp⟩ hno, fun _ => ⟨rfl, rfl⟩⟩
    · exact ⟨_, handle_drop h hms, fun x hx href => releases_owned h hx href⟩

/-- The logic 7 of id 0, with the reference of its owner. -/
def oneDesk : Desk := ⟨oneOwner.shared, fun _ => true, [], []⟩

theorem indexed_oneLogic : oneLogic.Indexed := by
  refine ⟨.inr ⟨6, rfl⟩, fun x hx => ?_, fun i hi p hp => ?_⟩
  · obtain rfl : x = (7, 0) := List.mem_singleton.mp hx
    exact ⟨by decide, rfl, rfl⟩
  · have hp : Function.update (fun _ => none) 0 (some 7) i = some p := hp
    by_cases h0 : i = 0
    · subst h0
      rw [Function.update_self] at hp
      obtain rfl := Option.some.inj hp
      exact List.mem_singleton.mpr rfl
    · rw [Function.update_of_ne h0] at hp
      cases hp

/-- Two messages to ids that nobody has, one at an empty slot and one at the slot of the logic 7. -/
theorem balanced_iff_misses :
    Balanced oneDesk [(⟨3, 1, 0, 0, 0⟩, none), (⟨3, 64, 1, 0, 0⟩, none)] := by
  refine (balanced_iff indexed_oneLogic _).mpr fun m hm => ?_
  have hno : ∀ id, id ≠ 0 → ¬ oneDesk.Lives id := by
    rintro id hid ⟨p, hp⟩
    exact hid (Prod.mk.inj (List.mem_singleton.mp hp)).2
  rcases List.mem_cons.mp hm with rfl | hm
  · exact ⟨hno 1 (by decide), rfl, by decide⟩
  · obtain rfl := List.mem_singleton.mp hm
    exact ⟨hno 64 (by decide), rfl, by decide⟩

/-- One message to the logic 7: its count goes from 1 to 2, and after the release of its owner it is
still in the store. -/
theorem hit_keeps_reference :
    ¬ Balanced oneDesk [(⟨3, 0, 0, 0, 0⟩, none)] ∧
    ∃ d' s', oneDesk.handle [(⟨3, 0, 0, 0, 0⟩, none)] = .ok d' ∧ d'.logics.ref 7 = 2 ∧
      corelogicRelease d'.logics 7 = .ok s' ∧ s'.ref 7 = 1 ∧ s'.store.find 0 = some 7 := by
  refine ⟨fun hb => ?_, _, _, rfl, rfl, rfl, rfl, rfl⟩
  obtain ⟨d₁, d₂, hpre, hstep, hdel⟩ := hb.each [] _ [] rfl
  obtain rfl := Except.ok.inj hpre
  obtain rfl := Except.ok.inj hstep
  have : (2 : Int) = 1 := (hdel.hit 7 (List.mem_singleton.mpr rfl)).2
  omega

end HoNet.LogicStore
