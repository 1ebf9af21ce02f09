import HoNet.Lib.Pool
import HoNet.SlotTable

/-!
# Concurrent reservations

`reserve_id` of `coresocket.c` executed by any number of threads, with every interlocked operation,
every read of `type` and every store as a step of its own. A caller whose compare-exchange has
succeeded holds the slot: it goes on with the stores of `reserve_id` and of `new_fd` and its callers,
and it may give the slot back by storing `SOCKET_TYPE_INVALID`.

* `Inv.next` — one step keeps at most one holder of each slot, and none of a free one.
* `exclusive_slots` — so it is in every run.
-/

namespace HoNet.CoreSocket.Exclusive

open HoNet.Pool HoNet.SlotTable

/-- A store of a holder; of `new_fd`, or of a type by it or its callers. -/
inductive HoldOp where
  | storeId
  | storeFd (fd : Nat)
  | storePending
  | storeType (type : SocketType)
  deriving DecidableEq, Repr

/-- Where a call is. `i` is the loop variable, `sock` the index of the slot that `sock` points to and
`ops` what the caller will do with the slot. -/
inductive Pc where
  | inc (i : Nat) (ops : List HoldOp)
  | add (i : Nat) (ops : List HoldOp)
  | readType (i : Nat) (id : Int) (sock : Nat) (ops : List HoldOp)
  | cas (i : Nat) (id : Int) (sock : Nat) (ops : List HoldOp)
  | setId (id : Int) (sock : Nat) (ops : List HoldOp)
  | setFd (id : Int) (sock : Nat) (ops : List HoldOp)
  | setPending (id : Int) (sock : Nat) (ops : List HoldOp)
  | held (id : Int) (sock : Nat) (ops : List HoldOp)
  deriving DecidableEq, Repr

/-- The call has drawn an id. -/
def drawn (i : Nat) (ops : List HoldOp) (a : Nat) : Pc :=
  .readType i (toLong a) (hashId (toLong a)) ops

/-- A store of the holder. A slot of type `SOCKET_TYPE_INVALID` has been given back. -/
def holdStep (t : Table SocketType) (id : Int) (sock : Nat) (ops : List HoldOp) :
    HoldOp → Table SocketType × Option Pc
  | .storeId => (t.set sock fun e => { e with id := id }, some (.held id sock ops))
  | .storeFd fd => (t.set sock fun e => { e with fd := some fd }, some (.held id sock ops))
  | .storePending => (t.set sock fun e => { e with pending := 1 }, some (.held id sock ops))
  | .storeType type =>
    (t.set sock fun e => { e with type := type },
      if type = .invalid then none else some (.held id sock ops))

/-- One atomic step of `reserve_id` and of the holder after it. -/
def next (t : Table SocketType) : Pc → Table SocketType × Option Pc
  | .inc i ops =>
    let a := (t.allocId + 1) % 2 ^ 32
    ({ t with allocId := a }, some (if toLong a < 0 then .add i ops else drawn i ops a))
  | .add i ops =>
    let a := (t.allocId + 0x7fffffff) % 2 ^ 32
    ({ t with allocId := a }, some (drawn i ops a))
  | .readType i id sock ops =>
    (t, if (t.slot sock).type = .invalid then some (.cas i id sock ops)
      else if i + 1 < maxSocket then some (.inc (i + 1) ops) else none)
  | .cas i id sock ops =>
    -- a lost race repeats the round: `i--` and the `i++` of the loop
    if (t.slot sock).type = .invalid then
      (t.set sock fun e => { e with type := .reserve }, some (.setId id sock ops))
    else (t, some (.inc i ops))
  | .setId id sock ops => (t.set sock fun e => { e with id := id }, some (.setFd id sock ops))
  | .setFd id sock ops => (t.set sock fun e => { e with fd := none }, some (.setPending id sock ops))
  | .setPending id sock ops => (t.set sock fun e => { e with pending := 1 }, some (.held id sock ops))
  | .held id sock [] => (t, some (.held id sock []))
  | .held id sock (op :: ops) => holdStep t id sock ops op

def program : Program (Table SocketType) Pc where
  next := next
  start t t' p := t' = t ∧ ∃ ops, p = .inc 0 ops

/-- The id and the slot of a call that holds one. -/
def Pc.hold : Pc → Option (Int × Nat)
  | .setId id sock _ | .setFd id sock _ | .setPending id sock _ | .held id sock _ => some (id, sock)
  | _ => none

/-- The id and the slot of a call that has drawn one and has not lost the slot. -/
def Pc.aim : Pc → Option (Int × Nat)
  | .inc _ _ | .add _ _ => none
  | .readType _ id sock _ | .cas _ id sock _ | .setId id sock _ | .setFd id sock _
  | .setPending id sock _ | .held id sock _ => some (id, sock)

/-- The holder has stored its id. -/
def Pc.wrote : Pc → Bool
  | .setFd .. | .setPending .. | .held .. => true
  | _ => false

/-- The number of holders of a slot. -/
def holders (j : Nat) (T : Multiset Pc) : Nat := T.countP fun p => p.hold.map Prod.snd = some j

/-! ## The invariant -/

structure Inv (t : Table SocketType) (T : Multiset Pc) : Prop where
  aim_eq : ∀ p ∈ T, ∀ id j, p.aim = some (id, j) → j = hashId id
  alone : ∀ j, holders j T ≤ if (t.slot j).type = .invalid then 0 else 1
  stored : ∀ p ∈ T, ∀ id j, p.hold = some (id, j) → p.wrote = true → (t.slot j).id = id

variable {t t' : Table SocketType} {p q : Pc} {T R : Multiset Pc} {j : Nat} {id : Int}

theorem holders_cons : holders j (p ::ₘ T) =
    holders j T + if p.hold.map Prod.snd = some j then 1 else 0 := by
  rw [holders, Multiset.countP_cons]
  rfl

theorem holders_pos (hp : p ∈ T) (h : p.hold = some (id, j)) : 0 < holders j T :=
  Multiset.countP_pos.mpr ⟨p, hp, by rw [h]; rfl⟩

/-- **What a step can do**: nothing to the slots, win one, store something in the slot it holds, or
give it back. -/
inductive Effect (t : Table SocketType) (p : Pc) : Table SocketType → Option Pc → Prop
  | quiet (a : Nat) (o : Option Pc) (hp : p.hold = none) (ho : ∀ q ∈ o, q.hold = none)
      (haim : ∀ q ∈ o, ∀ id j, q.aim = some (id, j) → p.aim = some (id, j) ∨ j = hashId id) :
      Effect t p { t with allocId := a } o
  | win (id : Int) (j : Nat) (q : Pc) (hp : p.hold = none) (haim : p.aim = some (id, j))
      (hfree : (t.slot j).type = .invalid) (hq : q.hold = some (id, j)) (hq' : q.wrote = false) :
      Effect t p (t.set j fun e => { e with type := .reserve }) (some q)
  | store (id : Int) (j : Nat) (q : Pc) (f : Entry SocketType → Entry SocketType)
      (hp : p.hold = some (id, j)) (hq : q.hold = some (id, j))
      (htype : (t.slot j).type ≠ .invalid → (f (t.slot j)).type ≠ .invalid)
      (hid : q.wrote = true → (p.wrote = true → (t.slot j).id = id) → (f (t.slot j)).id = id) :
      Effect t p (t.set j f) (some q)
  | giveBack (id : Int) (j : Nat) (hp : p.hold = some (id, j)) :
      Effect t p (t.set j fun e => { e with type := .invalid }) none

theorem drawn_aim {i a : Nat} {ops : List HoldOp} (h : (drawn i ops a).aim = some (id, j)) :
    j = hashId id := by
  simp only [drawn, Pc.aim, Option.some.injEq, Prod.mk.injEq] at h
  rw [← h.1, ← h.2]

theorem next_effect (t : Table SocketType) (p : Pc) : Effect t p (next t p).1 (next t p).2 := by
  cases p with
  | inc i ops =>
    refine .quiet _ _ rfl ?_ ?_
    · rintro q hq
      obtain rfl := Option.some.inj hq
      split <;> rfl
    · rintro q hq id j haim
      obtain rfl := Option.some.inj hq
      split at haim
      · cases haim
      · exact .inr (drawn_aim haim)
  | add i ops =>
    refine .quiet _ _ rfl ?_ ?_
    · rintro q hq
      obtain rfl := Option.some.inj hq
      rfl
    · rintro q hq id j haim
      obtain rfl := Option.some.inj hq
      exact .inr (drawn_aim haim)
  | readType i id sock ops =>
    refine .quiet t.allocId _ rfl ?_ ?_
    · intro q hq
      simp only [next] at hq
      split_ifs at hq <;> cases hq <;> rfl
    · intro q hq id' j haim
      simp only [next] at hq
      split_ifs at hq
      · cases hq
        exact .inl haim
      · cases hq
        cases haim
      · cases hq
  | cas i id sock ops =>
    simp only [next]
    split
    · rename_i hfree
      exact .win id sock _ rfl rfl hfree rfl rfl
    · refine .quiet t.allocId _ rfl ?_ ?_
      · rintro q hq
        obtain rfl := Option.some.inj hq
        rfl
      · rintro q hq id' j haim
        obtain rfl := Option.some.inj hq
        cases haim
  | setId id sock ops =>
    simp only [next]
    exact .store id sock _ _ rfl rfl (fun h => h) (fun _ _ => rfl)
  | setFd id sock ops =>
    simp only [next]
    exact .store id sock _ _ rfl rfl (fun h => h) (fun _ h => h rfl)
  | setPending id sock ops =>
    simp only [next]
    exact .store id sock _ _ rfl rfl (fun h => h) (fun _ h => h rfl)
  | held id sock ops =>
    cases ops with
    | nil =>
      have hstay := Effect.store (t := t) (p := .held id sock []) id sock (.held id sock [])
        (fun e => e) rfl rfl (fun h => h) (fun _ h => h rfl)
      rwa [Table.set, Function.update_eq_self] at hstay
    | cons op ops =>
      cases op with
      | storeId =>
        simp only [next, holdStep]
        exact .store id sock _ _ rfl rfl (fun h => h) (fun _ _ => rfl)
      | storeFd fd =>
        simp only [next, holdStep]
        exact .store id sock _ _ rfl rfl (fun h => h) (fun _ h => h rfl)
      | storePending =>
        simp only [next, holdStep]
        exact .store id sock _ _ rfl rfl (fun h => h) (fun _ h => h rfl)
      | storeType type =>
        by_cases htype : type = .invalid
        · subst htype
          exact .giveBack id sock rfl
        · simp only [next, holdStep, if_neg htype]
          exact .store id sock _ _ rfl rfl (fun _ => htype) (fun _ h => h rfl)

/-! ## One step and runs -/

theorem aim_of_hold (h : p.hold = some (id, j)) : p.aim = some (id, j) := by
  cases p <;> first | exact h | cases h

theorem Inv.of_mem (h : Inv t T) (hp : p ∈ T) (hhold : p.hold = some (id, j)) :
    (t.slot j).type ≠ .invalid ∧ holders j T = 1 := by
  have hpos := holders_pos hp hhold
  have hle := h.alone j
  split at hle
  · omega
  · exact ⟨by assumption, by omega⟩

/-- Nobody else holds the slot of a holder. -/
theorem Inv.others (h : Inv t (p ::ₘ R)) (hp : p.hold = some (id, j)) {id' : Int} {j' : Nat}
    (hq : q ∈ R) (hhold : q.hold = some (id', j')) : j' ≠ j := by
  rintro rfl
  have hone := (h.of_mem (Multiset.mem_cons_self p R) hp).2
  have hpos := holders_pos hq hhold
  rw [holders_cons, if_pos (by rw [hp]; rfl)] at hone
  omega

theorem set_slot_of_ne {f : Entry SocketType → Entry SocketType} {i : Nat} (h : i ≠ j) :
    (t.set j f).slot i = t.slot i := Function.update_of_ne h _ _

theorem set_slot_self {f : Entry SocketType → Entry SocketType} :
    (t.set j f).slot j = f (t.slot j) := Function.update_self _ _ _

/-- **One step** keeps the invariant. -/
theorem Inv.next (h : Inv t (p ::ₘ R)) : Inv (next t p).1 (put (next t p).2 R) := by
  have hmem : p ∈ p ::ₘ R := Multiset.mem_cons_self p R
  have hrest {q : Pc} (hq : q ∈ R) : q ∈ p ::ₘ R := Multiset.mem_cons_of_mem hq
  have heff := next_effect t p
  generalize (Exclusive.next t p).1 = t' at heff ⊢
  generalize (Exclusive.next t p).2 = o at heff ⊢
  cases heff with
  | quiet a o hp ho haim =>
    refine ⟨fun q hq id j hj => ?_, fun j => ?_, fun q hq id j hj hw => ?_⟩
    · rcases mem_put.mp hq with hq | hq
      · exact (haim q hq id j hj).elim (h.aim_eq p hmem id j) fun h => h
      · exact h.aim_eq q (hrest hq) id j hj
    · have halone := h.alone j
      rw [holders_cons, hp] at halone
      cases o with
      | none => exact halone
      | some q =>
        rw [put, holders_cons, ho q rfl]
        exact halone
    · rcases mem_put.mp hq with hq | hq
      · rw [ho q hq] at hj
        cases hj
      · exact h.stored q (hrest hq) id j hj hw
  | win id j q hp haim hfree hq hq' =>
    have hj := h.aim_eq p hmem id j haim
    refine ⟨fun r hr id' j' hj' => ?_, fun j' => ?_, fun r hr id' j' hj' hw => ?_⟩
    · rcases Multiset.mem_cons.mp hr with rfl | hr
      · rw [aim_of_hold hq] at hj'
        cases hj'
        exact hj
      · exact h.aim_eq r (hrest hr) id' j' hj'
    · have halone := h.alone j'
      rw [holders_cons, hp] at halone
      rw [put, holders_cons, hq]
      rcases eq_or_ne j' j with rfl | hne
      · rw [if_pos hfree] at halone
        rw [set_slot_self]
        simp at halone ⊢
        omega
      · rw [set_slot_of_ne hne, Option.map_some, if_neg (by simpa using hne.symm)]
        exact halone
    · rcases Multiset.mem_cons.mp hr with rfl | hr
      · rw [hq'] at hw
        cases hw
      · have hstored := h.stored r (hrest hr) id' j' hj' hw
        rcases eq_or_ne j' j with rfl | hne
        · rw [set_slot_self]
          exact hstored
        · rwa [set_slot_of_ne hne]
  | store id j q f hp hq htype hid =>
    obtain ⟨htaken, -⟩ := h.of_mem hmem hp
    refine ⟨fun r hr id' j' hj' => ?_, fun j' => ?_, fun r hr id' j' hj' hw => ?_⟩
    · rcases Multiset.mem_cons.mp hr with rfl | hr
      · rw [aim_of_hold hq, ← aim_of_hold hp] at hj'
        exact h.aim_eq p hmem id' j' hj'
      · exact h.aim_eq r (hrest hr) id' j' hj'
    · have halone := h.alone j'
      rw [holders_cons, hp] at halone
      rw [put, holders_cons, hq]
      rcases eq_or_ne j' j with rfl | hne
      · rw [set_slot_self, if_neg (htype htaken)]
        rwa [if_neg htaken] at halone
      · rwa [set_slot_of_ne hne]
    · rcases Multiset.mem_cons.mp hr with rfl | hr
      · rw [hq] at hj'
        cases hj'
        rw [set_slot_self]
        exact hid hw fun hpw => h.stored p hmem id j hp hpw
      · rw [set_slot_of_ne (h.others hp hr hj')]
        exact h.stored r (hrest hr) id' j' hj' hw
  | giveBack id j hp =>
    obtain ⟨-, hone⟩ := h.of_mem hmem hp
    refine ⟨fun r hr => h.aim_eq r (hrest hr), fun j' => ?_, fun r hr id' j' hj' hw => ?_⟩
    · have halone := h.alone j'
      rw [holders_cons, hp] at halone hone
      rcases eq_or_ne j' j with rfl | hne
      · rw [set_slot_self, if_pos rfl]
        simp at hone
        exact hone.le
      · rw [set_slot_of_ne hne]
        exact (Nat.le_add_right _ _).trans halone
    · rw [set_slot_of_ne (h.others hp hr hj')]
      exact h.stored r (hrest hr) id' j' hj' hw

theorem inv_start (t : Table SocketType) : Inv t 0 :=
  ⟨by simp, fun j => by simp [holders], by simp⟩

/-- **A run** keeps the invariant. -/
theorem reach_inv {S : Sys (Table SocketType) Pc} (h : Reach program anyStep ⟨t, 0⟩ S) :
    Inv S.shared S.threads := by
  refine h.invariant (inv_start t) (fun s p R _ hinv => hinv.next) ?_
  rintro s s' p T ⟨rfl, ops, rfl⟩ hinv
  refine ⟨fun q hq id j hj => ?_, fun j => ?_, fun q hq id j hj hw => ?_⟩
  · rcases Multiset.mem_cons.mp hq with rfl | hq
    · cases hj
    · exact hinv.aim_eq q hq id j hj
  · rw [holders_cons]
    exact hinv.alone j
  · rcases Multiset.mem_cons.mp hq with rfl | hq
    · cases hj
    · exact hinv.stored q hq id j hj hw

/-- **Exclusive slots.** In every interleaving of any number of calls, whatever the counter and the
slots were: the slot of a holder is that of its id and stores this id once it has been written, and
two holders have different slots and different ids. -/
theorem exclusive_slots {S : Sys (Table SocketType) Pc} (h : Reach program anyStep ⟨t, 0⟩ S) :
    (∀ p ∈ S.threads, ∀ id j, p.hold = some (id, j) →
      j = hashId id ∧ (p.wrote = true → (S.shared.slot j).id = id)) ∧
    (∀ p q R, S.threads = p ::ₘ q ::ₘ R → ∀ id j id' j',
      p.hold = some (id, j) → q.hold = some (id', j') → j' ≠ j ∧ id' ≠ id) := by
  have hinv := reach_inv h
  have hhash : ∀ p ∈ S.threads, ∀ id j, p.hold = some (id, j) → j = hashId id :=
    fun p hp id j hj => hinv.aim_eq p hp id j (aim_of_hold hj)
  refine ⟨fun p hp id j hj => ⟨hhash p hp id j hj, hinv.stored p hp id j hj⟩, ?_⟩
  intro p q R hT id j id' j' hp hq
  rw [hT] at hinv hhash
  have hne : j' ≠ j := hinv.others hp (Multiset.mem_cons_self q R) hq
  refine ⟨hne, fun hid => hne ?_⟩
  rw [hhash p (by simp) id j hp, hhash q (by simp) id' j' hq, hid]

theorem reach_call {S₀ : Sys (Table SocketType) Pc} {T : Multiset Pc} (n : Nat)
    (h : Reach program anyStep S₀ ⟨t, T⟩) (ops : List HoldOp) :
    Reach program anyStep S₀
      ⟨(solo program n t (some (.inc 0 ops))).1, put (solo program n t (some (.inc 0 ops))).2 T⟩ := by
  have hstart : program.start t t (.inc 0 ops) := ⟨rfl, ops, rfl⟩
  exact Reach.beside n (h.tail (.start t t (.inc 0 ops) T hstart)) fun _ _ => trivial

/-- Two calls on a fresh server, one after the other. -/
theorem exclusive_slots_two :
    ∃ S, Reach program anyStep ⟨uniform 0 .invalid, 0⟩ S ∧
      S.threads = .held 2 2 [] ::ₘ .held 1 1 [] ::ₘ 0 ∧ (1 : Nat) = hashId 1 ∧ (1 : Nat) ≠ 2 := by
  have hrun := reach_call 6 (reach_call (t := uniform 0 .invalid) (T := 0) 6 .refl []) []
  have hres := exclusive_slots hrun
  have hmem : Pc.held 1 1 [] ∈ Pc.held 2 2 [] ::ₘ Pc.held 1 1 [] ::ₘ 0 := by decide
  exact ⟨_, hrun, rfl, (hres.1 (.held 1 1 []) hmem 1 1 rfl).1,
    (hres.2 (.held 2 2 []) (.held 1 1 []) 0 rfl 2 2 1 1 rfl rfl).1⟩

end HoNet.CoreSocket.Exclusive
