import HoNet.CoreLock.Progress
import HoNet.Lib.Schedule
import HoNet.Lib.Section
import HoNet.LogicRef

/-!
# The logic store under threads

`corelogic_store_reg`, the lookup of `corelogic_grub` and the removal in `corelogic_release` run
under the read-write lock of the store. Here each statement of the lock and of the three is one
step; any number of threads read beside each other while nobody writes.

The count of the references, which `corelogic_grub` raises under the lock, is not part of the store.

* `rwlock` — what the lock promises to those who use it.
* `Directory` — what a client sees of the store.
* `Stored.call` — one call.
* `store_serializable` — whole runs.
-/

namespace HoNet.LogicStore.Threads

open HoNet.Pool

/-! ## The lock -/

/-- The lock was asked for to read. -/
def reader : CoreLock.Pc → Bool
  | .rWait | .rInc | .rTest | .rBack | .rHeld => true
  | .wTry | .wWait | .wHeld => false

def held : CoreLock.Pc → Bool
  | .rHeld | .wHeld => true
  | _ => false

/-- Two threads that hold the lock are readers. -/
theorem held_exclusive {lock : CoreLock.RwLock} {p q : CoreLock.Pc} {R : Multiset CoreLock.Pc}
    (h : CoreLock.Inv lock (p ::ₘ q ::ₘ R)) (hp : held p = true) (hq : held q = true) :
    reader p = true ∧ reader q = true := by
  have hR := load_nonneg CoreLock.Pc.writing_nonneg R
  have hwrite := h.write_eq
  have hle := h.write_le
  rw [load_cons, load_cons] at hwrite
  cases p with
  | rHeld =>
    cases q with
    | rHeld => exact ⟨rfl, rfl⟩
    | wHeld => exact absurd (Multiset.mem_cons_self _ _) (h.apart (by simp))
    | _ => cases hq
  | wHeld =>
    cases q with
    | rHeld => exact absurd (by simp) (h.apart (Multiset.mem_cons_self _ _))
    | wHeld =>
      simp only [CoreLock.Pc.writing] at hwrite
      omega
    | _ => cases hq
  | _ => cases hp

/-- The lock of `corelock.c`. -/
def rwlock : Lock CoreLock.RwLock CoreLock.Pc where
  program := CoreLock.program
  init := CoreLock.rwlockInit
  holds := held
  shares := reader
  start_out _ _ _ h := by cases h <;> rfl
  next_shares l p q h := by
    cases p with
    | rWait | rTest =>
      simp only [CoreLock.program, CoreLock.next] at h
      split at h <;> cases h <;> rfl
    | rInc | rBack => cases h; rfl
    | wTry | wWait =>
      simp only [CoreLock.program, CoreLock.next] at h
      split at h <;> cases h <;> rfl
    | rHeld | wHeld => cases h
  release l p h := by
    cases p with
    | rHeld | wHeld => rfl
    | _ => cases h
  exclusive S hrun p q R hT hp hq := by
    have h := CoreLock.reach_inv hrun
    rw [hT] at h
    exact held_exclusive h hp hq

/-! ## The store -/

inductive Req where
  | reg (lgc : Nat)
  /-- `corelogic_grub`; its variable `ret` happens to hold `ret`. -/
  | grub (id : Nat) (ret : Option Nat)
  /-- `corelogic_release` of the last reference. -/
  | release (lgc : Nat)
  deriving DecidableEq, Repr

/-- The id, what `corelogic_grub` returns with `none` for `NULL`, and `none` for `corelogic_release`. Or a
fault. -/
abbrev Reply := Except Fault (Option Nat)

/-- The statement that is executed next. -/
inductive Stmt where
  /-- `corelogic_store_reg`: one round of its loop, the three stores. -/
  | regTest (lgc i : Nat)
  | regId (lgc i handle hash : Nat)
  | regSlot (lgc i handle hash : Nat)
  | regAlloc (lgc i handle : Nat)
  /-- `corelogic_store_resize`: the new table, one round of its loop, the two stores. -/
  | resize (lgc : Nat)
  | copy (lgc newSz i : Nat) (newlist : Nat → Option Nat)
  | setSlot (lgc newSz : Nat) (newlist : Nat → Option Nat)
  | setSize (lgc newSz : Nat)
  /-- `corelogic_grub`. -/
  | grubHash (id : Nat) (ret : Option Nat)
  | grubSlot (id : Nat) (ret : Option Nat) (hash : Nat)
  | grubId (id : Nat) (ret : Option Nat) (lgc : Nat)
  /-- `corelogic_release`. -/
  | relHash (lgc : Nat)
  | relSlot (lgc hash : Nat)
  | relClear (lgc hash : Nat)

/-- The first statement of a call. -/
def enter : Req → Stmt
  | .reg lgc => .regTest lgc 0
  | .grub id ret => .grubHash id ret
  | .release lgc => .relHash lgc

def step (s : Store) : Stmt → Store × (Stmt ⊕ Reply)
  | .regTest lgc i =>
    (s, .inl (if i < s.slotSize then
      let handle := s.handle i
      let hash := s.hash handle
      if s.slot hash = none then .regId lgc i handle hash else .regTest lgc (i + 1)
    else .resize lgc))
  | .regId lgc i handle hash =>
    ({ s with logicId := Function.update s.logicId lgc handle }, .inl (.regSlot lgc i handle hash))
  | .regSlot lgc i handle hash =>
    ({ s with slot := Function.update s.slot hash (some lgc) }, .inl (.regAlloc lgc i handle))
  -- `i` is left for the history variable alone
  | .regAlloc lgc i handle =>
    ({ s with
      allocid := (handle + 1) % 2 ^ 32
      live := (lgc, handle) :: s.live
      given := handle :: s.given
      wrapped := s.wrapped || decide (2 ^ 32 ≤ i + s.allocid + 1) }, .inr (.ok (some handle)))
  | .resize lgc =>
    (s, .inl (.copy lgc (if s.slotSize > 0 then s.slotSize * 2 else DEFAULT_SLOT_SIZE) 0
      fun _ => none))
  | .copy lgc newSz i newlist =>
    (s, if i < s.slotSize then
      match s.slot i with
      | none => .inr (.error .nullDeref)
      | some p =>
        let hash := s.logicId p &&& (s.slotSize * 2 - 1)
        .inl (.copy lgc newSz (i + 1) (Function.update newlist hash (some p)))
    else .inl (.setSlot lgc newSz newlist))
  | .setSlot lgc newSz newlist => ({ s with slot := newlist }, .inl (.setSize lgc newSz))
  | .setSize lgc newSz => ({ s with slotSize := newSz }, .inl (.regTest lgc 0))
  | .grubHash id ret => (s, .inl (.grubSlot id ret (s.hash id)))
  -- without a table `slot` is a null pointer; where nothing is found `ret` is never set
  | .grubSlot id ret hash =>
    (s, if s.slotSize = 0 then .inr (.error .nullDeref)
      else match s.slot hash with
      | none => .inr (.ok ret)
      | some lgc => .inl (.grubId id ret lgc))
  | .grubId id ret lgc => (s, .inr (.ok (if s.logicId lgc = id then some lgc else ret)))
  | .relHash lgc => (s, .inl (.relSlot lgc (s.hash (s.logicId lgc))))
  | .relSlot lgc hash =>
    (s, if s.slot hash = some lgc then .inl (.relClear lgc hash) else .inr (.error .assertion))
  | .relClear lgc hash =>
    ({ s with
      slot := Function.update s.slot hash none
      live := s.live.filter fun x => x.1 ≠ lgc }, .inr (.ok none))

def reads : Stmt → Bool
  | .grubHash _ _ | .grubSlot _ _ _ | .grubId _ _ _ => true
  | _ => false

/-- The store as an object; only lookups read. -/
def logicStore : Object Store Req Stmt Reply where
  enter := enter
  step := step
  reads := reads
  step_reads s k h := by
    cases k with
    | grubHash _ _ | grubSlot _ _ _ | grubId _ _ _ => rfl
    | _ => cases h
  next_reads s k k' h := by
    cases k with
    | regTest lgc i =>
      simp only [step] at h
      split at h
      · split at h <;> cases h <;> rfl
      · cases h; rfl
    | copy lgc newSz i newlist =>
      simp only [step] at h
      split at h
      · split at h <;> cases h; rfl
      · cases h; rfl
    | grubSlot id ret hash =>
      simp only [step] at h
      split at h
      · cases h
      · split at h <;> cases h; rfl
    | relSlot lgc hash =>
      simp only [step] at h
      split at h <;> cases h; rfl
    | regAlloc _ _ _ | grubId _ _ _ | relClear _ _ => cases h
    | _ => cases h; rfl

/-- The calls under the lock of the store. -/
def program :
    Program (Locked CoreLock.RwLock Store Req Reply) (Pool.Call Req Stmt Reply CoreLock.Pc) :=
  rwlock.guard logicStore

def begin :
    Sys (Locked CoreLock.RwLock Store Req Reply) (Pool.Call Req Stmt Reply CoreLock.Pc) :=
  rwlock.begin .zero

/-! ## One call -/

variable {s s' : Store} {lgc i : Nat}

/-- The statement behind the test that found the slot of `i` free. -/
def found (s : Store) (lgc i : Nat) : Stmt := .regId lgc i (s.handle i) (s.hash (s.handle i))

/-- The rounds of `corelogic_store_reg` over the slots. -/
theorem runs_regTest {rounds : Nat} {r : Reply} (hr : i + rounds = s.slotSize)
    (h : logicStore.Runs s ((s.probe rounds i).elim (.resize lgc) (found s lgc)) s' r) :
    logicStore.Runs s (.regTest lgc i) s' r := by
  induction rounds generalizing i with
  | zero =>
    have hlt : ¬ i < s.slotSize := by omega
    exact .more (by simp [logicStore, step, hlt, Store.probe]) h
  | succ rounds ih =>
    have hlt : i < s.slotSize := by omega
    unfold Store.probe at h
    by_cases hfree : s.slot (s.hash (s.handle i)) = none
    · rw [if_pos hfree] at h
      exact .more (by simp [logicStore, step, hlt, hfree, found]) h
    · rw [if_neg hfree] at h
      exact .more (by simp [logicStore, step, hlt, hfree]) (ih (by omega) h)

/-- The rounds of `corelogic_store_resize`. -/
theorem runs_copy {rounds newSz : Nat} {newlist newlist' : Nat → Option Nat} {r : Reply}
    (hr : i + rounds = s.slotSize) (hcopy : s.resizeLoop rounds i newlist = .ok newlist')
    (h : logicStore.Runs s (.setSlot lgc newSz newlist') s' r) :
    logicStore.Runs s (.copy lgc newSz i newlist) s' r := by
  induction rounds generalizing i newlist with
  | zero =>
    have hlt : ¬ i < s.slotSize := by omega
    obtain rfl : newlist = newlist' := Except.ok.inj hcopy
    exact .more (by simp [logicStore, step, hlt]) h
  | succ rounds ih =>
    have hlt : i < s.slotSize := by omega
    unfold Store.resizeLoop at hcopy
    cases hslot : s.slot i with
    | none => simp [hslot] at hcopy
    | some p =>
      simp only [hslot] at hcopy
      exact .more (by simp [logicStore, step, hlt, hslot]) (ih (by omega) hcopy)

/-- The three stores. -/
theorem runs_found (s : Store) (lgc i : Nat) :
    logicStore.Runs s (found s lgc i) (s.enter lgc i)
      (.ok (some ((s.enter lgc i).logicId lgc))) := by
  have hid : (s.enter lgc i).logicId lgc = s.handle i := Function.update_self ..
  rw [hid]
  exact .more rfl (.more rfl (.last rfl))

theorem runs_regLoop {rounds : Nat} (h : Store.regLoop rounds s lgc = .ok s') :
    logicStore.Runs s (.regTest lgc 0) s' (.ok (some (s'.logicId lgc))) := by
  induction rounds generalizing s with
  | zero => cases h
  | succ rounds ih =>
    apply runs_regTest (Nat.zero_add s.slotSize)
    unfold Store.regLoop at h
    cases hprobe : s.probe s.slotSize 0 with
    | some j =>
      rw [hprobe] at h
      obtain rfl : s.enter lgc j = s' := Except.ok.inj h
      exact runs_found s lgc j
    | none =>
      rw [hprobe] at h
      simp only [Store.corelogicStoreResize, bind, Except.bind, pure, Except.pure] at h
      cases hcopy : s.resizeLoop s.slotSize 0 fun _ => none with
      | error e =>
        rw [hcopy] at h
        cases h
      | ok newlist =>
        rw [hcopy] at h
        have hloop := ih h
        exact .more rfl (runs_copy (Nat.zero_add _) hcopy (.more rfl (.more rfl hloop)))

theorem runs_grub (hne : s.slotSize ≠ 0) (id : Nat) (ret : Option Nat) :
    logicStore.Runs s (.grubHash id ret) s (.ok ((s.find id).or ret)) := by
  unfold Store.find
  cases hslot : s.slot (s.hash id) with
  | none => exact .more rfl (.last (by simp [logicStore, step, hne, hslot]))
  | some lgc =>
    have hgrub : logicStore.Runs s (.grubId id ret lgc) s
        (.ok ((if s.logicId lgc = id then some lgc else none).or ret)) := by
      apply Object.Runs.last
      show (s, _) = _
      split <;> rfl
    exact .more rfl (.more (by simp [logicStore, step, hne, hslot]) hgrub)

theorem runs_release (h : s.corelogicRelease lgc = .ok s') :
    logicStore.Runs s (.relHash lgc) s' (.ok none) := by
  unfold Store.corelogicRelease at h
  by_cases hslot : s.slot (s.hash (s.logicId lgc)) = some lgc
  · simp only [hslot, if_true] at h
    obtain rfl := Except.ok.inj h
    have hclear : logicStore.Runs s (.relClear lgc (s.hash (s.logicId lgc)))
        { s with
          slot := Function.update s.slot (s.hash (s.logicId lgc)) none
          live := s.live.filter fun x => x.1 ≠ lgc } (.ok none) := .last rfl
    exact .more rfl (.more (by simp [logicStore, step, hslot]) hclear)
  · simp only [hslot, if_false] at h
    cases h

/-! ## What a client sees -/

/-- **A directory of logics**, by its calls: the logics that are registered, with their ids, and all
the ids that were given. A registration gives a new id, a lookup finds the logic of that id; where there
is none it returns whatever its variable held. -/
inductive Directory : List (Req × Reply) → List (Nat × Nat) → List Nat → Prop
  | nil : Directory [] [] []
  | reg {calls live given lgc id} (h : Directory calls live given)
    (hlgc : lgc ∉ live.map Prod.fst) (hid : id ∉ given) :
    Directory (calls ++ [(.reg lgc, .ok (some id))]) ((lgc, id) :: live) (id :: given)
  | found {calls live given lgc id ret} (h : Directory calls live given) (hm : (lgc, id) ∈ live) :
    Directory (calls ++ [(.grub id ret, .ok (some lgc))]) live given
  | missing {calls live given id ret} (h : Directory calls live given)
    (hm : id ∉ live.map Prod.snd) : Directory (calls ++ [(.grub id ret, .ok ret)]) live given
  | release {calls live given lgc} (h : Directory calls live given)
    (hlgc : lgc ∈ live.map Prod.fst) :
    Directory (calls ++ [(.release lgc, .ok none)]) (live.filter fun x => x.1 ≠ lgc) given

/-! ## Calls one after another -/

def call (s : Store) : Req → Res Store
  | .reg lgc => s.corelogicStoreReg lgc
  | .grub _ _ => .ok s
  | .release lgc => s.corelogicRelease lgc

/-- `malloc` does not return the address of a live logic, only a live logic has a last reference to
release, there is a table when something is looked up, and `allocid` does not wrap. -/
def Admits (s : Store) : Req → Prop
  | .reg lgc => lgc ∉ s.live.map Prod.fst ∧
    ∀ s', s.corelogicStoreReg lgc = .ok s' → s'.wrapped = false
  | .grub _ _ => s.slotSize ≠ 0
  | .release lgc => lgc ∈ s.live.map Prod.fst

def Legal (s : Store) : List Req → Prop
  | [] => True
  | req :: reqs => Admits s req ∧ ∀ s', call s req = .ok s' → Legal s' reqs

theorem Legal.snoc {req : Req} {reqs : List Req} (h : Legal s (reqs ++ [req])) :
    Legal s reqs ∧ ∀ s', reqs.foldlM call s = .ok s' → Admits s' req := by
  induction reqs generalizing s with
  | nil =>
    refine ⟨trivial, fun s' heq => ?_⟩
    obtain rfl := Except.ok.inj heq
    exact h.1
  | cons req' reqs ih =>
    refine ⟨⟨h.1, fun s' heq => (ih (h.2 s' heq)).1⟩, fun s' heq => ?_⟩
    rw [List.foldlM_cons] at heq
    cases hcall : call s req' with
    | error e =>
      rw [hcall] at heq
      cases heq
    | ok s₁ =>
      rw [hcall] at heq
      exact (ih (h.2 s₁ hcall)).2 s' heq

/-- A lookup finds the live logic of that id. -/
theorem find_iff (h : s.Inv) (hne : s.slotSize ≠ 0) {id : Nat} :
    s.find id = some lgc ↔ (lgc, id) ∈ s.live := by
  constructor
  · intro hfind
    obtain ⟨hslot, hid⟩ := find_some hfind
    obtain ⟨k, hk⟩ := h.size.resolve_left hne
    have hlt : s.hash id < s.slotSize := by
      rw [Store.hash_eq hk]
      exact Nat.mod_lt _ (Nat.pos_of_ne_zero hne)
    obtain ⟨id', hm, -⟩ := h.content _ hlt lgc hslot
    obtain ⟨-, hid', -⟩ := h.stored _ hm
    obtain rfl : id = id' := hid.symm.trans hid'
    exact hm
  · intro hm
    obtain ⟨-, hid, hslot⟩ := h.stored _ hm
    unfold Store.find
    rw [hslot]
    exact if_pos hid

/-- The store behind some calls is sound, and the calls have returned what a directory returns. -/
structure Stored (calls : List (Req × Reply)) (s : Store) : Prop where
  folded : (calls.map Prod.fst).foldlM call .zero = .ok s
  inv : s.Inv
  directory : Directory calls s.live s.given

/-- **One call.** -/
theorem Stored.call {calls : List (Req × Reply)} {req : Req} {r : Reply} (h : Stored calls s)
    (hadm : Admits s req) (hrun : logicStore.Runs s (enter req) s' r) :
    Stored (calls ++ [(req, r)]) s' := by
  have hfold {s₁ : Store} (heq : Threads.call s req = .ok s₁) :
      ((calls ++ [(req, r)]).map Prod.fst).foldlM Threads.call .zero = .ok s₁ := by
    rw [List.map_append, List.foldlM_append, h.folded]
    show [req].foldlM Threads.call s = .ok s₁
    rw [List.foldlM_cons, heq]
    rfl
  cases req with
  | reg lgc =>
    obtain ⟨s₁, heq, hinv⟩ := Store.reg_inv h.inv hadm.1
    obtain ⟨rfl, rfl⟩ := hrun.unique (runs_regLoop heq)
    have hinv := hinv (hadm.2 s' heq)
    obtain ⟨hlive, hgiven⟩ := Store.regLoop_live heq
    have hnew : (s'.logicId lgc :: s.given).Nodup := hgiven ▸ hinv.given_nodup
    refine ⟨hfold heq, hinv, ?_⟩
    rw [hlive, hgiven]
    exact h.directory.reg hadm.1 (List.nodup_cons.mp hnew).1
  | grub id ret =>
    obtain ⟨rfl, rfl⟩ := hrun.unique (runs_grub hadm id ret)
    refine ⟨hfold rfl, h.inv, ?_⟩
    cases hfind : s'.find id with
    | some lgc => exact h.directory.found ((find_iff h.inv hadm).mp hfind)
    | none =>
      apply h.directory.missing
      intro hm
      obtain ⟨⟨lgc, id'⟩, hlive, rfl⟩ := List.mem_map.mp hm
      have hfound := (find_iff h.inv hadm).mpr hlive
      cases hfind.symm.trans hfound
  | release lgc =>
    obtain ⟨s₁, heq, hinv⟩ := Store.release_inv h.inv hadm
    obtain ⟨rfl, rfl⟩ := hrun.unique (runs_release heq)
    have hclear := heq
    unfold Store.corelogicRelease at hclear
    refine ⟨hfold heq, hinv, ?_⟩
    by_cases hslot : s.slot (s.hash (s.logicId lgc)) = some lgc
    · simp only [hslot, if_true] at hclear
      obtain rfl := Except.ok.inj hclear
      exact h.directory.release hadm
    · simp only [hslot, if_false] at hclear
      cases hclear

/-- Calls one after another. -/
theorem stored_of_serial {calls : List (Req × Reply)} (h : logicStore.Serial .zero calls s)
    (hlegal : Legal .zero (calls.map Prod.fst)) : Stored calls s := by
  revert hlegal
  apply h.invariant (I := fun calls s => Legal .zero (calls.map Prod.fst) → Stored calls s)
  · exact fun _ => ⟨rfl, Store.inv_zero, .nil⟩
  · intro calls s s' req r ih hrun hlegal
    rw [List.map_append] at hlegal
    obtain ⟨hbefore, hadm⟩ := Legal.snoc hlegal
    have hs := ih hbefore
    exact hs.call (hadm s hs.folded) hrun

/-! ## Runs -/

/-- **The logic store under threads.** For any number of threads and every interleaving of their
statements, readers beside each other, the calls that have returned have met no fault, and in the
order in which they have given the lock back they have returned what a directory returns: a
registration a new id, a lookup the logic that is registered under the id, and its variable that was
never set if there is none. While no thread has the lock to write, the store is the one behind these
calls, with every live logic at the slot of its id and nowhere else. -/
theorem store_serializable
    {S : Sys (Locked CoreLock.RwLock Store Req Reply) (Pool.Call Req Stmt Reply CoreLock.Pc)}
    (hrun : Reach program anyStep begin S) (hlegal : Legal .zero (S.shared.log.map Prod.fst)) :
    ∃ s, Directory S.shared.log s.live s.given ∧ s.Sound ∧
      ((∀ c ∈ S.threads, c.pc ≠ .wHeld) → S.shared.mem = s) := by
  obtain ⟨s, hserial, hmem⟩ := Lock.serializable hrun
  have h := stored_of_serial hserial hlegal
  refine ⟨s, h.directory, h.inv.sound, fun hw => hmem fun c hc hh => ?_⟩
  change held c.pc = true at hh
  show reader c.pc = true
  have hc := hw c hc
  cases hpc : c.pc with
  | wHeld => exact absurd hpc hc
  | rHeld => rfl
  | _ =>
    rw [hpc] at hh
    cases hh

/-- A registration and two lookups, of its id and of another one, which ask for the lock while the table
is written and then read beside each other. -/
def threeCalls : List (Pool.Call Req Stmt Reply CoreLock.Pc) :=
  [⟨.reg 7, .wTry, .inl (.regTest 7 0)⟩, ⟨.grub 0 none, .rWait, .inl (.grubHash 0 none)⟩,
    ⟨.grub 1 (some 9), .rWait, .inl (.grubHash 1 (some 9))⟩]

def threeTurns : List Nat :=
  [0, 0, 1, 2] ++ List.replicate 9 0 ++ (List.replicate 10 [0, 1]).flatten

/-- The second lookup finds nothing, returns what its variable held and is the first to give the lock
back. -/
theorem store_serializable_three :
    let s := (picks program threeTurns begin.shared threeCalls).1
    s.log = [(.reg 7, .ok (some 0)), (.grub 1 (some 9), .ok (some 9)), (.grub 0 none, .ok (some 7))] ∧
      s.mem.Sound := by
  intro s
  have hcalls : Reach program anyStep begin ⟨begin.shared, (threeCalls : Multiset _)⟩ := by
    apply Reach.calls threeCalls
    intro c hc
    fin_cases hc
    · exact ⟨rfl, rfl, .wlock _, rfl, rfl⟩
    · exact ⟨rfl, rfl, .rlock _, rfl, rfl⟩
    · exact ⟨rfl, rfl, .rlock _, rfl, rfl⟩
  have hrun := hcalls.picks (k := fun _ _ _ => true) threeTurns (fun _ _ _ _ => trivial) rfl
  have hlog : s.log =
      [(.reg 7, .ok (some 0)), (.grub 1 (some 9), .ok (some 9)), (.grub 0 none, .ok (some 7))] := rfl
  have hlegal : Legal .zero (s.log.map Prod.fst) := by
    rw [hlog]
    refine ⟨⟨List.not_mem_nil, fun s' heq => ?_⟩, fun s' heq => ?_⟩
    · obtain rfl := Except.ok.inj heq
      rfl
    · obtain rfl := Except.ok.inj heq
      have hsize : DEFAULT_SLOT_SIZE ≠ 0 := by decide
      refine ⟨hsize, fun s'' heq' => ?_⟩
      obtain rfl := Except.ok.inj heq'
      exact ⟨hsize, fun _ _ => trivial⟩
  obtain ⟨s', -, hsound, hmem⟩ := store_serializable hrun hlegal
  have hs : s.mem = s' := hmem fun c hc => absurd hc (Multiset.notMem_zero c)
  exact ⟨hlog, hs ▸ hsound⟩

end HoNet.LogicStore.Threads
