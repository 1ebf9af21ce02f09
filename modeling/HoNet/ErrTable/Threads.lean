import HoNet.Lib.Mutex
import HoNet.ErrTable

/-!
# Threads in the error table of `errmsg.cpp`

`errno_str_inner` runs along the chain of a bucket without the lock, and again under it before it
links a new node. The link takes two stores: the node in front is linked to the new one first, and
the new one to what follows it second. In between, the chain ends at the new node for every thread
that runs along it. Each load and store of a link, each operation on the lock and the call of
`sys_errmsg` is one step, and any number of threads are interleaved.

* `Inv` — the chains as they will be when the thread under the lock is done.
* `Inv.thread` — one step of any thread.
* `lookups_beside` — whole runs: one node for each code, and one text.
-/

namespace HoNet.ErrTable

/-! ## A node before it is linked -/

/-- The new node of `sys_errmsg`, which no chain has yet. -/
def ErrHash.alloc (t : ErrHash) (e : UInt32) (text : String) : ErrHash :=
  { t with
    next := Function.update t.next (.node t.allocated) none
    err := Function.update t.err (.node t.allocated) e
    msg := Function.update t.msg (.node t.allocated) text
    allocated := t.allocated + 1 }

section Alloc

variable {t : ErrHash} {chains : UInt8 → List Ptr}

theorem kept_alloc (h : ∀ b, .node t.allocated ∉ chains b) (e : UInt32) (text : String) :
    Kept t chains (t.alloc e text) chains := by
  intro b x hx
  have hne : x ≠ .node t.allocated := by
    rintro rfl
    exact h b hx
  exact ⟨hx, Function.update_of_ne hne .., Function.update_of_ne hne ..⟩

theorem Table.alloc (h : Table t chains) (e : UInt32) (text : String) :
    Table (t.alloc e text) chains := by
  have hkept := kept_alloc h.fresh e text
  refine ⟨fun b => ?_, fun b x hx => ?_, fun b => ?_, fun b x hx => ?_⟩
  · have hne : Ptr.head b ≠ .node t.allocated := by rintro ⟨⟩
    simp only [ErrHash.alloc, Function.update_of_ne hne]
    refine (h.chain b).congr fun x hx => Function.update_of_ne ?_ ..
    rintro rfl
    exact h.fresh b hx
  · obtain ⟨i, hi, rfl⟩ := h.node b x hx
    exact ⟨i, Nat.lt_succ_of_lt hi, rfl⟩
  · refine (h.ascending b).imp_of_mem fun hx hy hlt => ?_
    rw [(hkept b _ hx).2.1, (hkept b _ hy).2.1]
    exact hlt
  · rw [(hkept b x hx).2.1]
    exact h.bucket b x hx

end Alloc

namespace Threads

open HoNet.Linked HoNet.Pool

/-! ## Threads -/

/-- The table. History variables: the calls that were begun, and those that have returned with the
node whose text they returned. -/
structure Shared where
  table : ErrHash
  calls : List Call
  returned : List (Ptr × Reply)

/-- The statement of `errno_str_inner` a thread executes next. -/
inductive Pc where
  /-- The loop without the lock. -/
  | first (c : Call)
  | look (c : Call) (node : Option Ptr)
  | lock (c : Call)
  /-- The two loops under the lock; `again` at the second. -/
  | load (c : Call) (again : Bool)
  | seek (c : Call) (again : Bool) (prev : Ptr) (node : Option Ptr)
  /-- `sys_errmsg`, `prev->next = newnode` and `newnode->next = node`. -/
  | make (c : Call) (prev : Ptr) (node : Option Ptr)
  | store (c : Call) (prev : Ptr) (node : Option Ptr) (i : Nat)
  | tie (c : Call) (node : Option Ptr) (i : Nat)
  | unlock (c : Call) (p : Ptr)
  /-- The rest of `errno_append` or `errno_str`. -/
  | ret (c : Call) (p : Ptr)
  deriving DecidableEq, Repr

def Pc.call : Pc → Call
  | .first c | .look c _ | .lock c | .load c _ | .seek c _ _ _ | .make c _ _ | .store c _ _ _
  | .tie c _ _ | .unlock c _ | .ret c _ => c

/-- The thread has the lock. -/
def Pc.inside : Pc → Bool
  | .load _ _ | .seek _ _ _ _ | .make _ _ _ | .store _ _ _ _ | .tie _ _ _ | .unlock _ _ => true
  | .first _ | .look _ _ | .lock _ | .ret _ _ => false

section Program

variable (formatMessage : UInt32 → Option String)

def next (s : Shared) : Pc → Shared × Option Pc
  | .first c => (s, some (.look c (s.table.next (.head (hash c.code)))))
  | .look c none => (s, some (.lock c))
  | .look c (some q) =>
    (s, some (if s.table.err q < c.code then .look c (s.table.next q)
      else if s.table.err q = c.code then .ret c q
      else .lock c))
  | .lock c =>
    if s.table.lock then (s, some (.lock c))
    else ({ s with table := { s.table with lock := true } }, some (.load c false))
  | .load c again =>
    (s, some (.seek c again (.head (hash c.code)) (s.table.next (.head (hash c.code)))))
  | .seek c again prev none => (s, some (if again then .make c prev none else .load c true))
  | .seek c again prev (some q) =>
    (s, some (if s.table.err q < c.code then .seek c again q (s.table.next q)
      else if s.table.err q = c.code then .unlock c q
      else if again then .make c prev (some q)
      else .load c true))
  | .make c prev node =>
    ({ s with table := s.table.alloc c.code (c.text formatMessage) },
      some (.store c prev node s.table.allocated))
  | .store c prev node i =>
    ({ s with table := { s.table with next := Function.update s.table.next prev (some (.node i)) } },
      some (.tie c node i))
  | .tie c node i =>
    ({ s with table := { s.table with next := Function.update s.table.next (.node i) node } },
      some (.unlock c (.node i)))
  | .unlock c p => ({ s with table := s.table.release }, some (.ret c p))
  | .ret c p => ({ s with returned := s.returned ++ [(p, c.answer (s.table.msg p))] }, none)

/-- A thread calls `errno_append` or `errno_str`. -/
def program : Program Shared Pc where
  next := next formatMessage
  start s s' p := ∃ c, p = .first c ∧ s' = { s with calls := s.calls ++ [c] }

end Program

def begin : Sys Shared Pc := ⟨⟨.zero, [], []⟩, 0⟩

/-! ## The invariant -/

/-- The search has passed the codes below `e` of a chain. -/
def Passed (t : ErrHash) (chains : UInt8 → List Ptr) (e : UInt32) (prev : Ptr) (node : Option Ptr)
    (A B : List Ptr) : Prop :=
  chains (hash e) = A ++ B ∧ (∀ p ∈ A, t.err p < e) ∧ prev = A.getLast?.getD (.head (hash e)) ∧
    node = B.head?

/-- The node is that of the code. -/
def Found (t : ErrHash) (chains : UInt8 → List Ptr) (e : UInt32) (p : Ptr) : Prop :=
  p ∈ chains (hash e) ∧ t.err p = e

/-- What a thread knows; `full` is the table with the link that is still to be stored. -/
def Knows (formatMessage : UInt32 → Option String) (t full : ErrHash) (chains : UInt8 → List Ptr) :
    Pc → Prop
  | .look c (some q) => q ∈ chains (hash c.code)
  | .seek c _ prev node => ∃ A B, Passed t chains c.code prev node A B
  | .make c prev node => ∃ A B, Passed t chains c.code prev node A B ∧ ∀ p ∈ B, c.code < t.err p
  | .store c prev node i =>
    (∃ A B, Passed t chains c.code prev node A B ∧ ∀ p ∈ B, c.code < t.err p) ∧
      (∀ b, .node i ∉ chains b) ∧ i + 1 = t.allocated ∧ t.next (.node i) = none ∧
      t.err (.node i) = c.code ∧ t.msg (.node i) = c.text formatMessage
  | .tie c node i =>
    full.next = Function.update t.next (.node i) node ∧ Found t chains c.code (.node i)
  | .unlock c p | .ret c p => Found t chains c.code p
  | .first _ | .look _ none | .lock _ | .load _ _ => True

structure Inv (formatMessage : UInt32 → Option String) (s : Shared) (T : Multiset Pc)
    (full : ErrHash) (chains : UInt8 → List Ptr) : Prop where
  guarded : Guarded Pc.inside s.table.lock T
  table : Table full chains
  err_eq : s.table.err = full.err
  allocated_eq : s.table.allocated = full.allocated
  near : ∀ p, s.table.next p = full.next p ∨ s.table.next p = none
  whole : (∀ c node i, .tie c node i ∉ T) → s.table.next = full.next
  knows : ∀ p ∈ T, Knows formatMessage s.table full chains p
  linked : ∀ i < s.table.allocated, .node i ∈ chains (hash (s.table.err (.node i))) ∨
    ∃ c prev node, .store c prev node i ∈ T
  text : ∀ i < s.table.allocated, ∃ c ∈ s.calls, c.code = s.table.err (.node i) ∧
    s.table.msg (.node i) = c.text formatMessage
  called : ∀ p ∈ T, p.call ∈ s.calls
  answered : ∀ r ∈ s.returned, Found s.table chains r.2.call.code r.1 ∧
    r.2 = r.2.call.answer (s.table.msg r.1)

section Step

variable {formatMessage : UInt32 → Option String} {s : Shared} {T R : Multiset Pc} {full : ErrHash}
  {chains chains' : UInt8 → List Ptr} {t t' full' : ErrHash} {p q : Pc} {c : Call}

/-- A thread without the lock relies on nodes that stay. -/
theorem Knows.outside (h : Knows formatMessage t full chains q) (hq : q.inside = false)
    (hkeep : ∀ b, ∀ p ∈ chains b, p ∈ chains' b ∧ t'.err p = t.err p) :
    Knows formatMessage t' full' chains' q := by
  cases q with
  | first c | lock c => trivial
  | look c node =>
    cases node with
    | none => trivial
    | some r => exact (hkeep _ r h).1
  | ret c r =>
    obtain ⟨hr, he⟩ := h
    obtain ⟨hr', he'⟩ := hkeep _ r hr
    exact ⟨hr', he'.trans he⟩
  | load c again | seek c again prev node | make c prev node | store c prev node i
  | tie c node i | unlock c r => cases hq

/-- The thread is about to store a link. -/
def Pc.linking : Pc → Bool
  | .store _ _ _ _ | .tie _ _ _ => true
  | _ => false

/-- A thread moves on and changes nothing. -/
theorem Inv.move (h : Inv formatMessage s (p ::ₘ R) full chains) (hp : p.linking = false)
    (hin : q.inside = p.inside) (hcall : q.call = p.call)
    (hq : Knows formatMessage s.table full chains q) :
    Inv formatMessage s (q ::ₘ R) full chains := by
  refine { h with guarded := h.guarded.stay hin, whole := ?_, knows := ?_, linked := ?_, called := ?_ }
  · intro hno
    refine h.whole fun c node i hm => ?_
    rcases Multiset.mem_cons.mp hm with rfl | hm
    · cases hp
    · exact hno c node i (Multiset.mem_cons_of_mem hm)
  · intro r hr
    rcases Multiset.mem_cons.mp hr with rfl | hr
    · exact hq
    · exact h.knows r (Multiset.mem_cons_of_mem hr)
  · intro i hi
    refine (h.linked i hi).imp_right ?_
    rintro ⟨c, prev, node, hm⟩
    rcases Multiset.mem_cons.mp hm with rfl | hm
    · cases hp
    · exact ⟨c, prev, node, Multiset.mem_cons_of_mem hm⟩
  · intro r hr
    rcases Multiset.mem_cons.mp hr with rfl | hr
    · rw [hcall]
      exact h.called p (Multiset.mem_cons_self p R)
    · exact h.called r (Multiset.mem_cons_of_mem hr)

theorem Inv.knows_self (h : Inv formatMessage s (p ::ₘ R) full chains) :
    Knows formatMessage s.table full chains p :=
  h.knows p (Multiset.mem_cons_self p R)

/-- Beside a thread under the lock that is not about to store the second link, the chains are whole. -/
theorem Inv.next_eq (h : Inv formatMessage s (p ::ₘ R) full chains) (hp : p.inside = true)
    (hno : ∀ c node i, p ≠ .tie c node i) : s.table.next = full.next := by
  refine h.whole fun c node i hm => ?_
  rcases Multiset.mem_cons.mp hm with heq | hm
  · exact hno c node i heq.symm
  · have hout := (h.guarded.alone hp).2 _ hm
    cases hout

/-- What a thread without the lock finds behind the head of a bucket or behind a node. -/
theorem Inv.looks (h : Inv formatMessage s T full chains) {x : Ptr}
    (hx : x = .head (hash c.code) ∨ x ∈ chains (hash c.code)) :
    Knows formatMessage s.table full chains (.look c (s.table.next x)) := by
  cases hn : s.table.next x with
  | none => trivial
  | some r =>
    have hfull : full.next x = some r := by
      rcases h.near x with heq | hnone
      · rw [← heq, hn]
      · rw [hnone] at hn
        cases hn
    have hchain := h.table.chain (hash c.code)
    rcases hx with rfl | hx
    · rw [hfull] at hchain
      exact List.mem_of_head? hchain.head_eq.symm
    · exact hchain.next_mem hx hfull

theorem Inv.first (h : Inv formatMessage s (.first c ::ₘ R) full chains) :
    Inv formatMessage s (.look c (s.table.next (.head (hash c.code))) ::ₘ R) full chains :=
  h.move rfl rfl rfl (h.looks (.inl rfl))

theorem Inv.look (h : Inv formatMessage s (.look c node ::ₘ R) full chains) :
    Inv formatMessage (next formatMessage s (.look c node)).1
      (put (next formatMessage s (.look c node)).2 R) full chains := by
  cases node with
  | none => exact h.move rfl rfl rfl trivial
  | some r =>
    have hr : r ∈ chains (hash c.code) := h.knows_self
    simp only [next]
    split
    · exact h.move rfl rfl rfl (h.looks (.inr hr))
    · split
      · next he => exact h.move rfl rfl rfl ⟨hr, he⟩
      · exact h.move rfl rfl rfl trivial

theorem Inv.load {again : Bool} (h : Inv formatMessage s (.load c again ::ₘ R) full chains) :
    Inv formatMessage s
      (.seek c again (.head (hash c.code)) (s.table.next (.head (hash c.code))) ::ₘ R) full chains := by
  refine h.move rfl rfl rfl ⟨[], chains (hash c.code), rfl, ?_, rfl, ?_⟩
  · intro x hx
    cases hx
  · rw [h.next_eq rfl (by rintro _ _ _ ⟨⟩)]
    exact (h.table.chain _).head_eq

theorem Inv.seek {again : Bool} {prev : Ptr} {node : Option Ptr}
    (h : Inv formatMessage s (.seek c again prev node ::ₘ R) full chains) :
    Inv formatMessage (next formatMessage s (.seek c again prev node)).1
      (put (next formatMessage s (.seek c again prev node)).2 R) full chains := by
  obtain ⟨A, B, hAB, hA, hprev, hnode⟩ := h.knows_self
  have hchain := h.table.chain (hash c.code)
  cases node with
  | none =>
    obtain rfl : B = [] := List.head?_eq_none_iff.mp hnode.symm
    cases again with
    | false => exact h.move rfl rfl rfl trivial
    | true =>
      refine h.move rfl rfl rfl ⟨A, [], ⟨hAB, hA, hprev, rfl⟩, ?_⟩
      intro x hx
      cases hx
  | some r =>
    obtain ⟨B, rfl⟩ : ∃ B', B = r :: B' := by
      cases B with
      | nil => cases hnode
      | cons x B =>
        cases hnode
        exact ⟨B, rfl⟩
    have hr : r ∈ chains (hash c.code) := by
      rw [hAB]
      exact List.mem_append_right _ List.mem_cons_self
    simp only [next]
    split
    · next hlt =>
      -- one node further
      refine h.move rfl rfl rfl ⟨A ++ [r], B, ?_, ?_, ?_, ?_⟩
      · rw [hAB, List.append_assoc, List.singleton_append]
      · intro x hx
        rcases List.mem_append.mp hx with hx | hx
        · exact hA x hx
        · rw [List.mem_singleton.mp hx]
          exact hlt
      · rw [List.getLast?_concat, Option.getD_some]
      · rw [hAB] at hchain
        rw [h.next_eq rfl (by rintro _ _ _ ⟨⟩)]
        exact hchain.next_eq
    · next hge =>
      split
      · next he => exact h.move rfl rfl rfl ⟨hr, he⟩
      · next hne =>
        cases again with
        | false => exact h.move rfl rfl rfl trivial
        | true =>
          refine h.move rfl rfl rfl ⟨A, r :: B, ⟨hAB, hA, hprev, rfl⟩, ?_⟩
          have hlt : c.code < s.table.err r :=
            UInt32.lt_of_le_of_ne (UInt32.not_lt.mp hge) fun e => hne e.symm
          have hs := h.table.ascending (hash c.code)
          rw [hAB, ← h.err_eq] at hs
          have hsB := List.pairwise_cons.mp (List.pairwise_append.mp hs).2.1
          intro x hx
          rcases List.mem_cons.mp hx with rfl | hx
          · exact hlt
          · exact UInt32.lt_trans hlt (hsB.1 x hx)

/-- A step of a thread beside threads that are all without the lock. -/
theorem Inv.act (h : Inv formatMessage s (p ::ₘ R) full chains)
    (hout : ∀ r ∈ R, r.inside = false) (hguard : Guarded Pc.inside t'.lock (q ::ₘ R))
    (hcall : q.call = p.call) (hkept : Kept s.table chains t' chains')
    (htable : Table full' chains') (herr : t'.err = full'.err)
    (halloc : t'.allocated = full'.allocated)
    (hnear : ∀ x, t'.next x = full'.next x ∨ t'.next x = none)
    (hwhole : (∀ c node i, q ≠ .tie c node i) → t'.next = full'.next)
    (hq : Knows formatMessage t' full' chains' q)
    (hlinked : ∀ i < t'.allocated, .node i ∈ chains' (hash (t'.err (.node i))) ∨
      ∃ c prev node, q = .store c prev node i)
    (htext : ∀ i < t'.allocated, ∃ c ∈ s.calls, c.code = t'.err (.node i) ∧
      t'.msg (.node i) = c.text formatMessage) :
    Inv formatMessage { s with table := t' } (q ::ₘ R) full' chains' where
  guarded := hguard
  table := htable
  err_eq := herr
  allocated_eq := halloc
  near := hnear
  whole hno := by
    refine hwhole fun c node i heq => hno c node i ?_
    rw [heq]
    exact Multiset.mem_cons_self _ R
  knows r hr := by
    rcases Multiset.mem_cons.mp hr with rfl | hr
    · exact hq
    · refine (h.knows r (Multiset.mem_cons_of_mem hr)).outside (hout r hr) fun b x hx => ?_
      exact ⟨(hkept b x hx).1, (hkept b x hx).2.1⟩
  linked i hi := by
    refine (hlinked i hi).imp_right ?_
    rintro ⟨c, prev, node, rfl⟩
    exact ⟨c, prev, node, Multiset.mem_cons_self _ R⟩
  text := htext
  called r hr := by
    rcases Multiset.mem_cons.mp hr with rfl | hr
    · rw [hcall]
      exact h.called p (Multiset.mem_cons_self p R)
    · exact h.called r (Multiset.mem_cons_of_mem hr)
  answered r hr := by
    obtain ⟨⟨hmem, he⟩, ha⟩ := h.answered r hr
    obtain ⟨hmem', he', hm'⟩ := hkept _ _ hmem
    refine ⟨⟨hmem', he'.trans he⟩, ?_⟩
    rw [hm']
    exact ha

/-- Beside a thread under the lock every node is linked but the one it is about to link. -/
theorem Inv.linked_beside (h : Inv formatMessage s (p ::ₘ R) full chains)
    (hout : ∀ r ∈ R, r.inside = false) {i : Nat} (hi : i < s.table.allocated) :
    .node i ∈ chains (hash (s.table.err (.node i))) ∨ ∃ c prev node, p = .store c prev node i := by
  refine (h.linked i hi).imp_right ?_
  rintro ⟨c, prev, node, hm⟩
  rcases Multiset.mem_cons.mp hm with rfl | hm
  · exact ⟨c, prev, node, rfl⟩
  · have hfalse := hout _ hm
    cases hfalse

theorem Inv.lock (h : Inv formatMessage s (.lock c ::ₘ R) full chains) :
    Inv formatMessage (next formatMessage s (.lock c)).1
      (put (next formatMessage s (.lock c)).2 R) full chains := by
  simp only [next]
  split
  · exact h
  · next hfree =>
    have hl : s.table.lock = false := Bool.eq_false_of_not_eq_true hfree
    have hguard := h.guarded
    rw [hl] at hguard
    have hout : ∀ r ∈ R, r.inside = false :=
      fun r hr => hguard.outside r (Multiset.mem_cons_of_mem hr)
    have hkept : Kept s.table chains { s.table with lock := true } chains := Kept.refl _ chains
    refine h.act hout (hguard.enter rfl) rfl hkept h.table h.err_eq h.allocated_eq h.near ?_
      trivial ?_ h.text
    · intro _
      refine h.whole fun c node i hm => ?_
      have hfalse := hguard.outside _ hm
      cases hfalse
    · intro i hi
      refine (h.linked_beside hout hi).imp_right ?_
      rintro ⟨c, prev, node, ⟨⟩⟩

/-- `sys_errmsg`. -/
theorem Inv.make {prev : Ptr} {node : Option Ptr}
    (h : Inv formatMessage s (.make c prev node ::ₘ R) full chains) :
    Inv formatMessage (next formatMessage s (.make c prev node)).1
      (put (next formatMessage s (.make c prev node)).2 R)
      (full.alloc c.code (c.text formatMessage)) chains := by
  obtain ⟨-, hout⟩ := h.guarded.alone rfl
  obtain ⟨A, B, ⟨hAB, hA, hprev, hnode⟩, hB⟩ := h.knows_self
  have hnext := h.next_eq rfl (by rintro _ _ _ ⟨⟩)
  have hfresh : ∀ b, .node s.table.allocated ∉ chains b := by
    rw [h.allocated_eq]
    exact h.table.fresh
  have hkept : Kept s.table chains (s.table.alloc c.code (c.text formatMessage)) chains :=
    kept_alloc hfresh c.code _
  have herr := fun x hx => (hkept (hash c.code) x hx).2.1
  have hold : ∀ i < s.table.allocated + 1, i ≠ s.table.allocated → i < s.table.allocated :=
    fun i hi hne => Nat.lt_of_le_of_ne (Nat.le_of_lt_succ hi) hne
  have hnode_ne : ∀ i, i ≠ s.table.allocated → Ptr.node i ≠ .node s.table.allocated := by
    rintro i hi ⟨⟩
    exact hi rfl
  refine h.act hout (h.guarded.stay rfl) rfl hkept (h.table.alloc _ _) ?_ ?_ ?_ ?_ ?_ ?_ ?_
  · simp only [ErrHash.alloc, h.err_eq, h.allocated_eq]
  · exact congrArg (· + 1) h.allocated_eq
  · intro x
    simp only [ErrHash.alloc, ← h.allocated_eq]
    by_cases hx : x = .node s.table.allocated
    · rw [hx]
      exact .inr (Function.update_self ..)
    · rw [Function.update_of_ne hx, Function.update_of_ne hx]
      exact h.near x
  · intro _
    simp only [ErrHash.alloc, hnext, h.allocated_eq]
  · refine ⟨⟨A, B, ⟨hAB, fun x hx => ?_, hprev, hnode⟩, fun x hx => ?_⟩, hfresh, rfl,
      Function.update_self .., Function.update_self .., Function.update_self ..⟩
    · have hx' := herr x (hAB ▸ List.mem_append_left _ hx)
      exact hx' ▸ hA x hx
    · have hx' := herr x (hAB ▸ List.mem_append_right _ hx)
      exact hx' ▸ hB x hx
  · intro i hi
    by_cases heq : i = s.table.allocated
    · exact .inr ⟨c, prev, node, by rw [heq]⟩
    · rcases h.linked_beside hout (hold i hi heq) with hm | ⟨_, _, _, ⟨⟩⟩
      simp only [ErrHash.alloc, Function.update_of_ne (hnode_ne i heq)]
      exact .inl hm
  · intro i hi
    by_cases heq : i = s.table.allocated
    · subst heq
      simp only [ErrHash.alloc, Function.update_self]
      exact ⟨c, h.called _ (Multiset.mem_cons_self _ R), rfl, rfl⟩
    · simp only [ErrHash.alloc, Function.update_of_ne (hnode_ne i heq)]
      exact h.text i (hold i hi heq)

/-- `prev->next = newnode`: for the thread the node is linked, for the others the chain ends there. -/
theorem Inv.store {prev : Ptr} {node : Option Ptr} {i : Nat}
    (h : Inv formatMessage s (.store c prev node i ::ₘ R) full chains) :
    ∃ full' chains', Inv formatMessage (next formatMessage s (.store c prev node i)).1
      (put (next formatMessage s (.store c prev node i)).2 R) full' chains' := by
  obtain ⟨-, hout⟩ := h.guarded.alone rfl
  obtain ⟨⟨A, B, ⟨hAB, hA, hprev, hnode⟩, hB⟩, hfresh, hi, hnone, herr, hmsg⟩ := h.knows_self
  have hnext := h.next_eq rfl (by rintro _ _ _ ⟨⟩)
  -- without the new node the chains are a table
  have hbefore : Table { full with allocated := i } chains := by
    refine ⟨h.table.chain, fun b x hx => ?_, h.table.ascending, h.table.bucket⟩
    obtain ⟨j, hj, rfl⟩ := h.table.node b x hx
    have hne : j ≠ i := by
      rintro rfl
      exact hfresh b hx
    rw [← h.allocated_eq] at hj
    have hlt : j < i := by omega
    exact ⟨j, hlt, rfl⟩
  have hlink := Table.link (c.text formatMessage) hbefore hAB (h.err_eq ▸ hA) (h.err_eq ▸ hB)
  rw [← hprev, ← hnode] at hlink
  have hmem : ∀ b x, x ∈ Function.update chains (hash c.code) (A ++ .node i :: B) b ↔
      x = .node i ∧ b = hash c.code ∨ x ∈ chains b := fun b x => mem_linked hAB
  have hne : Ptr.node i ≠ prev := by
    rw [hprev]
    intro heq
    cases hl : A.getLast? with
    | none =>
      rw [hl] at heq
      cases heq
    | some x =>
      rw [hl] at heq
      refine hfresh (hash c.code) ?_
      rw [hAB, heq]
      exact List.mem_append_left _ (List.mem_of_getLast? hl)
  refine ⟨_, _, h.act hout (h.guarded.stay rfl) rfl ?_ hlink ?_ hi.symm ?_ ?_ ?_ ?_ h.text⟩
  · exact fun b x hx => ⟨(hmem b x).mpr (.inr hx), rfl, rfl⟩
  · simp only [ErrHash.link, ← h.err_eq]
    rw [← herr, Function.update_eq_self]
  · intro x
    simp only [ErrHash.link, ← hnext]
    by_cases hx : x = .node i
    · subst hx
      rw [Function.update_of_ne hne]
      exact .inr hnone
    · rw [Function.update_of_ne hx]
      exact .inl rfl
  · exact fun hno => (hno c node i rfl).elim
  · refine ⟨?_, (hmem _ _).mpr (.inl ⟨rfl, rfl⟩), herr⟩
    simp only [ErrHash.link, ← hnext]
  · intro j hj
    left
    rcases h.linked_beside hout hj with hm | ⟨_, _, _, heq⟩
    · exact (hmem _ _).mpr (.inr hm)
    · cases heq
      rw [herr]
      exact (hmem _ _).mpr (.inl ⟨rfl, rfl⟩)

/-- `newnode->next = node`: the chain goes on again behind the new node. -/
theorem Inv.tie {node : Option Ptr} {i : Nat}
    (h : Inv formatMessage s (.tie c node i ::ₘ R) full chains) :
    Inv formatMessage (next formatMessage s (.tie c node i)).1
      (put (next formatMessage s (.tie c node i)).2 R) full chains := by
  obtain ⟨-, hout⟩ := h.guarded.alone rfl
  obtain ⟨hfull, hfound⟩ := h.knows_self
  refine h.act hout (h.guarded.stay rfl) rfl (Kept.refl _ chains) h.table h.err_eq h.allocated_eq ?_ ?_
    hfound ?_ h.text
  · exact fun x => .inl (congrFun hfull.symm x)
  · exact fun _ => hfull.symm
  · intro j hj
    refine (h.linked_beside hout hj).imp_right ?_
    rintro ⟨c, prev, node, ⟨⟩⟩

theorem Inv.unlock {x : Ptr} (h : Inv formatMessage s (.unlock c x ::ₘ R) full chains) :
    Inv formatMessage (next formatMessage s (.unlock c x)).1
      (put (next formatMessage s (.unlock c x)).2 R) full chains := by
  obtain ⟨-, hout⟩ := h.guarded.alone rfl
  refine h.act hout (h.guarded.leave rfl rfl) rfl (Kept.refl _ chains) h.table h.err_eq h.allocated_eq
    h.near ?_ h.knows_self ?_ h.text
  · exact fun _ => h.next_eq rfl (by rintro _ _ _ ⟨⟩)
  · intro j hj
    refine (h.linked_beside hout hj).imp_right ?_
    rintro ⟨c, prev, node, ⟨⟩⟩

theorem answer_call (c : Call) (text : String) : (c.answer text).call = c := by
  cases c <;> rfl

theorem answer_text (c : Call) (text : String) : (c.answer text).text = text := by
  cases c <;> rfl

theorem Inv.ret {x : Ptr} (h : Inv formatMessage s (.ret c x ::ₘ R) full chains) :
    Inv formatMessage (next formatMessage s (.ret c x)).1
      (put (next formatMessage s (.ret c x)).2 R) full chains := by
  have hfound : Found s.table chains c.code x := h.knows_self
  refine { h with
    guarded := h.guarded.gone rfl
    whole := fun hno => h.whole fun c node i hm => ?_
    knows := fun r hr => h.knows r (Multiset.mem_cons_of_mem hr)
    linked := fun i hi => (h.linked i hi).imp_right ?_
    called := fun r hr => h.called r (Multiset.mem_cons_of_mem hr)
    answered := fun r hr => ?_ }
  · rcases Multiset.mem_cons.mp hm with heq | hm
    · cases heq
    · exact hno c node i hm
  · rintro ⟨c, prev, node, hm⟩
    rcases Multiset.mem_cons.mp hm with heq | hm
    · cases heq
    · exact ⟨c, prev, node, hm⟩
  · rcases List.mem_append.mp hr with hr | hr
    · exact h.answered r hr
    · obtain rfl := List.mem_singleton.mp hr
      simp only [answer_call]
      exact ⟨hfound, rfl⟩

/-- **One step** of any thread. -/
theorem Inv.thread (h : Inv formatMessage s (p ::ₘ R) full chains) :
    ∃ full' chains', Inv formatMessage (next formatMessage s p).1
      (put (next formatMessage s p).2 R) full' chains' := by
  cases p with
  | first c => exact ⟨full, chains, h.first⟩
  | look c node => exact ⟨full, chains, h.look⟩
  | lock c => exact ⟨full, chains, h.lock⟩
  | load c again => exact ⟨full, chains, h.load⟩
  | seek c again prev node => exact ⟨full, chains, h.seek⟩
  | make c prev node => exact ⟨_, chains, h.make⟩
  | store c prev node i => exact h.store
  | tie c node i => exact ⟨full, chains, h.tie⟩
  | unlock c x => exact ⟨full, chains, h.unlock⟩
  | ret c x => exact ⟨full, chains, h.ret⟩

theorem Inv.start (h : Inv formatMessage s T full chains) (c : Call) :
    Inv formatMessage { s with calls := s.calls ++ [c] } (.first c ::ₘ T) full chains := by
  refine { h with
    guarded := h.guarded.add rfl
    whole := fun hno => h.whole fun c node i hm => hno c node i (Multiset.mem_cons_of_mem hm)
    knows := fun r hr => ?_
    linked := fun i hi => (h.linked i hi).imp_right ?_
    text := fun i hi => ?_
    called := fun r hr => ?_ }
  · rcases Multiset.mem_cons.mp hr with rfl | hr
    · trivial
    · exact h.knows r hr
  · rintro ⟨c, prev, node, hm⟩
    exact ⟨c, prev, node, Multiset.mem_cons_of_mem hm⟩
  · obtain ⟨d, hd, hcode, htext⟩ := h.text i hi
    exact ⟨d, List.mem_append_left _ hd, hcode, htext⟩
  · rcases Multiset.mem_cons.mp hr with rfl | hr
    · exact List.mem_append_right _ List.mem_cons_self
    · exact List.mem_append_left _ (h.called r hr)

end Step

section Runs

variable {formatMessage : UInt32 → Option String} {s : Shared} {T : Multiset Pc} {full : ErrHash}
  {chains : UInt8 → List Ptr}

theorem begin_inv : Inv formatMessage begin.shared begin.threads .zero fun _ => [] where
  guarded := guarded_zero Pc.inside
  table := holds_zero.toTable
  err_eq := rfl
  allocated_eq := rfl
  near _ := .inl rfl
  whole _ := rfl
  knows _ hp := (Multiset.notMem_zero _ hp).elim
  linked _ hi := (Nat.not_lt_zero _ hi).elim
  text _ hi := (Nat.not_lt_zero _ hi).elim
  called _ hp := (Multiset.notMem_zero _ hp).elim
  answered _ hr := (List.not_mem_nil hr).elim

theorem reach_inv {S : Sys Shared Pc} (h : Reach (program formatMessage) anyStep begin S) :
    ∃ full chains, Inv formatMessage S.shared S.threads full chains := by
  refine Reach.invariant (I := fun s T => ∃ full chains, Inv formatMessage s T full chains) h
    ⟨_, _, begin_inv⟩ ?_ ?_
  · rintro s p R - ⟨full, chains, hI⟩
    exact hI.thread
  · rintro s s' p T ⟨c, rfl, rfl⟩ ⟨full, chains, hI⟩
    exact ⟨full, chains, hI.start c⟩

/-- The node a thread is about to link is the first for its code. -/
theorem Inv.store_new (h : Inv formatMessage s T full chains) {c : Call} {prev : Ptr}
    {node : Option Ptr} {i : Nat} (hm : .store c prev node i ∈ T) {x : Ptr}
    (hx : x ∈ chains (hash (s.table.err x))) : s.table.err x ≠ s.table.err (.node i) := by
  obtain ⟨⟨A, B, ⟨hAB, hA, -, -⟩, hB⟩, -, -, -, herr, -⟩ := h.knows _ hm
  rw [herr]
  intro heq
  rw [heq, hAB] at hx
  rcases List.mem_append.mp hx with hx | hx
  · exact UInt32.ne_of_lt (hA x hx) heq
  · exact UInt32.ne_of_lt (hB x hx) heq.symm

/-- No code gets a second node, not even one that is not linked yet. -/
theorem Inv.unique (h : Inv formatMessage s T full chains) {i j : Nat} (hi : i < s.table.allocated)
    (hj : j < s.table.allocated) (heq : s.table.err (.node i) = s.table.err (.node j)) : i = j := by
  rcases h.linked i hi with hi | ⟨c, prev, node, hi⟩
  · rcases h.linked j hj with hj | ⟨c, prev, node, hj⟩
    · rw [h.err_eq] at hi hj heq
      have hij := h.table.unique hi hj heq
      cases hij
      rfl
    · exact absurd heq (h.store_new hj hi)
  · rcases h.linked j hj with hj | ⟨d, prev', node', hj⟩
    · exact absurd heq.symm (h.store_new hi hj)
    · -- two threads would be under the lock
      obtain ⟨R, rfl⟩ := Multiset.exists_cons_of_mem hi
      rcases Multiset.mem_cons.mp hj with hsame | hj
      · cases hsame
        rfl
      · have hfalse := (h.guarded.alone rfl).2 _ hj
        cases hfalse

/-- **Any number of threads** in the table. No code ever has two nodes. All calls for a code that
have returned returned the same node and the same text, the one a call for this code gave, and
`errno_append` tells whether that text is the given one. Whenever the lock is free the chains are
whole, in order, and have every node that was ever allocated. -/
theorem lookups_beside (formatMessage : UInt32 → Option String) (S : Sys Shared Pc)
    (hrun : Reach (program formatMessage) anyStep begin S) :
    (∀ i j, i < S.shared.table.allocated → j < S.shared.table.allocated →
      S.shared.table.err (.node i) = S.shared.table.err (.node j) → i = j) ∧
    (∀ r ∈ S.shared.returned, r.2 = r.2.call.answer r.2.text ∧
      ∃ c ∈ S.shared.calls, c.code = r.2.call.code ∧ r.2.text = c.text formatMessage) ∧
    (∀ r ∈ S.shared.returned, ∀ r' ∈ S.shared.returned, r.2.call.code = r'.2.call.code →
      r.1 = r'.1 ∧ r.2.text = r'.2.text) ∧
    (S.shared.table.lock = false → ∃ chains, Table S.shared.table chains ∧
      ∀ i < S.shared.table.allocated, .node i ∈ chains (hash (S.shared.table.err (.node i)))) := by
  obtain ⟨full, chains, h⟩ := reach_inv hrun
  have htext : ∀ r ∈ S.shared.returned, r.2.text = S.shared.table.msg r.1 := by
    intro r hr
    have heq := congrArg Reply.text (h.answered r hr).2
    rwa [answer_text] at heq
  refine ⟨fun i j => h.unique, fun r hr => ?_, fun r hr r' hr' hcode => ?_, fun hfree => ?_⟩
  · obtain ⟨⟨hmem, he⟩, ha⟩ := h.answered r hr
    obtain ⟨i, hi, hnode⟩ := h.table.node _ _ hmem
    rw [← h.allocated_eq] at hi
    obtain ⟨c, hc, hcode, hmsg⟩ := h.text i hi
    rw [← hnode] at hcode hmsg
    rw [htext r hr]
    exact ⟨ha, c, hc, hcode.trans he, hmsg⟩
  · obtain ⟨⟨hmem, he⟩, -⟩ := h.answered r hr
    obtain ⟨⟨hmem', he'⟩, -⟩ := h.answered r' hr'
    have hsame : r.1 = r'.1 := by
      refine h.table.unique hmem hmem' ?_
      rw [← h.err_eq, he, he', hcode]
    refine ⟨hsame, ?_⟩
    rw [htext r hr, htext r' hr', hsame]
  · have hguard := h.guarded
    rw [hfree] at hguard
    have hwhole : S.shared.table.next = full.next := by
      refine h.whole fun c node i hm => ?_
      have hfalse := hguard.outside _ hm
      cases hfalse
    refine ⟨chains, ⟨?_, ?_, ?_, ?_⟩, fun i hi => ?_⟩
    · rw [hwhole]
      exact h.table.chain
    · rw [h.allocated_eq]
      exact h.table.node
    · rw [h.err_eq]
      exact h.table.ascending
    · rw [h.err_eq]
      exact h.table.bucket
    · rcases h.linked i hi with hm | ⟨c, prev, node, hm⟩
      · exact hm
      · have hfalse := hguard.outside _ hm
        cases hfalse

/-- The memory when a call that had come as far as the lock has waited for another for the same code
and has returned too. -/
def waited (formatMessage : UInt32 → Option String) : Shared :=
  let linked := (solo (program formatMessage) 12 ⟨.zero, [.append 5 "busy", .str 5], []⟩
    (some (.first (.str 5)))).1
  (solo (program formatMessage) 5 linked (some (.lock (.append 5 "busy")))).1

theorem lookups_beside_waited :
    (waited fun _ => some "busy").returned.map Prod.fst = [.node 0, .node 0] ∧
      ∀ r ∈ (waited fun _ => some "busy").returned, ∀ r' ∈ (waited fun _ => some "busy").returned,
        r.2.call.code = r'.2.call.code → r.1 = r'.1 ∧ r.2.text = r'.2.text := by
  have hcalled : Reach (program fun _ => some "busy") anyStep begin
      ⟨⟨.zero, [.append 5 "busy"], []⟩, put (some (.first (.append 5 "busy"))) 0⟩ :=
    Relation.ReflTransGen.single (.start _ _ _ 0 ⟨_, rfl, rfl⟩)
  have hlock := Reach.beside 2 hcalled fun _ _ => trivial
  have hboth : Reach (program fun _ => some "busy") anyStep begin
      ⟨⟨.zero, [.append 5 "busy", .str 5], []⟩,
        put (some (.first (.str 5))) {.lock (.append 5 "busy")}⟩ :=
    hlock.tail (.start _ _ _ _ ⟨.str 5, rfl, rfl⟩)
  have hlinked := Reach.beside 12 hboth fun _ _ => trivial
  have hdone : Reach (program fun _ => some "busy") anyStep begin ⟨waited fun _ => some "busy", 0⟩ :=
    Reach.beside (R := 0) 5 hlinked fun _ _ => trivial
  exact ⟨by decide +kernel, (lookups_beside _ _ hdone).2.2.1⟩

end Runs

end Threads

end HoNet.ErrTable
