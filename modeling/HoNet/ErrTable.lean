import HoNet.Lib.Chain
import HoNet.ErrMsg

/-!
# The error messages of `errmsg.cpp`

The C++ sibling of `coreerrmsg.c`: a fixed table of 256 bucket heads, from each of which a chain of
nodes hangs that is kept sorted by code. A lookup runs along the chain without the lock, then twice
more under it, and links a new node behind the last smaller one. `FormatMessage` is the parameter
`formatMessage`; `DWORD` and `errno_type` are unsigned with 32 bits.

* `scan_spec` — where the search loop stops on a sorted chain.
* `errnoStrInner_known`, `errnoStrInner_new` — a call for a code that is in the table, and for one
  that is not.
* `messages_fixed` — the chains over every sequence of calls, and what the calls answer.
-/

namespace HoNet.ErrTable

open HoNet.Linked

/-! ## The table -/

/-- A `struct errnode *`: the head of a bucket, or an allocated node. -/
inductive Ptr where
  | head (h : UInt8)
  | node (i : Nat)
  deriving DecidableEq, Repr

/-- `struct errhash` and the nodes allocated so far. -/
structure ErrHash where
  next : Ptr → Option Ptr
  err : Ptr → UInt32
  msg : Ptr → String
  lock : Bool
  allocated : Nat

/-- The static `HASH` before the first call. -/
def ErrHash.zero : ErrHash := ⟨fun _ => none, fun _ => 0, fun _ => "", false, 0⟩

/-- `#define hash(e) ((e)%ERRNO_HASH_SIZE)`, as a `uint8_t`. -/
def hash (e : UInt32) : UInt8 := (e % 256).toUInt8

/-- What `%d` prints for an `unsigned long`. -/
def formatSigned (e : UInt32) : String := toString e.toInt32.toInt

section Calls

variable (formatMessage : UInt32 → Option String)

/-- The text `sys_errmsg` stores: of the system if it has one, else the given one, else a generic
one. The generic one is copied from a buffer whose block has just ended; it is taken to be there
still. -/
def sysErrmsg (e : UInt32) (dflt : Option String) : String :=
  match formatMessage e with
  | some m => m
  | none => dflt.getD ("Unkown error " ++ formatSigned e)

/-- `for (; node&&node->err < e; prev = node, node = node->next);`: `prev` and `node` after it. The
first argument bounds the rounds. -/
def ErrHash.scan (t : ErrHash) (e : UInt32) : Nat → Ptr → Option Ptr → Option (Ptr × Option Ptr)
  | 0, _, _ => none
  | _ + 1, prev, none => some (prev, none)
  | rounds + 1, prev, some node =>
    if t.err node < e then t.scan e rounds node (t.next node) else some (prev, some node)

/-- The loop from a bucket head, with more rounds than the chain has nodes (`scan_spec`). -/
def ErrHash.scanBucket (t : ErrHash) (e : UInt32) : Option (Ptr × Option Ptr) :=
  t.scan e (t.allocated + 1) (.head (hash e)) (t.next (.head (hash e)))

/-- `node&&node->err == e`. -/
def ErrHash.hit (t : ErrHash) (e : UInt32) (node : Option Ptr) : Option Ptr :=
  node.filter fun p => t.err p = e

/-- `LOCK`; a lock that is held is never given back. -/
def ErrHash.acquire (t : ErrHash) : Option ErrHash :=
  if t.lock then none else some { t with lock := true }

/-- `UNLOCK`. -/
def ErrHash.release (t : ErrHash) : ErrHash := { t with lock := false }

/-- The new node of `sys_errmsg`, linked between `prev` and `node`. -/
def ErrHash.link (t : ErrHash) (prev : Ptr) (node : Option Ptr) (e : UInt32) (text : String) :
    ErrHash :=
  { t with
    next := Function.update (Function.update t.next prev (some (.node t.allocated)))
      (.node t.allocated) node
    err := Function.update t.err (.node t.allocated) e
    msg := Function.update t.msg (.node t.allocated) text
    allocated := t.allocated + 1 }

/-- `errno_str_inner`: the table and the node whose text is returned. The first loop leaves `prev`
unset where it makes no round; nothing reads it. -/
def errnoStrInner (t : ErrHash) (e : UInt32) (dflt : Option String) : Option (ErrHash × Ptr) := do
  let (_, node) ← t.scanBucket e
  match t.hit e node with
  | some p => return (t, p)
  | none =>
    let t ← t.acquire
    let (_, node) ← t.scanBucket e
    match t.hit e node with
    | some p => return (t.release, p)
    | none =>
      let (prev, node) ← t.scanBucket e
      match t.hit e node with
      | some p => return (t.release, p)
      | none =>
        return ((t.link prev node e (sysErrmsg formatMessage e dflt)).release, .node t.allocated)

/-- `errno_append`: the text it compares against and what it returns. -/
def errnoAppend (t : ErrHash) (e : UInt32) (msg : String) : Option (ErrHash × String × Bool) := do
  let (t, p) ← errnoStrInner formatMessage t e (some msg)
  return (t, t.msg p, ErrMsg.strcmp (t.msg p) msg = 0)

def errnoStr (t : ErrHash) (e : UInt32) : Option (ErrHash × String) := do
  let (t, p) ← errnoStrInner formatMessage t e none
  return (t, t.msg p)

inductive Call where
  | append (e : UInt32) (msg : String)
  | str (e : UInt32)
  deriving DecidableEq, Repr

def Call.code : Call → UInt32
  | .append e _ => e
  | .str e => e

/-- A call, the text it returned or compared against, and what `errno_append` returned. -/
structure Reply where
  call : Call
  text : String
  ret : Option Bool
  deriving DecidableEq, Repr

def reply (t : ErrHash) : Call → Option (ErrHash × Reply)
  | .append e msg => do
    let (t, text, ret) ← errnoAppend formatMessage t e msg
    return (t, ⟨.append e msg, text, some ret⟩)
  | .str e => do
    let (t, text) ← errnoStr formatMessage t e
    return (t, ⟨.str e, text, none⟩)

/-- The replies to a sequence of calls; `none` if one of them does not return. -/
def replies : ErrHash → List Call → Option (ErrHash × List Reply)
  | t, [] => some (t, [])
  | t, c :: cs => do
    let (t, r) ← reply formatMessage t c
    let (t, rs) ← replies t cs
    return (t, r :: rs)

/-! ## What the calls are for -/

/-- The text a call gives to a code that has none. -/
def Call.text : Call → String
  | .append e msg => sysErrmsg formatMessage e (some msg)
  | .str e => sysErrmsg formatMessage e none

/-- The texts fixed by a sequence of calls: of each code, by the first call for it. -/
def texts (cs : List Call) (e : UInt32) : Option String :=
  (cs.find? fun c => c.code = e).map (Call.text formatMessage)

/-- The reply to a call for a code with the given text. -/
def Call.answer (text : String) : Call → Reply
  | .append e msg => ⟨.append e msg, text, some (text = msg)⟩
  | .str e => ⟨.str e, text, none⟩

end Calls

/-! ## Chains and lookups -/

theorem hash_eq_iff {e : UInt32} {h : UInt8} : hash e = h ↔ e.toNat % 256 = h.toNat := by
  rw [← UInt8.toNat_inj, hash, UInt32.toNat_toUInt8, UInt32.toNat_mod,
    show UInt32.toNat 256 = 256 from rfl, show 2 ^ 8 = 256 from rfl, Nat.mod_mod]

/-- The nodes that hang off the bucket heads. -/
structure Table (t : ErrHash) (chains : UInt8 → List Ptr) : Prop where
  chain : ∀ h, Chain t.next (t.next (.head h)) (chains h) none
  node : ∀ h, ∀ p ∈ chains h, ∃ i, i < t.allocated ∧ p = .node i
  ascending : ∀ h, (chains h).Pairwise fun p q => t.err p < t.err q
  bucket : ∀ h, ∀ p ∈ chains h, (t.err p).toNat % 256 = h.toNat

section Lookup

variable {t : ErrHash} {chains : UInt8 → List Ptr} {e : UInt32} {p : Ptr}

theorem Table.hash_err (h : Table t chains) {b : UInt8} (hp : p ∈ chains b) : hash (t.err p) = b :=
  hash_eq_iff.mpr (h.bucket b p hp)

/-- Each code has at most one node. -/
theorem Table.unique (h : Table t chains) {b c : UInt8} {q : Ptr} (hp : p ∈ chains b)
    (hq : q ∈ chains c) (heq : t.err p = t.err q) : p = q := by
  obtain rfl : b = c := by rw [← h.hash_err hp, heq, h.hash_err hq]
  have hnd : ((chains b).map t.err).Nodup :=
    List.pairwise_map.mpr ((h.ascending b).imp fun hlt => UInt32.ne_of_lt hlt)
  exact List.inj_on_of_nodup_map hnd hp hq heq

theorem Table.length_le (h : Table t chains) (b : UInt8) : (chains b).length ≤ t.allocated := by
  have hsub : chains b ⊆ (List.range t.allocated).map Ptr.node := by
    intro p hp
    obtain ⟨i, hi, rfl⟩ := h.node b p hp
    exact List.mem_map.mpr ⟨i, List.mem_range.mpr hi, rfl⟩
  have hle := ((h.chain b).nodup.subperm hsub).length_le
  rwa [List.length_map, List.length_range] at hle

/-- The search loop passes the smaller codes and stops at the first other one. -/
theorem scan_spec {node : Option Ptr} {L : List Ptr} {rounds : Nat}
    (hL : Chain t.next node L none) (hs : L.Pairwise fun p q => t.err p < t.err q)
    (hr : L.length < rounds) (prev : Ptr) :
    ∃ A B, L = A ++ B ∧ (∀ p ∈ A, t.err p < e) ∧ (∀ p ∈ B, e ≤ t.err p) ∧
      t.scan e rounds prev node = some (A.getLast?.getD prev, B.head?) := by
  induction L generalizing node rounds prev with
  | nil =>
    obtain ⟨r, rfl⟩ : ∃ r, rounds = r + 1 := ⟨rounds - 1, by omega⟩
    obtain rfl : node = none := hL
    exact ⟨[], [], rfl, fun p hp => (List.not_mem_nil hp).elim,
      fun p hp => (List.not_mem_nil hp).elim, rfl⟩
  | cons x L ih =>
    obtain ⟨r, rfl⟩ : ∃ r, rounds = r + 1 := ⟨rounds - 1, by omega⟩
    obtain ⟨rfl, hnext⟩ := hL
    obtain ⟨hx, hrest⟩ := List.pairwise_cons.mp hs
    by_cases hlt : t.err x < e
    · obtain ⟨A, B, rfl, hA, hB, hscan⟩ :=
        ih hnext hrest (Nat.lt_of_succ_lt_succ hr) x
      refine ⟨x :: A, B, rfl, ?_, hB, ?_⟩
      · intro p hp
        rcases List.mem_cons.mp hp with rfl | hp
        · exact hlt
        · exact hA p hp
      · rw [ErrHash.scan, if_pos hlt, hscan, List.getLast?_cons, Option.getD_some]
    · refine ⟨[], x :: L, rfl, fun p hp => (List.not_mem_nil hp).elim, ?_, ?_⟩
      · intro p hp
        have hle : e ≤ t.err x := UInt32.not_lt.mp hlt
        rcases List.mem_cons.mp hp with rfl | hp
        · exact hle
        · exact UInt32.le_of_lt (UInt32.lt_of_le_of_lt hle (hx p hp))
      · rw [ErrHash.scan, if_neg hlt]
        rfl

theorem Table.scanBucket (h : Table t chains) (e : UInt32) :
    ∃ A B, chains (hash e) = A ++ B ∧ (∀ p ∈ A, t.err p < e) ∧ (∀ p ∈ B, e ≤ t.err p) ∧
      t.scanBucket e = some (A.getLast?.getD (.head (hash e)), B.head?) :=
  scan_spec (h.chain _) (h.ascending _) (Nat.lt_succ_of_le (h.length_le _)) _

/-- A node of the code is hit. -/
theorem Table.scanBucket_known (h : Table t chains) (hp : p ∈ chains (hash e)) (he : t.err p = e) :
    ∃ prev, t.scanBucket e = some (prev, some p) := by
  obtain ⟨A, B, hAB, hA, hB, hscan⟩ := h.scanBucket e
  have hpB : p ∈ B := by
    rw [hAB] at hp
    rcases List.mem_append.mp hp with hp | hp
    · exact absurd he (UInt32.ne_of_lt (hA p hp))
    · exact hp
  refine ⟨A.getLast?.getD (.head (hash e)), ?_⟩
  cases B with
  | nil => cases hpB
  | cons x B =>
    rw [hscan, List.head?_cons]
    rcases List.mem_cons.mp hpB with rfl | hpB'
    · rfl
    · -- a node in front of it would have a code that is smaller, and is not
      have hs := h.ascending (hash e)
      rw [hAB] at hs
      have hlt := (List.pairwise_cons.mp (List.pairwise_append.mp hs).2.1).1 p hpB'
      rw [he] at hlt
      exact absurd hlt (UInt32.not_lt.mpr (hB x List.mem_cons_self))

/-- Without one, the loop stops between the smaller and the larger codes, and nothing is hit. -/
theorem Table.scanBucket_new (h : Table t chains) (hnew : ∀ p ∈ chains (hash e), t.err p ≠ e) :
    ∃ A B, chains (hash e) = A ++ B ∧ (∀ p ∈ A, t.err p < e) ∧ (∀ p ∈ B, e < t.err p) ∧
      t.scanBucket e = some (A.getLast?.getD (.head (hash e)), B.head?) ∧
      t.hit e B.head? = none := by
  obtain ⟨A, B, hAB, hA, hB, hscan⟩ := h.scanBucket e
  have hne : ∀ p ∈ B, t.err p ≠ e := by
    intro p hp
    refine hnew p ?_
    rw [hAB]
    exact List.mem_append_right _ hp
  refine ⟨A, B, hAB, hA, fun p hp => ?_, hscan, ?_⟩
  · exact UInt32.lt_of_le_of_ne (hB p hp) (hne p hp).symm
  · cases B with
    | nil => rfl
    | cons x B =>
      have hx := hne x List.mem_cons_self
      simp [ErrHash.hit, hx]

theorem hit_self (he : t.err p = e) : t.hit e (some p) = some p := by
  simp [ErrHash.hit, he]

end Lookup

/-! ## Linking a new node -/

section Link

variable {t : ErrHash} {chains : UInt8 → List Ptr} {e : UInt32} {A B : List Ptr} {text : String}

/-- The node at which the loop stopped is the last of the bucket head and the smaller nodes. -/
theorem exists_prev (b : Ptr) (A : List Ptr) : ∃ L, b :: A = L ++ [A.getLast?.getD b] := by
  rcases A.eq_nil_or_concat with rfl | ⟨A, x, rfl⟩
  · exact ⟨[], rfl⟩
  · exact ⟨b :: A, by simp⟩

theorem Table.fresh (h : Table t chains) (b : UInt8) : Ptr.node t.allocated ∉ chains b := by
  intro hm
  obtain ⟨i, hi, heq⟩ := h.node b _ hm
  cases heq
  exact lt_irrefl _ hi

theorem Table.head_not_mem (h : Table t chains) (b c : UInt8) : Ptr.head c ∉ chains b := by
  intro hm
  obtain ⟨i, -, heq⟩ := h.node b _ hm
  cases heq

/-- The bucket the node is linked into. -/
theorem Table.link_chain (h : Table t chains) (hAB : chains (hash e) = A ++ B) :
    Chain (t.link (A.getLast?.getD (.head (hash e))) B.head? e text).next
      ((t.link (A.getLast?.getD (.head (hash e))) B.head? e text).next (.head (hash e)))
      (A ++ .node t.allocated :: B) none := by
  obtain ⟨L, hL⟩ := exists_prev (.head (hash e)) A
  generalize A.getLast?.getD (.head (hash e)) = prev at hL ⊢
  have hall : .head (hash e) :: chains (hash e) = L ++ prev :: B := by
    rw [hAB, ← List.cons_append, hL, List.append_assoc, List.singleton_append]
  have hchain : Chain t.next (some (.head (hash e))) (L ++ prev :: B) none :=
    hall ▸ ⟨rfl, h.chain (hash e)⟩
  have hnext : t.next prev = B.head? := by
    obtain ⟨m, -, -, hB⟩ := chain_append.mp hchain
    exact hB.head_eq
  have hfresh : Ptr.node t.allocated ∉ L ++ prev :: B := by
    rw [← hall, List.mem_cons, not_or]
    exact ⟨fun heq => (by cases heq), h.fresh _⟩
  have hspliced := hchain.splice hchain.nodup hfresh
  rw [hnext, show L ++ prev :: Ptr.node t.allocated :: B =
    .head (hash e) :: (A ++ .node t.allocated :: B) by
      rw [← List.cons_append, hL, List.append_assoc, List.singleton_append]] at hspliced
  exact hspliced.2

/-- Every other bucket is left alone. -/
theorem Table.link_other (h : Table t chains) (hAB : chains (hash e) = A ++ B) {b : UInt8}
    (hb : b ≠ hash e) :
    Chain (t.link (A.getLast?.getD (.head (hash e))) B.head? e text).next
      ((t.link (A.getLast?.getD (.head (hash e))) B.head? e text).next (.head b)) (chains b)
      none := by
  have hprev : ∀ z, z = .head b ∨ z ∈ chains b → z ≠ A.getLast?.getD (.head (hash e)) := by
    obtain ⟨L, hL⟩ := exists_prev (.head (hash e)) A
    have hmem : A.getLast?.getD (.head (hash e)) ∈ .head (hash e) :: A := by
      rw [hL]
      exact List.mem_append_right _ List.mem_cons_self
    rintro z hz rfl
    rcases List.mem_cons.mp hmem with heq | hA
    · rw [heq] at hz
      rcases hz with hz | hz
      · cases hz
        exact hb rfl
      · exact h.head_not_mem _ _ hz
    · have hin : A.getLast?.getD (.head (hash e)) ∈ chains (hash e) := by
        rw [hAB]
        exact List.mem_append_left _ hA
      rcases hz with hz | hz
      · rw [hz] at hin
        exact h.head_not_mem _ _ hin
      · exact hb (by rw [← h.hash_err hz, h.hash_err hin])
  have hkeep : ∀ z, z = .head b ∨ z ∈ chains b →
      (t.link (A.getLast?.getD (.head (hash e))) B.head? e text).next z = t.next z := by
    intro z hz
    have hnew : z ≠ .node t.allocated := by
      rintro rfl
      rcases hz with hz | hz
      · cases hz
      · exact h.fresh _ hz
    exact (Function.update_of_ne hnew ..).trans (Function.update_of_ne (hprev z hz) ..)
  rw [hkeep _ (.inl rfl)]
  exact (h.chain b).congr fun z hz => hkeep z (.inr hz)

theorem Table.link_err (h : Table t chains) (prev : Ptr) (node : Option Ptr) (text : String)
    {b : UInt8} {p : Ptr} (hp : p ∈ chains b) : (t.link prev node e text).err p = t.err p := by
  have hne : p ≠ .node t.allocated := by
    rintro rfl
    exact h.fresh b hp
  exact Function.update_of_ne hne ..

theorem Table.link_msg (h : Table t chains) (prev : Ptr) (node : Option Ptr) (text : String)
    {b : UInt8} {p : Ptr} (hp : p ∈ chains b) : (t.link prev node e text).msg p = t.msg p := by
  have hne : p ≠ .node t.allocated := by
    rintro rfl
    exact h.fresh b hp
  exact Function.update_of_ne hne ..

/-- The nodes after linking. -/
theorem mem_linked {r : Ptr} (hAB : chains (hash e) = A ++ B) {b : UInt8} {p : Ptr} :
    p ∈ Function.update chains (hash e) (A ++ r :: B) b ↔ p = r ∧ b = hash e ∨ p ∈ chains b := by
  by_cases hb : b = hash e
  · subst hb
    rw [Function.update_self, hAB, List.mem_append, List.mem_append, List.mem_cons]
    tauto
  · rw [Function.update_of_ne hb]
    tauto

/-- **Linking.** Between the smaller and the larger codes, a new node keeps the chains in order. -/
theorem Table.link (text : String) (h : Table t chains) (hAB : chains (hash e) = A ++ B)
    (hA : ∀ p ∈ A, t.err p < e) (hB : ∀ p ∈ B, e < t.err p) :
    Table (t.link (A.getLast?.getD (.head (hash e))) B.head? e text)
      (Function.update chains (hash e) (A ++ .node t.allocated :: B)) := by
  have hnew : ∀ prev node, (t.link prev node e text).err (.node t.allocated) = e :=
    fun prev node => Function.update_self ..
  have hkeep : ∀ prev node, ∀ p ∈ A ++ B, (t.link prev node e text).err p = t.err p :=
    fun prev node p hp => h.link_err prev node text (hAB ▸ hp)
  refine ⟨fun b => ?_, fun b p hp => ?_, fun b => ?_, fun b p hp => ?_⟩
  · by_cases hb : b = hash e
    · subst hb
      rw [Function.update_self]
      exact h.link_chain hAB
    · rw [Function.update_of_ne hb]
      exact h.link_other hAB hb
  · rcases (mem_linked hAB).mp hp with ⟨rfl, -⟩ | hp
    · exact ⟨t.allocated, Nat.lt_succ_self _, rfl⟩
    · obtain ⟨i, hi, rfl⟩ := h.node b p hp
      exact ⟨i, Nat.lt_succ_of_lt hi, rfl⟩
  · by_cases hb : b = hash e
    · subst hb
      have hs := h.ascending (hash e)
      rw [hAB, List.pairwise_append] at hs
      obtain ⟨hsA, hsB, hsAB⟩ := hs
      have hl : ∀ p ∈ A, p ∈ A ++ B := fun p hp => List.mem_append_left _ hp
      have hr : ∀ p ∈ B, p ∈ A ++ B := fun p hp => List.mem_append_right _ hp
      rw [Function.update_self, List.pairwise_append, List.pairwise_cons]
      refine ⟨?_, ⟨?_, ?_⟩, ?_⟩
      · refine hsA.imp_of_mem fun hp hq hlt => ?_
        rw [hkeep _ _ _ (hl _ hp), hkeep _ _ _ (hl _ hq)]
        exact hlt
      · intro q hq
        rw [hnew, hkeep _ _ _ (hr q hq)]
        exact hB q hq
      · refine hsB.imp_of_mem fun hp hq hlt => ?_
        rw [hkeep _ _ _ (hr _ hp), hkeep _ _ _ (hr _ hq)]
        exact hlt
      · intro p hp q hq
        rw [hkeep _ _ _ (hl p hp)]
        rcases List.mem_cons.mp hq with rfl | hq
        · rw [hnew]
          exact hA p hp
        · rw [hkeep _ _ _ (hr q hq)]
          exact hsAB p hp q hq
    · rw [Function.update_of_ne hb]
      refine (h.ascending b).imp_of_mem fun hp hq hlt => ?_
      rw [h.link_err _ _ _ hp, h.link_err _ _ _ hq]
      exact hlt
  · rcases (mem_linked hAB).mp hp with ⟨rfl, rfl⟩ | hp
    · rw [hnew]
      exact hash_eq_iff.mp rfl
    · rw [h.link_err _ _ _ hp]
      exact h.bucket b p hp

end Link

/-! ## One call -/

section Call

variable {formatMessage : UInt32 → Option String} {t t' : ErrHash}
  {chains chains' : UInt8 → List Ptr} {tb : UInt32 → Option String} {e : UInt32} {p : Ptr} {dflt : Option String}

/-- The nodes of a table are in a later one too, unchanged. -/
def Kept (t : ErrHash) (chains : UInt8 → List Ptr) (t' : ErrHash) (chains' : UInt8 → List Ptr) :
    Prop :=
  ∀ b, ∀ p ∈ chains b, p ∈ chains' b ∧ t'.err p = t.err p ∧ t'.msg p = t.msg p

theorem Kept.refl (t : ErrHash) (chains : UInt8 → List Ptr) : Kept t chains t chains :=
  fun _ _ hp => ⟨hp, rfl, rfl⟩

theorem Kept.trans {t'' : ErrHash} {chains'' : UInt8 → List Ptr} (h : Kept t chains t' chains')
    (h' : Kept t' chains' t'' chains'') : Kept t chains t'' chains'' := by
  intro b p hp
  obtain ⟨hp', herr, hmsg⟩ := h b p hp
  obtain ⟨hp'', herr', hmsg'⟩ := h' b p hp'
  exact ⟨hp'', herr'.trans herr, hmsg'.trans hmsg⟩

/-- Between calls: the lock is free, and the nodes hold the texts `tb`. -/
structure Holds (t : ErrHash) (chains : UInt8 → List Ptr) (tb : UInt32 → Option String) : Prop
    extends Table t chains where
  unlocked : t.lock = false
  text : ∀ b, ∀ p ∈ chains b, tb (t.err p) = some (t.msg p)
  known : ∀ e, (tb e).isSome → ∃ p ∈ chains (hash e), t.err p = e

theorem holds_zero : Holds .zero (fun _ => []) fun _ => none where
  chain := fun _ => rfl
  node := fun _ p hp => (List.not_mem_nil hp).elim
  ascending := fun _ => List.Pairwise.nil
  bucket := fun _ p hp => (List.not_mem_nil hp).elim
  unlocked := rfl
  text := fun _ p hp => (List.not_mem_nil hp).elim
  known := fun e he => by cases he

/-- A call for a code that is in the table returns its node. -/
theorem errnoStrInner_known (h : Table t chains) (hp : p ∈ chains (hash e)) (he : t.err p = e) :
    errnoStrInner formatMessage t e dflt = some (t, p) := by
  obtain ⟨prev, hscan⟩ := h.scanBucket_known hp he
  rw [errnoStrInner, hscan]
  simp only [bind, Option.bind, hit_self he]
  rfl

/-- A call for a code that is not links a node for it. -/
theorem errnoStrInner_new (formatMessage : UInt32 → Option String) (dflt : Option String)
    (h : Table t chains) (hl : t.lock = false)
    (hnew : ∀ p ∈ chains (hash e), t.err p ≠ e) :
    ∃ t' chains', errnoStrInner formatMessage t e dflt = some (t', .node t.allocated) ∧
      Table t' chains' ∧ t'.lock = false ∧ Kept t chains t' chains' ∧
      t'.err (.node t.allocated) = e ∧
      t'.msg (.node t.allocated) = sysErrmsg formatMessage e dflt ∧
      ∀ b p, p ∈ chains' b ↔ p = .node t.allocated ∧ b = hash e ∨ p ∈ chains b := by
  -- the table does not change while the lock is taken
  have hlocked : Table { t with lock := true } chains := ⟨h.chain, h.node, h.ascending, h.bucket⟩
  obtain ⟨_, C, -, -, -, hscan, hmiss⟩ := h.scanBucket_new hnew
  obtain ⟨A, B, hAB, hA, hB, hscan', hmiss'⟩ := hlocked.scanBucket_new hnew
  have hlink := Table.link (sysErrmsg formatMessage e dflt) hlocked hAB hA hB
  refine ⟨ErrHash.release (ErrHash.link { t with lock := true } (A.getLast?.getD (.head (hash e)))
      B.head? e (sysErrmsg formatMessage e dflt)), _, ?_,
    ⟨hlink.chain, hlink.node, hlink.ascending, hlink.bucket⟩, rfl, ?_, ?_, ?_, ?_⟩
  · rw [errnoStrInner, hscan]
    simp only [bind, Option.bind, hmiss, ErrHash.acquire, hl, hscan', hmiss', Bool.false_eq_true,
      if_false]
    rfl
  · intro b p hp
    exact ⟨(mem_linked hAB).mpr (.inr hp),
      hlocked.link_err (e := e) (A.getLast?.getD (.head (hash e))) B.head?
        (sysErrmsg formatMessage e dflt) hp,
      hlocked.link_msg (e := e) (A.getLast?.getD (.head (hash e))) B.head?
        (sysErrmsg formatMessage e dflt) hp⟩
  · exact Function.update_self ..
  · exact Function.update_self ..
  · exact fun b p => mem_linked hAB

/-- **One call.** It answers with the text of the code, fixed now if it was not before. -/
theorem errnoStrInner_spec (formatMessage : UInt32 → Option String) (h : Holds t chains tb)
    (e : UInt32) (dflt : Option String) :
    ∃ t' p chains', errnoStrInner formatMessage t e dflt = some (t', p) ∧
      t'.msg p = (tb e).getD (sysErrmsg formatMessage e dflt) ∧
      Holds t' chains'
        (Function.update tb e (some ((tb e).getD (sysErrmsg formatMessage e dflt)))) ∧
      Kept t chains t' chains' := by
  by_cases hex : ∃ p ∈ chains (hash e), t.err p = e
  · obtain ⟨p, hp, he⟩ := hex
    have htext : tb e = some (t.msg p) := he ▸ h.text _ p hp
    have hsame : Function.update tb e (some (t.msg p)) = tb := by
      rw [← htext]
      exact Function.update_eq_self ..
    refine ⟨t, p, chains, errnoStrInner_known h.toTable hp he, ?_, ?_, Kept.refl t chains⟩
    · rw [htext]
      rfl
    · rw [htext, Option.getD_some, hsame]
      exact h
  · have hnew : ∀ p ∈ chains (hash e), t.err p ≠ e := fun p hp heq => hex ⟨p, hp, heq⟩
    have hnone : tb e = none := by
      by_contra hsome
      exact hex (h.known e (Option.isSome_iff_ne_none.mpr hsome))
    obtain ⟨t', chains', hrun, htable, hlock, hkept, herr, hmsg, hmem⟩ :=
      errnoStrInner_new formatMessage dflt h.toTable h.unlocked hnew
    refine ⟨t', _, chains', hrun, ?_, ⟨htable, hlock, fun b p hp => ?_, fun c hc => ?_⟩, hkept⟩
    · rw [hmsg, hnone]
      rfl
    · rcases (hmem b p).mp hp with ⟨rfl, rfl⟩ | hp
      · rw [herr, Function.update_self, hmsg, hnone]
        rfl
      · obtain ⟨-, herr', hmsg'⟩ := hkept b p hp
        have hne : t.err p ≠ e := by
          rintro rfl
          exact hnew p (h.hash_err hp ▸ hp) rfl
        rw [herr', hmsg', Function.update_of_ne hne]
        exact h.text b p hp
    · by_cases hce : c = e
      · subst hce
        exact ⟨_, (hmem _ _).mpr (.inl ⟨rfl, rfl⟩), herr⟩
      · rw [Function.update_of_ne hce] at hc
        obtain ⟨p, hp, hpc⟩ := h.known c hc
        obtain ⟨hp', herr', -⟩ := hkept _ p hp
        exact ⟨p, hp', herr'.trans hpc⟩

theorem reply_spec (h : Holds t chains tb) (c : Call) :
    ∃ t' chains', reply formatMessage t c =
        some (t', c.answer ((tb c.code).getD (c.text formatMessage))) ∧
      Holds t' chains'
        (Function.update tb c.code (some ((tb c.code).getD (c.text formatMessage)))) ∧
      Kept t chains t' chains' := by
  cases c with
  | append e msg =>
    obtain ⟨t', p, chains', hrun, hmsg, hholds, hkept⟩ :=
      errnoStrInner_spec formatMessage h e (some msg)
    refine ⟨t', chains', ?_, hholds, hkept⟩
    rw [reply, errnoAppend, hrun]
    simp only [bind, Option.bind, ErrMsg.strcmp_eq_zero, hmsg]
    rfl
  | str e =>
    obtain ⟨t', p, chains', hrun, hmsg, hholds, hkept⟩ :=
      errnoStrInner_spec formatMessage h e none
    refine ⟨t', chains', ?_, hholds, hkept⟩
    rw [reply, errnoStr, hrun]
    simp only [bind, Option.bind, hmsg]
    rfl

end Call

/-! ## Runs -/

section Runs

variable {formatMessage : UInt32 → Option String} {t : ErrHash} {chains : UInt8 → List Ptr}
  {cs ds : List Call}

theorem texts_concat (cs : List Call) (c : Call) :
    texts formatMessage (cs ++ [c]) =
      Function.update (texts formatMessage cs) c.code
        (some ((texts formatMessage cs c.code).getD (c.text formatMessage))) := by
  funext e
  unfold texts
  rw [List.find?_append]
  by_cases he : e = c.code
  · subst he
    rw [Function.update_self, List.find?_cons_of_pos (by simp)]
    cases cs.find? fun d => d.code = c.code <;> rfl
  · rw [Function.update_of_ne he, List.find?_cons_of_neg (by simpa using Ne.symm he), List.find?_nil,
      Option.or_none]

/-- What is fixed stays fixed. -/
theorem texts_append {e : UInt32} {text : String} (h : texts formatMessage cs e = some text)
    (ds : List Call) : texts formatMessage (cs ++ ds) e = some text := by
  unfold texts at h ⊢
  rw [List.find?_append]
  cases hf : cs.find? fun c => c.code = e with
  | none =>
    rw [hf] at h
    cases h
  | some c =>
    rw [hf] at h
    exact h

/-- A run that starts after the calls `cs`. -/
theorem replies_spec (h : Holds t chains (texts formatMessage cs)) (ds : List Call) :
    ∃ t' chains', replies formatMessage t ds = some (t', ds.map fun c =>
        c.answer ((texts formatMessage (cs ++ ds) c.code).getD (c.text formatMessage))) ∧
      Holds t' chains' (texts formatMessage (cs ++ ds)) ∧ Kept t chains t' chains' := by
  induction ds generalizing t chains cs with
  | nil =>
    rw [List.append_nil]
    exact ⟨t, chains, rfl, h, Kept.refl t chains⟩
  | cons c ds ih =>
    obtain ⟨t₁, chains₁, hreply, hholds, hkept⟩ := reply_spec h c
    rw [← texts_concat] at hholds
    obtain ⟨t', chains', hrest, hholds', hkept'⟩ := ih hholds
    have hfix : texts formatMessage (cs ++ [c] ++ ds) c.code =
        some ((texts formatMessage cs c.code).getD (c.text formatMessage)) := by
      refine texts_append ?_ ds
      rw [texts_concat, Function.update_self]
    rw [List.append_assoc, List.singleton_append] at hrest hholds' hfix
    refine ⟨t', chains', ?_, hholds', hkept.trans hkept'⟩
    rw [replies, hreply]
    simp only [bind, Option.bind, hrest, List.map_cons, hfix, Option.getD_some]
    rfl

/-- **The error table.** After any sequence of calls, and after any that follow, the chains ascend
strictly and hold only codes of their bucket, each code has at most one node and no node is lost.
Every call answers with the text fixed by the first call for its code, and `errno_append` tells
whether the given one is that text. -/
theorem messages_fixed (formatMessage : UInt32 → Option String) (cs ds : List Call) :
    ∃ t chains t' chains',
      replies formatMessage .zero cs = some (t, cs.map fun c =>
        c.answer ((texts formatMessage (cs ++ ds) c.code).getD (c.text formatMessage))) ∧
      replies formatMessage t ds = some (t', ds.map fun c =>
        c.answer ((texts formatMessage (cs ++ ds) c.code).getD (c.text formatMessage))) ∧
      Table t chains ∧ Table t' chains' ∧ Kept t chains t' chains' ∧
      (∀ b b' p q, p ∈ chains' b → q ∈ chains' b' → t'.err p = t'.err q → p = q) ∧
      (∀ c ∈ cs ++ ds, ∃ p ∈ chains' (hash c.code), t'.err p = c.code ∧
        texts formatMessage (cs ++ ds) c.code = some (t'.msg p)) := by
  have hzero : Holds .zero (fun _ => []) (texts formatMessage []) := holds_zero
  obtain ⟨t, chains, hcs, hholds, -⟩ := replies_spec hzero cs
  rw [List.nil_append] at hcs hholds
  obtain ⟨t', chains', hds, hholds', hkept⟩ := replies_spec hholds ds
  have hfixed : ∀ c ∈ cs, texts formatMessage (cs ++ ds) c.code = texts formatMessage cs c.code := by
    intro c hc
    have hsome : (texts formatMessage cs c.code).isSome := by
      rw [texts, Option.isSome_map, List.find?_isSome]
      exact ⟨c, hc, decide_eq_true rfl⟩
    obtain ⟨text, htext⟩ := Option.isSome_iff_exists.mp hsome
    rw [htext, texts_append htext]
  refine ⟨t, chains, t', chains', ?_, hds, hholds.toTable, hholds'.toTable, hkept,
    fun b b' p q hp hq heq => hholds'.unique hp hq heq, fun c hc => ?_⟩
  · rw [hcs]
    refine congrArg (fun rs => some (t, rs)) (List.map_congr_left fun c hc => ?_)
    rw [hfixed c hc]
  · have hsome : (texts formatMessage (cs ++ ds) c.code).isSome := by
      rw [texts, Option.isSome_map, List.find?_isSome]
      exact ⟨c, hc, decide_eq_true rfl⟩
    obtain ⟨p, hp, he⟩ := hholds'.known _ hsome
    exact ⟨p, hp, he, by rw [← he]; exact hholds'.text _ p hp⟩

end Runs

end HoNet.ErrTable
