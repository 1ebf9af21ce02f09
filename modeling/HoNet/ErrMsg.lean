import Mathlib.Data.Finset.Card
import Mathlib.Data.List.Basic
import Mathlib.Data.List.Nodup
import Mathlib.Logic.Function.Basic
import Mathlib.Tactic

/-!
# The error messages of `coreerrmsg.c`

A hash table of chains, each sorted by code, that remembers the text given to a code by the first
call for it. `FormatMessage` is the parameter `formatMessage`.

`core_errno_resize` allocates a table of the same size and rehashes the new table instead of the old
one, so that inserting a 48th code empties the table.

Principal results:

* `call_known`, `call_new`, `call_reset` — what a call does, by what the table holds.
* `replies_stable_iff` — the calls over a set of codes are stable in every order iff there are at
  most 47 codes.
-/

namespace HoNet.ErrMsg

/-! ## The table -/

structure ErrNode where
  err : Int
  msg : String
  deriving DecidableEq, Repr

/-- `struct errhash`; a slot is the chain of nodes that hangs off it. -/
structure ErrHash where
  slot : Option (Nat → List ErrNode)
  slotSz : Nat
  used : Nat

/-- The static `HASH` before the first call. -/
def ErrHash.zero : ErrHash := ⟨none, 0, 0⟩

/-- `hash->slot ? hash->slot[h] : NULL`. -/
def ErrHash.chain (hash : ErrHash) (h : Nat) : List ErrNode :=
  match hash.slot with
  | none => []
  | some s => s h

/-- `#define HASH(e) (e&(HASH.slot_sz-1))`, in 32 bits. -/
def HASH (slotSz : Nat) (e : Int) : Nat :=
  (e % 2 ^ 32).toNat &&& (slotSz + (2 ^ 32 - 1)) % 2 ^ 32

/-- `sys_errmsg`: the text of the system if it has one, else the given one, else a generic one. -/
def sysErrmsg (formatMessage : Int → Option String) (e : Int) (dflt : Option String) : ErrNode :=
  match formatMessage e with
  | some m => ⟨e, m⟩
  | none => ⟨e, dflt.getD ("Unkown error " ++ toString e)⟩

/-- The loop of `thepower` from `i`; the first argument bounds the rounds. -/
def thepowerLoop (n : Nat) : Nat → Nat → Nat
  | 0, i => i
  | rounds + 1, i => if i < n then thepowerLoop n rounds ((i <<< 1) % 2 ^ 32) else i

def thepower (n : Nat) : Nat := thepowerLoop n 26 64

/-- The search loop and the test after it: `for (; node&&node->err < e; node = node->next);`. -/
def chainFind (e : Int) : List ErrNode → Option ErrNode
  | [] => none
  | cur :: rest =>
    if cur.err < e then chainFind e rest
    else if cur.err = e then some cur
    else none

/-- The chain after `node` was linked in front of the first larger code, or the node that is there
already. -/
def chainInsert (node : ErrNode) : List ErrNode → List ErrNode ⊕ ErrNode
  | [] => .inl [node]
  | cur :: rest =>
    if cur.err < node.err then
      match chainInsert node rest with
      | .inl rest => .inl (cur :: rest)
      | .inr found => .inr found
    else if cur.err = node.err then .inr cur
    else .inl (node :: cur :: rest)

-- The rehashing loop adds nodes through `core_errno_add`, which may resize again. Its inner loop
-- does not advance (`node->next;`), so a round that finds a node would not end; `none` is a call
-- that needs more rounds than the first argument.
mutual

def coreErrnoAdd : Nat → ErrHash → ErrNode → Option (ErrHash × ErrNode)
  | 0, _, _ => none
  | rounds + 1, hash, node => do
    let hash ← coreErrnoResize rounds hash
    let h := HASH hash.slotSz node.err
    match chainInsert node (hash.chain h) with
    | .inr cur => return (hash, cur)
    | .inl chain =>
      return ({ hash with
        slot := some (Function.update hash.chain h chain)
        used := (hash.used + 1) % 2 ^ 32 }, node)

def coreErrnoResize : Nat → ErrHash → Option ErrHash
  | 0, _ => none
  | rounds + 1, hash =>
    if 3 * hash.slotSz > 4 * ((hash.used + 1) % 2 ^ 32) then some hash
    else rehash rounds ⟨some fun _ => [], thepower hash.slotSz, 0⟩ 0

/-- `for (i = 0; i < hash->slot_sz; ++i)` over the slots of the table just allocated. -/
def rehash : Nat → ErrHash → Nat → Option ErrHash
  | 0, _, _ => none
  | rounds + 1, hash, i =>
    if i < hash.slotSz then
      match hash.chain i with
      | [] => rehash rounds hash (i + 1)
      | node :: _ => do
        let hash ← rehashChain rounds hash node
        rehash rounds hash (i + 1)
    else some hash

def rehashChain : Nat → ErrHash → ErrNode → Option ErrHash
  | 0, _, _ => none
  | rounds + 1, hash, node => do
    let (hash, _) ← coreErrnoAdd rounds hash node
    rehashChain rounds hash node

end

/-- More rounds than a call takes (`call_new`, `call_reset`). -/
def ROUNDS : Nat := 128

section Calls

variable (formatMessage : Int → Option String)

def errnoStrInner (hash : ErrHash) (e : Int) (dflt : Option String) : Option (ErrHash × String) :=
  match chainFind e (hash.chain (HASH hash.slotSz e)) with
  | some node => some (hash, node.msg)
  | none => do
    let (hash, node) ← coreErrnoAdd ROUNDS hash (sysErrmsg formatMessage e dflt)
    return (hash, node.msg)

def strcmp (a b : String) : Int := if a = b then 0 else if a < b then -1 else 1

/-- `errno_append`: the message it compares against and what it returns. -/
def errnoAppend (hash : ErrHash) (e : Int) (msg : String) : Option (ErrHash × String × Int) := do
  let (hash, text) ← errnoStrInner formatMessage hash e (some msg)
  return (hash, text, strcmp text msg)

def errnoStr (hash : ErrHash) (e : Int) : Option (ErrHash × String) :=
  errnoStrInner formatMessage hash e none

inductive Call where
  | append (e : Int) (msg : String)
  | str (e : Int)
  deriving DecidableEq, Repr

def Call.code : Call → Int
  | .append e _ => e
  | .str e => e

/-- A call, the message it returned or compared against, and what `errno_append` returned. -/
structure Reply where
  call : Call
  text : String
  ret : Option Int
  deriving DecidableEq, Repr

def reply (hash : ErrHash) : Call → Option (ErrHash × Reply)
  | .append e msg => do
    let (hash, text, ret) ← errnoAppend formatMessage hash e msg
    return (hash, ⟨.append e msg, text, some ret⟩)
  | .str e => do
    let (hash, text) ← errnoStr formatMessage hash e
    return (hash, ⟨.str e, text, none⟩)

/-- The replies to a sequence of calls; `none` if one of them does not return. -/
def replies : ErrHash → List Call → Option (ErrHash × List Reply)
  | hash, [] => some (hash, [])
  | hash, c :: cs => do
    let (hash, r) ← reply formatMessage hash c
    let (hash, rs) ← replies hash cs
    return (hash, r :: rs)

end Calls

/-! ## Chains -/

section Chains

variable {e : Int} {node : ErrNode} {l : List ErrNode}

theorem chainFind_eq (h : l.Pairwise fun a b => a.err < b.err) :
    chainFind e l = l.find? fun n => n.err = e := by
  induction l with
  | nil => rfl
  | cons cur rest ih =>
    obtain ⟨hcur, hrest⟩ := List.pairwise_cons.mp h
    rw [chainFind]
    split_ifs with hlt heq
    · rw [ih hrest, List.find?_cons_of_neg (by simp only [decide_eq_true_eq]; omega)]
    · rw [List.find?_cons_of_pos (by simpa using heq)]
    · rw [List.find?_cons_of_neg (by simpa using heq), eq_comm, List.find?_eq_none]
      intro n hn
      have := hcur n hn
      simp only [decide_eq_true_eq]
      omega

/-- A code that is not on the chain is linked in. -/
theorem chainInsert_new (h : l.Pairwise fun a b => a.err < b.err)
    (hnew : ∀ n ∈ l, n.err ≠ node.err) :
    ∃ l', chainInsert node l = .inl l' ∧ (l'.Pairwise fun a b => a.err < b.err) ∧
      ∀ n, n ∈ l' ↔ n = node ∨ n ∈ l := by
  induction l with
  | nil => exact ⟨[node], rfl, by simp, by simp⟩
  | cons cur rest ih =>
    obtain ⟨hcur, hrest⟩ := List.pairwise_cons.mp h
    have hne : cur.err ≠ node.err := hnew cur (by simp)
    by_cases hlt : cur.err < node.err
    · obtain ⟨l', heq, hs, hm⟩ := ih hrest fun n hn => hnew n (List.mem_cons_of_mem _ hn)
      refine ⟨cur :: l', by simp [chainInsert, hlt, heq], List.pairwise_cons.mpr ⟨?_, hs⟩, ?_⟩
      · intro n hn
        rcases (hm n).mp hn with rfl | hn
        · exact hlt
        · exact hcur n hn
      · intro n
        simp only [List.mem_cons, hm n]
        exact or_left_comm
    · refine ⟨node :: cur :: rest, by simp [chainInsert, hlt, hne], ?_, fun n => by simp⟩
      refine List.pairwise_cons.mpr ⟨fun n hn => ?_, h⟩
      rcases List.mem_cons.mp hn with rfl | hn
      · omega
      · have := hcur n hn; omega

end Chains

/-! ## Resizing -/

/-- Rehashing a table without nodes does nothing. -/
theorem rehash_empty {sz : Nat} : ∀ (rounds i : Nat), sz - i < rounds →
    rehash rounds ⟨some fun _ => [], sz, 0⟩ i = some ⟨some fun _ => [], sz, 0⟩ := by
  intro rounds
  induction rounds with
  | zero => intro i h; omega
  | succ rounds ih =>
    intro i h
    rw [rehash]
    split_ifs with hi
    · have hi : i < sz := hi
      exact ih (i + 1) (by omega)
    · rfl

theorem thepower_of_le {n : Nat} (h : n ≤ 64) : thepower n = 64 := by
  rw [thepower, thepowerLoop, if_neg (by omega)]

/-- The table is kept below 47 nodes and emptied otherwise. -/
theorem coreErrnoResize_eq {hash : ErrHash} (hsz : hash.slotSz = 64 ∨ hash.slotSz = 0)
    (hused : hash.used ≤ 47) {rounds : Nat} (hr : 65 < rounds) :
    coreErrnoResize rounds hash =
      some (if hash.slotSz = 64 ∧ hash.used < 47 then hash else ⟨some fun _ => [], 64, 0⟩) := by
  obtain ⟨rounds, rfl⟩ := Nat.exists_eq_add_of_lt hr
  rw [show 65 + rounds + 1 = (65 + rounds) + 1 from rfl, coreErrnoResize,
    Nat.mod_eq_of_lt (by omega), thepower_of_le (by omega), rehash_empty _ _ (by omega)]
  by_cases hroom : hash.slotSz = 64 ∧ hash.used < 47
  · rw [if_pos hroom, if_pos (by omega)]
  · rw [if_neg hroom, if_neg (by omega)]

/-! ## What the table holds -/

/-- The chains of `hash` hold the nodes `tb`. -/
structure Rep (hash : ErrHash) (tb : List ErrNode) : Prop where
  size : hash.slotSz = 64 ∨ (hash.slotSz = 0 ∧ tb = [])
  used : hash.used = tb.length
  le : tb.length ≤ 47
  sorted : ∀ h, (hash.chain h).Pairwise fun a b => a.err < b.err
  mem : ∀ h n, n ∈ hash.chain h ↔ n ∈ tb ∧ HASH 64 n.err = h
  nodup : (tb.map ErrNode.err).Nodup

theorem rep_zero : Rep .zero [] :=
  ⟨Or.inr ⟨rfl, rfl⟩, rfl, by simp, fun _ => List.Pairwise.nil, by simp [ErrHash.chain, ErrHash.zero],
    by simp⟩

theorem rep_empty : Rep ⟨some fun _ => [], 64, 0⟩ [] :=
  ⟨Or.inl rfl, rfl, by simp, fun _ => List.Pairwise.nil, by simp [ErrHash.chain], by simp⟩

section Table

variable {hash : ErrHash} {tb : List ErrNode} {e : Int} {node : ErrNode}

theorem find_eq_some (hnd : (tb.map ErrNode.err).Nodup) (hm : node ∈ tb) :
    (tb.find? fun n => n.err = node.err) = some node := by
  cases hf : tb.find? fun n => n.err = node.err with
  | none => exact absurd (List.find?_eq_none.mp hf node hm) (by simp)
  | some n =>
    have he : n.err = node.err := by simpa using List.find?_some hf
    rw [List.inj_on_of_nodup_map hnd (List.mem_of_find?_eq_some hf) hm he]

/-- A lookup finds what the table holds. -/
theorem Rep.lookup (h : Rep hash tb) :
    chainFind e (hash.chain (HASH hash.slotSz e)) = tb.find? fun n => n.err = e := by
  rw [chainFind_eq (h.sorted _)]
  cases hf : tb.find? fun n => n.err = e with
  | none =>
    rw [List.find?_eq_none] at hf ⊢
    exact fun n hn => hf n ((h.mem _ n).mp hn).1
  | some n =>
    have hm := List.mem_of_find?_eq_some hf
    obtain rfl : n.err = e := by simpa using List.find?_some hf
    have hsz : hash.slotSz = 64 := by
      rcases h.size with hsz | ⟨-, hnil⟩
      · exact hsz
      · rw [hnil] at hm; cases hm
    have hc : n ∈ hash.chain (HASH hash.slotSz n.err) := by
      rw [hsz, h.mem]; exact ⟨hm, rfl⟩
    refine find_eq_some ?_ hc
    exact List.pairwise_map.mpr ((h.sorted _).imp fun hlt => hlt.ne)

/-- A new node goes into a table with room for it. -/
theorem Rep.insert (h : Rep hash tb) (hsz : hash.slotSz = 64) (hlen : tb.length < 47)
    (hnew : ∀ n ∈ tb, n.err ≠ node.err) :
    ∃ chain, chainInsert node (hash.chain (HASH hash.slotSz node.err)) = .inl chain ∧
      Rep ⟨some (Function.update hash.chain (HASH hash.slotSz node.err) chain), hash.slotSz,
        (hash.used + 1) % 2 ^ 32⟩ (node :: tb) := by
  rw [hsz]
  obtain ⟨chain, heq, hs, hm⟩ := chainInsert_new (h.sorted (HASH 64 node.err))
    fun n hn => hnew n ((h.mem _ n).mp hn).1
  refine ⟨chain, heq, Or.inl rfl, ?_, by simpa using hlen, fun k => ?_, fun k n => ?_, ?_⟩
  · show (hash.used + 1) % 2 ^ 32 = tb.length + 1
    rw [h.used]; omega
  · show (Function.update hash.chain _ chain k).Pairwise _
    by_cases hk : k = HASH 64 node.err
    · rw [hk, Function.update_self]; exact hs
    · rw [Function.update_of_ne hk]; exact h.sorted k
  · show n ∈ Function.update hash.chain _ chain k ↔ _
    by_cases hk : k = HASH 64 node.err
    · rw [hk, Function.update_self, hm, h.mem, List.mem_cons]
      constructor
      · rintro (rfl | ⟨hn, hh⟩)
        · exact ⟨Or.inl rfl, rfl⟩
        · exact ⟨Or.inr hn, hh⟩
      · rintro ⟨rfl | hn, hh⟩
        · exact Or.inl rfl
        · exact Or.inr ⟨hn, hh⟩
    · rw [Function.update_of_ne hk, h.mem, List.mem_cons]
      constructor
      · exact fun hn => ⟨Or.inr hn.1, hn.2⟩
      · rintro ⟨rfl | hn, hh⟩
        · exact absurd hh.symm hk
        · exact ⟨hn, hh⟩
  · rw [List.map_cons, List.nodup_cons]
    refine ⟨fun hmem => ?_, h.nodup⟩
    obtain ⟨n, hn, he⟩ := List.mem_map.mp hmem
    exact hnew n hn he

/-! ## What a call does -/

variable (formatMessage : Int → Option String) (dflt : Option String)

/-- **A known code**: its text, and nothing changes. -/
theorem call_known (h : Rep hash tb) (hm : node ∈ tb) :
    errnoStrInner formatMessage hash node.err dflt = some (hash, node.msg) := by
  rw [errnoStrInner, h.lookup, find_eq_some h.nodup hm]

theorem sysErrmsg_err (e : Int) : (sysErrmsg formatMessage e dflt).err = e := by
  unfold sysErrmsg
  split <;> rfl

/-- A code that is not found is added to what the resizing leaves. -/
theorem errnoStrInner_new (h : Rep hash tb) (hnew : ∀ n ∈ tb, n.err ≠ e) {hash₁ : ErrHash}
    {tb₁ : List ErrNode} (hr : coreErrnoResize 127 hash = some hash₁) (h₁ : Rep hash₁ tb₁)
    (hsz : hash₁.slotSz = 64) (hlen : tb₁.length < 47) (hsub : ∀ n ∈ tb₁, n ∈ tb) :
    ∃ hash', errnoStrInner formatMessage hash e dflt =
        some (hash', (sysErrmsg formatMessage e dflt).msg) ∧
      Rep hash' (sysErrmsg formatMessage e dflt :: tb₁) := by
  have hnone : chainFind e (hash.chain (HASH hash.slotSz e)) = none := by
    rw [h.lookup, List.find?_eq_none]
    exact fun n hn => by simpa using hnew n hn
  have herr := sysErrmsg_err formatMessage dflt e
  have hnew₁ : ∀ n ∈ tb₁, n.err ≠ (sysErrmsg formatMessage e dflt).err := fun n hn => by
    rw [herr]; exact hnew n (hsub n hn)
  obtain ⟨chain, heq, hrep⟩ := h₁.insert hsz hlen hnew₁
  refine ⟨_, ?_, hrep⟩
  simp only [errnoStrInner, hnone, ROUNDS, coreErrnoAdd, hr, Option.bind_eq_bind, Option.bind_some,
    heq, Option.pure_def]

/-- **A new code** is remembered while fewer than 47 codes are. -/
theorem call_new (h : Rep hash tb) (hnew : ∀ n ∈ tb, n.err ≠ e) (hlen : tb.length < 47) :
    ∃ hash', errnoStrInner formatMessage hash e dflt =
        some (hash', (sysErrmsg formatMessage e dflt).msg) ∧
      Rep hash' (sysErrmsg formatMessage e dflt :: tb) := by
  have hr := coreErrnoResize_eq (h.size.imp_right And.left) (by rw [h.used]; omega)
    (show 65 < 127 by decide)
  by_cases hsz : hash.slotSz = 64
  · rw [if_pos ⟨hsz, by rw [h.used]; exact hlen⟩] at hr
    exact errnoStrInner_new formatMessage dflt h hnew hr h hsz hlen fun n hn => hn
  · -- the first call allocates the table
    obtain ⟨-, rfl⟩ := h.size.resolve_left hsz
    rw [if_neg fun hc => hsz hc.1] at hr
    exact errnoStrInner_new formatMessage dflt h hnew hr rep_empty rfl hlen fun n hn => hn

/-- **The 48th code** empties the table first. -/
theorem call_reset (h : Rep hash tb) (hnew : ∀ n ∈ tb, n.err ≠ e) (hlen : tb.length = 47) :
    ∃ hash', errnoStrInner formatMessage hash e dflt =
        some (hash', (sysErrmsg formatMessage e dflt).msg) ∧
      Rep hash' [sysErrmsg formatMessage e dflt] := by
  have hr := coreErrnoResize_eq (h.size.imp_right And.left) (by rw [h.used]; omega)
    (show 65 < 127 by decide)
  rw [if_neg fun hc => by rw [h.used] at hc; omega] at hr
  exact errnoStrInner_new formatMessage dflt h hnew hr rep_empty rfl (by simp) (by simp)

end Table

/-! ## Sequences of calls -/

/-- **Stable replies**: one text for each code, and the appended one if `errno_append` returned 0. -/
structure Stable (rs : List Reply) : Prop where
  same : ∀ r ∈ rs, ∀ r' ∈ rs, r.call.code = r'.call.code → r.text = r'.text
  appended : ∀ r ∈ rs, ∀ r' ∈ rs, ∀ e msg, r.call = .append e msg → r.ret = some 0 →
    r'.call = .str e → r'.text = msg

def Call.dflt : Call → Option String
  | .append _ msg => some msg
  | .str _ => none

/-- The reply to a call for whose code the message is `text`. -/
def Call.answer (c : Call) (text : String) : Reply :=
  ⟨c, text, match c with
    | .append _ msg => some (strcmp text msg)
    | .str _ => none⟩

theorem strcmp_eq_zero {a b : String} : strcmp a b = 0 ↔ a = b := by
  unfold strcmp
  split_ifs <;> simp_all

section Runs

variable (formatMessage : Int → Option String) {hash hash' : ErrHash} {tb : List ErrNode}

theorem reply_eq {c : Call} {text : String}
    (h : errnoStrInner formatMessage hash c.code c.dflt = some (hash', text)) :
    reply formatMessage hash c = some (hash', c.answer text) := by
  cases c with
  | append e msg =>
    have h : errnoStrInner formatMessage hash e (some msg) = some (hash', text) := h
    simp [reply, errnoAppend, h, Call.answer]
  | str e =>
    have h : errnoStrInner formatMessage hash e none = some (hash', text) := h
    simp [reply, errnoStr, h, Call.answer]

theorem replies_cons {c : Call} {cs : List Call} {text : String} {rs : List Reply} {hash'' : ErrHash}
    (h : errnoStrInner formatMessage hash c.code c.dflt = some (hash', text))
    (hs : replies formatMessage hash' cs = some (hash'', rs)) :
    replies formatMessage hash (c :: cs) = some (hash'', c.answer text :: rs) := by
  simp [replies, reply_eq formatMessage h, hs]

theorem replies_append {cs : List Call} (cs' : List Call) {rs : List Reply}
    (h : replies formatMessage hash cs = some (hash', rs)) :
    replies formatMessage hash (cs ++ cs') =
      (replies formatMessage hash' cs').map fun p => (p.1, rs ++ p.2) := by
  induction cs generalizing hash rs with
  | nil => cases h; simp
  | cons c cs ih =>
    simp only [replies, Option.bind_eq_bind, Option.bind_eq_some_iff, Option.pure_def,
      Option.some.injEq, Prod.mk.injEq, List.cons_append] at h ⊢
    obtain ⟨⟨hash₁, r⟩, hr, ⟨hash₂, rs₂⟩, hrs, rfl, rfl⟩ := h
    rw [hr, Option.bind_some, ih hrs]
    cases replies formatMessage hash₂ cs' <;> rfl

/-- With at most 47 codes there is one message for each. -/
theorem replies_spec {C : Finset Int} (hcard : C.card ≤ 47) :
    ∀ (cs : List Call) {hash : ErrHash} {tb : List ErrNode}, Rep hash tb → (∀ n ∈ tb, n.err ∈ C) →
    (∀ c ∈ cs, c.code ∈ C) →
    ∃ hash' rs, ∃ message : Int → String, replies formatMessage hash cs = some (hash', rs) ∧
      (∀ n ∈ tb, n.msg = message n.err) ∧
      ∀ r ∈ rs, r = r.call.answer (message r.call.code) := by
  intro cs
  induction cs with
  | nil =>
    intro hash tb h _ _
    refine ⟨hash, [], fun e => ((tb.find? fun n => n.err = e).map ErrNode.msg).getD "", rfl, ?_, by simp⟩
    intro n hn
    beta_reduce
    rw [find_eq_some h.nodup hn]
    rfl
  | cons c cs ih =>
    intro hash tb h htb hcs
    have hc := hcs c (by simp)
    have hcs' : ∀ c ∈ cs, c.code ∈ C := fun c hc => hcs c (List.mem_cons_of_mem _ hc)
    by_cases hknown : ∃ n ∈ tb, n.err = c.code
    · obtain ⟨n, hn, he⟩ := hknown
      have hcall := call_known formatMessage c.dflt h hn
      rw [he] at hcall
      obtain ⟨hash', rs, message, hrs, hmsg, hall⟩ := ih h htb hcs'
      refine ⟨hash', _, message, replies_cons formatMessage hcall hrs, hmsg, fun r hr => ?_⟩
      rcases List.mem_cons.mp hr with rfl | hr
      · show c.answer n.msg = c.answer (message c.code)
        rw [hmsg n hn, he]
      · exact hall r hr
    · have hnew : ∀ n ∈ tb, n.err ≠ c.code := fun n hn he => hknown ⟨n, hn, he⟩
      -- the remembered codes and the new one are at most 47
      have hlen : tb.length < 47 := by
        have hsub : (c.code :: tb.map ErrNode.err).toFinset ⊆ C := by
          intro e he
          rcases List.mem_cons.mp (List.mem_toFinset.mp he) with rfl | he
          · exact hc
          · obtain ⟨n, hn, rfl⟩ := List.mem_map.mp he; exact htb n hn
        have hnd : (c.code :: tb.map ErrNode.err).Nodup := by
          refine List.nodup_cons.mpr ⟨fun hm => ?_, h.nodup⟩
          obtain ⟨n, hn, he⟩ := List.mem_map.mp hm
          exact hnew n hn he
        have hle := Finset.card_le_card hsub
        rw [List.toFinset_card_of_nodup hnd, List.length_cons, List.length_map] at hle
        omega
      obtain ⟨hash₁, hcall, h₁⟩ := call_new formatMessage c.dflt h hnew hlen
      have herr := sysErrmsg_err formatMessage c.dflt c.code
      obtain ⟨hash', rs, message, hrs, hmsg, hall⟩ := ih h₁ (by
        intro n hn
        rcases List.mem_cons.mp hn with rfl | hn
        · rw [herr]; exact hc
        · exact htb n hn) hcs'
      refine ⟨hash', _, message, replies_cons formatMessage hcall hrs,
        fun n hn => hmsg n (List.mem_cons_of_mem _ hn), fun r hr => ?_⟩
      rcases List.mem_cons.mp hr with rfl | hr
      · have := hmsg _ List.mem_cons_self
        rw [herr] at this
        show c.answer _ = c.answer (message c.code)
        rw [this]
      · exact hall r hr

theorem stable_of_message {rs : List Reply} {message : Int → String}
    (h : ∀ r ∈ rs, r = r.call.answer (message r.call.code)) : Stable rs := by
  have htext : ∀ r ∈ rs, r.text = message r.call.code := fun r hr => by
    rw [h r hr]; rfl
  refine ⟨fun r hr r' hr' he => ?_, fun r hr r' hr' e msg hc h0 hc' => ?_⟩
  · rw [htext r hr, htext r' hr', he]
  · have hret := congrArg Reply.ret (h r hr)
    rw [h0, hc] at hret
    have hmsg : message e = msg := strcmp_eq_zero.mp (Option.some.inj hret).symm
    rw [htext r' hr', hc']
    exact hmsg

/-- Asking for new codes while there is room remembers them all. -/
theorem replies_fill : ∀ (es : List Int) {hash : ErrHash} {tb : List ErrNode}, Rep hash tb →
    es.Nodup → (∀ e ∈ es, ∀ n ∈ tb, n.err ≠ e) → tb.length + es.length ≤ 47 →
    ∃ hash' rs tb', replies formatMessage hash (es.map .str) = some (hash', rs) ∧ Rep hash' tb' ∧
      tb'.length = tb.length + es.length ∧ ∀ n ∈ tb', n ∈ tb ∨ n.err ∈ es := by
  intro es
  induction es with
  | nil => exact fun h _ _ _ => ⟨_, [], _, rfl, h, rfl, fun n hn => Or.inl hn⟩
  | cons e es ih =>
    intro hash tb h hnd hnew hlen
    obtain ⟨hne, hnd⟩ := List.nodup_cons.mp hnd
    rw [List.length_cons] at hlen
    obtain ⟨hash₁, hcall, h₁⟩ := call_new formatMessage (Call.str e).dflt h (hnew e (by simp))
      (by omega)
    have herr := sysErrmsg_err formatMessage (Call.str e).dflt e
    obtain ⟨hash', rs, tb', hrs, h', hlen', hsub⟩ := ih h₁ hnd (by
      intro e' he' n hn
      rcases List.mem_cons.mp hn with rfl | hn
      · rw [herr]; rintro rfl; exact hne he'
      · exact hnew e' (List.mem_cons_of_mem _ he') n hn) (by rw [List.length_cons]; omega)
    refine ⟨hash', _, tb', replies_cons formatMessage (c := .str e) hcall hrs, h', ?_, fun n hn => ?_⟩
    · rw [hlen', List.length_cons, List.length_cons]; omega
    · rcases hsub n hn with hn | hn
      · rcases List.mem_cons.mp hn with rfl | hn
        · exact Or.inr (by rw [herr]; simp)
        · exact Or.inl hn
      · exact Or.inr (List.mem_cons_of_mem _ hn)

/-- The text of a code that was appended first is lost after 47 other new codes. -/
theorem replies_lost {e e' : Int} {es : List Int} (hnd : (e :: e' :: es).Nodup)
    (hlen : es.length = 46) (hsys : formatMessage e = none) :
    ∃ hash rs, replies formatMessage .zero
        (.append e "" :: es.map .str ++ [.str e', .str e]) = some (hash, rs) ∧ ¬ Stable rs := by
  obtain ⟨hne, hnd'⟩ := List.nodup_cons.mp hnd
  obtain ⟨hne', hnd''⟩ := List.nodup_cons.mp hnd'
  rw [List.mem_cons, not_or] at hne
  have herr : ∀ (d : Option String) (i : Int), (sysErrmsg formatMessage i d).err = i :=
    sysErrmsg_err formatMessage
  -- the first call
  obtain ⟨hash₁, hcall₁, h₁⟩ := call_new formatMessage (Call.append e "").dflt rep_zero
    (e := e) (by simp) (by simp)
  have htext : (sysErrmsg formatMessage e (Call.append e "").dflt).msg = "" := by
    simp [sysErrmsg, hsys, Call.dflt]
  rw [htext] at hcall₁
  -- 46 more codes fill the table, the next one empties it
  obtain ⟨hash₂, rs₂, tb₂, hrs₂, h₂, hlen₂, hsub₂⟩ := replies_fill formatMessage es h₁ hnd''
    (by intro i hi n hn
        rw [List.mem_singleton.mp hn, herr]
        rintro rfl
        exact hne.2 hi) (by simp [hlen])
  have hnew₂ : ∀ n ∈ tb₂, n.err ≠ e' := by
    intro n hn
    rcases hsub₂ n hn with hn | hn
    · rw [List.mem_singleton.mp hn, herr]; exact hne.1
    · rintro rfl; exact hne' hn
  obtain ⟨hash₃, hcall₃, h₃⟩ := call_reset formatMessage (Call.str e').dflt h₂ hnew₂
    (by rw [hlen₂, hlen]; rfl)
  -- the first code is unknown again
  obtain ⟨hash₄, hcall₄, h₄⟩ := call_new formatMessage (Call.str e).dflt h₃ (e := e)
    (by intro n hn
        rw [List.mem_singleton.mp hn, herr]
        exact Ne.symm hne.1) (by simp)
  have hnil : replies formatMessage hash₄ [] = some (hash₄, []) := rfl
  have hlast := replies_cons formatMessage (c := .str e') hcall₃
    (replies_cons formatMessage (c := .str e) hcall₄ hnil)
  have hrest := replies_append formatMessage [.str e', .str e] hrs₂
  rw [hlast, Option.map_some] at hrest
  refine ⟨hash₄, _, replies_cons formatMessage (c := .append e "") hcall₁ hrest, fun hstable => ?_⟩
  have hsame := hstable.same ((Call.append e "").answer "") (by simp)
    ((Call.str e).answer (sysErrmsg formatMessage e (Call.str e).dflt).msg) (by simp) rfl
  have hunk : (sysErrmsg formatMessage e (Call.str e).dflt).msg = "Unkown error " ++ toString e := by
    simp [sysErrmsg, hsys, Call.dflt]
  have hnil : "" = "Unkown error " ++ toString e := hsame.trans hunk
  have hlen := congrArg String.length hnil
  rw [String.length_append, show "Unkown error ".length = 13 from rfl] at hlen
  exact absurd hlen (by simp; omega)

/-- **Error messages are stable exactly for up to 47 codes**: every sequence of calls over the codes
`C`, for which the system has no text, returns and is stable iff `C` has at most 47 elements. -/
theorem replies_stable_iff (C : Finset Int) (hsys : ∀ e ∈ C, formatMessage e = none) :
    (∀ cs : List Call, (∀ c ∈ cs, c.code ∈ C) →
      ∃ hash rs, replies formatMessage .zero cs = some (hash, rs) ∧ Stable rs) ↔ C.card ≤ 47 := by
  constructor
  · intro h
    by_contra hcard
    obtain ⟨D, hD, hD48⟩ := Finset.exists_subset_card_eq (show 48 ≤ C.card by omega)
    have hmem : ∀ e ∈ D.toList, e ∈ C := fun e he => hD (Finset.mem_toList.mp he)
    have hlen : D.toList.length = 48 := by rw [Finset.length_toList, hD48]
    have hnd := D.nodup_toList
    obtain ⟨e, e', es, heq⟩ : ∃ e e' es, D.toList = e :: e' :: es := by
      match hl : D.toList with
      | [] => simp [hl] at hlen
      | [_] => simp [hl] at hlen
      | e :: e' :: es => exact ⟨e, e', es, rfl⟩
    rw [heq] at hmem hlen hnd
    obtain ⟨hash, rs, hrs, hnot⟩ := replies_lost formatMessage hnd (by simpa using hlen)
      (hsys e (hmem e (by simp)))
    have hcs : ∀ c ∈ Call.append e "" :: es.map Call.str ++ [.str e', .str e], c.code ∈ C := by
      intro c hc
      refine hmem c.code ?_
      simp only [List.cons_append, List.mem_cons, List.mem_append, List.mem_map, List.not_mem_nil,
        or_false] at hc ⊢
      rcases hc with rfl | ⟨i, hi, rfl⟩ | rfl | rfl
      · exact Or.inl rfl
      · exact Or.inr (Or.inr hi)
      · exact Or.inr (Or.inl rfl)
      · exact Or.inl rfl
    obtain ⟨hash', rs', hrs', hstable⟩ := h _ hcs
    rw [hrs] at hrs'
    obtain ⟨-, rfl⟩ := Prod.mk.inj (Option.some.inj hrs')
    exact hnot hstable
  · intro hcard cs hcs
    obtain ⟨hash, rs, message, hrs, -, hall⟩ :=
      replies_spec formatMessage hcard cs rep_zero (by simp) hcs
    exact ⟨hash, rs, hrs, stable_of_message hall⟩

theorem replies_stable_two :
    ∃ hash rs, replies (fun _ => none) .zero [.append 2000000000 "a", .str 5, .str 2000000000] =
      some (hash, rs) ∧ Stable rs :=
  (replies_stable_iff (fun _ => none) {2000000000, 5} (fun _ _ => rfl)).mpr (by decide) _ (by decide)

/-- Three error codes of `errmsg.h` and 45 more: the text of the first one is replaced. -/
theorem appended_text_lost :
    (replies (fun _ => none) .zero
        (.append 2000000000 "poller not run" ::
          (List.range 47).map (fun k => .str (2000000001 + k)) ++ [.str 2000000000])).map
        (fun p => (p.2.head?, p.2.getLast?)) =
      some (some ⟨.append 2000000000 "poller not run", "poller not run", some 0⟩,
        some ⟨.str 2000000000, "Unkown error 2000000000", none⟩) ∧
    ¬ ∃ hash rs, replies (fun _ => none) .zero
        (.append 2000000000 "poller not run" ::
          (List.range 47).map (fun k => .str (2000000001 + k)) ++ [.str 2000000000]) =
        some (hash, rs) ∧ Stable rs := by
  have heval : (replies (fun _ => none) .zero
        (.append 2000000000 "poller not run" ::
          (List.range 47).map (fun k => .str (2000000001 + k)) ++ [.str 2000000000])).map
        (fun p => (p.2.head?, p.2.getLast?)) =
      some (some ⟨.append 2000000000 "poller not run", "poller not run", some 0⟩,
        some ⟨.str 2000000000, "Unkown error 2000000000", none⟩) := by decide +kernel
  refine ⟨heval, ?_⟩
  rintro ⟨hash, rs, hrs, hstable⟩
  rw [hrs, Option.map_some] at heval
  obtain ⟨hhead, hlast⟩ := Prod.mk.inj (Option.some.inj heval)
  have hsame := hstable.same _ (List.mem_of_head? hhead) _ (List.mem_of_getLast? hlast) rfl
  exact absurd hsame (by decide)

end Runs

end HoNet.ErrMsg
