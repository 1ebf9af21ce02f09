import HoNet.Timer.HeapLinks

/-!
# Runs of the pointer level

The invariant `Inv` of a configuration: its links represent a shape, the nodes on a hash chain are
the nodes on a ring or detached, the running node is the only one in hand, and no cancelled timer
is linked. Every operation keeps it, or stops at one of the two kinds of fault that do not touch a
released node (`Stop`).

Two conditions on a step appear: `Spares` (a `coretimer_del` issued from inside a callback does not
find the node cached as next) and `StaysLow` (an addition ends below `2 ^ 26`, a tick starts below
`2 ^ 26 - 1`).

Principal results:

* `list_heads_circular` — in a run whose steps meet both, every head handed to `list_add` and
  `list_clear` is a circular list.
* `cancellation_final` — in a run whose steps meet `Spares`, no cancelled timer runs and no
  released node is accessed.
-/

namespace HoNet.Timer

open HoNet.Linked

/-! ## The invariant -/

/-- The head is a circular list: both links lead through nodes back to it. -/
def Handed.Circular (h : Handed) : Prop :=
  h.head ≠ .null ∧ ∃ l : List Nat, Seg h.listNext h.listPrev h.head (nodes l) h.head

/-- No timer runs after its cancellation. -/
def Final (log : List HeapEvent) : Prop :=
  ∀ l₁ l₂ s, log = l₁ ++ .del s :: l₂ → .run s ∉ l₂

/-- A node at this place is found through the hash. -/
def Loc.Linked : Loc → Prop
  | .slot _ => True
  | .det => True
  | _ => False

structure Rep (T : CoreTimer) (σ : Shape) (chain : Nat → List Nat) (n : Ptr) : Prop where
  lists : T.Lists σ n
  hashed : HashRep T.hashNext T.hashPrev T.id chain
  linked : ∀ a, (∃ k, a ∈ chain k) ↔ (σ.loc a).Linked

/-- The history variables: a linked node stems from one addition, and that was not cancelled. -/
structure Ledger (T : CoreTimer) (σ : Shape) : Prop where
  seq_lt : ∀ a, (σ.loc a).Linked → T.seq (.node a) < T.added
  seq_inj : ∀ a b, (σ.loc a).Linked → (σ.loc b).Linked → T.seq (.node a) = T.seq (.node b) → a = b
  not_del : ∀ a, (σ.loc a).Linked → .del (T.seq (.node a)) ∉ T.log
  del_lt : ∀ s, .del s ∈ T.log → s < T.added
  final : Final T.log
  circular : ∀ h ∈ T.handed, h.Circular

/-- `r` is the node whose callback runs, `n` the node cached as next. -/
structure Inv (T : CoreTimer) (r : Option Nat) (n : Ptr) (σ : Shape) (chain : Nat → List Nat) :
    Prop where
  rep : Rep T σ chain n
  cur : ∀ a, σ.loc a = .cur ↔ r = some a
  ledger : Ledger T σ

/-- Everything the timer holds expires before `2 ^ 26`, where level 3 would come in. -/
def Low (T : CoreTimer) : Prop :=
  T.time < 2 ^ 26 ∧ ∀ a ∈ T.used, T.expire (.node a) < 2 ^ 26

/-- How an operation that started in `T` may stop. When `low` holds it is an `assert` of the code
and the list heads handed out so far are circular. -/
def Stop (low : Prop) (T : CoreTimer) (e : Fault × CoreTimer) : Prop :=
  (e.1 = .nullDeref ∨ e.1 = .assertion) ∧ e.2.log = T.log ∧
    (low → e.1 = .assertion ∧ ∀ h ∈ e.2.handed, h.Circular)

/-- Only the `list_*` links (and the record of what was handed out) differ. -/
def Relinked (T T' : CoreTimer) : Prop :=
  T' = { T with listNext := T'.listNext, listPrev := T'.listPrev, handed := T'.handed }

theorem Relinked.trans {T T' T'' : CoreTimer} (h : Relinked T T') (h' : Relinked T' T'') :
    Relinked T T'' := by
  unfold Relinked at *
  rw [h', h]

/-! ## Filing a node -/

section Filing

variable {T : CoreTimer} {σ : Shape} {n : Ptr} {a : Nat}

theorem place_initialised {e c : Nat} (h : e / 2 ^ 26 = c / 2 ^ 26) :
    (place e c).initialised = true := by
  rw [place_eq]
  have hn : TIME_NEAR = 256 := rfl
  have hl : TIME_LEVEL = 64 := rfl
  split_ifs <;> simp only [Slot.initialised, hn, hl, decide_eq_true_eq] <;> omega

theorem circular_hand (h : T.Lists σ n) {s : Slot} (hs : s.initialised = true) :
    (⟨T.listNext, T.listPrev, .slot s⟩ : Handed).Circular :=
  ⟨by simp, σ.lst s, h.ring s hs⟩

theorem circular_append {hs : List Handed} {h : Handed} (hall : ∀ x ∈ hs, x.Circular)
    (hc : h.Circular) : ∀ x ∈ hs ++ [h], x.Circular := by
  intro x hx
  rcases List.mem_append.mp hx with hx | hx
  · exact hall x hx
  · rw [List.mem_singleton.mp hx]; exact hc

/-- `addto_list` files the node on an initialised ring, or it stops. -/
theorem addtoList_rep (h : T.Lists σ n) (hall : ∀ x ∈ T.handed, x.Circular) (ha : σ.loc a = .cur)
    (hpa : T.listPrev (.node a) = .null) (hna : T.listNext (.node a) = .null) :
    (∃ s T', T.addtoList (.node a) = .ok T' ∧ Relinked T T' ∧ T'.Lists (σ.put s a) n ∧
      ∀ x ∈ T'.handed, x.Circular) ∨
    ∃ e, T.addtoList (.node a) = .error e ∧
      Stop (T.time < 2 ^ 26 ∧ T.expire (.node a) < 2 ^ 26) T e := by
  have hA : Alive T.used (.node a) := mem_used_cur h ha
  by_cases hlt : T.expire (.node a) < T.time
  · refine Or.inr ⟨(.assertion, T), ?_, Or.inr rfl, rfl, fun _ => ⟨rfl, hall⟩⟩
    simp [CoreTimer.addtoList, check_alive hA, CoreTimer.assert, hlt]
  have hopen : T.addtoList (.node a) =
      (T.hand (.slot (place (T.expire (.node a)) T.time))).listAdd
        (.slot (place (T.expire (.node a)) T.time)) (.node a) := by
    simp [CoreTimer.addtoList, check_alive hA, hlt]
  generalize hs : place (T.expire (.node a)) T.time = s at hopen
  have hh : (T.hand (.slot s)).Lists σ n := h
  by_cases hi : s.initialised = true
  · obtain ⟨nx, pv, heq, hrep⟩ := listAdd_rep hh hi ha hpa hna
    refine Or.inl ⟨s, _, hopen.trans heq, rfl, hrep, ?_⟩
    exact circular_append hall (circular_hand h hi)
  · obtain ⟨pv, heq⟩ := listAdd_bare hh (by simpa using hi) ha hpa hna
    refine Or.inr ⟨_, hopen.trans heq, Or.inl rfl, rfl, fun hlow => absurd ?_ hi⟩
    rw [← hs]
    refine place_initialised ?_
    rw [Nat.div_eq_of_lt hlow.1, Nat.div_eq_of_lt hlow.2]

/-- The shape after a detached node was filed: who is linked and who is in hand stays. -/
def SameKind (σ σ' : Shape) : Prop :=
  ∀ a, ((σ'.loc a).Linked ↔ (σ.loc a).Linked) ∧ (σ'.loc a = .cur ↔ σ.loc a = .cur)

theorem SameKind.trans {σ σ' σ'' : Shape} (h : SameKind σ σ') (h' : SameKind σ' σ'') :
    SameKind σ σ'' := fun a => ⟨(h' a).1.trans (h a).1, (h' a).2.trans (h a).2⟩

theorem sameKind_refile {s : Slot} (ha : σ.loc a = .det) : SameKind σ ((σ.takeDet a).put s a) := by
  intro b
  by_cases hb : b = a
  · subst hb; simp [Shape.put, ha, Loc.Linked]
  · simp [Shape.put, Shape.takeDet, Function.update_of_ne hb]

theorem sameKind_detach (s : Slot) : SameKind σ (σ.detach s) := by
  intro b
  simp only [Shape.detach]
  split
  · rename_i hb; simp [hb, Loc.Linked]
  · simp

/-- The loop of `list_move`: every detached node is filed again. -/
theorem moveLoop_rep : ∀ (rounds : Nat) {T : CoreTimer} {σ : Shape} {n : Ptr},
    T.Lists σ n → (∀ x ∈ T.handed, x.Circular) → σ.det.length < rounds →
    (∃ T' σ', CoreTimer.moveLoop rounds T n = .ok T' ∧ Relinked T T' ∧ T'.Lists σ' .null ∧
      SameKind σ σ' ∧ ∀ x ∈ T'.handed, x.Circular) ∨
    ∃ e, CoreTimer.moveLoop rounds T n = .error e ∧ Stop (Low T) T e := by
  intro rounds
  induction rounds with
  | zero => intro T σ n _ _ hlen; cases hlen
  | succ rounds ih =>
    intro T σ n h hall hlen
    have hD := h.detached
    cases hdet : σ.det with
    | nil =>
      rw [hdet] at hD
      have hn : n = .null := hD
      subst hn
      exact Or.inl ⟨T, σ, by simp [CoreTimer.moveLoop], rfl, h, fun _ => ⟨Iff.rfl, Iff.rfl⟩, hall⟩
    | cons a l =>
      rw [hdet] at hD
      obtain ⟨rfl, -⟩ := hD
      have had : a ∈ σ.det := by simp [hdet]
      have hloc := (h.wf.det_mem a).mp had
      have hA := alive_det h had
      have hcur : (σ.takeDet a).loc a = .cur := by simp [Shape.takeDet]
      have hpop := (h.pop).update_cur hcur .null .null
      -- the node with its links cleared
      generalize hT₁ : ({ T with
        listNext := Function.update T.listNext (.node a) .null
        listPrev := Function.update T.listPrev (.node a) .null } : CoreTimer) = T₁
      have h₁ : T₁.Lists (σ.takeDet a) (T.listNext (.node a)) := by rw [← hT₁]; exact hpop
      have hopen : CoreTimer.moveLoop (rounds + 1) T (.node a) =
          (T₁.addtoList (.node a) >>= fun T₂ =>
            CoreTimer.moveLoop rounds T₂ (T.listNext (.node a))) := by
        rw [← hT₁]
        simp [CoreTimer.moveLoop, getListNext_alive, setListPrev_alive, setListNext_alive, hA]
      have hall₁ : ∀ x ∈ T₁.handed, x.Circular := by rw [← hT₁]; exact hall
      have hrel₁ : Relinked T T₁ := by rw [← hT₁]; rfl
      rcases addtoList_rep h₁ hall₁ hcur (by simp [← hT₁]) (by simp [← hT₁]) with
        ⟨s, T₂, heq, hrel, h₂, hall₂⟩ | ⟨e, heq, hkind, hlog, hlow⟩
      · have hlen₂ : ((σ.takeDet a).put s a).det.length < rounds := by
          have : ((σ.takeDet a).put s a).det = l := by simp [Shape.put, Shape.takeDet, hdet]
          rw [this]; simpa [hdet] using hlen
        have hrel₂ := hrel₁.trans hrel
        rw [hopen, heq, ok_bind]
        rcases ih h₂ hall₂ hlen₂ with ⟨T', σ', hok, hrel', hrep, hsame, hall'⟩ | ⟨e, he, hkind, hlog, hlow⟩
        · exact Or.inl ⟨T', σ', hok, hrel₂.trans hrel', hrep, (sameKind_refile hloc).trans hsame, hall'⟩
        · refine Or.inr ⟨e, he, hkind, ?_, fun hT => hlow ?_⟩
          · rw [hlog, hrel₂]
          · rw [hrel₂]; exact hT
      · refine Or.inr ⟨e, by rw [hopen, heq, error_bind], hkind, ?_, fun hT => hlow ?_⟩
        · rw [hlog, ← hT₁]
        · rw [← hT₁]; exact ⟨hT.1, hT.2 a hA⟩

theorem det_length_le (h : T.Lists σ n) : σ.det.length ≤ T.used.length :=
  (h.wf.det_nodup.subperm fun _ hb => (h.wf.used_mem _).mpr (by simp [(h.wf.det_mem _).mp hb])).length_le

theorem near_initialised (x : Nat) : (Slot.near (x &&& TIME_NEAR_MASK)).initialised = true := by
  have hn : TIME_NEAR = 256 := rfl
  simp only [Slot.initialised, and_near_mask, hn, decide_eq_true_eq]
  omega

/-- The slot `timer_shift` moves is an initialised one below `2 ^ 26`. -/
theorem shiftMove_initialised {ct l idx : Nat} (h0 : ct ≠ 0) (hlow : ct < 2 ^ 26)
    (hm : shiftMove ct = .move l idx) : (Slot.level l idx).initialised = true := by
  obtain ⟨hl, -, -, hidx⟩ := (shiftMove_move_iff h0).mp hm
  have hl3 : l ≠ 3 := by
    rintro rfl
    exact shiftMove_ne_top h0 hlow hm
  have ht : TIME_LEVEL = 64 := rfl
  simp only [Slot.initialised, ht, decide_eq_true_eq]
  exact ⟨by omega, by rw [hidx]; exact Nat.mod_lt _ (by decide)⟩

/-- `timer_shift` files the nodes of one slot again. -/
theorem timerShift_rep (h : T.Lists σ .null) (hall : ∀ x ∈ T.handed, x.Circular) :
    (∃ T' σ', T.timerShift = .ok T' ∧
      Relinked { T with time := (T.time + 1) % 2 ^ 32 } T' ∧ T'.Lists σ' .null ∧ SameKind σ σ' ∧
      ∀ x ∈ T'.handed, x.Circular) ∨
    ∃ e, T.timerShift = .error e ∧ Stop (Low T ∧ T.time + 1 < 2 ^ 26) T e := by
  generalize hT₁ : ({ T with time := (T.time + 1) % 2 ^ 32 } : CoreTimer) = T₁
  have h₁ : T₁.Lists σ .null := by rw [← hT₁]; exact h
  have hall₁ : ∀ x ∈ T₁.handed, x.Circular := by rw [← hT₁]; exact hall
  have hct : (T.time + 1) % 2 ^ 32 < 2 ^ 32 := Nat.mod_lt _ (by decide)
  cases hm : shiftMove ((T.time + 1) % 2 ^ 32) with
  | turning => exact absurd hm (shiftMove_ne_turning hct)
  | noMove =>
    refine Or.inl ⟨T₁, σ, ?_, rfl, h₁, fun _ => ⟨Iff.rfl, Iff.rfl⟩, hall₁⟩
    simp only [CoreTimer.timerShift, hm, hT₁]
  | move l idx =>
    have hopen : T.timerShift = T₁.listMove l idx := by simp only [CoreTimer.timerShift, hm, hT₁]
    generalize hs : Slot.level l idx = s
    have hh : (T₁.hand (.slot s)).Lists σ .null := h₁
    by_cases hi : s.initialised = true
    · obtain ⟨nx, pv, p, heq, hrep⟩ := listClear_rep hh hi
      generalize hT₂ : ({ T₁.hand (.slot s) with listNext := nx, listPrev := pv } : CoreTimer) = T₂
        at heq
      have h₂ : T₂.Lists (σ.detach s) p := by rw [← hT₂]; exact hrep
      have hall₂ : ∀ x ∈ T₂.handed, x.Circular := by
        rw [← hT₂]; exact circular_append hall₁ (circular_hand h₁ hi)
      have hrel : Relinked T₁ T₂ := by rw [← hT₂]; rfl
      have hloop : T.timerShift = CoreTimer.moveLoop (T₂.used.length + 1) T₂ p := by
        rw [hopen]
        simp only [CoreTimer.listMove, hs, heq, ok_bind]
      have hlen := det_length_le h₂
      rcases moveLoop_rep (T₂.used.length + 1) h₂ hall₂ (by omega) with
        ⟨T', σ', hok, hrel', hrep', hsame, hall'⟩ | ⟨e, he, hkind, hlog, hlow⟩
      · exact Or.inl ⟨T', σ', hloop.trans hok, hrel.trans hrel', hrep',
          (sameKind_detach s).trans hsame, hall'⟩
      · refine Or.inr ⟨e, hloop.trans he, hkind, ?_, fun hT => hlow ?_⟩
        · rw [hlog, hrel, ← hT₁]
        · rw [hrel, ← hT₁]
          refine ⟨?_, hT.1.2⟩
          rw [Nat.mod_eq_of_lt (by omega)]
          exact hT.2
    · have heq := listClear_bare hh (by simpa using hi)
      refine Or.inr ⟨(.nullDeref, T₁.hand (.slot s)), ?_, Or.inl rfl, ?_, fun hT => absurd ?_ hi⟩
      · rw [hopen]
        simp only [CoreTimer.listMove, hs, heq, error_bind]
      · rw [← hT₁]; rfl
      · rw [Nat.mod_eq_of_lt (by omega)] at hm
        rw [← hs]
        exact shiftMove_initialised (Nat.succ_ne_zero _) hT.2 hm

end Filing

/-! ## Operations on the invariant -/

section Operations

variable {T T' : CoreTimer} {σ σ' : Shape} {chain : Nat → List Nat} {r : Option Nat} {n n' : Ptr}
  {a : Nat}

theorem Rep.hash (h : Rep T σ chain n) : T.Hashed chain := by
  refine ⟨h.hashed, fun k b hb => (h.lists.wf.used_mem b).mpr ?_⟩
  have hl := (h.linked b).mp ⟨k, hb⟩
  cases hloc : σ.loc b <;> rw [hloc] at hl <;> first | exact hl.elim | simp

theorem Ledger.same (h : Ledger T σ) (hs : SameKind σ σ') (hseq : T'.seq = T.seq)
    (hadd : T'.added = T.added) (hlog : T'.log = T.log) (hall : ∀ x ∈ T'.handed, x.Circular) :
    Ledger T' σ' := by
  refine ⟨fun a ha => ?_, fun a b ha hb => ?_, fun a ha => ?_, ?_, ?_, hall⟩
  · rw [hseq, hadd]; exact h.seq_lt a ((hs a).1.mp ha)
  · rw [hseq]; exact h.seq_inj a b ((hs a).1.mp ha) ((hs b).1.mp hb)
  · rw [hseq, hlog]; exact h.not_del a ((hs a).1.mp ha)
  · rw [hlog, hadd]; exact h.del_lt
  · rw [hlog]; exact h.final

/-- Moving linked nodes between rings keeps the invariant. -/
theorem Inv.relink (h : Inv T r n σ chain) {t : Nat} (hrel : Relinked { T with time := t } T')
    (hlists : T'.Lists σ' n') (hs : SameKind σ σ') (hall : ∀ x ∈ T'.handed, x.Circular) :
    Inv T' r n' σ' chain := by
  refine ⟨⟨hlists, ?_, fun b => (h.rep.linked b).trans (hs b).1.symm⟩,
    fun b => (hs b).2.trans (h.cur b), ?_⟩
  · rw [hrel]; exact h.rep.hashed
  · exact h.ledger.same hs (by rw [hrel]) (by rw [hrel]) (by rw [hrel]) hall

/-- The chains after a node was taken out of its chain are those of the other linked nodes. -/
theorem chain_erase (h : Rep T σ chain n) {k : Nat} (ha : a ∈ chain k)
    (hloc : ∀ b, b ≠ a → σ'.loc b = σ.loc b) (hcur : ¬ (σ'.loc a).Linked) (b : Nat) :
    (∃ k', b ∈ Function.update chain k ((chain k).erase a) k') ↔ (σ'.loc b).Linked := by
  have hk := h.hashed.keyed k a ha
  by_cases hb : b = a
  · subst hb
    refine iff_of_false ?_ hcur
    rintro ⟨k', hm⟩
    by_cases hkk : k' = k
    · subst hkk
      rw [Function.update_self] at hm
      exact (h.hashed.nodup k').not_mem_erase hm
    · rw [Function.update_of_ne hkk] at hm
      exact hkk ((h.hashed.keyed k' b hm).symm.trans hk)
  · rw [hloc b hb, ← h.linked b]
    refine exists_congr fun k' => ?_
    by_cases hkk : k' = k
    · subst hkk; rw [Function.update_self, List.mem_erase_of_ne hb]
    · rw [Function.update_of_ne hkk]

theorem final_append {log : List HeapEvent} (h : Final log) {e : HeapEvent}
    (he : ∀ s, e = .run s → .del s ∉ log) : Final (log ++ [e]) := by
  intro l₁ l₂ s heq hm
  rcases List.eq_nil_or_concat l₂ with rfl | ⟨l₃, x, rfl⟩
  · cases hm
  · rw [List.concat_eq_append] at *
    rw [← List.cons_append, ← List.append_assoc] at heq
    obtain ⟨hl, hx⟩ := List.append_inj' heq rfl
    rcases List.mem_append.mp hm with hm | hm
    · exact h l₁ l₃ s hl hm
    · have hx' : e = x := by simpa using hx
      rw [List.mem_singleton] at hm
      exact he s (hx'.trans hm.symm) (by rw [hl]; simp)

/-- An event is logged for a linked node that is linked no more. -/
theorem Ledger.log (h : Ledger T σ) {e : HeapEvent}
    (he : e = .run (T.seq (.node a)) ∨ e = .del (T.seq (.node a))) (ha : (σ.loc a).Linked)
    (hloc : ∀ b, (σ'.loc b).Linked → b ≠ a ∧ (σ.loc b).Linked) (hseq : T'.seq = T.seq)
    (hadd : T'.added = T.added) (hlog : T'.log = T.log ++ [e]) (hhd : T'.handed = T.handed) :
    Ledger T' σ' := by
  have hne : ∀ b, (σ'.loc b).Linked → e ≠ .del (T.seq (.node b)) := by
    rintro b hb rfl
    obtain ⟨hba, hbl⟩ := hloc b hb
    rcases he with he | he
    · cases he
    · exact hba (h.seq_inj b a hbl ha (HeapEvent.del.inj he))
  refine ⟨fun b hb => ?_, fun b c hb hc => ?_, fun b hb => ?_, fun s hs => ?_, ?_, ?_⟩
  · rw [hseq, hadd]; exact h.seq_lt b (hloc b hb).2
  · rw [hseq]; exact h.seq_inj b c (hloc b hb).2 (hloc c hc).2
  · rw [hseq, hlog, List.mem_append, List.mem_singleton]
    rintro (hm | hm)
    · exact h.not_del b (hloc b hb).2 hm
    · exact hne b hb hm.symm
  · rw [hlog, List.mem_append, List.mem_singleton] at hs
    rw [hadd]
    rcases hs with hs | rfl
    · exact h.del_lt s hs
    · rcases he with he | he
      · cases he
      · rw [HeapEvent.del.inj he]; exact h.seq_lt a ha
  · rw [hlog]
    refine final_append h.final fun s hs => ?_
    rcases he with he | he
    · rw [he] at hs; rw [← HeapEvent.run.inj hs]; exact h.not_del a ha
    · rw [he] at hs; cases hs
  · rw [hhd]; exact h.circular

/-- One round of `timer_execute` up to the call: the first detached node leaves its chain. -/
theorem launch_rep (h : Rep T σ chain (.node a)) (phase : Phase) :
    σ.loc a = .det ∧ ∃ hn hp chain', ((do
        let n ← T.getListNext (.node a)
        let T ← T.delfromHash (.node a)
        return ⟨{ T with log := T.log ++ [.run (T.seq (.node a))] }, .inCall phase (.node a) n⟩)
          : Res Config) = .ok ⟨{ T with
            hashNext := hn
            hashPrev := hp
            log := T.log ++ [.run (T.seq (.node a))] },
          .inCall phase (.node a) (T.listNext (.node a))⟩ ∧
      Rep { T with
        hashNext := hn
        hashPrev := hp
        log := T.log ++ [.run (T.seq (.node a))] } (σ.takeDet a) chain' (T.listNext (.node a)) := by
  have hD := h.lists.detached
  have had : a ∈ σ.det := by
    cases hdet : σ.det with
    | nil => rw [hdet] at hD; cases hD
    | cons b l => rw [hdet] at hD; rw [Ptr.node.inj hD.1]; simp
  have hloc := (h.lists.wf.det_mem a).mp had
  have hlink : (σ.loc a).Linked := by rw [hloc]; trivial
  obtain ⟨k, hk⟩ := (h.linked a).mpr hlink
  obtain ⟨hn, hp, heq, hhash⟩ := delfromHash_rep h.hash hk
  have hA := alive_det h.lists had
  have hncur : ¬ ((σ.takeDet a).loc a).Linked := by
    simp [Shape.takeDet, Loc.Linked]
  refine ⟨hloc, hn, hp, _, by rw [getListNext_alive hA, ok_bind, heq, ok_bind]; rfl, h.lists.pop,
    hhash, chain_erase h hk (fun b hb => ?_) hncur⟩
  simp [Shape.takeDet, Function.update_of_ne hb]

/-- A detached node in hand: who is linked and who is in hand. -/
theorem takeDet_loc (a b : Nat) :
    (((σ.takeDet a).loc b).Linked ↔ b ≠ a ∧ (σ.loc b).Linked) ∧
      ((σ.takeDet a).loc b = .cur ↔ b = a ∨ σ.loc b = .cur) := by
  by_cases hb : b = a
  · subst hb; simp [Shape.takeDet, Loc.Linked]
  · simp [Shape.takeDet, hb]

/-- The node starts to run. -/
theorem launch (h : Inv T none (.node a) σ chain) (phase : Phase) :
    ∃ T' σ' chain', ((do
        let n ← T.getListNext (.node a)
        let T ← T.delfromHash (.node a)
        return ⟨{ T with log := T.log ++ [.run (T.seq (.node a))] }, .inCall phase (.node a) n⟩)
          : Res Config) = .ok ⟨T', .inCall phase (.node a) (T.listNext (.node a))⟩ ∧
      Inv T' (some a) (T.listNext (.node a)) σ' chain' ∧
      T'.time = T.time ∧ T'.used = T.used ∧ T'.expire = T.expire := by
  obtain ⟨hloc, hn, hp, chain', heq, hrep⟩ := launch_rep h.rep phase
  have hlink : (σ.loc a).Linked := by rw [hloc]; trivial
  refine ⟨_, σ.takeDet a, chain', heq, ⟨hrep, fun b => ?_, ?_⟩, rfl, rfl, rfl⟩
  · rw [(takeDet_loc a b).2, h.cur b]
    simp [eq_comm]
  · exact h.ledger.log (Or.inl rfl) hlink (fun b hb => (takeDet_loc a b).1.mp hb) rfl rfl rfl rfl

/-- `timernode_dealloc` on a node in hand: it is in use no more, the others stay where they are. -/
theorem dealloc_shape (h : T.Lists σ n) (ha : σ.loc a = .cur) :
    ∃ T' σ', T.timernodeDealloc (.node a) = .ok T' ∧ T'.Lists σ' n ∧
      (∀ b, b ≠ a → σ'.loc b = σ.loc b) ∧ (¬ (σ'.loc a).Linked ∧ σ'.loc a ≠ .cur) ∧
      T' = { T with
        listNext := T'.listNext
        freenode := T'.freenode
        freeCnt := T'.freeCnt
        useCnt := T'.useCnt
        used := T'.used
        mapped := T'.mapped } ∧ ∀ b ∈ T'.used, b ∈ T.used := by
  have hsub : ∀ {T' : CoreTimer} {σ' : Shape}, T'.Lists σ' n → (∀ b, b ≠ a → σ'.loc b = σ.loc b) →
      ∀ b ∈ T'.used, b ∈ T.used := by
    intro T' σ' h' hloc b hb
    rw [h'.wf.used_mem] at hb
    rw [h.wf.used_mem]
    by_cases hba : b = a
    · subst hba; simp [ha]
    · rw [← hloc b hba]; exact hb
  obtain ⟨T', hok, hrep | hrep, heq⟩ := dealloc_rep h ha
  · have hloc : ∀ b, b ≠ a → (σ.give a).loc b = σ.loc b := fun b hb => by
      simp [Shape.give, Function.update_of_ne hb]
    exact ⟨T', _, hok, hrep, hloc, by simp [Shape.give, Loc.Linked], heq, hsub hrep hloc⟩
  · have hloc : ∀ b, b ≠ a → (σ.discard a).loc b = σ.loc b := fun b hb => by
      simp [Shape.discard, Function.update_of_ne hb]
    exact ⟨T', _, hok, hrep, hloc, by simp [Shape.discard, Loc.Linked], heq, hsub hrep hloc⟩

/-- After the callback the node is given back. -/
theorem Inv.dealloc (h : Inv T (some a) n σ chain) :
    ∃ T' σ', T.timernodeDealloc (.node a) = .ok T' ∧ Inv T' none n σ' chain ∧
      T'.time = T.time ∧ T'.expire = T.expire ∧ T'.log = T.log ∧ ∀ b ∈ T'.used, b ∈ T.used := by
  have ha := (h.cur a).mpr rfl
  obtain ⟨T', σ', hok, hlists, hloc, ⟨hnl, hnc⟩, heq, hused⟩ := dealloc_shape h.rep.lists ha
  have hsame : ∀ b, (σ'.loc b).Linked ↔ (σ.loc b).Linked := fun b => by
    by_cases hb : b = a
    · subst hb; exact iff_of_false hnl (by rw [ha]; exact fun h => h)
    · rw [hloc b hb]
  have htime : T'.time = T.time := by rw [heq]
  refine ⟨T', σ', hok, ⟨⟨hlists, ?_, fun b => (h.rep.linked b).trans (hsame b).symm⟩,
    fun b => ?_, ?_⟩, htime, by rw [heq], by rw [heq], hused⟩
  · rw [heq]; exact h.rep.hashed
  · by_cases hb : b = a
    · subst hb; simp [hnc]
    · rw [hloc b hb, h.cur b]; simp [Ne.symm hb]
  · have hl := h.ledger
    rw [heq]
    exact ⟨fun b hb => hl.seq_lt b ((hsame b).mp hb),
      fun b c hb hc => hl.seq_inj b c ((hsame b).mp hb) ((hsame c).mp hc),
      fun b hb => hl.not_del b ((hsame b).mp hb), hl.del_lt, hl.final, hl.circular⟩

theorem detached_null (h : T.Lists σ .null) : σ.det = [] := by
  have hD := h.detached
  cases hdet : σ.det with
  | nil => rfl
  | cons b l => rw [hdet] at hD; cases hD.1

/-- `delfrom_list` as `coretimer_del` uses it on a node that is linked but not cached as next. -/
theorem delfromList_linked (h : Rep T σ chain n) {k : Nat} (ha : a ∈ chain k) (hn : n ≠ .node a) :
    (∃ nx pv σ', T.delfromList (.node a) = .ok { T with listNext := nx, listPrev := pv } ∧
      ListRep nx pv T.freenode T.used T.mapped σ' n ∧ (∀ b, b ≠ a → σ'.loc b = σ.loc b) ∧
      σ'.loc a = .cur) ∨
    ∃ nx, T.delfromList (.node a) = .error (.nullDeref, { T with listNext := nx }) := by
  obtain ⟨hhp, hhn⟩ := h.hash.links ha
  have hlink := (h.linked a).mp ⟨k, ha⟩
  cases hloc : σ.loc a with
  | cur => rw [hloc] at hlink; exact hlink.elim
  | free => rw [hloc] at hlink; exact hlink.elim
  | none => rw [hloc] at hlink; exact hlink.elim
  | slot s =>
    have hs : s.initialised = true := by
      by_contra hs
      have hm := (h.lists.wf.lst_mem s a).mpr hloc
      rw [(h.lists.bare s (by simpa using hs)).1] at hm
      cases hm
    obtain ⟨nx, pv, heq, hrep⟩ := delfromList_rep h.lists hs hloc hhp hhn
    refine Or.inl ⟨nx, pv, _, heq, hrep, fun b hb => ?_, by simp [Shape.take]⟩
    simp [Shape.take, Function.update_of_ne hb]
  | det =>
    have hD := h.lists.detached
    have hm := (h.lists.wf.det_mem a).mpr hloc
    cases hdet : σ.det with
    | nil => rw [hdet] at hm; cases hm
    | cons b l =>
      rw [hdet] at hD hm
      have hal : a ∈ l := by
        rcases List.mem_cons.mp hm with rfl | hm
        · exact absurd hD.1 hn
        · exact hm
      obtain ⟨l₁, l₂, rfl⟩ := List.append_of_mem hal
      cases l₂ with
      | nil => exact Or.inr (delfromList_last h.lists hdet hhp hhn)
      | cons c l₂ =>
        obtain ⟨nx, pv, heq, hrep⟩ := delfromList_det h.lists hdet hhp hhn
        refine Or.inl ⟨nx, pv, _, heq, hrep, fun b hb => ?_, by simp [Shape.takeDet]⟩
        simp [Shape.takeDet, Function.update_of_ne hb]

/-- `a` is a timer with this id that has neither run nor been cancelled. -/
def CoreTimer.Live (T : CoreTimer) (running : Option Nat) (id a : Nat) : Prop :=
  a ∈ T.used ∧ running ≠ some a ∧ T.id (.node a) = id

/-- The live timers are the nodes on the hash chains. -/
theorem Inv.live_iff (h : Inv T r n σ chain) {id a : Nat} :
    T.Live r id a ↔ a ∈ chain (HASH id) ∧ T.id (.node a) = id := by
  constructor
  · rintro ⟨hu, hr, hid⟩
    have hlink : (σ.loc a).Linked := by
      have hu := (h.rep.lists.wf.used_mem a).mp hu
      have hc : σ.loc a ≠ .cur := fun hc => hr ((h.cur a).mp hc)
      cases hl : σ.loc a <;> simp_all [Loc.Linked]
    obtain ⟨k, hk⟩ := (h.rep.linked a).mpr hlink
    have hkey := h.rep.hashed.keyed k a hk
    rw [hid] at hkey
    exact ⟨hkey ▸ hk, hid⟩
  · rintro ⟨hm, hid⟩
    refine ⟨h.rep.hash.used _ a hm, fun hr => ?_, hid⟩
    have hlink := (h.rep.linked a).mp ⟨_, hm⟩
    rw [(h.cur a).mpr hr] at hlink
    exact hlink

/-- `coretimer_del` on any id, if it does not find the node cached as next. -/
theorem Inv.del (h : Inv T r n σ chain) (id : Nat) (hspare : T.lookup id ≠ .ok (some n)) :
    (∃ T' σ' chain', T.coretimerDel id = .ok T' ∧ Inv T' r n σ' chain' ∧ T'.time = T.time ∧
      T'.expire = T.expire ∧ (∀ b ∈ T'.used, b ∈ T.used) ∧
      ∀ a, T.Live r id a → ∃ b, T.Live r id b ∧ T'.log = T.log ++ [.del (T.seq (.node b))]) ∨
    ∃ e, T.coretimerDel id = .error e ∧ e.1 = .nullDeref ∧ e.2.log = T.log ∧
      e.2.handed = T.handed := by
  have hlook := lookup_eq h.rep.hash id
  cases hf : (chain (HASH id)).find? fun a => T.id (.node a) = id with
  | none =>
    rw [hf, Option.map_none] at hlook
    refine Or.inl ⟨T, σ, chain, ?_, h, rfl, rfl, fun _ hb => hb, fun a ha => ?_⟩
    · simp only [CoreTimer.coretimerDel, hlook, ok_bind, pure_eq_ok]
    · obtain ⟨hm, hid⟩ := h.live_iff.mp ha
      exact absurd (List.find?_eq_none.mp hf a hm) (by simpa using hid)
  | some a =>
    rw [hf, Option.map_some] at hlook
    have ha := List.mem_of_find?_eq_some hf
    have hlink := (h.rep.linked a).mp ⟨_, ha⟩
    have hn : n ≠ .node a := by rintro rfl; exact hspare hlook
    rcases delfromList_linked h.rep ha hn with ⟨nx, pv, σ₁, heq, hrep, hloc₁, hcur⟩ | ⟨nx, heq⟩
    · generalize hT₁ : ({ T with listNext := nx, listPrev := pv } : CoreTimer) = T₁ at heq
      have hh : T₁.Hashed chain := by rw [← hT₁]; exact ⟨h.rep.hashed, h.rep.hash.used⟩
      obtain ⟨hn', hp', heq₂, hhash⟩ := delfromHash_rep hh ha
      generalize hT₂ : ({ T₁ with hashNext := hn', hashPrev := hp' } : CoreTimer) = T₂ at heq₂
      have h₂ : T₂.Lists σ₁ n := by rw [← hT₂, ← hT₁]; exact hrep
      obtain ⟨T₃, σ', hok, hlists, hloc₂, ⟨hnl, hnc⟩, heq₃, hused⟩ := dealloc_shape h₂ hcur
      have hloc : ∀ b, b ≠ a → σ'.loc b = σ.loc b := fun b hb =>
        (hloc₂ b hb).trans (hloc₁ b hb)
      have heq₄ : T₃ = { T with
          listNext := T₃.listNext
          listPrev := T₃.listPrev
          hashNext := hn'
          hashPrev := hp'
          freenode := T₃.freenode
          freeCnt := T₃.freeCnt
          useCnt := T₃.useCnt
          used := T₃.used
          mapped := T₃.mapped } := by rw [heq₃, ← hT₂, ← hT₁]
      refine Or.inl ⟨{ T₃ with log := T₃.log ++ [.del (T₃.seq (.node a))] }, σ', _, ?_,
        ⟨⟨hlists, ?_, chain_erase h.rep ha hloc hnl⟩, fun b => ?_, ?_⟩, ?_, ?_, ?_,
        fun _ _ => ⟨a, h.live_iff.mpr ⟨ha, by simpa using List.find?_some hf⟩, ?_⟩⟩
      · simp only [CoreTimer.coretimerDel, hlook, ok_bind, heq, heq₂, hok, pure_eq_ok]
      · rw [heq₄]; rw [← hT₁] at hhash; exact hhash
      · by_cases hb : b = a
        · subst hb
          refine iff_of_false hnc fun hr => ?_
          rw [← h.cur b] at hr
          rw [hr] at hlink
          exact hlink
        · rw [hloc b hb, h.cur b]
      · refine h.ledger.log (Or.inr rfl) hlink (fun b hb => ?_) ?_ ?_ ?_ ?_
        · have hba : b ≠ a := by rintro rfl; exact hnl hb
          exact ⟨hba, by rw [← hloc b hba]; exact hb⟩
        all_goals rw [heq₄]
      · show T₃.time = T.time
        rw [heq₄]
      · show T₃.expire = T.expire
        rw [heq₄]
      · intro b hb
        have := hused b hb
        rw [← hT₂, ← hT₁] at this
        exact this
      · show T₃.log ++ _ = _
        rw [heq₄]
    · refine Or.inr ⟨(.nullDeref, { T with listNext := nx }), ?_, rfl, rfl, rfl⟩
      simp only [CoreTimer.coretimerDel, hlook, ok_bind, heq, error_bind]

/-- Links and id of a node on no chain do not matter. -/
theorem HashRep.update_out {hn hp : Ptr → Ptr} {id : Ptr → Nat} (h : HashRep hn hp id chain)
    (ha : ∀ k, a ∉ chain k) (q q' : Ptr) (i : Nat) :
    HashRep (Function.update hn (.node a) q) (Function.update hp (.node a) q')
      (Function.update id (.node a) i) chain := by
  have hne : ∀ k, ∀ p ∈ Ptr.hash k :: nodes (chain k), p ≠ .node a := by
    rintro k p hp rfl
    rcases List.mem_cons.mp hp with e | hp
    · cases e
    · exact ha k (mem_nodes.mp hp)
  refine ⟨fun k hk => (h.ring k hk).congr (fun z hz => ?_) (fun z hz => ?_), fun k b hb => ?_,
    h.nodup⟩
  · rw [Function.update_of_ne (hne k z hz)]
  · rw [Function.update_of_ne (hne k z (by simpa [or_comm] using hz))]
  · have hba : Ptr.node b ≠ .node a := hne k _ (List.mem_cons_of_mem _ (mem_nodes.mpr hb))
    rw [Function.update_of_ne hba]
    exact h.keyed k b hb

/-- The chains after a node was put in front of its chain. -/
theorem chain_cons (h : ∀ b, (∃ k, b ∈ chain k) ↔ (σ.loc b).Linked) {k : Nat}
    (hloc : ∀ b, b ≠ a → σ'.loc b = σ.loc b) (ha : (σ'.loc a).Linked) (b : Nat) :
    (∃ k', b ∈ Function.update chain k (a :: chain k) k') ↔ (σ'.loc b).Linked := by
  by_cases hb : b = a
  · subst hb
    exact iff_of_true ⟨k, by simp⟩ ha
  · rw [hloc b hb, ← h b]
    refine exists_congr fun k' => ?_
    by_cases hkk : k' = k
    · subst hkk; simp [hb]
    · rw [Function.update_of_ne hkk]

/-- The ledger after an addition: the new node has a number of its own. -/
theorem Ledger.add (h : Ledger T σ) (hloc : ∀ b, b ≠ a → σ'.loc b = σ.loc b)
    (hseq : T'.seq = Function.update T.seq (.node a) T.added) (hadd : T'.added = T.added + 1)
    (hlog : T'.log = T.log) (hall : ∀ x ∈ T'.handed, x.Circular) : Ledger T' σ' := by
  have hself : T'.seq (.node a) = T.added := by rw [hseq, Function.update_self]
  have hold : ∀ b, b ≠ a → (σ'.loc b).Linked →
      T'.seq (.node b) = T.seq (.node b) ∧ (σ.loc b).Linked := by
    intro b hb hl
    have hne : Ptr.node b ≠ .node a := fun e => hb (Ptr.node.inj e)
    exact ⟨by rw [hseq, Function.update_of_ne hne], by rw [← hloc b hb]; exact hl⟩
  have hlt : ∀ b, b ≠ a → (σ'.loc b).Linked → T'.seq (.node b) < T.added := fun b hb hl => by
    obtain ⟨e, hl⟩ := hold b hb hl
    rw [e]; exact h.seq_lt b hl
  refine ⟨fun b hl => ?_, fun b c hb hc e => ?_, fun b hl => ?_, ?_, ?_, hall⟩
  · rw [hadd]
    by_cases hb : b = a
    · rw [hb, hself]; omega
    · have := hlt b hb hl; omega
  · by_cases hba : b = a <;> by_cases hca : c = a
    · rw [hba, hca]
    · rw [hba, hself] at e; have := hlt c hca hc; omega
    · rw [hca, hself] at e; have := hlt b hba hb; omega
    · obtain ⟨eb, hb⟩ := hold b hba hb
      obtain ⟨ec, hc⟩ := hold c hca hc
      rw [eb, ec] at e
      exact h.seq_inj b c hb hc e
  · rw [hlog]
    by_cases hb : b = a
    · rw [hb, hself]
      intro hm
      exact (h.del_lt _ hm).false
    · obtain ⟨e, hl⟩ := hold b hb hl
      rw [e]; exact h.not_del b hl
  · rw [hlog, hadd]
    exact fun s hs => (h.del_lt s hs).trans (Nat.lt_succ_self _)
  · rw [hlog]; exact h.final

/-- `coretimer_add` on any request. -/
theorem Inv.add (h : Inv T r n σ chain) (req : AddReq) {addr : Nat} (haddr : addr ∉ T.mapped) :
    (∃ T' σ' chain', T.coretimerAdd req addr = .ok T' ∧ Inv T' r n σ' chain' ∧
      T'.time = T.time ∧
      (Low T → T.time + waitTicks req.wait < 2 ^ 26 → ∀ b ∈ T'.used, T'.expire (.node b) < 2 ^ 26)) ∨
    ∃ e, T.coretimerAdd req addr = .error e ∧
      Stop (Low T ∧ T.time + waitTicks req.wait < 2 ^ 26) T e := by
  obtain ⟨a, hptr, hfree, hrep⟩ := alloc_rep h.rep.lists haddr
  have hnl : ¬ (σ.loc a).Linked := by
    rcases hfree with e | e <;> rw [e] <;> exact fun h => h
  have hnot : ∀ k, a ∉ chain k := fun k hm => hnl ((h.rep.linked a).mp ⟨k, hm⟩)
  -- the allocated and filled node
  generalize hT₁ : (T.timernodeAlloc addr).1 = T₁ at hrep
  have heq₁ : T₁ = { T with
      useCnt := T₁.useCnt
      freenode := T₁.freenode
      freeCnt := T₁.freeCnt
      used := T₁.used
      mapped := T₁.mapped } := by
    rw [← hT₁]
    simp only [CoreTimer.timernodeAlloc]
    split <;> rfl
  generalize hT₂ : T₁.fill (.node a) req = T₂
  have hcur : (σ.grab a).loc a = .cur := by simp [Shape.grab]
  have h₂ : T₂.Lists (σ.grab a) n := by rw [← hT₂]; exact hrep.update_cur hcur .null .null
  have htime₂ : T₂.time = T.time := by rw [← hT₂, CoreTimer.fill, heq₁]
  have hexp₂ : T₂.expire = Function.update T.expire (.node a)
      ((T.time + waitTicks req.wait) % 2 ^ 32) := by rw [← hT₂, CoreTimer.fill, heq₁]
  have hlow : Low T → T.time + waitTicks req.wait < 2 ^ 26 →
      T₂.time < 2 ^ 26 ∧ T₂.expire (.node a) < 2 ^ 26 := by
    intro hT hw
    rw [htime₂, hexp₂, Function.update_self, Nat.mod_eq_of_lt (by omega)]
    exact ⟨hT.1, hw⟩
  have hall₂ : ∀ x ∈ T₂.handed, x.Circular := by
    rw [← hT₂, CoreTimer.fill, heq₁]; exact h.ledger.circular
  have hopen : T.coretimerAdd req addr = (T₂.addtoList (.node a) >>= fun T₃ => T₃.addtoHash (.node a)) := by
    rw [← hT₂, ← hT₁, ← hptr]; rfl
  rcases addtoList_rep h₂ hall₂ hcur (by rw [← hT₂]; simp [CoreTimer.fill])
      (by rw [← hT₂]; simp [CoreTimer.fill]) with
    ⟨s, T₃, hok, hrel, h₃, hall₃⟩ | ⟨e, he, hkind, hlog, hlow'⟩
  · have hused : a ∈ T₃.used := by
      have := mem_used_cur h₂ hcur
      rw [hrel]; exact this
    have hh₃ : T₃.Hashed chain := by
      refine ⟨?_, fun k b hb => ?_⟩
      · rw [hrel, ← hT₂, CoreTimer.fill, heq₁]
        exact h.rep.hashed.update_out hnot _ _ _
      · rw [h₃.wf.used_mem]
        have hba : b ≠ a := by rintro rfl; exact hnot k hb
        have hb := (h.rep.lists.wf.used_mem b).mp (h.rep.hash.used k b hb)
        simpa [Shape.put, Shape.grab, Function.update_of_ne hba] using hb
    obtain ⟨hn, hp, heq₄, hhash⟩ := addtoHash_rep hh₃ hused hnot
      (by rw [hrel, ← hT₂]; simp [CoreTimer.fill]) (by rw [hrel, ← hT₂]; simp [CoreTimer.fill])
    have hloc : ∀ b, b ≠ a → ((σ.grab a).put s a).loc b = σ.loc b := fun b hb => by
      simp [Shape.put, Shape.grab, Function.update_of_ne hb]
    have hself : ((σ.grab a).put s a).loc a = .slot s := by simp [Shape.put]
    refine Or.inl ⟨{ T₃ with hashNext := hn, hashPrev := hp }, (σ.grab a).put s a, _,
      by rw [hopen, hok, ok_bind, heq₄],
      ⟨⟨h₃, hhash, chain_cons h.rep.linked hloc (by rw [hself]; trivial)⟩, fun b => ?_, ?_⟩, ?_,
      fun hT hw b hb => ?_⟩
    · by_cases hb : b = a
      · subst hb
        rw [hself]
        refine iff_of_false (by simp) fun hr => hnl ?_
        rw [← h.cur b] at hr
        rcases hfree with e | e <;> rw [e] at hr <;> cases hr
      · rw [hloc b hb, h.cur b]
    · refine h.ledger.add hloc ?_ ?_ ?_ hall₃ <;>
        rw [hrel, ← hT₂, CoreTimer.fill, heq₁]
    · show T₃.time = T.time
      rw [hrel]; exact htime₂
    · have hexp₃ : T₃.expire = T₂.expire := by rw [hrel]
      show T₃.expire (.node b) < 2 ^ 26
      rw [hexp₃, hexp₂]
      by_cases hba : b = a
      · subst hba
        rw [Function.update_self, Nat.mod_eq_of_lt (by omega)]
        exact hw
      · rw [Function.update_of_ne fun e => hba (Ptr.node.inj e)]
        refine hT.2 b ((h.rep.lists.wf.used_mem b).mpr ?_)
        rw [← hloc b hba]
        exact (h₃.wf.used_mem b).mp hb
  · refine Or.inr ⟨e, by rw [hopen, he, error_bind], hkind, ?_, fun hT => hlow' (hlow hT.1 hT.2)⟩
    rw [hlog, ← hT₂, CoreTimer.fill, heq₁]

end Operations

/-! ## The machine -/

def Control.running : Control → Option Nat
  | .inCall _ (.node a) _ => some a
  | _ => none

def Control.next : Control → Ptr
  | .idle => .null
  | .inCall _ _ n => n

structure Config.Ok (c : Config) : Prop where
  inv : ∃ σ chain, Inv c.timer c.ctl.running c.ctl.next σ chain
  node : ∀ phase r n, c.ctl = .inCall phase r n → ∃ a, r = .node a

/-- Nothing the configuration will do on its own reaches level 3. -/
def Config.Low (c : Config) : Prop :=
  Timer.Low c.timer ∧ ∀ r n, c.ctl = .inCall .first r n → c.timer.time + 1 < 2 ^ 26

/-- The step does not cancel, from inside a callback, the timer cached as next. -/
def Config.Spares (c : Config) : Config.Label → Prop
  | .del id =>
    match c.ctl with
    | .idle => True
    | .inCall _ _ n => c.timer.lookup id ≠ .ok (some n)
  | _ => True

/-- The step ends below `2 ^ 26`: an addition by its expiry, a tick by its time. -/
def Config.StaysLow (c : Config) : Config.Label → Prop
  | .add a _ => c.timer.time + waitTicks a.wait < 2 ^ 26
  | .tick => c.ctl = .idle → c.timer.time + 1 < 2 ^ 26
  | _ => True

instance (c : Config) (l : Config.Label) : Decidable (c.StaysLow l) :=
  match l with
  | .add a _ => inferInstanceAs (Decidable (c.timer.time + waitTicks a.wait < 2 ^ 26))
  | .tick => inferInstanceAs (Decidable (c.ctl = .idle → c.timer.time + 1 < 2 ^ 26))
  | .del _ => isTrue trivial
  | .ret => isTrue trivial

instance (c : Config) (l : Config.Label) : Decidable (c.Spares l) :=
  match l with
  | .add _ _ => isTrue trivial
  | .tick => isTrue trivial
  | .ret => isTrue trivial
  | .del id =>
    match hc : c.ctl with
    | .idle => isTrue (by simp [Config.Spares, hc])
    | .inCall _ _ n =>
      match hl : c.timer.lookup id with
      | .ok p => decidable_of_iff (p ≠ some n) (by simp [Config.Spares, hc, hl])
      | .error e => isTrue (by simp [Config.Spares, hc, hl])

section Machine

variable {T : CoreTimer} {σ : Shape} {chain : Nat → List Nat} {p : Ptr} {c : Config}

theorem first_detached (h : T.Lists σ p) (hp : p ≠ .null) : ∃ a, p = .node a := by
  have hD := h.detached
  cases hdet : σ.det with
  | nil => rw [hdet] at hD; exact absurd hD hp
  | cons a l => rw [hdet] at hD; exact ⟨a, hD.1⟩

theorem executeSecond_inv (h : Inv T none p σ chain) :
    ∃ c', Config.executeSecond T p = .ok c' ∧ c'.Ok ∧ (Low T → c'.Low) := by
  by_cases hp : p = .null
  · subst hp
    exact ⟨⟨T, .idle⟩, by simp [Config.executeSecond], ⟨⟨σ, chain, h⟩, fun _ _ _ e => by cases e⟩,
      fun hT => ⟨hT, fun r n e => by cases e⟩⟩
  · obtain ⟨a, rfl⟩ := first_detached h.rep.lists hp
    obtain ⟨T', σ', chain', heq, hinv, htime, hused, hexp⟩ := launch h .second
    refine ⟨⟨T', .inCall .second (.node a) (T.listNext (.node a))⟩,
      by rw [Config.executeSecond, if_neg hp]; exact heq,
      ⟨⟨σ', chain', hinv⟩, fun _ _ _ e => by cases e; exact ⟨a, rfl⟩⟩,
      fun hT => ⟨?_, fun r n e => by cases e⟩⟩
    unfold Low
    rw [htime, hused, hexp]
    exact hT

theorem executeFirst_inv (h : Inv T none p σ chain) :
    (∃ c', Config.executeFirst T p = .ok c' ∧ c'.Ok ∧
      (Low T ∧ T.time + 1 < 2 ^ 26 → c'.Low)) ∨
    ∃ e, Config.executeFirst T p = .error e ∧ Stop (Low T ∧ T.time + 1 < 2 ^ 26) T e := by
  by_cases hp : p = .null
  · subst hp
    rcases timerShift_rep h.rep.lists h.ledger.circular with
      ⟨T₁, σ₁, heq, hrel, h₁, hsame, hall⟩ | ⟨e, heq, hstop⟩
    · have hinv₁ : Inv T₁ none .null σ₁ chain := h.relink hrel h₁ hsame hall
      obtain ⟨nx, pv, q, heq₂, h₂⟩ := listClear_rep h₁ (near_initialised T₁.time)
      have hrel₂ : Relinked { T₁ with time := T₁.time }
          { T₁ with listNext := nx, listPrev := pv } := rfl
      have hinv₂ := hinv₁.relink hrel₂ h₂ (sameKind_detach _) hall
      obtain ⟨c', heq₃, hok, hlow⟩ := executeSecond_inv hinv₂
      refine Or.inl ⟨c', ?_, hok, fun hT => hlow ?_⟩
      · simp only [Config.executeFirst, if_pos, heq, ok_bind, heq₂, heq₃]
      · have htime : T₁.time = T.time + 1 := by
          rw [hrel]; exact Nat.mod_eq_of_lt (by omega)
        have hused : T₁.used = T.used := by rw [hrel]
        have hexp : T₁.expire = T.expire := by rw [hrel]
        refine ⟨by rw [htime]; exact hT.2, fun b hb => ?_⟩
        show T₁.expire (.node b) < 2 ^ 26
        rw [hexp]
        exact hT.1.2 b (hused ▸ hb)
    · refine Or.inr ⟨e, ?_, hstop⟩
      simp only [Config.executeFirst, if_pos, heq, error_bind]
  · obtain ⟨a, rfl⟩ := first_detached h.rep.lists hp
    obtain ⟨T', σ', chain', heq, hinv, htime, hused, hexp⟩ := launch h .first
    refine Or.inl ⟨⟨T', .inCall .first (.node a) (T.listNext (.node a))⟩,
      by rw [Config.executeFirst, if_neg hp]; exact heq,
      ⟨⟨σ', chain', hinv⟩, fun _ _ _ e => by cases e; exact ⟨a, rfl⟩⟩, fun hT => ⟨?_, fun r n _ => ?_⟩⟩
    · unfold Low
      rw [htime, hused, hexp]
      exact hT.1
    · show T'.time + 1 < 2 ^ 26
      rw [htime]; exact hT.2

theorem spares_next (h : Inv c.timer c.ctl.running c.ctl.next σ chain) {id : Nat}
    (hspare : c.Spares (.del id)) : c.timer.lookup id ≠ .ok (some c.ctl.next) := by
  obtain ⟨T, ctl⟩ := c
  cases ctl with
  | inCall phase r n => exact hspare
  | idle =>
    rw [lookup_eq h.rep.hash]
    cases (chain (HASH id)).find? fun a => T.id (.node a) = id <;> simp [Control.next]

/-- **One step**: it keeps the invariant or stops without touching a released node. -/
theorem step_inv (h : c.Ok) (l : Config.Label) (hspare : c.Spares l) :
    (∃ c', c.step l = .ok c' ∧ c'.Ok ∧ (c.Low → c.StaysLow l → c'.Low)) ∨
    ∃ e, c.step l = .error e ∧ (e.1 = .nullDeref ∨ e.1 = .assertion) ∧
      Final e.2.log ∧
      (c.Low → c.StaysLow l → (e.1 = .nullDeref → ∃ id, l = .del id) ∧
        ∀ x ∈ e.2.handed, x.Circular) := by
  obtain ⟨⟨σ, chain, hinv⟩, hnode⟩ := h
  have hstop : ∀ {low : Prop} {e : Fault × CoreTimer}, Stop low c.timer e →
      (e.1 = .nullDeref ∨ e.1 = .assertion) ∧ Final e.2.log ∧
      (low → (e.1 = .nullDeref → ∃ id, l = .del id) ∧ ∀ x ∈ e.2.handed, x.Circular) := by
    rintro low e ⟨hkind, hlog, hlow⟩
    refine ⟨hkind, by rw [hlog]; exact hinv.ledger.final, fun hl => ⟨fun he => ?_, (hlow hl).2⟩⟩
    rw [(hlow hl).1] at he
    cases he
  obtain ⟨T, ctl⟩ := c
  cases l with
  | add a addr =>
    by_cases haddr : addr ∈ T.mapped
    · exact Or.inl ⟨_, by simp [Config.step, haddr], ⟨⟨σ, chain, hinv⟩, hnode⟩, fun hT _ => hT⟩
    rcases hinv.add a haddr with ⟨T', σ', chain', heq, hinv', htime, hexp⟩ | ⟨e, heq, hs⟩
    · refine Or.inl ⟨⟨T', ctl⟩, by simp [Config.step, haddr, heq], ⟨⟨σ', chain', hinv'⟩, hnode⟩,
        fun hT hw => ⟨⟨?_, hexp hT.1 hw⟩, fun r n hr => ?_⟩⟩
      · rw [htime]; exact hT.1.1
      · show T'.time + 1 < 2 ^ 26
        rw [htime]; exact hT.2 r n hr
    · obtain ⟨hkind, hfinal, hlow⟩ := hstop hs
      exact Or.inr ⟨e, by simp [Config.step, haddr, heq], hkind, hfinal,
        fun hT hw => hlow ⟨hT.1, hw⟩⟩
  | del id =>
    rcases hinv.del id (spares_next hinv hspare) with ⟨T', σ', chain', heq, hinv', htime, hexp, hused, -⟩ |
      ⟨e, heq, hkind, hlog, hhd⟩
    · refine Or.inl ⟨⟨T', ctl⟩, by simp [Config.step, heq], ⟨⟨σ', chain', hinv'⟩, hnode⟩,
        fun hT _ => ⟨⟨?_, fun b hb => ?_⟩, fun r n hr => ?_⟩⟩
      · rw [htime]; exact hT.1.1
      · rw [hexp]; exact hT.1.2 b (hused b hb)
      · show T'.time + 1 < 2 ^ 26
        rw [htime]; exact hT.2 r n hr
    · refine Or.inr ⟨e, by simp [Config.step, heq], Or.inl hkind, ?_, fun _ _ => ⟨fun _ => ⟨id, rfl⟩, ?_⟩⟩
      · rw [hlog]; exact hinv.ledger.final
      · rw [hhd]; exact hinv.ledger.circular
  | tick =>
    cases ctl with
    | inCall phase r n =>
      exact Or.inl ⟨_, rfl, ⟨⟨σ, chain, hinv⟩, hnode⟩, fun hT _ => hT⟩
    | idle =>
      obtain ⟨nx, pv, q, heq, h₁⟩ := listClear_rep hinv.rep.lists (near_initialised T.time)
      have hrel : Relinked { T with time := T.time } { T with listNext := nx, listPrev := pv } := rfl
      have hinv₁ := hinv.relink hrel h₁ (sameKind_detach _) hinv.ledger.circular
      rcases executeFirst_inv hinv₁ with ⟨c', heq', hok, hlow⟩ | ⟨e, heq', hs⟩
      · exact Or.inl ⟨c', by simp only [Config.step, heq, ok_bind, heq'], hok,
          fun hT hw => hlow ⟨hT.1, hw rfl⟩⟩
      · have hs : Stop (Low T ∧ T.time + 1 < 2 ^ 26) T e := hs
        obtain ⟨hkind, hfinal, hlow⟩ := hstop hs
        exact Or.inr ⟨e, by simp only [Config.step, heq, ok_bind, heq'], hkind, hfinal,
          fun hT hw => hlow ⟨hT.1, hw rfl⟩⟩
  | ret =>
    cases ctl with
    | idle => exact Or.inl ⟨_, rfl, ⟨⟨σ, chain, hinv⟩, hnode⟩, fun hT _ => hT⟩
    | inCall phase r n =>
      obtain ⟨a, rfl⟩ := hnode _ _ _ rfl
      obtain ⟨T', σ', heq, hinv', htime, hexp, hlog, hused⟩ := Inv.dealloc hinv
      have hnext : Inv T' none n σ' chain := hinv'
      have hlowT : Low T → Low T' := fun hT =>
        ⟨by rw [htime]; exact hT.1, fun b hb => by rw [hexp]; exact hT.2 b (hused b hb)⟩
      cases phase with
      | first =>
        rcases executeFirst_inv hnext with ⟨c', heq', hok, hlow⟩ | ⟨e, heq', hkind, hlog', hlow⟩
        · refine Or.inl ⟨c', by simp only [Config.step, heq, ok_bind, heq'], hok,
            fun hT _ => hlow ⟨hlowT hT.1, ?_⟩⟩
          rw [htime]; exact hT.2 _ _ rfl
        · obtain ⟨hkind, hfinal, hlow⟩ := hstop ⟨hkind, hlog'.trans hlog, hlow⟩
          refine Or.inr ⟨e, by simp only [Config.step, heq, ok_bind, heq'], hkind, hfinal,
            fun hT _ => hlow ⟨hlowT hT.1, ?_⟩⟩
          rw [htime]; exact hT.2 _ _ rfl
      | second =>
        obtain ⟨c', heq', hok, hlow⟩ := executeSecond_inv hnext
        exact Or.inl ⟨c', by simp only [Config.step, heq, ok_bind, heq'], hok,
          fun hT _ => hlow (hlowT hT.1)⟩

/-- The shape of the empty wheel. -/
def emptyShape : Shape := ⟨fun _ => [], [], [], fun _ => .none⟩

theorem new_ok : Config.new.Ok := by
  refine ⟨⟨emptyShape, fun _ => [], ⟨⟨⟨fun s hs => ?_, fun s hs => ?_, rfl, rfl, ?_⟩, ⟨fun k hk => ?_, ?_, ?_⟩,
    ?_⟩, ?_, ?_⟩⟩, fun _ _ _ e => by cases e⟩
  · simp [Config.new, CoreTimer.new, emptyShape, Seg, listInit, hs]
  · simp [Config.new, CoreTimer.new, emptyShape, listInit, hs]
  · constructor <;> simp [Config.new, CoreTimer.new, emptyShape]
  · simp [Config.new, CoreTimer.new, Seg, hashInit, hk]
  · simp
  · simp
  · simp [emptyShape, Loc.Linked]
  · simp [emptyShape, Config.new, Control.running]
  · constructor <;> simp [emptyShape, Config.new, CoreTimer.new, Loc.Linked, Final]

theorem new_low : Config.new.Low :=
  ⟨⟨by decide, fun _ ha => by cases ha⟩, fun _ _ e => by cases e⟩

end Machine

/-! ## Runs -/

/-- Every step of the run from `c` meets `P` in the configuration it starts in. -/
def Config.Meets (P : Config → Config.Label → Prop) : Config → List Config.Label → Prop
  | _, [] => True
  | c, l :: ls => P c l ∧
    match c.step l with
    | .ok c' => Config.Meets P c' ls
    | .error _ => True

instance Config.decidableMeets (P : Config → Config.Label → Prop) [∀ c l, Decidable (P c l)] :
    ∀ c ls, Decidable (Config.Meets P c ls)
  | _, [] => isTrue trivial
  | c, l :: ls =>
    match hs : c.step l with
    | .ok c' =>
      have := Config.decidableMeets P c' ls
      decidable_of_iff (P c l ∧ Config.Meets P c' ls) (by simp [Config.Meets, hs])
    | .error e => decidable_of_iff (P c l) (by simp [Config.Meets, hs])

/-- What a run leaves behind: the fault it ended in, if any, and the timer. -/
def Config.outcome : Res Config → Option Fault × CoreTimer
  | .ok c => (none, c.timer)
  | .error (f, T) => (some f, T)

theorem run_cons (c : Config) (l : Config.Label) (ls : List Config.Label) :
    (l :: ls).foldlM Config.step c = c.step l >>= fun c' => ls.foldlM Config.step c' := rfl

/-- **Runs from a configuration that satisfies the invariant.** -/
theorem run_inv : ∀ (ls : List Config.Label) {c : Config}, c.Ok → Config.Meets Config.Spares c ls →
    (∃ c', ls.foldlM Config.step c = .ok c' ∧ c'.Ok) ∨
    ∃ e, ls.foldlM Config.step c = .error e ∧ (e.1 = .nullDeref ∨ e.1 = .assertion) ∧
      Final e.2.log := by
  intro ls
  induction ls with
  | nil => exact fun h _ => Or.inl ⟨_, rfl, h⟩
  | cons l ls ih =>
    rintro c h ⟨hs, hrest⟩
    rw [run_cons]
    rcases step_inv h l hs with ⟨c', heq, h', -⟩ | ⟨e, heq, hkind, hfinal, -⟩
    · rw [heq] at hrest ⊢
      exact ih h' hrest
    · exact Or.inr ⟨e, by rw [heq, error_bind], hkind, hfinal⟩

/-- The same with every step below `2 ^ 26`. -/
theorem run_low : ∀ (ls : List Config.Label) {c : Config}, c.Ok → c.Low →
    Config.Meets (fun c l => c.Spares l ∧ c.StaysLow l) c ls →
    (∃ c', ls.foldlM Config.step c = .ok c' ∧ c'.Ok ∧ c'.Low) ∨
    ∃ e, ls.foldlM Config.step c = .error e ∧ ∀ x ∈ e.2.handed, x.Circular := by
  intro ls
  induction ls with
  | nil => exact fun h hl _ => Or.inl ⟨_, rfl, h, hl⟩
  | cons l ls ih =>
    rintro c h hl ⟨⟨hs, hw⟩, hrest⟩
    rw [run_cons]
    rcases step_inv h l hs with ⟨c', heq, h', hl'⟩ | ⟨e, heq, -, -, hlow⟩
    · rw [heq] at hrest ⊢
      exact ih h' (hl' hl hw) hrest
    · exact Or.inr ⟨e, by rw [heq, error_bind], (hlow hl hw).2⟩

theorem meets_append {P : Config → Config.Label → Prop} {ls₁ ls₂ : List Config.Label} :
    ∀ {c c' : Config}, Config.Meets P c (ls₁ ++ ls₂) → ls₁.foldlM Config.step c = .ok c' →
      Config.Meets P c ls₁ ∧ Config.Meets P c' ls₂ := by
  induction ls₁ with
  | nil =>
    intro c c' h heq
    cases heq
    exact ⟨trivial, h⟩
  | cons l ls₁ ih =>
    rintro c c' ⟨hP, hrest⟩ heq
    rw [run_cons] at heq
    cases hstep : c.step l with
    | error e => rw [hstep] at heq; cases heq
    | ok c₁ =>
      rw [hstep, ok_bind] at heq
      rw [hstep] at hrest
      obtain ⟨h₁, h₂⟩ := ih hrest heq
      exact ⟨⟨hP, by rw [hstep]; exact h₁⟩, h₂⟩

/-- **List heads are circular.** In a run whose additions and ticks stay below `2 ^ 26` and whose
callbacks spare the timer cached as next, every head handed to `list_add` or `list_clear` is a
circular list, and no addition, tick or return from a callback dereferences `NULL`. -/
theorem list_heads_circular (ls : List Config.Label)
    (h : Config.Meets (fun c l => c.Spares l ∧ c.StaysLow l) Config.new ls) :
    (∀ x ∈ (Config.outcome (Config.run ls)).2.handed, x.Circular) ∧
    ∀ ls₁ l ls₂ c T, ls = ls₁ ++ l :: ls₂ → Config.run ls₁ = .ok c → (∀ id, l ≠ .del id) →
      c.step l ≠ .error (.nullDeref, T) := by
  constructor
  · rcases run_low ls new_ok new_low h with ⟨c, heq, ⟨⟨σ, chain, hinv⟩, -⟩, -⟩ | ⟨e, heq, hall⟩
    · rw [Config.run, heq]; exact hinv.ledger.circular
    · rw [Config.run, heq]; exact hall
  · rintro ls₁ l ls₂ c T rfl heq hl hstep
    obtain ⟨h₁, ⟨hs, hw⟩, -⟩ := meets_append h heq
    rcases run_low ls₁ new_ok new_low h₁ with ⟨c', heq', hok, hlow⟩ | ⟨e, heq', -⟩
    · obtain rfl : c = c' := Except.ok.inj (heq.symm.trans heq')
      rcases step_inv hok l hs with ⟨c', hstep', -⟩ | ⟨e, hstep', -, -, hnull⟩
      · rw [hstep] at hstep'; cases hstep'
      · rw [hstep] at hstep'
        obtain rfl := Except.error.inj hstep'
        obtain ⟨id, rfl⟩ := (hnull hlow hw).1 rfl
        exact hl id rfl
    · rw [Config.run, heq'] at heq; cases heq

/-- The head of level 3 that a wait of 2 ^ 26 ticks selects has `NULL` links. -/
theorem long_wait_null_head :
    ∃ T x, Config.run [.add ⟨0, 0, 671088640⟩ 1] = .error (.nullDeref, T) ∧ x ∈ T.handed ∧
      ¬ x.Circular := by
  refine ⟨_, ⟨Function.update listInit (.node 1) .null, Function.update listInit (.node 1) .null,
    .slot (.level 3 1)⟩, rfl, List.Mem.head _, ?_⟩
  rintro ⟨-, l, hl⟩
  cases l with
  | nil => exact absurd hl.1 (by decide)
  | cons a l => exact Ptr.noConfusion hl.1

/-- Three timers of 10 ms. -/
def threeTimers : List Config.Label :=
  [.add ⟨0, 0, 10⟩ 1, .add ⟨0, 1, 10⟩ 2, .add ⟨0, 2, 10⟩ 3]

theorem list_heads_circular_cancelled :
    (∀ x ∈ (Config.outcome (Config.run (threeTimers ++ [.del 2, .tick, .ret, .ret]))).2.handed,
      x.Circular) ∧
    (Config.outcome (Config.run (threeTimers ++ [.del 2, .tick, .ret, .ret]))).2.log =
      [.del 1, .run 0, .run 2] :=
  ⟨(list_heads_circular _ (by decide +kernel)).1, by decide +kernel⟩

/-- **Cancellation is final** in a run whose callbacks spare the timer cached as next: a
`coretimer_del` that returns has cancelled a live timer with its id if there is one, no timer runs
after its cancellation, and no released node is accessed. -/
theorem cancellation_final (ls : List Config.Label)
    (h : Config.Meets Config.Spares Config.new ls) :
    Final (Config.outcome (Config.run ls)).2.log ∧
    (Config.outcome (Config.run ls)).1 ≠ some .released ∧
    ∀ ls₁ id ls₂ c c', ls = ls₁ ++ .del id :: ls₂ → Config.run ls₁ = .ok c →
      c.step (.del id) = .ok c' → ∀ a, c.timer.Live c.ctl.running id a →
      ∃ b, c.timer.Live c.ctl.running id b ∧
        c'.timer.log = c.timer.log ++ [.del (c.timer.seq (.node b))] := by
  have hout : Final (Config.outcome (Config.run ls)).2.log ∧
      (Config.outcome (Config.run ls)).1 ≠ some .released := by
    rcases run_inv ls new_ok h with ⟨c, heq, ⟨⟨σ, chain, hinv⟩, -⟩⟩ | ⟨⟨f, T⟩, heq, hkind, hfinal⟩
    · rw [Config.run, heq]
      exact ⟨hinv.ledger.final, by simp [Config.outcome]⟩
    · rw [Config.run, heq]
      refine ⟨hfinal, ?_⟩
      rcases hkind with e | e <;> simp only at e <;> simp [Config.outcome, e]
  refine ⟨hout.1, hout.2, ?_⟩
  rintro ls₁ id ls₂ c c' rfl heq hstep a ha
  obtain ⟨h₁, hs, -⟩ := meets_append h heq
  rcases run_inv ls₁ new_ok h₁ with ⟨c₁, heq₁, ⟨⟨σ, chain, hinv⟩, -⟩⟩ | ⟨e, heq₁, -⟩
  · obtain rfl : c = c₁ := Except.ok.inj (heq.symm.trans heq₁)
    rcases hinv.del id (spares_next hinv hs) with ⟨T', _, _, hdel, -, -, -, -, hlog⟩ | ⟨e, hdel, -⟩
    · rw [Config.step, hdel, ok_bind] at hstep
      obtain rfl := Except.ok.inj hstep
      exact hlog a ha
    · rw [Config.step, hdel] at hstep
      cases hstep
  · rw [Config.run, heq₁] at heq; cases heq

/-- A callback cancels the third of four timers of its tick. -/
theorem cancellation_final_third :
    Final (Config.outcome (Config.run
      (threeTimers ++ [.add ⟨0, 3, 10⟩ 4, .tick, .del 3, .ret, .ret, .ret]))).2.log ∧
    (Config.outcome (Config.run
      (threeTimers ++ [.add ⟨0, 3, 10⟩ 4, .tick, .del 3, .ret, .ret, .ret]))).2.log =
      [.run 0, .del 2, .run 1, .run 3] :=
  ⟨(cancellation_final _ (by decide +kernel)).1, by decide +kernel⟩

/-- A callback cancels the second of three timers of its tick; `timer_execute` then follows the
link of the released node. -/
theorem cancel_next_released :
    (Config.outcome (Config.run (threeTimers ++ [.tick, .del 2, .ret]))).1 = some .released := by
  decide +kernel

end HoNet.Timer
