import HoNet.Timer.HeapRep

/-!
# What each primitive does to the shape

For each primitive of `coretimer.c` that changes links there is one theorem: it meets no fault,
and this is the shape it leaves. The `hash_*` links are a family of rings of their own
(`HashRep`).

* `listAdd_rep`, `delfromList_rep`, `delfromList_det`, `listClear_rep` — the `list_*` links.
* `addtoHash_rep`, `delfromHash_rep`, `lookup_eq` — the `hash_*` links.
* `alloc_rep`, `dealloc_cases` — the free list.
-/

namespace HoNet.Timer

open HoNet.Linked

section Primitives

variable {T : CoreTimer} {σ : Shape} {n : Ptr} {s : Slot} {a : Nat}

/-! ## Accesses that meet no fault -/

@[simp] theorem alive_slot (used : List Nat) (s : Slot) : Alive used (.slot s) := trivial
@[simp] theorem alive_hash (used : List Nat) (k : Nat) : Alive used (.hash k) := trivial

theorem getListPrev_alive {p : Ptr} (h : Alive T.used p) : T.getListPrev p = .ok (T.listPrev p) := by
  simp [CoreTimer.getListPrev, check_alive h]
theorem getListNext_alive {p : Ptr} (h : Alive T.used p) : T.getListNext p = .ok (T.listNext p) := by
  simp [CoreTimer.getListNext, check_alive h]
theorem setListPrev_alive {p : Ptr} (q : Ptr) (h : Alive T.used p) :
    T.setListPrev p q = .ok { T with listPrev := Function.update T.listPrev p q } := by
  simp [CoreTimer.setListPrev, check_alive h]
theorem setListNext_alive {p : Ptr} (q : Ptr) (h : Alive T.used p) :
    T.setListNext p q = .ok { T with listNext := Function.update T.listNext p q } := by
  simp [CoreTimer.setListNext, check_alive h]

theorem getHashPrev_alive {p : Ptr} (h : Alive T.used p) : T.getHashPrev p = .ok (T.hashPrev p) := by
  simp [CoreTimer.getHashPrev, check_alive h]

theorem getHashNext_alive {p : Ptr} (h : Alive T.used p) : T.getHashNext p = .ok (T.hashNext p) := by
  simp [CoreTimer.getHashNext, check_alive h]

theorem setHashPrev_alive {p : Ptr} (q : Ptr) (h : Alive T.used p) :
    T.setHashPrev p q = .ok { T with hashPrev := Function.update T.hashPrev p q } := by
  simp [CoreTimer.setHashPrev, check_alive h]

theorem setHashNext_alive {p : Ptr} (q : Ptr) (h : Alive T.used p) :
    T.setHashNext p q = .ok { T with hashNext := Function.update T.hashNext p q } := by
  simp [CoreTimer.setHashNext, check_alive h]

theorem setListPrev_null (q : Ptr) : T.setListPrev .null q = .error (.nullDeref, T) := rfl

theorem setListNext_null (q : Ptr) : T.setListNext .null q = .error (.nullDeref, T) := rfl

/-! ## The `list_*` links -/

/-- Links that change only at the places in `C` represent a shape that differs only there. -/
theorem ListRep.frame {nx pv nx' pv' : Ptr → Ptr} {fr fr' n' : Ptr} {used mapped used' mapped' : List Nat}
    {σ' : Shape} {C : Loc → Prop} (h : ListRep nx pv fr used mapped σ n) (hn : Agree σ C nx nx')
    (hp : Agree σ C pv pv') (hlst : ∀ s, ¬ C (.slot s) → σ'.lst s = σ.lst s)
    (hring : ∀ s, C (.slot s) → s.initialised = true ∧
      Seg nx' pv' (.slot s) (nodes (σ'.lst s)) (.slot s))
    (hdet : Detached nx' pv' n' σ'.det) (hpath : Path nx' fr' (nodes σ'.free) .null)
    (hwf : σ'.Wf used' mapped') : ListRep nx' pv' fr' used' mapped' σ' n' := by
  refine ⟨fun s hs => ?_, fun s hs => ?_, hdet, hpath, hwf⟩
  · by_cases hC : C (.slot s)
    · exact (hring s hC).2
    · rw [hlst s hC]; exact frame_ring h hn hp hs hC
  · have hC : ¬ C (.slot s) := fun hC => by rw [(hring s hC).1] at hs; cases hs
    rw [hlst s hC]; exact frame_bare h hn hp hs hC

theorem not_mem_ring (h : T.Lists σ n) (ha : σ.loc a ≠ .slot s) :
    Ptr.node a ∉ Ptr.slot s :: nodes (σ.lst s) := fun hm => ha (reg_ring h hm)

theorem slot_not_mem_nodes (s : Slot) (l : List Nat) : Ptr.slot s ∉ nodes l :=
  not_mem_nodes fun _ => by simp

theorem nodes_erase (l : List Nat) (a : Nat) : nodes (l.erase a) = (nodes l).erase (.node a) :=
  List.map_erase (fun _ _ e => Ptr.node.inj e) l

/-- `list_add` on a ring files the node at its end. -/
theorem listAdd_rep (h : T.Lists σ n) (hs : s.initialised = true) (ha : σ.loc a = .cur)
    (hpa : T.listPrev (.node a) = .null) (hna : T.listNext (.node a) = .null) :
    ∃ nx pv, T.listAdd (.slot s) (.node a) = .ok { T with listNext := nx, listPrev := pv } ∧
      ListRep nx pv T.freenode T.used T.mapped (σ.put s a) n := by
  have hau : Alive T.used (.node a) := mem_used_cur h ha
  have hq : T.listPrev (.slot s) ∈ Ptr.slot s :: nodes (σ.lst s) := by
    rw [(h.ring s hs).pv_end]; exact List.getLast_mem _
  have hqa := alive_ring h hq
  refine ⟨Function.update (Function.update T.listNext (T.listPrev (.slot s)) (.node a))
      (.node a) (.slot s),
    Function.update (Function.update T.listPrev (.node a) (T.listPrev (.slot s)))
      (.slot s) (.node a), ?_, ?_⟩
  · simp [CoreTimer.listAdd, getListPrev_alive, getListNext_alive, setListPrev_alive,
      setListNext_alive, hau, hpa, hna, hqa]
  · have hn := ((Agree.refl σ (fun l => l = .slot s ∨ l = .cur) T.listNext).update (q := .node a)
      (Or.inl (reg_ring h hq))).update (p := .node a) (q := .slot s) (Or.inr ha)
    have hp := ((Agree.refl σ (fun l => l = .slot s ∨ l = .cur) T.listPrev).update
      (p := .node a) (q := T.listPrev (.slot s)) (Or.inr ha)).update (p := .slot s) (q := .node a)
      (Or.inl rfl)
    have hdet := frame_trail h hn hp (by simp)
    have hpath := frame_path h hn (by simp)
    refine h.frame hn hp (fun s' hs' => ?_) (fun s' hs' => ?_) hdet hpath (h.wf.put ha s)
    · have hss : s' ≠ s := by simpa using hs'
      simp [Shape.put, Function.update_of_ne hss]
    · obtain rfl : s' = s := by simpa using hs'
      refine ⟨hs, ?_⟩
      simp only [Shape.put, Function.update_self, nodes, List.map_append, List.map_cons,
        List.map_nil]
      exact (h.ring s' hs).insert_end (ring_nodup h s') (slot_not_mem_nodes _ _)
        (not_mem_ring h (by simp [ha])) (by simp)

/-- `delfrom_list` takes a node out of its ring. -/
theorem delfromList_rep (h : T.Lists σ n) (hs : s.initialised = true) (ha : σ.loc a = .slot s)
    (hhp : T.hashPrev (.node a) ≠ .null) (hhn : T.hashNext (.node a) ≠ .null) :
    ∃ nx pv, T.delfromList (.node a) = .ok { T with listNext := nx, listPrev := pv } ∧
      ListRep nx pv T.freenode T.used T.mapped (σ.take s a) n := by
  have hau : Alive T.used (.node a) := (h.wf.used_mem a).mpr (by simp [ha])
  have hm : Ptr.node a ∈ nodes (σ.lst s) := mem_nodes.mpr ((h.wf.lst_mem s a).mpr ha)
  obtain ⟨⟨hp, hpa⟩, hq, hqa⟩ :=
    (h.ring s hs).neighbours hm (ring_nodup h s) (slot_not_mem_nodes _ _)
  have hpA := alive_ring h hp
  have hqA := alive_ring h hq
  refine ⟨Function.update (Function.update T.listNext (T.listPrev (.node a)) (T.listNext (.node a)))
      (.node a) .null,
    Function.update (Function.update T.listPrev (T.listNext (.node a)) (T.listPrev (.node a)))
      (.node a) .null, ?_, ?_⟩
  · simp [CoreTimer.delfromList, getHashPrev_alive, getHashNext_alive, getListPrev_alive,
      getListNext_alive, setListPrev_alive, setListNext_alive, hau, hhp, hhn, hpA, hqA,
      Function.update_of_ne hpa.symm]
  · have hn := ((Agree.refl σ (fun l => l = .slot s) T.listNext).update
      (p := T.listPrev (.node a)) (q := T.listNext (.node a)) (reg_ring h hp)).update
      (p := .node a) (q := .null) ha
    have hp := ((Agree.refl σ (fun l => l = .slot s) T.listPrev).update
      (p := T.listNext (.node a)) (q := T.listPrev (.node a)) (reg_ring h hq)).update
      (p := .node a) (q := .null) ha
    have hdet := frame_trail h hn hp (by simp)
    have hpath := frame_path h hn (by simp)
    refine h.frame hn hp (fun s' hs' => ?_) (fun s' hs' => ?_) hdet hpath (h.wf.take ha)
    · have hss : s' ≠ s := by simpa using hs'
      simp [Shape.take, Function.update_of_ne hss]
    · obtain rfl : s' = s := by simpa using hs'
      refine ⟨hs, ?_⟩
      simp only [Shape.take, Function.update_self, nodes_erase]
      exact (h.ring s' hs).erase hm (ring_nodup h s') (slot_not_mem_nodes _ _)

theorem detached_reg (h : T.Lists σ n) {b : Nat} (hb : b ∈ σ.det) : σ.reg (.node b) = .det :=
  (h.wf.det_mem b).mp hb

theorem alive_det (h : T.Lists σ n) {b : Nat} (hb : b ∈ σ.det) : Alive T.used (.node b) :=
  (h.wf.used_mem b).mpr (by simp [(h.wf.det_mem b).mp hb])

/-- A detached node other than the first links back to a detached node. -/
theorem prev_det (h : T.Lists σ n) {b : Nat} {l₁ l₂ : List Nat} (hdet : σ.det = b :: (l₁ ++ a :: l₂)) :
    ∃ p ∈ σ.det, p ≠ a ∧ T.listPrev (.node a) = .node p := by
  have hnd := h.wf.det_nodup
  have hD := h.detached
  rw [hdet] at hD hnd
  obtain ⟨-, htr⟩ := hD
  rw [nodes, List.map_append, List.map_cons] at htr
  have hp : T.listPrev (.node a) ∈ nodes (b :: l₁) := by
    rw [(trail_append.mp htr).1.pv_end]; exact List.getLast_mem _
  obtain ⟨p, hpm, hpe⟩ := List.mem_map.mp hp
  refine ⟨p, ?_, ?_, hpe.symm⟩
  · rw [hdet]; rcases List.mem_cons.mp hpm with rfl | hm <;> simp [*]
  · rintro rfl
    simp only [List.nodup_cons, List.nodup_append, List.mem_append] at hnd
    rcases List.mem_cons.mp hpm with rfl | hm
    · exact hnd.1 (by simp)
    · exact hnd.2.2.2 p hm p (by simp) rfl

/-- `delfrom_list` on a detached node that is neither the first nor the last one. -/
theorem delfromList_det (h : T.Lists σ n) {b c : Nat} {l₁ l₂ : List Nat}
    (hdet : σ.det = b :: (l₁ ++ a :: c :: l₂))
    (hhp : T.hashPrev (.node a) ≠ .null) (hhn : T.hashNext (.node a) ≠ .null) :
    ∃ nx pv, T.delfromList (.node a) = .ok { T with listNext := nx, listPrev := pv } ∧
      ListRep nx pv T.freenode T.used T.mapped (σ.takeDet a) n := by
  have hnd := h.wf.det_nodup
  have had : a ∈ σ.det := by simp [hdet]
  have hcd : c ∈ σ.det := by simp [hdet]
  have hD := h.detached
  rw [hdet] at hD hnd
  obtain ⟨rfl, htr⟩ := hD
  rw [nodes, List.map_append, List.map_cons, List.map_cons] at htr
  obtain ⟨-, hnc, -, -⟩ := trail_append.mp htr
  obtain ⟨p, hpd, hpa, hpe⟩ := prev_det h hdet
  have hau := alive_det h had
  have hpA := alive_det h hpd
  have hcA := alive_det h hcd
  have hne : Ptr.node a ≠ Ptr.node p := fun e => hpa (Ptr.node.inj e).symm
  refine ⟨Function.update (Function.update T.listNext (.node p) (.node c)) (.node a) .null,
    Function.update (Function.update T.listPrev (.node c) (.node p)) (.node a) .null, ?_, ?_⟩
  · simp [CoreTimer.delfromList, getHashPrev_alive, getHashNext_alive, getListPrev_alive,
      getListNext_alive, setListPrev_alive, setListNext_alive, hau, hhp, hhn, hpA, hcA, hnc, hpe,
      Function.update_of_ne hne]
  · have hn := ((Agree.refl σ (fun l => l = .det) T.listNext).update
      (p := .node p) (q := .node c) (detached_reg h hpd)).update
      (p := .node a) (q := .null) (detached_reg h had)
    have hp := ((Agree.refl σ (fun l => l = .det) T.listPrev).update
      (p := .node c) (q := .node p) (detached_reg h hcd)).update
      (p := .node a) (q := .null) (detached_reg h had)
    have hpath := frame_path h hn (by simp)
    refine h.frame hn hp (fun s' _ => rfl) (fun s' hs' => by cases hs') ?_ hpath
      (h.wf.takeDet ((h.wf.det_mem a).mp had))
    have hba : b ≠ a := by rintro rfl; simp at hnd
    have ha₁ : a ∉ l₁ := fun hm => by
      simp only [List.nodup_cons, List.nodup_append] at hnd
      exact hnd.2.2.2 a hm a (by simp) rfl
    have ha₂ : a ∉ c :: l₂ := fun hm => by
      simp only [List.nodup_cons, List.nodup_append] at hnd
      exact hnd.2.2.1.1 hm
    have herase : (σ.takeDet a).det = b :: (l₁ ++ c :: l₂) := by
      rw [Shape.takeDet, hdet, List.erase_cons_tail (by simpa using hba),
        List.erase_append_right _ ha₁, List.erase_cons_head]
    rw [herase]
    have hrm := htr.remove (by
      have := nodes_nodup hnd
      simpa only [nodes, List.map_append, List.map_cons] using this)
    rw [hnc, hpe] at hrm
    refine ⟨rfl, ?_⟩
    rw [nodes, List.map_append, List.map_cons]
    have hmem : ∀ z ∈ nodes (b :: (l₁ ++ c :: l₂)), z ≠ .node a := by
      rintro z hz rfl
      have := mem_nodes.mp hz
      rcases List.mem_cons.mp this with e | hm
      · exact hba e.symm
      · exact (List.mem_append.mp hm).elim ha₁ ha₂
    refine hrm.congr (fun z hz => ?_) (fun z hz => ?_)
    · rw [Function.update_of_ne (hmem z (by simpa using hz))]
    · rw [Function.update_of_ne (hmem z (List.mem_cons_of_mem _ (by simpa using hz)))]

/-- `delfrom_list` on the last detached node follows its `NULL` link. -/
theorem delfromList_last (h : T.Lists σ n) {b : Nat} {l : List Nat} (hdet : σ.det = b :: (l ++ [a]))
    (hhp : T.hashPrev (.node a) ≠ .null) (hhn : T.hashNext (.node a) ≠ .null) :
    ∃ nx, T.delfromList (.node a) = .error (.nullDeref, { T with listNext := nx }) := by
  have had : a ∈ σ.det := by simp [hdet]
  have hD := h.detached
  rw [hdet] at hD
  obtain ⟨rfl, htr⟩ := hD
  rw [nodes, List.map_append, List.map_cons] at htr
  have hnc : T.listNext (.node a) = .null := (trail_append.mp htr).2
  obtain ⟨p, hpd, hpa, hpe⟩ := prev_det h hdet
  have hau := alive_det h had
  have hpA := alive_det h hpd
  have hne : Ptr.node a ≠ Ptr.node p := fun e => hpa (Ptr.node.inj e).symm
  refine ⟨Function.update T.listNext (.node p) .null, ?_⟩
  simp [CoreTimer.delfromList, getHashPrev_alive, getHashNext_alive, getListPrev_alive,
    getListNext_alive, setListNext_alive, setListPrev_null, hau, hhp, hhn, hpA, hnc, hpe,
    Function.update_of_ne hne]

theorem Shape.Wf.detach_nil {used mapped : List Nat} (h : σ.Wf used mapped) (hd : σ.det = [])
    (hs : σ.lst s = []) : σ.detach s = σ := by
  have hloc : (fun b => if σ.loc b = .slot s then Loc.det else σ.loc b) = σ.loc := by
    funext b
    refine if_neg fun hb => ?_
    rw [← h.lst_mem, hs] at hb
    cases hb
  have hlst : Function.update σ.lst s [] = σ.lst := by rw [← hs, Function.update_eq_self]
  rw [Shape.detach, hloc, hlst, hs, ← hd]

/-- `list_clear` on a ring detaches its nodes and leaves the head linked to itself. -/
theorem listClear_rep (h : T.Lists σ .null) (hs : s.initialised = true) :
    ∃ nx pv p, T.listClear (.slot s) = .ok ({ T with listNext := nx, listPrev := pv }, p) ∧
      ListRep nx pv T.freenode T.used T.mapped (σ.detach s) p := by
  have hd : σ.det = [] := by
    have := h.detached
    cases hdet : σ.det with
    | nil => rfl
    | cons b l => rw [hdet] at this; cases this.1
  have hring := h.ring s hs
  cases hlst : σ.lst s with
  | nil =>
    rw [hlst] at hring
    refine ⟨T.listNext, T.listPrev, .null, ?_, ?_⟩
    · simp [CoreTimer.listClear, getListNext_alive, hring.1]
    · rw [h.wf.detach_nil hd hlst]; exact h
  | cons b l =>
    have hnd := ring_nodup h s
    rw [hlst] at hring hnd
    obtain ⟨hnb, hpb, hseg⟩ := hring
    have hmem : ∀ c ∈ b :: l, σ.loc c = .slot s := fun c hc => by
      rw [← hlst] at hc; exact (h.wf.lst_mem s c).mp hc
    have hlast : T.listPrev (.slot s) ∈ nodes (b :: l) := by
      rw [hseg.pv_end]; exact List.getLast_mem _
    obtain ⟨z, hz, hze⟩ := List.mem_map.mp hlast
    have hzl := hmem z hz
    have hbl := hmem b (by simp)
    have hbA : Alive T.used (.node b) := (h.wf.used_mem b).mpr (by simp [hbl])
    have hzA : Alive T.used (.node z) := (h.wf.used_mem z).mpr (by simp [hzl])
    refine ⟨Function.update (Function.update T.listNext (.node z) .null) (.slot s) (.slot s),
      Function.update (Function.update T.listPrev (.node b) .null) (.slot s) (.slot s),
      .node b, ?_, ?_⟩
    · simp [CoreTimer.listClear, getListNext_alive, getListPrev_alive, setListPrev_alive,
        setListNext_alive, hnb, hbA, hzA, ← hze]
    · have hn := ((Agree.refl σ (fun l => l = .slot s) T.listNext).update
        (p := .node z) (q := .null) hzl).update (p := .slot s) (q := .slot s) rfl
      have hp := ((Agree.refl σ (fun l => l = .slot s) T.listPrev).update
        (p := .node b) (q := .null) hbl).update (p := .slot s) (q := .slot s) rfl
      have hpath := frame_path h hn (by simp)
      refine h.frame hn hp (fun s' hs' => ?_) (fun s' hs' => ?_) ?_ hpath (h.wf.detach hd s)
      · have hss : s' ≠ s := by simpa using hs'
        simp [Shape.detach, Function.update_of_ne hss]
      · obtain rfl : s' = s := by simpa using hs'
        exact ⟨hs, by simp [Shape.detach, nodes, Seg]⟩
      · have hdet : (σ.detach s).det = b :: l := hlst
        rw [hdet]
        have hcut := hseg.cut (e := .null) (List.nodup_cons.mp hnd).2
        rw [← hze] at hcut
        refine ⟨rfl, hcut.congr (fun w hw => ?_) (fun w hw => ?_)⟩
        · have hws : w ≠ .slot s := by
            rintro rfl; exact slot_not_mem_nodes s (b :: l) hw
          rw [Function.update_of_ne hws]
        · have hws : w ≠ .slot s := by
            rintro rfl; exact slot_not_mem_nodes s l hw
          have hwb : w ≠ .node b := by
            rintro rfl
            exact (List.nodup_cons.mp (List.nodup_cons.mp hnd).2).1 hw
          rw [Function.update_of_ne hws, Function.update_of_ne hwb]

/-- A head that was never initialised: both links are `NULL`. -/
theorem listClear_bare (h : T.Lists σ n) (hs : s.initialised = false) :
    T.listClear (.slot s) = .error (.nullDeref, T) := by
  obtain ⟨-, hn, -⟩ := h.bare s hs
  simp [CoreTimer.listClear, getListNext_alive, hn, setListPrev_null]

theorem listAdd_bare (h : T.Lists σ n) (hs : s.initialised = false) (ha : σ.loc a = .cur)
    (hpa : T.listPrev (.node a) = .null) (hna : T.listNext (.node a) = .null) :
    ∃ pv, T.listAdd (.slot s) (.node a) = .error (.nullDeref, { T with listPrev := pv }) := by
  obtain ⟨-, -, hp⟩ := h.bare s hs
  have hau : Alive T.used (.node a) := mem_used_cur h ha
  refine ⟨Function.update T.listPrev (.node a) .null, ?_⟩
  simp [CoreTimer.listAdd, getListPrev_alive, getListNext_alive, setListPrev_alive,
    setListNext_null, hau, hpa, hna, hp]

/-! ## The detached nodes -/

/-- The first detached node comes into hand; the next one is where its link points. -/
theorem ListRep.pop (h : T.Lists σ (.node a)) : T.Lists (σ.takeDet a) (T.listNext (.node a)) := by
  have hD := h.detached
  cases hdet : σ.det with
  | nil => rw [hdet] at hD; cases hD
  | cons b l =>
    rw [hdet] at hD
    obtain ⟨hab, htr⟩ := hD
    obtain rfl : a = b := Ptr.node.inj hab
    have ha : σ.loc a = .det := (h.wf.det_mem a).mp (by simp [hdet])
    have herase : (σ.takeDet a).det = l := by simp [Shape.takeDet, hdet]
    refine ⟨h.ring, h.bare, ?_, h.path, h.wf.takeDet ha⟩
    rw [herase]
    cases l with
    | nil => exact htr
    | cons c l => exact ⟨htr.1, htr.2.2⟩

/-- Links of a node in hand do not matter. -/
theorem ListRep.update_cur {nx pv : Ptr → Ptr} {fr : Ptr} {used mapped : List Nat}
    (h : ListRep nx pv fr used mapped σ n) (ha : σ.loc a = .cur) (q q' : Ptr) :
    ListRep (Function.update nx (.node a) q) (Function.update pv (.node a) q') fr used mapped σ n := by
  have hn := (Agree.refl σ (fun l => l = .cur) nx).update (p := .node a) (q := q) ha
  have hp := (Agree.refl σ (fun l => l = .cur) pv).update (p := .node a) (q := q') ha
  exact h.frame hn hp (fun _ _ => rfl) (fun s hs => by cases hs) (frame_trail h hn hp (by simp))
    (frame_path h hn (by simp)) h.wf

/-! ## The free list -/

/-- `timernode_alloc` hands out a node that is on no list. -/
theorem alloc_rep (h : T.Lists σ n) {addr : Nat} (haddr : addr ∉ T.mapped) :
    ∃ a, (T.timernodeAlloc addr).2 = .node a ∧ (σ.loc a = .free ∨ σ.loc a = .none) ∧
      (T.timernodeAlloc addr).1.Lists (σ.grab a) n := by
  have hpath := h.path
  cases hfree : σ.free with
  | nil =>
    rw [hfree] at hpath
    have hnone : σ.loc addr = .none := by
      by_contra hne
      exact haddr ((h.wf.mapped_mem addr).mpr hne)
    have hfr : T.freenode = .null := hpath
    refine ⟨addr, by simp [CoreTimer.timernodeAlloc, hfr], Or.inr hnone, ?_⟩
    simp only [CoreTimer.timernodeAlloc, hfr]
    have hg : (σ.grab addr).free = [] := by simp [Shape.grab, hfree]
    refine ⟨h.ring, h.bare, h.detached, ?_, h.wf.grab (Or.inr hnone) (by simp)
      (List.nodup_cons.mpr ⟨haddr, h.wf.mapped_nodup⟩)⟩
    rw [hg]; exact rfl
  | cons a l =>
    rw [hfree] at hpath
    obtain ⟨hfr, hpath⟩ := hpath
    have ha : σ.loc a = .free := (h.wf.free_mem a).mp (by simp [hfree])
    refine ⟨a, by simp [CoreTimer.timernodeAlloc, hfr], Or.inl ha, ?_⟩
    simp only [CoreTimer.timernodeAlloc, hfr]
    have hg : (σ.grab a).free = l := by simp [Shape.grab, hfree]
    refine ⟨h.ring, h.bare, h.detached, ?_, h.wf.grab (Or.inl ha) ?_ h.wf.mapped_nodup⟩
    · rw [hg]; exact hpath
    · intro b
      constructor
      · exact Or.inr
      · rintro (rfl | hb)
        · exact (h.wf.mapped_mem b).mpr (by simp [ha])
        · exact hb

/-- `timernode_dealloc` takes a node in hand back, to the free list or to `free`; the counters go with
the lists. -/
theorem dealloc_cases (h : T.Lists σ n) (ha : σ.loc a = .cur) :
    ∃ T', T.timernodeDealloc (.node a) = .ok T' ∧ T'.used = T.used.erase a ∧
      T'.useCnt = (T.useCnt + (2 ^ 32 - 1)) % 2 ^ 32 ∧
      (T'.Lists (σ.give a) n ∧ T'.freeCnt = (T.freeCnt + 1) % 2 ^ 32 ∨
        T'.Lists (σ.discard a) n ∧ T'.freeCnt = T.freeCnt) ∧
      T' = { T with listNext := T'.listNext, freenode := T'.freenode, freeCnt := T'.freeCnt,
                    useCnt := T'.useCnt, used := T'.used, mapped := T'.mapped } := by
  have hau := mem_used_cur h ha
  simp only [CoreTimer.timernodeDealloc, if_pos hau]
  generalize (if ((T.useCnt + (2 ^ 32 - 1)) % 2 ^ 32) >>> 3 ≠ 0 then _ else 1) = use
  split_ifs with hc
  · refine ⟨_, rfl, rfl, rfl, Or.inr ⟨?_, rfl⟩, rfl⟩
    exact ⟨h.ring, h.bare, h.detached, h.path, h.wf.discard ha⟩
  · refine ⟨_, rfl, rfl, rfl, Or.inl ⟨?_, rfl⟩, rfl⟩
    have hn := (Agree.refl σ (fun l => l = .cur) T.listNext).update (p := .node a)
      (q := T.freenode) ha
    have hp := Agree.refl σ (fun l => l = .cur) T.listPrev
    have hdet := frame_trail h hn hp (by simp)
    have hpath := frame_path h hn (by simp)
    refine h.frame hn hp (fun _ _ => rfl) (fun s hs => by cases hs) hdet ?_ (h.wf.give ha)
    exact ⟨rfl, by simpa using hpath⟩

theorem dealloc_rep (h : T.Lists σ n) (ha : σ.loc a = .cur) :
    ∃ T', T.timernodeDealloc (.node a) = .ok T' ∧
      (T'.Lists (σ.give a) n ∨ T'.Lists (σ.discard a) n) ∧
      T' = { T with listNext := T'.listNext, freenode := T'.freenode, freeCnt := T'.freeCnt,
                    useCnt := T'.useCnt, used := T'.used, mapped := T'.mapped } := by
  obtain ⟨T', hok, -, -, hrep, heq⟩ := dealloc_cases h ha
  exact ⟨T', hok, hrep.imp (fun h => h.1) (fun h => h.1), heq⟩

end Primitives

section HashLinks

variable {T : CoreTimer} {a : Nat}

/-! ## The `hash_*` links -/

/-- The `hash_*` links represent the chains `chain k`. -/
structure HashRep (hn hp : Ptr → Ptr) (id : Ptr → Nat) (chain : Nat → List Nat) : Prop where
  ring : ∀ k, k < TIMER_HASH_SIZE → Seg hn hp (.hash k) (nodes (chain k)) (.hash k)
  keyed : ∀ k, ∀ a ∈ chain k, HASH (id (.node a)) = k
  nodup : ∀ k, (chain k).Nodup

theorem HASH_lt (id : Nat) : HASH id < TIMER_HASH_SIZE :=
  Nat.and_lt_two_pow id (n := 10) (by decide)

section Hash

variable {hn hp hn' hp' : Ptr → Ptr} {id : Ptr → Nat} {chain : Nat → List Nat}

theorem hash_not_mem_nodes (k : Nat) (l : List Nat) : Ptr.hash k ∉ nodes l :=
  not_mem_nodes fun _ => by simp

theorem HashRep.ring_nodup (h : HashRep hn hp id chain) (k : Nat) :
    (Ptr.hash k :: nodes (chain k)).Nodup :=
  List.nodup_cons.mpr ⟨hash_not_mem_nodes _ _, nodes_nodup (h.nodup k)⟩

theorem HashRep.key_lt (h : HashRep hn hp id chain) {k : Nat} (ha : a ∈ chain k) :
    k < TIMER_HASH_SIZE := h.keyed k a ha ▸ HASH_lt _

/-- A cell of ring `k` is on no other ring. -/
theorem HashRep.disjoint (h : HashRep hn hp id chain) {k k' : Nat} (hk : k' ≠ k) {p : Ptr}
    (hp' : p ∈ Ptr.hash k' :: nodes (chain k')) : p ∉ Ptr.hash k :: nodes (chain k) := by
  intro hm
  rcases List.mem_cons.mp hp' with rfl | hp'
  · rcases List.mem_cons.mp hm with e | hm
    · exact hk (Ptr.hash.inj e)
    · exact hash_not_mem_nodes _ _ hm
  · obtain ⟨b, hb, rfl⟩ := List.mem_map.mp hp'
    rcases List.mem_cons.mp hm with e | hm
    · cases e
    · exact hk ((h.keyed k' b hb).symm.trans (h.keyed k b (mem_nodes.mp hm)))

/-- Links that change only on ring `k` and at a node on no other ring. -/
theorem HashRep.frame (h : HashRep hn hp id chain) {k : Nat} {l : List Nat}
    (hk : k < TIMER_HASH_SIZE) (ha : ∀ k', k' ≠ k → a ∉ chain k')
    (hnx : ∀ p, p ∉ Ptr.hash k :: nodes (chain k) → p ≠ .node a → hn' p = hn p)
    (hpv : ∀ p, p ∉ Ptr.hash k :: nodes (chain k) → p ≠ .node a → hp' p = hp p)
    (hring : Seg hn' hp' (.hash k) (nodes l) (.hash k))
    (hkey : ∀ b ∈ l, HASH (id (.node b)) = k) (hl : l.Nodup) :
    HashRep hn' hp' id (Function.update chain k l) := by
  have hne : ∀ k', k' ≠ k → ∀ p ∈ Ptr.hash k' :: nodes (chain k'), p ≠ .node a := by
    rintro k' hk' p hp rfl
    rcases List.mem_cons.mp hp with e | hp
    · cases e
    · exact ha k' hk' (mem_nodes.mp hp)
  refine ⟨fun k' hlt => ?_, fun k' => ?_, fun k' => ?_⟩
  · by_cases hkk : k' = k
    · subst hkk; rw [Function.update_self]; exact hring
    · rw [Function.update_of_ne hkk]
      refine (h.ring k' hlt).congr (fun z hz => ?_) (fun z hz => ?_)
      · exact hnx z (h.disjoint hkk hz) (hne k' hkk z hz)
      · have hz : z ∈ Ptr.hash k' :: nodes (chain k') := by simpa [or_comm] using hz
        exact hpv z (h.disjoint hkk hz) (hne k' hkk z hz)
  · by_cases hkk : k' = k
    · subst hkk; rw [Function.update_self]; exact hkey
    · rw [Function.update_of_ne hkk]; exact h.keyed k'
  · by_cases hkk : k' = k
    · subst hkk; rw [Function.update_self]; exact hl
    · rw [Function.update_of_ne hkk]; exact h.nodup k'

theorem update_not_mem {f : Ptr → Ptr} {p q r : Ptr} {l : List Ptr} (hq : q ∈ l) (hp : p ∉ l) :
    Function.update f q r p = f p :=
  Function.update_of_ne (by rintro rfl; exact hp hq) _ _

end Hash

variable {chain : Nat → List Nat}

/-- The `hash_*` links of `T` represent `chain`, and the nodes on it are in use. -/
structure CoreTimer.Hashed (T : CoreTimer) (chain : Nat → List Nat) : Prop where
  rep : HashRep T.hashNext T.hashPrev T.id chain
  used : ∀ k, ∀ a ∈ chain k, a ∈ T.used

theorem CoreTimer.Hashed.alive (h : T.Hashed chain) {k : Nat} {p : Ptr}
    (hp : p ∈ Ptr.hash k :: nodes (chain k)) : Alive T.used p := by
  rcases List.mem_cons.mp hp with rfl | hp
  · trivial
  · obtain ⟨b, hb, rfl⟩ := List.mem_map.mp hp
    exact h.used k b hb

/-- A node on a chain has both links set. -/
theorem CoreTimer.Hashed.links (h : T.Hashed chain) {k : Nat} (ha : a ∈ chain k) :
    T.hashPrev (.node a) ≠ .null ∧ T.hashNext (.node a) ≠ .null := by
  obtain ⟨⟨hp, -⟩, hq, -⟩ := (h.rep.ring k (h.rep.key_lt ha)).neighbours (mem_nodes.mpr ha)
    (h.rep.ring_nodup k) (hash_not_mem_nodes _ _)
  exact ⟨(h.alive hp).ne_null, (h.alive hq).ne_null⟩

theorem CoreTimer.Hashed.head_next (h : T.Hashed chain) {k : Nat} (hk : k < TIMER_HASH_SIZE) :
    T.hashNext (.hash k) ∈ Ptr.hash k :: nodes (chain k) := by
  have hm := List.head_mem (l := nodes (chain k) ++ [Ptr.hash k]) (by simp)
  rw [← (h.rep.ring k hk).nx_start] at hm
  exact List.mem_cons.mpr ((List.mem_append.mp hm).symm.imp List.mem_singleton.mp (fun h => h))

/-- What `addto_hash` writes. -/
theorem addtoHash_eq (h : T.Hashed chain) (hau : a ∈ T.used)
    (hpa : T.hashPrev (.node a) = .null) (hna : T.hashNext (.node a) = .null) :
    T.addtoHash (.node a) = .ok { T with
      hashNext := Function.update (Function.update T.hashNext (.node a)
        (T.hashNext (.hash (HASH (T.id (.node a)))))) (.hash (HASH (T.id (.node a)))) (.node a)
      hashPrev := Function.update (Function.update T.hashPrev
        (T.hashNext (.hash (HASH (T.id (.node a))))) (.node a)) (.node a)
        (.hash (HASH (T.id (.node a)))) } := by
  have hA : Alive T.used (.node a) := hau
  have hqA := h.alive (h.head_next (HASH_lt (T.id (.node a))))
  simp [CoreTimer.addtoHash, getHashPrev_alive, getHashNext_alive, setHashPrev_alive,
    setHashNext_alive, hA, hpa, hna, hqA]

/-- `addto_hash` puts the node in front of its chain. -/
theorem addtoHash_rep (h : T.Hashed chain) (hau : a ∈ T.used) (hnot : ∀ k, a ∉ chain k)
    (hpa : T.hashPrev (.node a) = .null) (hna : T.hashNext (.node a) = .null) :
    ∃ hn hp, T.addtoHash (.node a) = .ok { T with hashNext := hn, hashPrev := hp } ∧
      HashRep hn hp T.id (Function.update chain (HASH (T.id (.node a)))
        (a :: chain (HASH (T.id (.node a))))) := by
  refine ⟨_, _, addtoHash_eq h hau hpa hna, ?_⟩
  have hk := HASH_lt (T.id (.node a))
  generalize hke : HASH (T.id (.node a)) = k at hk
  have hq := h.head_next hk
  have hanot : Ptr.node a ∉ Ptr.hash k :: nodes (chain k) := by
    rintro hm
    rcases List.mem_cons.mp hm with e | hm
    · cases e
    · exact hnot k (mem_nodes.mp hm)
  refine h.rep.frame hk (fun k' _ => hnot k') (fun p hp hpn => ?_) (fun p hp hpn => ?_) ?_ ?_ ?_
  · rw [update_not_mem (List.mem_cons_self ..) hp, Function.update_of_ne hpn]
  · rw [Function.update_of_ne hpn, update_not_mem hq hp]
  · exact (h.rep.ring k hk).insert_start (h.rep.ring_nodup k) (hash_not_mem_nodes _ _) hanot (by simp)
  · rintro b hb
    rcases List.mem_cons.mp hb with rfl | hb
    · exact hke
    · exact h.rep.keyed k b hb
  · exact List.nodup_cons.mpr ⟨hnot k, h.rep.nodup k⟩

/-- The neighbours of a node on a chain are on its ring. -/
theorem CoreTimer.Hashed.neighbours (h : T.Hashed chain) {k : Nat} (ha : a ∈ chain k) :
    (T.hashPrev (.node a) ∈ Ptr.hash k :: nodes (chain k) ∧ T.hashPrev (.node a) ≠ .node a) ∧
      T.hashNext (.node a) ∈ Ptr.hash k :: nodes (chain k) ∧ T.hashNext (.node a) ≠ .node a :=
  (h.rep.ring k (h.rep.key_lt ha)).neighbours (mem_nodes.mpr ha) (h.rep.ring_nodup k)
    (hash_not_mem_nodes _ _)

/-- What `delfrom_hash` writes. -/
theorem delfromHash_eq (h : T.Hashed chain) {k : Nat} (ha : a ∈ chain k) :
    T.delfromHash (.node a) = .ok { T with
      hashNext := Function.update (Function.update T.hashNext (T.hashPrev (.node a))
        (T.hashNext (.node a))) (.node a) .null
      hashPrev := Function.update (Function.update T.hashPrev (T.hashNext (.node a))
        (T.hashPrev (.node a))) (.node a) .null } := by
  obtain ⟨hhp, hhn⟩ := h.links ha
  obtain ⟨⟨hp, hpa⟩, hq, -⟩ := h.neighbours ha
  have hA : Alive T.used (.node a) := h.used k a ha
  have hpA := h.alive hp
  have hqA := h.alive hq
  simp [CoreTimer.delfromHash, getHashPrev_alive, getHashNext_alive, setHashPrev_alive,
    setHashNext_alive, hA, hhp, hhn, hpA, hqA, Function.update_of_ne hpa.symm]

/-- `delfrom_hash` takes the node out of its chain. -/
theorem delfromHash_rep (h : T.Hashed chain) {k : Nat} (ha : a ∈ chain k) :
    ∃ hn hp, T.delfromHash (.node a) = .ok { T with hashNext := hn, hashPrev := hp } ∧
      HashRep hn hp T.id (Function.update chain k ((chain k).erase a)) := by
  refine ⟨_, _, delfromHash_eq h ha, ?_⟩
  have hk := h.rep.key_lt ha
  obtain ⟨⟨hp, -⟩, hq, -⟩ := h.neighbours ha
  refine h.rep.frame (a := a) hk (fun k' hk' hm => ?_) (fun p hpn hpa => ?_)
    (fun p hpn hpa => ?_) ?_ ?_ ?_
  · exact hk' ((h.rep.keyed k' a hm).symm.trans (h.rep.keyed k a ha))
  · rw [Function.update_of_ne hpa, update_not_mem hp hpn]
  · rw [Function.update_of_ne hpa, update_not_mem hq hpn]
  · rw [nodes_erase]
    exact (h.rep.ring k hk).erase (mem_nodes.mpr ha) (h.rep.ring_nodup k) (hash_not_mem_nodes _ _)
  · exact fun b hb => h.rep.keyed k b (List.mem_of_mem_erase hb)
  · exact (h.rep.nodup k).erase a

/-- The search loop walks along the chain. -/
theorem lookupLoop_eq (T : CoreTimer) (id k : Nat) :
    ∀ (rounds : Nat) (p : Ptr) (l : List Nat), Seg T.hashNext T.hashPrev p (nodes l) (.hash k) →
      (∀ a ∈ l, a ∈ T.used) → l.length < rounds →
      T.lookupLoop id (.hash k) rounds (T.hashNext p) =
        .ok ((l.find? fun a => T.id (.node a) = id).map .node) := by
  intro rounds
  induction rounds with
  | zero => intro p l _ _ h; cases h
  | succ rounds ih =>
    intro p l hseg hu hlen
    cases l with
    | nil => simp [CoreTimer.lookupLoop, hseg.1]
    | cons a l =>
      obtain ⟨h₁, _, h₃⟩ := hseg
      have hA : Alive T.used (.node a) := hu a (by simp)
      have hrec := ih (.node a) l h₃ (fun b hb => hu b (List.mem_cons_of_mem _ hb))
        (by simpa using hlen)
      by_cases hid : T.id (.node a) = id
      · simp [CoreTimer.lookupLoop, h₁, check_alive hA, hid]
      · simp [CoreTimer.lookupLoop, h₁, check_alive hA, hid, hrec]

/-- `coretimer_del` finds the first node of the id's chain that has the id. -/
theorem lookup_eq (h : T.Hashed chain) (id : Nat) :
    T.lookup id = .ok (((chain (HASH id)).find? fun a => T.id (.node a) = id).map .node) := by
  have hlen : (chain (HASH id)).length ≤ T.used.length :=
    ((h.rep.nodup _).subperm (fun a ha => h.used _ a ha)).length_le
  exact lookupLoop_eq T id (HASH id) _ (.hash (HASH id)) _ (h.rep.ring _ (HASH_lt id))
    (h.used _) (by omega)

end HashLinks

end HoNet.Timer
