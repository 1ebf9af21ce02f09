import Mathlib.Data.List.Basic
import Mathlib.Data.List.Nodup
import Mathlib.Logic.Function.Basic
import Mathlib.Tactic

/-!
# Intrusive linked lists

A heap gives every cell a next link `nx` and a previous link `pv`. Over an arbitrary type of cells
this file describes which list of cells is linked where:

* `Seg nx pv a L b` — the doubly linked segment from `a` through `L` to `b`; the ring with head `h`
  and members `L` is `Seg nx pv h L h`.
* `Trail nx pv x L e` — the cells `x :: L` linked both ways, the last one's next link being `e`:
  what is left of a ring when its head is cut out.
* `Path nx p L e` — the singly linked list that starts at the link `p` and ends with the link `e`.

For each of them: what it needs of the heap (`_congr`), how it splits (`_append`), and what
inserting before the end, removing a cell and cutting out the head do.
-/

namespace HoNet.Linked

variable {α : Type} {nx pv nx' pv' : α → α} {a b x y : α} {L L₁ L₂ : List α}

/-! ## Segments and rings -/

def Seg (nx pv : α → α) : α → List α → α → Prop
  | a, [], b => nx a = b ∧ pv b = a
  | a, x :: L, b => nx a = x ∧ pv x = a ∧ Seg nx pv x L b

theorem Seg.congr (h : Seg nx pv a L b) (hn : ∀ z ∈ a :: L, nx' z = nx z)
    (hp : ∀ z ∈ L ++ [b], pv' z = pv z) : Seg nx' pv' a L b := by
  induction L generalizing a with
  | nil =>
    obtain ⟨h₁, h₂⟩ := h
    exact ⟨by rw [hn a (by simp), h₁], by rw [hp b (by simp), h₂]⟩
  | cons x L ih =>
    obtain ⟨h₁, h₂, h₃⟩ := h
    refine ⟨by rw [hn a (by simp), h₁], by rw [hp x (by simp), h₂], ih h₃ ?_ ?_⟩
    · exact fun z hz => hn z (List.mem_cons_of_mem _ hz)
    · exact fun z hz => hp z (List.mem_cons_of_mem _ hz)

theorem seg_append : Seg nx pv a (L₁ ++ x :: L₂) b ↔ Seg nx pv a L₁ x ∧ Seg nx pv x L₂ b := by
  induction L₁ generalizing a with
  | nil => simp [Seg, and_assoc]
  | cons y L₁ ih => simp [Seg, ih, and_assoc]

/-- The cell before the end of a segment. -/
theorem Seg.pv_end (h : Seg nx pv a L b) : pv b = (a :: L).getLast (List.cons_ne_nil _ _) := by
  induction L generalizing a with
  | nil => exact h.2
  | cons x L ih => rw [List.getLast_cons (List.cons_ne_nil _ _)]; exact ih h.2.2

/-- The cell after the start of a segment. -/
theorem Seg.nx_start (h : Seg nx pv a L b) : nx a = (L ++ [b]).head (by simp) := by
  cases L with
  | nil => exact h.1
  | cons x L => exact h.1

variable [DecidableEq α]

/-- Inserting `r` before the end of a segment. -/
theorem Seg.insert_end {r : α} (h : Seg nx pv a L b) (hnd : (a :: L).Nodup) (hb : b ∉ L)
    (hr : r ∉ a :: L) (hrb : r ≠ b) :
    Seg (Function.update (Function.update nx (pv b) r) r b)
      (Function.update (Function.update pv r (pv b)) b r) a (L ++ [r]) b := by
  rcases L.eq_nil_or_concat with rfl | ⟨L₀, z, rfl⟩
  · obtain ⟨h₁, h₂⟩ := h
    have har : a ≠ r := fun e => hr (by simp [e])
    simp [Seg, h₂, Function.update_of_ne har, Function.update_of_ne hrb]
  · rw [List.concat_eq_append] at *
    obtain ⟨hz, h₁, h₂⟩ := seg_append.mp h
    rw [h₂, List.append_assoc, List.singleton_append, seg_append]
    have hzr : z ≠ r := fun e => hr (by simp [e])
    refine ⟨hz.congr ?_ ?_, ?_⟩
    · intro w hw
      have hwz : w ≠ z := by
        rintro rfl
        simp only [List.nodup_cons, List.mem_append, List.mem_singleton, List.nodup_append,
          not_or] at hnd
        rcases List.mem_cons.mp hw with rfl | hw
        · exact hnd.1.2 rfl
        · exact hnd.2.2.2 _ hw _ rfl rfl
      have hwr : w ≠ r := by
        rintro rfl
        have hsub : a :: L₀ ⊆ a :: (L₀ ++ [z]) :=
          List.cons_subset_cons _ (List.subset_append_left _ _)
        exact hr (hsub hw)
      rw [Function.update_of_ne hwr, Function.update_of_ne hwz]
    · intro w hw
      have hwb : w ≠ b := by
        rintro rfl; exact hb hw
      have hwr : w ≠ r := by
        rintro rfl; exact hr (List.mem_cons_of_mem _ hw)
      rw [Function.update_of_ne hwb, Function.update_of_ne hwr]
    · simp [Seg, Function.update_of_ne hzr, Function.update_of_ne hrb]

/-- Inserting `r` after the start of a segment. -/
theorem Seg.insert_start {r : α} (h : Seg nx pv a L b) (hnd : (a :: L).Nodup) (hb : b ∉ L)
    (hr : r ∉ a :: L) (hrb : r ≠ b) :
    Seg (Function.update (Function.update nx r (nx a)) a r)
      (Function.update (Function.update pv (nx a) r) r a) a (r :: L) b := by
  have har : a ≠ r := fun e => hr (by simp [e])
  refine ⟨by simp, by simp, ?_⟩
  cases L with
  | nil =>
    obtain ⟨h₁, _⟩ := h
    simp [Seg, h₁, Function.update_of_ne hrb.symm, Function.update_of_ne har.symm]
  | cons w L =>
    obtain ⟨h₁, h₂, h₃⟩ := h
    simp only [List.nodup_cons, List.mem_cons, not_or] at hnd hr hb
    obtain ⟨⟨haw, haL⟩, hwL, _⟩ := hnd
    obtain ⟨_, hrw, hrL⟩ := hr
    rw [h₁]
    refine ⟨by simp [har.symm], by simp [Ne.symm hrw], h₃.congr ?_ ?_⟩
    · intro z hz
      have hza : z ≠ a := by
        rintro rfl
        rcases List.mem_cons.mp hz with e | hz
        · exact haw e
        · exact haL hz
      have hzr : z ≠ r := by
        rintro rfl
        rcases List.mem_cons.mp hz with e | hz
        · exact hrw e
        · exact hrL hz
      rw [Function.update_of_ne hza, Function.update_of_ne hzr]
    · intro z hz
      have hzw : z ≠ w := by
        rintro rfl
        rcases List.mem_append.mp hz with hz | hz
        · exact hwL hz
        · exact hb.1 (List.mem_singleton.mp hz).symm
      have hzr : z ≠ r := by
        rintro rfl
        rcases List.mem_append.mp hz with hz | hz
        · exact hrL hz
        · exact hrb (List.mem_singleton.mp hz)
      rw [Function.update_of_ne hzr, Function.update_of_ne hzw]

/-- Removing `r` from a segment by joining its neighbours. -/
theorem Seg.remove {r : α} (h₁ : Seg nx pv a L₁ r) (h₂ : Seg nx pv r L₂ b)
    (hnd : (a :: (L₁ ++ r :: L₂)).Nodup) (hb : b ∉ L₁ ++ r :: L₂) :
    Seg (Function.update nx (pv r) (nx r)) (Function.update pv (nx r) (pv r)) a (L₁ ++ L₂) b := by
  have hp : pv r = (a :: L₁).getLast (List.cons_ne_nil _ _) := h₁.pv_end
  simp only [List.nodup_cons, List.nodup_append, List.mem_append, List.mem_cons, not_or] at hnd hb
  obtain ⟨⟨ha₁, har, ha₂⟩, hn₁, ⟨hr₂, hn₂⟩, hdisj⟩ := hnd
  obtain ⟨hb₁, hbr, hb₂⟩ := hb
  -- the right part starts at the successor of `r`, linked back to the predecessor
  have hright : ∀ p, p ∉ L₂ → Seg nx pv r L₂ b → pv r = p →
      Seg (Function.update nx p (nx r)) (Function.update pv (nx r) p) p L₂ b := by
    intro p hpL hseg hpr
    cases L₂ with
    | nil =>
      obtain ⟨h, _⟩ := hseg
      simp [Seg, h]
    | cons w L₃ =>
      obtain ⟨h, h', hw⟩ := hseg
      rw [h]
      refine ⟨by simp, by simp, hw.congr ?_ ?_⟩
      · intro z hz
        have hzp : z ≠ p := by rintro rfl; exact hpL hz
        rw [Function.update_of_ne hzp]
      · intro z hz
        have hzw : z ≠ w := by
          rintro rfl
          rcases List.mem_append.mp hz with hz | hz
          · exact (List.nodup_cons.mp hn₂).1 hz
          · exact hb₂ (by simp [List.mem_singleton.mp hz])
        rw [Function.update_of_ne hzw]
  rcases L₁.eq_nil_or_concat with rfl | ⟨L₀, z, rfl⟩
  · have hpa : pv r = a := by simpa using hp
    rw [hpa, List.nil_append]
    exact hright a ha₂ h₂ hpa
  · rw [List.concat_eq_append] at *
    have hpz : pv r = z := by simpa using hp
    rw [hpz, List.append_assoc, List.singleton_append, seg_append]
    obtain ⟨hz, hzr, _⟩ := seg_append.mp h₁
    have hz₂ : z ∉ L₂ := fun hm => hdisj z (by simp) z (Or.inr hm) rfl
    refine ⟨hz.congr ?_ ?_, hright z hz₂ h₂ hpz⟩
    · intro w hw
      have hwz : w ≠ z := by
        rintro rfl
        rcases List.mem_cons.mp hw with rfl | hw
        · exact ha₁ (by simp)
        · simp only [List.nodup_append, List.mem_singleton] at hn₁
          exact hn₁.2.2 _ hw _ rfl rfl
      rw [Function.update_of_ne hwz]
    · intro w hw
      have hwn : w ≠ nx r := by
        rw [h₂.nx_start]
        rintro rfl
        cases L₂ with
        | nil => exact hb₁ (by simpa using hw)
        | cons v L₃ => exact hdisj v (by simpa using hw) v (Or.inr (by simp)) rfl
      rw [Function.update_of_ne hwn]

/-- Taking a cell out of a segment: its neighbours are joined and its own links overwritten. -/
theorem Seg.erase {r e e' : α} (h : Seg nx pv a L b) (hr : r ∈ L) (hnd : (a :: L).Nodup)
    (hb : b ∉ L) :
    Seg (Function.update (Function.update nx (pv r) (nx r)) r e)
      (Function.update (Function.update pv (nx r) (pv r)) r e') a (L.erase r) b := by
  obtain ⟨L₁, L₂, rfl⟩ := List.append_of_mem hr
  obtain ⟨h₁, h₂⟩ := seg_append.mp h
  have hnd' := (List.nodup_cons.mp hnd).2
  have hr₁ : r ∉ L₁ := fun hm =>
    (List.nodup_append.mp hnd').2.2 r hm r (by simp) rfl
  have hr₂ : r ∉ L₂ := fun hm =>
    (List.nodup_cons.mp (List.nodup_append.mp hnd').2.1).1 hm
  have hra : r ≠ a := by rintro rfl; exact (List.nodup_cons.mp hnd).1 (by simp)
  have hrb : r ≠ b := by rintro rfl; exact hb (by simp)
  rw [List.erase_append_right _ hr₁, List.erase_cons_head]
  refine (h₁.remove h₂ hnd hb).congr (fun z hz => ?_) (fun z hz => ?_)
  · have hzr : z ≠ r := by
      rintro rfl
      rcases List.mem_cons.mp hz with e | hz
      · exact hra e
      · exact (List.mem_append.mp hz).elim hr₁ hr₂
    rw [Function.update_of_ne hzr]
  · have hzr : z ≠ r := by
      rintro rfl
      rcases List.mem_append.mp hz with hz | hz
      · exact (List.mem_append.mp hz).elim hr₁ hr₂
      · exact hrb (List.mem_singleton.mp hz)
    rw [Function.update_of_ne hzr]

omit [DecidableEq α] in
/-- The neighbours of a cell of a segment. -/
theorem Seg.neighbours {r : α} (h : Seg nx pv a L b) (hr : r ∈ L) (hnd : (a :: L).Nodup)
    (hb : b ∉ L) :
    (pv r ∈ a :: L ∧ pv r ≠ r) ∧ (nx r ∈ b :: L ∧ nx r ≠ r) := by
  obtain ⟨L₁, L₂, rfl⟩ := List.append_of_mem hr
  obtain ⟨h₁, h₂⟩ := seg_append.mp h
  have hp : pv r ∈ a :: L₁ := by rw [h₁.pv_end]; exact List.getLast_mem _
  have hn : nx r ∈ L₂ ++ [b] := by rw [h₂.nx_start]; exact List.head_mem _
  have hnd' := List.nodup_cons.mp hnd
  have hnd₂ := List.nodup_append.mp hnd'.2
  refine ⟨⟨List.cons_subset_cons _ (List.subset_append_left _ _) hp, fun e => ?_⟩, ?_, fun e => ?_⟩
  · rw [e] at hp
    rcases List.mem_cons.mp hp with rfl | hp
    · exact hnd'.1 (by simp)
    · exact hnd₂.2.2 r hp r (by simp) rfl
  · rcases List.mem_append.mp hn with hn | hn
    · exact List.mem_cons_of_mem _ (List.mem_append_right _ (List.mem_cons_of_mem _ hn))
    · exact List.mem_cons.mpr (Or.inl (List.mem_singleton.mp hn))
  · rw [e] at hn
    rcases List.mem_append.mp hn with hn | hn
    · exact (List.nodup_cons.mp hnd₂.2.1).1 hn
    · exact hb (List.mem_append_right _ (by simp [List.mem_singleton.mp hn]))

/-! ## Trails -/

def Trail (nx pv : α → α) : α → List α → α → Prop
  | x, [], e => nx x = e
  | x, y :: L, e => nx x = y ∧ pv y = x ∧ Trail nx pv y L e

omit [DecidableEq α] in
theorem Trail.congr {e : α} (h : Trail nx pv x L e) (hn : ∀ z ∈ x :: L, nx' z = nx z)
    (hp : ∀ z ∈ L, pv' z = pv z) : Trail nx' pv' x L e := by
  induction L generalizing x with
  | nil => exact (hn x (by simp)).trans h
  | cons y L ih =>
    obtain ⟨h₁, h₂, h₃⟩ := h
    refine ⟨by rw [hn x (by simp), h₁], by rw [hp y (by simp), h₂], ih h₃ ?_ ?_⟩
    · exact fun z hz => hn z (List.mem_cons_of_mem _ hz)
    · exact fun z hz => hp z (List.mem_cons_of_mem _ hz)

omit [DecidableEq α] in
theorem trail_append {e r : α} :
    Trail nx pv x (L₁ ++ r :: L₂) e ↔ Seg nx pv x L₁ r ∧ Trail nx pv r L₂ e := by
  induction L₁ generalizing x with
  | nil => simp [Seg, Trail, and_assoc]
  | cons y L₁ ih => simp [Seg, Trail, ih, and_assoc]

/-- Cutting a ring open at its end: the last cell's next link becomes `e`. -/
theorem Seg.cut {e : α} (h : Seg nx pv x L b) (hnd : (x :: L).Nodup) :
    Trail (Function.update nx (pv b) e) pv x L e := by
  rw [h.pv_end]
  rcases L.eq_nil_or_concat with rfl | ⟨L₀, z, rfl⟩
  · simp [Trail]
  · rw [List.concat_eq_append] at *
    obtain ⟨hz, _⟩ := seg_append.mp h
    rw [show (x :: (L₀ ++ [z])).getLast (List.cons_ne_nil _ _) = z by simp, trail_append]
    refine ⟨hz.congr ?_ (fun _ _ => rfl), by simp [Trail]⟩
    intro w hw
    have hwz : w ≠ z := by
      rintro rfl
      simp only [List.nodup_cons, List.nodup_append, List.mem_append, List.mem_singleton,
        not_or] at hnd
      rcases List.mem_cons.mp hw with rfl | hw
      · exact hnd.1.2 rfl
      · exact hnd.2.2.2 _ hw _ rfl rfl
    rw [Function.update_of_ne hwz]

/-- Removing an inner cell `r` of a trail by joining its neighbours. -/
theorem Trail.remove {e r : α} (h : Trail nx pv x (L₁ ++ r :: y :: L₂) e)
    (hnd : (x :: (L₁ ++ r :: y :: L₂)).Nodup) :
    Trail (Function.update nx (pv r) (nx r)) (Function.update pv (nx r) (pv r)) x
      (L₁ ++ y :: L₂) e := by
  obtain ⟨h₁, hry, hyr, h₂⟩ := trail_append.mp h
  have hseg : Seg nx pv r [] y := ⟨hry, hyr⟩
  have hnd' : (x :: (L₁ ++ [r])).Nodup := by
    refine hnd.sublist (List.Sublist.cons_cons _ ?_)
    exact List.Sublist.append_left (by simp) _
  simp only [List.nodup_cons, List.nodup_append, List.mem_append, List.mem_cons, not_or] at hnd
  obtain ⟨⟨hx₁, hxr, hxy, hx₂⟩, hn₁, ⟨⟨hry', hr₂⟩, hy₂, hn₂⟩, hdisj⟩ := hnd
  have hy : y ∉ L₁ ++ [r] := by
    simp only [List.mem_append, List.mem_singleton, not_or]
    exact ⟨fun hm => hdisj y hm y (Or.inr (Or.inl rfl)) rfl, fun e => hry' e.symm⟩
  have hrm := Seg.remove h₁ hseg hnd' hy
  rw [List.append_nil] at hrm
  refine trail_append.mpr ⟨hrm, h₂.congr ?_ ?_⟩
  · intro z hz
    have hzp : z ≠ pv r := by
      rw [h₁.pv_end]
      intro e
      have hm : z ∈ x :: L₁ := e ▸ List.getLast_mem _
      rcases List.mem_cons.mp hz with rfl | hz
      · rcases List.mem_cons.mp hm with rfl | hm
        · exact hxy rfl
        · exact hdisj _ hm _ (Or.inr (Or.inl rfl)) rfl
      · rcases List.mem_cons.mp hm with rfl | hm
        · exact hx₂ hz
        · exact hdisj _ hm _ (Or.inr (Or.inr hz)) rfl
    rw [Function.update_of_ne hzp]
  · intro z hz
    have hzy : z ≠ nx r := by rw [hry]; rintro rfl; exact hy₂ hz
    rw [Function.update_of_ne hzy]

/-! ## Paths -/

def Path (nx : α → α) : α → List α → α → Prop
  | p, [], e => p = e
  | p, x :: L, e => p = x ∧ Path nx (nx x) L e

omit [DecidableEq α] in
theorem Path.congr {p e : α} (h : Path nx p L e) (hn : ∀ z ∈ L, nx' z = nx z) :
    Path nx' p L e := by
  induction L generalizing p with
  | nil => exact h
  | cons x L ih =>
    obtain ⟨h₁, h₂⟩ := h
    exact ⟨h₁, by rw [hn x (by simp)]; exact ih h₂ fun z hz => hn z (List.mem_cons_of_mem _ hz)⟩

end HoNet.Linked
