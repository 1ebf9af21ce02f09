import HoNet.BinaryArry

/-!
# Lookup in `binary_arry.h`

`binary_search` takes the bounds of a closed interval; `find` passes `slot_sz` for the upper one, an
index that is not in use.

* `binarySearch_spec` — where the upper bound is never probed, the search is right.
* `binarySearch_overrun` — a key above all others is searched to the right until `slot_sz` is read.
* `finds_iff` — over every sequence of `insert` calls and every key.
-/

namespace HoNet

namespace BinaryArry

section Search

variable {V : Type}

/-- An index of type `int`. -/
def Block.at (b : Block V) (i : Int) : Except Fault (Item V) :=
  if i < 0 then .error (.outOfBlock i) else b.read i.toNat

/-- `low + (high - low) / 2`. -/
def midpoint (low high : Int) : Int := low + (high - low).tdiv 2

theorem midpoint_bounds {low high : Int} (h : low ≤ high) :
    low ≤ midpoint low high ∧ midpoint low high ≤ high ∧
      (low < high → midpoint low high < high) := by
  rw [midpoint, Int.tdiv_eq_ediv_of_nonneg (by omega)]
  omega

/-- `binary_search`: the indices it reads, and the value it refers to. `none` is `not_found`. -/
def binarySearch (arr : Block V) (low high key : Int) : List Int × Except Fault (Option V) :=
  if low > high then ([], .ok none)
  else
    match arr.at (midpoint low high) with
    | .error f => ([midpoint low high], .error f)
    | .ok x =>
      if x.key = key then ([midpoint low high], .ok (some x.val))
      else if x.key > key then
        let r := binarySearch arr low (midpoint low high - 1) key
        (midpoint low high :: r.1, r.2)
      else
        let r := binarySearch arr (midpoint low high + 1) high key
        (midpoint low high :: r.1, r.2)
termination_by (high + 1 - low).toNat
decreasing_by
  · have := midpoint_bounds (show low ≤ high by omega)
    omega
  · have := midpoint_bounds (show low ≤ high by omega)
    omega

/-- `binary_arry::find`. -/
def find (a : BinaryArry V) (i : Int) : List Int × Except Fault (Option V) :=
  if a.slotSz = 0 then ([], .ok none) else binarySearch a.slot 0 a.slotSz i

end Search

section Spec

variable {V : Type} {arr : Block V} {l rest : List (Item V)} {low high key : Int}

theorem at_eq (harr : arr.cells = l ++ rest) {i : Nat} (hi : i < l.length) :
    arr.at (i : Int) = .ok l[i] := by
  rw [Block.at, if_neg (by omega), Int.toNat_natCast, Block.read, harr,
    List.getElem?_append_left hi, List.getElem?_eq_getElem hi]

/-- One probe inside the used part. -/
theorem binarySearch_probe (key : Int) (harr : arr.cells = l ++ rest) (hle : low ≤ high) {m : Nat}
    (hm : m < l.length) (hmid : midpoint low high = m) :
    binarySearch arr low high key =
      if l[m].key = key then ([(m : Int)], .ok (some l[m].val))
      else if l[m].key > key then
        ((m : Int) :: (binarySearch arr low (m - 1) key).1, (binarySearch arr low (m - 1) key).2)
      else
        ((m : Int) :: (binarySearch arr (m + 1) high key).1,
          (binarySearch arr (m + 1) high key).2) := by
  rw [binarySearch, if_neg (by omega), hmid, at_eq harr hm]

/-- What the search has excluded so far: smaller keys in front of the interval and larger ones behind
it; and while the interval ends at the number of items, an item inside it that stops the search. -/
structure Narrowed (l : List (Item V)) (key low high : Int) : Prop where
  low_nonneg : 0 ≤ low
  high_le : high ≤ l.length
  below : ∀ (i : Nat) (hi : i < l.length), (i : Int) < low → l[i].key < key
  above : ∀ (i : Nat) (hi : i < l.length), high < (i : Int) → key < l[i].key
  stop : high < l.length ∨ ∃ (i : Nat) (hi : i < l.length), low ≤ (i : Int) ∧ key ≤ l[i].key

/-- The probe of a narrowed interval is in use. -/
theorem Narrowed.midpoint_lt (h : Narrowed l key low high) (hle : low ≤ high) :
    midpoint low high < l.length := by
  have hb := midpoint_bounds hle
  have hhigh := h.high_le
  rcases h.stop with hlt | ⟨i, hi, hlow, -⟩ <;> omega

theorem Narrowed.left (h : Narrowed l key low high) (hsorted : l.Pairwise KeyLe) {m : Nat}
    (hm : m < l.length) (hkey : key < l[m].key) : Narrowed l key low (m - 1) where
  low_nonneg := h.low_nonneg
  high_le := by omega
  below := h.below
  above := by
    intro i hi hlt
    rcases Nat.lt_or_ge m i with hmi | hmi
    · exact hkey.trans_le (List.pairwise_iff_getElem.mp hsorted m i hm hi hmi)
    · obtain rfl : m = i := by omega
      exact hkey
  stop := .inl (by omega)

theorem Narrowed.right (h : Narrowed l key low high) (hsorted : l.Pairwise KeyLe) {m : Nat}
    (hm : m < l.length) (hkey : l[m].key < key) : Narrowed l key (m + 1) high where
  low_nonneg := by omega
  high_le := h.high_le
  below := by
    intro i hi hlt
    rcases Nat.lt_or_ge i m with him | him
    · exact Int.lt_of_le_of_lt (List.pairwise_iff_getElem.mp hsorted i m hi hm him) hkey
    · obtain rfl : m = i := by omega
      exact hkey
  above := h.above
  stop := by
    rcases h.stop with hlt | ⟨i, hi, hlow, hstop⟩
    · exact .inl hlt
    · -- the item that stops the search is behind the probe
      refine .inr ⟨i, hi, ?_, hstop⟩
      by_contra hlt
      rcases Nat.lt_or_ge i m with him | him
      · have := List.pairwise_iff_getElem.mp hsorted i m hi hm him
        simp only [KeyLe] at this
        omega
      · obtain rfl : m = i := by omega
        omega

/-- The search of a narrowed interval reads items in use only, and finds the key if it is there. -/
theorem binarySearch_spec (harr : arr.cells = l ++ rest) (hsorted : l.Pairwise KeyLe)
    (h : Narrowed l key low high) :
    (∀ r ∈ (binarySearch arr low high key).1, r < l.length) ∧
      ((∃ (i : Nat) (hi : i < l.length), l[i].key = key ∧
          (binarySearch arr low high key).2 = .ok (some l[i].val)) ∨
        (∀ (i : Nat) (hi : i < l.length), l[i].key ≠ key) ∧
          (binarySearch arr low high key).2 = .ok none) := by
  induction hn : (high + 1 - low).toNat using Nat.strong_induction_on generalizing low high with
  | _ n ih =>
    by_cases hle : low ≤ high
    · have hb := midpoint_bounds hle
      have hlow := h.low_nonneg
      have hlt := h.midpoint_lt hle
      obtain ⟨m, hmid⟩ : ∃ m : Nat, midpoint low high = m := ⟨(midpoint low high).toNat, by omega⟩
      have hm : m < l.length := by omega
      rw [binarySearch_probe key harr hle hm hmid]
      by_cases heq : l[m].key = key
      · rw [if_pos heq]
        refine ⟨fun r hr => ?_, .inl ⟨m, hm, heq, rfl⟩⟩
        rw [List.mem_singleton.mp hr]
        omega
      rw [if_neg heq]
      by_cases hgt : l[m].key > key
      · rw [if_pos hgt]
        obtain ⟨hreads, hres⟩ := ih _ (by omega) (h.left hsorted hm hgt) rfl
        refine ⟨fun r hr => ?_, hres⟩
        rcases List.mem_cons.mp hr with rfl | hr
        · omega
        · exact hreads r hr
      · rw [if_neg hgt]
        obtain ⟨hreads, hres⟩ := ih _ (by omega) (h.right hsorted hm (by omega)) rfl
        refine ⟨fun r hr => ?_, hres⟩
        rcases List.mem_cons.mp hr with rfl | hr
        · omega
        · exact hreads r hr
    · -- the interval is empty: every item is in front of it or behind it
      rw [binarySearch, if_pos (by omega)]
      refine ⟨fun r hr => (List.not_mem_nil hr).elim, .inr ⟨fun i hi => ?_, rfl⟩⟩
      rcases lt_or_ge (i : Int) low with hil | hil
      · exact (h.below i hi hil).ne
      · exact (h.above i hi (by omega)).ne'

/-- A key above all others is searched to the right until the index behind the last item is read. -/
theorem binarySearch_overrun {low : Int} (key : Int) (harr : arr.cells = l ++ rest)
    (hall : ∀ (i : Nat) (hi : i < l.length), l[i].key < key) (h0 : 0 ≤ low) (hle : low ≤ l.length) :
    (l.length : Int) ∈ (binarySearch arr low l.length key).1 := by
  induction hn : (l.length - low).toNat using Nat.strong_induction_on generalizing low with
  | _ n ih =>
    have hb := midpoint_bounds hle
    obtain ⟨m, hmid⟩ : ∃ m : Nat, midpoint low l.length = m :=
      ⟨(midpoint low l.length).toNat, by omega⟩
    rcases Nat.lt_or_ge m l.length with hm | hm
    · have hlt := hall m hm
      rw [binarySearch_probe key harr hle hm hmid, if_neg (by omega), if_neg (by omega)]
      exact List.mem_cons_of_mem _ (ih _ (by omega) (by omega) (by omega) rfl)
    · have heq : midpoint low l.length = l.length := by omega
      rw [binarySearch, if_neg (by omega), heq]
      split
      · exact List.mem_singleton.mpr rfl
      · split_ifs <;> exact List.mem_cons_self

end Spec

section Find

variable {V : Type} {size : Nat} {zero : V} {hint k : Int} {kvs : List (Item V)} {a : BinaryArry V}

/-- The value inserted under a key. -/
def lookup (kvs : List (Item V)) (k : Int) : Option V :=
  (kvs.find? fun kv => kv.key = k).map Item.val

theorem lookup_of_mem (hnd : (kvs.map Item.key).Nodup) {x : Item V} (hx : x ∈ kvs) :
    lookup kvs x.key = some x.val := by
  obtain ⟨y, hy⟩ : ∃ y, kvs.find? (fun kv => kv.key = x.key) = some y := by
    refine Option.isSome_iff_exists.mp (List.find?_isSome.mpr ⟨x, hx, ?_⟩)
    exact decide_eq_true rfl
  have hkey : y.key = x.key := by
    have hy' := List.find?_some hy
    exact of_decide_eq_true hy'
  have heq : y = x := List.inj_on_of_nodup_map hnd (List.mem_of_find?_eq_some hy) hx hkey
  rw [lookup, hy, heq]
  rfl

theorem lookup_eq_none (h : ∀ kv ∈ kvs, kv.key ≠ k) : lookup kvs k = none := by
  have hnone : kvs.find? (fun kv => kv.key = k) = none :=
    List.find?_eq_none.mpr fun kv hkv => by simpa using h kv hkv
  rw [lookup, hnone]
  rfl

/-- What `find` is for: it answers with what was inserted and reads only items in use. -/
structure Finds (kvs : List (Item V)) (k : Int) (a : BinaryArry V) : Prop where
  answer : (a.find k).2 = .ok (lookup kvs k)
  reads_lt : ∀ i ∈ (a.find k).1, i < a.slotSz

theorem used_length (h : Holds size hint kvs a) : a.used.length = a.slotSz := by
  rw [used, List.length_take]
  exact min_eq_left h.slotSz_le

theorem cells_eq (a : BinaryArry V) : a.slot.cells = a.used ++ a.slot.cells.drop a.slotSz :=
  (List.take_append_drop _ _).symm

/-- Below the largest key, and for an empty array, `find` is right. -/
theorem Holds.finds (h : Holds size hint kvs a) (hnd : (kvs.map Item.key).Nodup)
    (hk : kvs = [] ∨ ∃ kv ∈ kvs, k ≤ kv.key) : Finds kvs k a := by
  have hlen := used_length h
  rcases hk with rfl | ⟨kv, hkv, hle⟩
  · have h0 : a.slotSz = 0 := h.slotSz_eq
    have hfind : a.find k = ([], .ok none) := by rw [find, if_pos h0]
    exact ⟨by rw [hfind]; rfl, fun i hi => by rw [hfind] at hi; cases hi⟩
  · obtain ⟨i, hi, hget⟩ := List.mem_iff_getElem.mp (h.perm.mem_iff.mpr hkv)
    have hnarrow : Narrowed a.used k 0 a.slotSz := by
      refine ⟨le_refl 0, by omega, fun j _ hj => by omega, fun j hj hlt => by omega, ?_⟩
      refine .inr ⟨i, hi, ?_⟩
      exact ⟨by omega, by rw [hget]; exact hle⟩
    have hfind : a.find k = binarySearch a.slot 0 a.slotSz k := by rw [find, if_neg (by omega)]
    obtain ⟨hreads, hres⟩ := binarySearch_spec (cells_eq a) h.sorted hnarrow
    rw [← hfind, hlen] at hreads
    rw [← hfind] at hres
    refine ⟨?_, hreads⟩
    rcases hres with ⟨j, hj, hkey, hval⟩ | ⟨hnone, hval⟩
    · have hmem : a.used[j] ∈ kvs := h.perm.mem_iff.mp (List.getElem_mem hj)
      rw [hval, ← hkey, lookup_of_mem hnd hmem]
    · rw [hval, lookup_eq_none fun y hy => ?_]
      obtain ⟨j, hj, rfl⟩ := List.mem_iff_getElem.mp (h.perm.mem_iff.mpr hy)
      exact hnone j hj

/-- Above it the index behind the last item is read. -/
theorem Holds.overrun (h : Holds size hint kvs a) (hne : kvs ≠ []) (hall : ∀ kv ∈ kvs, kv.key < k) :
    (a.slotSz : Int) ∈ (a.find k).1 := by
  have hpos : 0 < kvs.length := List.length_pos_iff.mpr hne
  have hsz := h.slotSz_eq
  have hover := binarySearch_overrun k (cells_eq a)
    (fun i hi => hall _ (h.perm.mem_iff.mp (List.getElem_mem hi))) (le_refl 0) (by omega)
  rw [used_length h] at hover
  rw [find, if_neg (by omega)]
  exact hover

/-- **Lookup.** After `insert` calls with distinct keys, `find` answers with the value inserted under
the key and reads items in use only, if and only if the items fit their block, and the array is empty
or some key in it is at least the one looked for. -/
theorem finds_iff (hs : 0 < size) (hnd : (kvs.map Item.key).Nodup) :
    (∃ a, inserts size zero hint kvs = .ok a ∧ Finds kvs k a) ↔
      (hint ≤ 2 ^ 30 ∧ Fits size hint kvs.length) ∧ (kvs = [] ∨ ∃ kv ∈ kvs, k ≤ kv.key) := by
  constructor
  · rintro ⟨a, ha, hfinds⟩
    have hfit : hint ≤ 2 ^ 30 ∧ Fits size hint kvs.length := by
      by_contra hno
      obtain ⟨f, hf⟩ := inserts_stuck zero hs kvs hno
      rw [hf] at ha
      cases ha
    refine ⟨hfit, ?_⟩
    by_contra hk
    rw [not_or] at hk
    obtain ⟨hne, hall⟩ := hk
    obtain ⟨a', ha', hholds⟩ := inserts_spec zero hs hfit.1 kvs hfit.2
    obtain rfl : a' = a := by
      rw [ha'] at ha
      cases ha
      rfl
    have hover := hholds.overrun hne fun kv hkv => Int.not_le.mp fun hle => hall ⟨kv, hkv, hle⟩
    exact absurd (hfinds.reads_lt _ hover) (lt_irrefl _)
  · rintro ⟨⟨hh, hfit⟩, hk⟩
    obtain ⟨a, ha, hholds⟩ := inserts_spec zero hs hh kvs hfit
    exact ⟨a, ha, hholds.finds hnd hk⟩

end Find

/-- Four handlers in an order of their own. -/
def fourHandlers : List (Item Nat) := [⟨5, 50⟩, ⟨1, 10⟩, ⟨9, 90⟩, ⟨3, 30⟩]

/-- The array after inserting them. -/
def fullOfFour : BinaryArry Nat :=
  ⟨2, ⟨[⟨1, 10⟩, ⟨3, 30⟩, ⟨5, 50⟩, ⟨9, 90⟩], [1, 2, 3, 2, 1, 0]⟩, 4, 4⟩

/-- The block is full. The last key is found, and the search for a key between two of them ends. -/
theorem finds_iff_full :
    inserts 8 0 0 fourHandlers = .ok fullOfFour ∧ fullOfFour.slotSz = fullOfFour.slotMax ∧
      lookup fourHandlers 9 = some 90 ∧ Finds fourHandlers 9 fullOfFour ∧
      lookup fourHandlers 4 = none ∧ Finds fourHandlers 4 fullOfFour := by
  have hinserts : inserts 8 0 0 fourHandlers = .ok fullOfFour := rfl
  have hfit : (0 : Int) ≤ 2 ^ 30 ∧ Fits 8 0 fourHandlers.length :=
    ⟨by decide, fits_handlers.mpr (.inr (by decide))⟩
  have hfinds {k : Int} (hk : k ≤ 9) : Finds fourHandlers k fullOfFour := by
    have hlarge : ∃ kv ∈ fourHandlers, k ≤ kv.key := ⟨⟨9, 90⟩, by decide, hk⟩
    obtain ⟨a, ha, hf⟩ : ∃ a, inserts 8 0 0 fourHandlers = .ok a ∧ Finds fourHandlers k a :=
      (finds_iff (by decide) (by decide)).mpr ⟨hfit, .inr hlarge⟩
    obtain rfl := Except.ok.inj (hinserts.symm.trans ha)
    exact hf
  exact ⟨hinserts, rfl, rfl, hfinds (by decide), rfl, hfinds (by decide)⟩

/-- The array after inserting the keys 1 and 2. -/
def fullOfTwo : BinaryArry Nat := ⟨2, ⟨[⟨1, 10⟩, ⟨2, 20⟩], [1, 0]⟩, 2, 2⟩

/-- The array is full, and the search for 3 reads `slot[2]`, outside the allocation. -/
theorem full_array_overread :
    inserts 8 0 0 [(⟨1, 10⟩ : Item Nat), ⟨2, 20⟩] = .ok fullOfTwo ∧
      fullOfTwo.find 3 = ([1, 2], .error (.outOfBlock 2)) ∧
      ¬ Finds [⟨1, 10⟩, ⟨2, 20⟩] 3 fullOfTwo := by
  have hprobe := binarySearch_probe (m := 1) 3
    (show fullOfTwo.slot.cells = [⟨1, 10⟩, ⟨2, 20⟩] ++ [] from rfl) (show (0 : Int) ≤ 2 by decide)
    (by decide) (by decide)
  have hlast : binarySearch fullOfTwo.slot (((1 : Nat) : Int) + 1) 2 3 =
      ([2], .error (.outOfBlock 2)) := by
    rw [binarySearch]
    rfl
  have hfind : fullOfTwo.find 3 = ([1, 2], .error (.outOfBlock 2)) := by
    rw [find, if_neg (by decide)]
    refine hprobe.trans ?_
    rw [hlast]
    rfl
  refine ⟨rfl, hfind, fun h => ?_⟩
  have hread := h.reads_lt 2 (by rw [hfind]; decide)
  exact absurd hread (by decide)

end BinaryArry

end HoNet
