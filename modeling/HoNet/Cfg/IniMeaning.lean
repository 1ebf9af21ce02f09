import HoNet.Cfg.Ini

/-!
# What an INI text means

The meaning of a text is given line by line: sections in the order of their headers, each with its
entries in order (`sections`), and a lookup in them (`meaning`). `ini::parse` and `ini::value`
compute it, whatever the object held before and whatever was asked in between.

* `trim_spec`, `parseLine_spec` — one line: the strings it leaves in the buffer.
* `parseLoop_spec`, `parse_rep` — all lines: the lists of the object represent the sections in reverse.
* `ini_meaning` — the result.
-/

namespace HoNet.Cfg

open HoNet.CString

/-! ## The meaning -/

def trimmed (s : List UInt8) : List UInt8 := (s.dropWhile isspace).rdropWhile isspace

/-- A line cut at its first `;` and trimmed. -/
def lineText (l : List UInt8) : List UInt8 := trimmed (l.takeWhile fun b => b ≠ 59)

/-- The lines of a text that are not empty then. -/
def textLines (text : List UInt8) : List (List UInt8) :=
  ((text.splitOn 10).map lineText).filter fun l => l ≠ []

/-- A header `[name]` with a name, or `key=value` with a key. -/
def WellFormed (l : List UInt8) : Prop :=
  if l.head? = some 91 then 93 ∈ l.tail ∧ trimmed (l.tail.takeWhile fun b => b ≠ 93) ≠ []
  else 61 ∈ l ∧ trimmed (l.takeWhile fun b => b ≠ 61) ≠ []

instance : DecidablePred WellFormed := fun l =>
  inferInstanceAs (Decidable (if l.head? = some 91 then _ else _))

inductive IniItem where
  | header (name : List UInt8)
  | entry (key val : List UInt8)
  deriving DecidableEq, Repr

def lineItem (l : List UInt8) : IniItem :=
  if l.head? = some 91 then .header (trimmed (l.tail.takeWhile fun b => b ≠ 93))
  else .entry (trimmed (l.takeWhile fun b => b ≠ 61)) (trimmed (l.dropWhile fun b => b ≠ 61).tail)

abbrev IniEntries := List (List UInt8 × List UInt8)

/-- The entries up to the first header, and the sections from there on. -/
def splitItems : List IniItem → IniEntries × List (List UInt8 × IniEntries)
  | [] => ([], [])
  | .entry k v :: items => ((k, v) :: (splitItems items).1, (splitItems items).2)
  | .header n :: items => ([], (n, (splitItems items).1) :: (splitItems items).2)

/-- The sections of a text in order; the lines before the first header are the section `""`. -/
def sections (text : List UInt8) : List (List UInt8 × IniEntries) :=
  let items := (textLines text).map lineItem
  ([], (splitItems items).1) :: (splitItems items).2

/-- The value of the last line for `key` in the first section `sec`, if it is not empty. -/
def meaning (text sec key : List UInt8) (dflt : Option (List UInt8)) : Option (List UInt8) :=
  match (sections text).find? fun s => s.1 = sec with
  | none => dflt
  | some s =>
    match s.2.reverse.find? fun e => e.1 = key with
    | none => dflt
    | some e => if e.2 = [] then dflt else some e.2

/-! ## Trimming -/

section Trim

variable {A T s r w : List UInt8}

theorem zero_not_space : isspace 0 = false := by decide

theorem ltrimFrom_eq (h0 : 0 ∉ s) (T : List UInt8) (p : Nat) :
    Ini.ltrimFrom (s ++ 0 :: T) p = p + (s.takeWhile isspace).length := by
  induction s generalizing p with
  | nil => simp [Ini.ltrimFrom]
  | cons b s ih =>
    rw [List.mem_cons, not_or] at h0
    rw [List.cons_append, Ini.ltrimFrom, if_neg (Ne.symm h0.1)]
    by_cases hb : isspace b
    · rw [if_pos hb, ih h0.2, List.takeWhile_cons_of_pos hb, List.length_cons]
      omega
    · rw [if_neg hb, List.takeWhile_cons_of_neg hb]
      rfl

/-- White space leaves the start of the white space alone or sets it. -/
theorem rtrimLoop_spaces (hw : ∀ b ∈ w, isspace b = true) (i j : Nat) :
    Ini.rtrimLoop (w ++ 0 :: T) i (some j) = some j := by
  induction w generalizing i with
  | nil => simp [Ini.rtrimLoop]
  | cons b w ih =>
    have hb := hw b (by simp)
    have hb0 : b ≠ 0 := by rintro rfl; simp [zero_not_space] at hb
    rw [List.cons_append, Ini.rtrimLoop, if_neg hb0, if_pos hb]
    exact ih (fun b h => hw b (List.mem_cons_of_mem _ h)) (i + 1)

/-- Behind a prefix that is empty or ends with a visible byte nothing is pending. -/
theorem rtrimLoop_visible (h0 : 0 ∉ r) (hr : ∀ hne : r ≠ [], isspace (r.getLast hne) = false)
    (X : List UInt8) (i : Nat) (e : Option Nat) (he : r = [] → e = none) :
    Ini.rtrimLoop (r ++ X) i e = Ini.rtrimLoop X (i + r.length) none := by
  induction r generalizing i e with
  | nil => simp [he rfl]
  | cons b r ih =>
    rw [List.mem_cons, not_or] at h0
    have hlast : ∀ hne : r ≠ [], isspace (r.getLast hne) = false := fun hne => by
      have := hr (List.cons_ne_nil b r)
      rwa [List.getLast_cons hne] at this
    have hlen : i + (b :: r).length = i + 1 + r.length := by simp; omega
    rw [List.cons_append, hlen]
    by_cases hb : isspace b
    · have hne : r ≠ [] := by
        rintro rfl
        have := hr (List.cons_ne_nil b [])
        simp [hb] at this
      cases e with
      | none =>
        rw [Ini.rtrimLoop, if_neg (Ne.symm h0.1), if_pos hb]
        exact ih h0.2 hlast _ _ fun h => absurd h hne
      | some e =>
        rw [Ini.rtrimLoop, if_neg (Ne.symm h0.1), if_pos hb]
        exact ih h0.2 hlast _ _ fun h => absurd h hne
    · rw [Ini.rtrimLoop.eq_def]
      simp only [if_neg (Ne.symm h0.1), hb]
      exact ih h0.2 hlast _ _ fun _ => rfl

/-- `rtrim` writes a NUL behind the last visible byte. -/
theorem rtrim_eq (h0 : 0 ∉ s) (A T : List UInt8) :
    ∃ K, Ini.rtrim (A ++ (s ++ 0 :: T)) A.length =
        A ++ (s.rdropWhile isspace ++ 0 :: (K ++ T)) ∧
      (s.rdropWhile isspace).length + K.length = s.length := by
  have hs : s = s.rdropWhile isspace ++ s.rtakeWhile isspace :=
    (List.rdropWhile_append_rtakeWhile ..).symm
  have hr0 : 0 ∉ s.rdropWhile isspace := fun hm => h0 ((List.rdropWhile_prefix _ _).subset hm)
  have hvis : ∀ hne : s.rdropWhile isspace ≠ [],
      isspace ((s.rdropWhile isspace).getLast hne) = false := fun hne => by
    simpa using List.rdropWhile_last_not isspace s hne
  have hw : ∀ b ∈ s.rtakeWhile isspace, isspace b = true := fun b hb => List.mem_rtakeWhile_imp hb
  generalize s.rdropWhile isspace = r at *
  generalize s.rtakeWhile isspace = w at *
  subst hs
  have hloop : Ini.rtrimLoop (r ++ w ++ 0 :: T) 0 none =
      Ini.rtrimLoop (w ++ 0 :: T) r.length none := by
    rw [List.append_assoc, rtrimLoop_visible hr0 hvis _ _ _ fun _ => rfl, Nat.zero_add]
  rw [Ini.rtrim, List.drop_left, hloop]
  cases w with
  | nil => exact ⟨[], by simp [Ini.rtrimLoop], by simp⟩
  | cons b w =>
    have hb := hw b (by simp)
    have hb0 : b ≠ 0 := by rintro rfl; simp [zero_not_space] at hb
    refine ⟨w ++ [0], ?_, by simp⟩
    rw [List.cons_append, Ini.rtrimLoop, if_neg hb0, if_pos hb]
    simp only [rtrimLoop_spaces fun b h => hw b (List.mem_cons_of_mem _ h)]
    rw [show A ++ (r ++ b :: w ++ 0 :: T) = (A ++ r) ++ b :: (w ++ 0 :: T) by simp,
      ← List.length_append, set_behind]
    simp

/-- `trim` leaves the trimmed text behind the white space it skips. -/
theorem trim_spec (h0 : 0 ∉ s) (A T : List UInt8) :
    ∃ W K, Ini.trim (A ++ (s ++ 0 :: T)) A.length =
        (A ++ W ++ (trimmed s ++ 0 :: (K ++ T)), (A ++ W).length) ∧
      W.length + (trimmed s).length + K.length = s.length := by
  have hs := List.takeWhile_append_dropWhile (p := isspace) (l := s)
  have hd0 : 0 ∉ s.dropWhile isspace := fun hm => h0 ((List.dropWhile_suffix _).subset hm)
  obtain ⟨K, hrt, hlen⟩ := rtrim_eq hd0 (A ++ s.takeWhile isspace) T
  refine ⟨s.takeWhile isspace, K, ?_, ?_⟩
  · have hl : Ini.ltrim (A ++ (s ++ 0 :: T)) A.length = (A ++ s.takeWhile isspace).length := by
      rw [Ini.ltrim, List.drop_left, ltrimFrom_eq h0, List.length_append]
    have hbuf : A ++ (s ++ 0 :: T) =
        A ++ s.takeWhile isspace ++ (s.dropWhile isspace ++ 0 :: T) := by
      rw [List.append_assoc, ← List.append_assoc (s.takeWhile isspace), hs]
    rw [Ini.trim, hl]
    rw [hbuf, hrt]
    rfl
  · have := congrArg List.length hs
    rw [List.length_append] at this
    rw [trimmed]
    omega

theorem trimmed_subset (s : List UInt8) : trimmed s ⊆ s :=
  List.Subset.trans (List.rdropWhile_prefix _ _).subset (List.dropWhile_suffix _).subset

theorem byteAt_eq_zero (h0 : 0 ∉ s) (A T : List UInt8) :
    Ini.byteAt (A ++ (s ++ 0 :: T)) A.length = 0 ↔ s = [] := by
  rw [Ini.byteAt, List.getD_eq_getElem?_getD, List.getElem?_append_right le_rfl, Nat.sub_self]
  cases s with
  | nil => simp
  | cons b s =>
    refine iff_of_false (fun h => h0 ?_) (List.cons_ne_nil _ _)
    have : b = 0 := h
    simp [this]

end Trim

/-! ## One line -/

section Line

variable {l t u P T : List UInt8} {ini : Ini}

/-- What a stored value pointer stands for; the empty value has none. -/
def ValAt (buf : List UInt8) : Option Nat → List UInt8 → Prop
  | none, v => v = []
  | some p, v => v ≠ [] ∧ StrAt buf p v

theorem ValAt.append {buf v : List UInt8} {w : Option Nat} (h : ValAt buf w v) (R : List UInt8) :
    ValAt (buf ++ R) w v := by
  cases w with
  | none => exact h
  | some p => exact ⟨h.1, h.2.append R⟩

/-- The lists after a line: a new section in front, or a new key in the section in front. -/
def Pushed (buf : List UInt8) (base base' : List IniSection) : IniItem → Prop
  | .header n => ∃ q, StrAt buf q n ∧ base' = ⟨some q, []⟩ :: base
  | .entry k v => ∃ q w, StrAt buf q k ∧ ValAt buf w v ∧ base' = Ini.addKey ⟨q, w⟩ base

/-- How a function that reads one line `t` leaves the buffer and the object. -/
def LineRead (P T : List UInt8) (len : Nat) (ini : Ini) (t : List UInt8)
    (res : Ini × List UInt8 × Bool) : Prop :=
  ∃ M, M.length = len ∧ res.2.1 = P ++ M ++ T ∧ (res.2.2 = true ↔ WellFormed t) ∧
    (WellFormed t → ∃ base', res.1 = { ini with base := base' } ∧
      Pushed (P ++ M) ini.base base' (lineItem t))

theorem Pushed.append {buf : List UInt8} {base base' : List IniSection} {i : IniItem}
    (h : Pushed buf base base' i) (R : List UInt8) : Pushed (buf ++ R) base base' i := by
  cases i with
  | header n =>
    obtain ⟨q, hq, hb⟩ := h
    exact ⟨q, hq.append R, hb⟩
  | entry k v =>
    obtain ⟨q, w, hq, hw, hb⟩ := h
    exact ⟨q, w, hq.append R, hw.append R, hb⟩

theorem trimmed_no_zero {s : List UInt8} (h0 : 0 ∉ s) : 0 ∉ trimmed s :=
  fun hm => h0 (trimmed_subset s hm)

theorem parseSection_spec (h0 : 0 ∉ u) (ini : Ini) (P T : List UInt8) :
    LineRead P T (u.length + 2) ini (91 :: u)
      (ini.parseSection (P ++ (91 :: u ++ 0 :: T)) P.length) := by
  have hbuf : P ++ (91 :: u ++ 0 :: T) = P ++ [91] ++ (u ++ 0 :: T) := by simp
  have hnm : P.length + 1 = (P ++ [91]).length := by simp
  have hwf : WellFormed (91 :: u) ↔ 93 ∈ u ∧ trimmed (u.takeWhile fun b => b ≠ 93) ≠ [] := by
    simp [WellFormed]
  rw [hbuf, Ini.parseSection, hnm]
  by_cases hu : 93 ∈ u
  swap
  · rw [strchr_none h0 hu (by decide)]
    refine ⟨91 :: u ++ [0], by simp, by simp, iff_of_false (by simp) fun h => hu (hwf.mp h).1, ?_⟩
    exact fun h => absurd (hwf.mp h).1 hu
  have hsplit := split_first hu
  have h93 := not_mem_takeWhile_ne u 93
  have hitem : lineItem (91 :: u) = .header (trimmed (u.takeWhile fun b => b ≠ 93)) := by
    simp [lineItem]
  rw [LineRead, hitem]
  generalize (u.takeWhile fun b => b ≠ 93) = n at *
  generalize (u.dropWhile fun b => b ≠ 93).tail = u₂ at *
  subst hsplit
  have hn0 : 0 ∉ n := fun h => h0 (by simp [h])
  have hfind : strchr (P ++ [91] ++ (n ++ 93 :: u₂ ++ 0 :: T)) (P ++ [91]).length 93 =
      some (P ++ [91] ++ n).length := by
    rw [List.append_assoc n, List.cons_append, strchr_some hn0 h93, ← List.length_append]
  have hset : (P ++ [91] ++ (n ++ 93 :: u₂ ++ 0 :: T)).set (P ++ [91] ++ n).length 0 =
      P ++ [91] ++ (n ++ 0 :: (u₂ ++ 0 :: T)) := by
    rw [show P ++ [91] ++ (n ++ 93 :: u₂ ++ 0 :: T) = (P ++ [91] ++ n) ++ 93 :: (u₂ ++ 0 :: T) by simp,
      set_behind]
    simp
  obtain ⟨W, K, htrim, hlen⟩ := trim_spec hn0 (P ++ [91]) (u₂ ++ 0 :: T)
  rw [hfind]
  simp only [hset, htrim, byteAt_eq_zero (trimmed_no_zero hn0)]
  have hlong : (91 :: W ++ trimmed n ++ 0 :: (K ++ u₂ ++ [0])).length =
      (n ++ 93 :: u₂).length + 2 := by
    simp only [List.length_append, List.length_cons, List.length_nil]
    omega
  by_cases hne : trimmed n = []
  · rw [if_pos hne]
    refine ⟨91 :: W ++ trimmed n ++ 0 :: (K ++ u₂ ++ [0]), hlong, by simp,
      iff_of_false (by simp) fun h => (hwf.mp h).2 hne, fun h => absurd hne (hwf.mp h).2⟩
  · rw [if_neg hne]
    refine ⟨91 :: W ++ trimmed n ++ 0 :: (K ++ u₂ ++ [0]), hlong, by simp,
      iff_of_true rfl (hwf.mpr ⟨hu, hne⟩), fun _ => ⟨_, rfl, (P ++ [91] ++ W).length, ?_, rfl⟩⟩
    exact ⟨trimmed_no_zero hn0, P ++ [91] ++ W, K ++ u₂ ++ [0], by simp, rfl⟩

theorem parseKeyval_spec (h0 : 0 ∉ t) (hh : t.head? ≠ some 91) (ini : Ini) (P T : List UInt8) :
    LineRead P T (t.length + 1) ini t (ini.parseKeyval (P ++ (t ++ 0 :: T)) P.length) := by
  have hwf : WellFormed t ↔ 61 ∈ t ∧ trimmed (t.takeWhile fun b => b ≠ 61) ≠ [] := by
    rw [WellFormed, if_neg hh]
  rw [Ini.parseKeyval]
  by_cases ht : 61 ∈ t
  swap
  · rw [strchr_none h0 ht (by decide)]
    refine ⟨t ++ [0], by simp, by simp, iff_of_false (by simp) fun h => ht (hwf.mp h).1, ?_⟩
    exact fun h => absurd (hwf.mp h).1 ht
  have hsplit := split_first ht
  have h61 := not_mem_takeWhile_ne t 61
  have hitem : lineItem t = .entry (trimmed (t.takeWhile fun b => b ≠ 61))
      (trimmed (t.dropWhile fun b => b ≠ 61).tail) := by
    rw [lineItem, if_neg hh]
  rw [LineRead, hitem]
  generalize (t.takeWhile fun b => b ≠ 61) = k at *
  generalize (t.dropWhile fun b => b ≠ 61).tail = v at *
  subst hsplit
  have hk0 : 0 ∉ k := fun h => h0 (by simp [h])
  have hv0 : 0 ∉ v := fun h => h0 (by simp [h])
  have hfind : strchr (P ++ (k ++ 61 :: v ++ 0 :: T)) P.length 61 = some (P ++ k).length := by
    rw [List.append_assoc k, List.cons_append, strchr_some hk0 h61, ← List.length_append]
  have hset : (P ++ (k ++ 61 :: v ++ 0 :: T)).set (P ++ k).length 0 =
      P ++ (k ++ 0 :: (v ++ 0 :: T)) := by
    rw [show P ++ (k ++ 61 :: v ++ 0 :: T) = (P ++ k) ++ 61 :: (v ++ 0 :: T) by simp, set_behind]
    simp
  obtain ⟨W, K, htrim, hlen⟩ := trim_spec hk0 P (v ++ 0 :: T)
  -- The value starts behind the NUL that replaced the `=`.
  have hval : (P ++ k).length + 1 = (P ++ W ++ (trimmed k ++ 0 :: K)).length := by
    simp only [List.length_append, List.length_cons]
    omega
  have hbuf : P ++ W ++ (trimmed k ++ 0 :: (K ++ (v ++ 0 :: T))) =
      P ++ W ++ (trimmed k ++ 0 :: K) ++ (v ++ 0 :: T) := by simp
  obtain ⟨W', K', htrim', hlen'⟩ := trim_spec hv0 (P ++ W ++ (trimmed k ++ 0 :: K)) T
  rw [hfind]
  simp only [hset, htrim, byteAt_eq_zero (trimmed_no_zero hk0)]
  by_cases hne : trimmed k = []
  · rw [if_pos hne]
    refine ⟨W ++ (trimmed k ++ 0 :: (K ++ v ++ [0])), ?_, by simp,
      iff_of_false (by simp) fun h => (hwf.mp h).2 hne, fun h => absurd hne (hwf.mp h).2⟩
    simp only [List.length_append, List.length_cons, List.length_nil]
    omega
  · rw [if_neg hne]
    simp only [hval, hbuf, htrim', byteAt_eq_zero (trimmed_no_zero hv0)]
    refine ⟨W ++ (trimmed k ++ 0 :: K) ++ W' ++ (trimmed v ++ 0 :: K'), ?_, by simp,
      iff_of_true (by simp) (hwf.mpr ⟨ht, hne⟩),
      fun _ => ⟨_, rfl, (P ++ W).length, _, ?_, ?_, rfl⟩⟩
    · simp only [List.length_append, List.length_cons]
      omega
    · exact ⟨trimmed_no_zero hk0, P ++ W, K ++ W' ++ (trimmed v ++ 0 :: K'), by simp, rfl⟩
    · by_cases hv : trimmed v = []
      · simpa [if_pos hv, ValAt] using hv
      · rw [if_neg hv]
        exact ⟨hv, trimmed_no_zero hv0, P ++ W ++ (trimmed k ++ 0 :: K) ++ W', K', by simp, rfl⟩

/-- The comment is cut off at its first `;`. -/
theorem cut_comment (h0 : 0 ∉ l) (P T : List UInt8) :
    ∃ K, Ini.cutComment (P ++ (l ++ 0 :: T)) P.length =
        P ++ ((l.takeWhile fun b => b ≠ 59) ++ 0 :: (K ++ T)) ∧
      (l.takeWhile fun b => b ≠ 59).length + K.length = l.length := by
  rw [Ini.cutComment]
  by_cases hl : 59 ∈ l
  swap
  · rw [strchr_none h0 hl (by decide), takeWhile_ne_of_not_mem hl]
    exact ⟨[], by simp, by simp⟩
  have hsplit := split_first hl
  have h59 := not_mem_takeWhile_ne l 59
  generalize (l.takeWhile fun b => b ≠ 59) = a at *
  generalize (l.dropWhile fun b => b ≠ 59).tail = c at *
  subst hsplit
  have ha0 : 0 ∉ a := fun h => h0 (by simp [h])
  refine ⟨c ++ [0], ?_, by simp⟩
  rw [List.append_assoc a, List.cons_append, strchr_some ha0 h59, ← List.length_append]
  simp only
  rw [← List.append_assoc, set_behind]
  simp

/-- **One line.** A blank line changes nothing; any other one is read as its text says. -/
theorem parseLine_spec (h0 : 0 ∉ l) (ini : Ini) (P T : List UInt8) :
    (lineText l = [] ∧ ∃ M, M.length = l.length + 1 ∧
      ini.parseLine (P ++ (l ++ 0 :: T)) P.length = (ini, P ++ M ++ T, true)) ∨
    (lineText l ≠ [] ∧ LineRead P T (l.length + 1) ini (lineText l)
      (ini.parseLine (P ++ (l ++ 0 :: T)) P.length)) := by
  obtain ⟨C, hcut, hclen⟩ := cut_comment h0 P T
  have ha0 : 0 ∉ l.takeWhile fun b => b ≠ 59 :=
    fun h => h0 ((List.takeWhile_prefix _).subset h)
  obtain ⟨W, K, htrim, hlen⟩ := trim_spec ha0 P (C ++ T)
  have ht0 := trimmed_no_zero ha0
  rw [Ini.parseLine, hcut]
  simp only [htrim, byteAt_eq_zero ht0, lineText]
  generalize trimmed (l.takeWhile fun b => b ≠ 59) = t at *
  by_cases ht : t = []
  · left
    subst ht
    refine ⟨rfl, W ++ 0 :: (K ++ C), ?_, by simp⟩
    simp only [List.length_append, List.length_cons, List.length_nil] at hlen ⊢
    omega
  · right
    rw [if_neg ht]
    have hhead : Ini.byteAt (P ++ W ++ (t ++ 0 :: (K ++ (C ++ T)))) (P ++ W).length = 91 ↔
        t.head? = some 91 := by
      obtain ⟨b, u, rfl⟩ := List.exists_cons_of_ne_nil ht
      rw [Ini.byteAt, List.getD_eq_getElem?_getD, List.getElem?_append_right le_rfl, Nat.sub_self]
      simp
    have hread : LineRead (P ++ W) (K ++ (C ++ T)) (t.length + 1) ini t
        (if Ini.byteAt (P ++ W ++ (t ++ 0 :: (K ++ (C ++ T)))) (P ++ W).length = 91 then
          ini.parseSection (P ++ W ++ (t ++ 0 :: (K ++ (C ++ T)))) (P ++ W).length
        else ini.parseKeyval (P ++ W ++ (t ++ 0 :: (K ++ (C ++ T)))) (P ++ W).length) := by
      by_cases hh : t.head? = some 91
      · rw [if_pos (hhead.mpr hh)]
        obtain ⟨b, u, rfl⟩ := List.exists_cons_of_ne_nil ht
        obtain rfl : b = 91 := by simpa using hh
        exact parseSection_spec (fun h => ht0 (List.mem_cons_of_mem _ h)) ini _ _
      · rw [if_neg fun h => hh (hhead.mp h)]
        exact parseKeyval_spec ht0 hh ini _ _
    obtain ⟨M, hM, hres, hok, hpush⟩ := hread
    refine ⟨ht, W ++ M ++ (K ++ C), ?_, by rw [hres]; simp, hok, fun hwf => ?_⟩
    · simp only [List.length_append]
      omega
    · obtain ⟨base', hb, hp⟩ := hpush hwf
      exact ⟨base', hb, by simpa using hp.append (K ++ C)⟩

end Line

/-! ## All lines -/

section Lines

variable {buf text P R : List UInt8} {base base' : List IniSection}

def NameAt (buf : List UInt8) : Option Nat → List UInt8 → Prop
  | none, n => n = []
  | some p, n => StrAt buf p n

def KvRep (buf : List UInt8) (kv : KeyVal) (e : List UInt8 × List UInt8) : Prop :=
  StrAt buf kv.key e.1 ∧ ValAt buf kv.val e.2

def SecRep (buf : List UInt8) (sec : IniSection) (s : List UInt8 × IniEntries) : Prop :=
  NameAt buf sec.name s.1 ∧ List.Forall₂ (KvRep buf) sec.kv s.2

/-- The list `base` stands for sections whose newest entry and newest section come first. -/
def BaseRep (buf : List UInt8) (base : List IniSection) (secs : List (List UInt8 × IniEntries)) :
    Prop :=
  List.Forall₂ (SecRep buf) base secs

theorem NameAt.append {w : Option Nat} {n : List UInt8} (h : NameAt buf w n) (R : List UInt8) :
    NameAt (buf ++ R) w n := by
  cases w with
  | none => exact h
  | some p => exact StrAt.append h R

theorem BaseRep.append {secs : List (List UInt8 × IniEntries)} (h : BaseRep buf base secs)
    (R : List UInt8) : BaseRep (buf ++ R) base secs :=
  List.Forall₂.imp (fun _ _ hs => ⟨hs.1.append R,
    List.Forall₂.imp (fun _ _ hk => ⟨hk.1.append R, hk.2.append R⟩) hs.2⟩) h

/-- The sections, newest first, after one more line. -/
def pushItem : List (List UInt8 × IniEntries) → IniItem → List (List UInt8 × IniEntries)
  | secs, .header n => (n, []) :: secs
  | [], .entry _ _ => []
  | s :: secs, .entry k v => (s.1, (k, v) :: s.2) :: secs

theorem BaseRep.pushed {secs : List (List UInt8 × IniEntries)} {i : IniItem}
    (h : BaseRep buf base secs) (hp : Pushed buf base base' i) :
    BaseRep buf base' (pushItem secs i) := by
  cases i with
  | header n =>
    obtain ⟨q, hq, rfl⟩ := hp
    exact .cons ⟨hq, .nil⟩ h
  | entry k v =>
    obtain ⟨q, w, hq, hw, rfl⟩ := hp
    cases h with
    | nil => exact .nil
    | cons hs hr => exact .cons ⟨hs.1, .cons ⟨hq, hw⟩ hs.2⟩ hr

theorem textLines_last (h : 10 ∉ text) :
    textLines text = if lineText text = [] then [] else [lineText text] := by
  have hs : text.splitOn 10 = [text] := List.splitOn_eq_singleton h
  rw [textLines, hs]
  by_cases ht : lineText text = [] <;> simp [ht]

theorem textLines_line {l rest : List UInt8} (h : 10 ∉ l) :
    textLines (l ++ 10 :: rest) =
      (if lineText l = [] then [] else [lineText l]) ++ textLines rest := by
  have hs : (l ++ 10 :: rest).splitOn 10 = l :: rest.splitOn 10 := by
    rw [List.splitOn_append_cons_self_of_not_mem h]
  rw [textLines, hs, textLines]
  by_cases ht : lineText l = [] <;> simp [ht]

/-- What a run over the lines `ls` returns, from the sections `secs` on. -/
def LinesRead (R : List UInt8) (ini : Ini) (secs : List (List UInt8 × IniEntries))
    (ls : List (List UInt8)) (res : Ini × List UInt8 × Bool) : Prop :=
  ∃ B, res.2.1 = B ++ R ∧ (res.2.2 = true ↔ ∀ l ∈ ls, WellFormed l) ∧
    (res.2.2 = true → ∃ base', res.1 = { ini with base := base' } ∧
      BaseRep B base' ((ls.map lineItem).foldl pushItem secs))

/-- One line as a run, with the buffer split behind it for the lines that follow. -/
theorem parseLine_read {l : List UInt8} {secs : List (List UInt8 × IniEntries)} (h0 : 0 ∉ l)
    {ini : Ini} (P T : List UInt8) (hrep : BaseRep P ini.base secs) :
    ∃ M, M.length = l.length + 1 ∧
      (ini.parseLine (P ++ (l ++ 0 :: T)) P.length).2.1 = P ++ M ++ T ∧
      ((ini.parseLine (P ++ (l ++ 0 :: T)) P.length).2.2 = true ↔
        lineText l = [] ∨ WellFormed (lineText l)) ∧
      ((ini.parseLine (P ++ (l ++ 0 :: T)) P.length).2.2 = true →
        ∃ base', (ini.parseLine (P ++ (l ++ 0 :: T)) P.length).1 = { ini with base := base' } ∧
          BaseRep (P ++ M) base' (if lineText l = [] then secs
            else pushItem secs (lineItem (lineText l)))) := by
  obtain ⟨ht, M, hM, hres⟩ | ⟨ht, M, hM, hbuf, hok, hpush⟩ := parseLine_spec h0 ini P T
  · refine ⟨M, hM, by rw [hres], by simp [hres, ht], fun _ => ⟨ini.base, by rw [hres], ?_⟩⟩
    rw [if_pos ht]
    exact hrep.append M
  · refine ⟨M, hM, hbuf, by simp [hok, ht], fun h => ?_⟩
    obtain ⟨base', hb, hp⟩ := hpush (hok.mp h)
    refine ⟨base', hb, ?_⟩
    rw [if_neg ht]
    exact (hrep.append M).pushed hp

/-- **All lines.** The loop ends within a round a byte and reads every line, or stops at the first
one that is not well formed. -/
theorem parseLoop_spec (rounds : Nat) (h0 : 0 ∉ text) (hr : text.length < rounds)
    {ini : Ini} {secs : List (List UInt8 × IniEntries)} (P R : List UInt8)
    (hrep : BaseRep P ini.base secs) :
    ∃ res, Ini.parseLoop rounds ini (P ++ (text ++ 0 :: R)) P.length = some res ∧
      LinesRead R ini secs (textLines text) res := by
  induction rounds generalizing text ini secs P with
  | zero => omega
  | succ rounds ih =>
    by_cases hnl : 10 ∈ text
    swap
    · rw [Ini.parseLoop, strchr_none h0 hnl (by decide)]
      obtain ⟨M, -, hbuf, hok, hpush⟩ := parseLine_read h0 P R hrep
      refine ⟨_, rfl, P ++ M, hbuf, ?_, fun h => ?_⟩
      · rw [hok, textLines_last hnl]
        by_cases ht : lineText text = [] <;> simp [ht]
      · obtain ⟨base', hb, hrep'⟩ := hpush h
        refine ⟨base', hb, ?_⟩
        rw [textLines_last hnl]
        by_cases ht : lineText text = [] <;> simpa [ht] using hrep'
    have hsplit := split_first hnl
    have hl := not_mem_takeWhile_ne text 10
    generalize (text.takeWhile fun b => b ≠ 10) = l at *
    generalize (text.dropWhile fun b => b ≠ 10).tail = rest at *
    subst hsplit
    have hl0 : 0 ∉ l := fun h => h0 (by simp [h])
    have hrest0 : 0 ∉ rest := fun h => h0 (by simp [h])
    have hfind : strchr (P ++ (l ++ 10 :: rest ++ 0 :: R)) P.length 10 = some (P ++ l).length := by
      rw [List.append_assoc l, List.cons_append, strchr_some hl0 hl, ← List.length_append]
    have hset : (P ++ (l ++ 10 :: rest ++ 0 :: R)).set (P ++ l).length 0 =
        P ++ (l ++ 0 :: (rest ++ 0 :: R)) := by
      rw [show P ++ (l ++ 10 :: rest ++ 0 :: R) = (P ++ l) ++ 10 :: (rest ++ 0 :: R) by simp,
        set_behind]
      simp
    obtain ⟨M, hM, hbuf, hok, hpush⟩ := parseLine_read hl0 P (rest ++ 0 :: R) hrep
    rw [Ini.parseLoop, hfind]
    simp only [hset]
    rw [textLines_line hl]
    generalize ini.parseLine (P ++ (l ++ 0 :: (rest ++ 0 :: R))) P.length = res at *
    obtain ⟨ini', buf', ok⟩ := res
    simp only at hbuf hok hpush
    subst hbuf
    cases ok with
    | false =>
      -- The line is not well formed and the loop stops.
      have hbad : lineText l ≠ [] ∧ ¬ WellFormed (lineText l) := by simpa using hok
      refine ⟨_, rfl, P ++ M ++ (rest ++ [0]), by simp, iff_of_false (by simp) fun h => ?_,
        fun h => by cases h⟩
      exact hbad.2 (h _ (by simp [hbad.1]))
    | true =>
      obtain ⟨base', rfl, hrep'⟩ := hpush rfl
      have hrep' : BaseRep (P ++ M) (Ini.base { ini with base := base' }) _ := hrep'
      have hnext : (P ++ l).length + 1 = (P ++ M).length := by
        simp only [List.length_append]
        omega
      obtain ⟨res, hres, B, hB, hok', hpush'⟩ := ih hrest0
        (by simp only [List.length_append, List.length_cons] at hr; omega)
        (P ++ M) hrep'
      have hgood : lineText l = [] ∨ WellFormed (lineText l) := by simpa using hok
      refine ⟨res, ?_, B, hB, ?_, fun h => ?_⟩
      · simp only [hnext]
        exact hres
      · rw [hok']
        by_cases ht : lineText l = []
        · simp [ht]
        · simp [ht, hgood.resolve_left ht]
      · obtain ⟨base'', hb, hrep''⟩ := hpush' h
        refine ⟨base'', hb, ?_⟩
        by_cases ht : lineText l = []
        · simpa [ht] using hrep''
        · simpa [ht] using hrep''

/-- Pushing line after line to the front gives the sections in reverse. -/
theorem foldl_pushItem (items : List IniItem) (n : List UInt8) (es : IniEntries)
    (secs : List (List UInt8 × IniEntries)) :
    items.foldl pushItem ((n, es) :: secs) =
      ((splitItems items).2.map fun s => (s.1, s.2.reverse)).reverse ++
        (n, (splitItems items).1.reverse ++ es) :: secs := by
  induction items generalizing n es secs with
  | nil => rfl
  | cons i items ih =>
    cases i with
    | header m =>
      rw [List.foldl_cons, pushItem, ih]
      simp [splitItems]
    | entry k v =>
      rw [List.foldl_cons, pushItem, ih]
      simp [splitItems]

end Lines

/-! ## Queries -/

section Queries

variable {buf sec key : List UInt8} {base : List IniSection} {ini : Ini}

theorem findLast_append (n : IniSection) (i : Nat) (node : Option Nat) :
    Ini.findLast buf sec (base ++ [n]) i node =
      if Ini.nameOf buf n = sec then some (i + base.length)
      else Ini.findLast buf sec base i node := by
  induction base generalizing i node with
  | nil => rfl
  | cons m base ih =>
    rw [List.cons_append, Ini.findLast, ih, Ini.findLast, List.length_cons]
    congr 2
    omega

theorem findLast_lt (base : List IniSection) (j : Nat)
    (h : Ini.findLast buf sec base 0 none = some j) : j < base.length := by
  induction base using List.reverseRecOn with
  | nil => cases h
  | append_singleton base n ih =>
    rw [findLast_append] at h
    rw [List.length_append]
    split at h
    · cases h
      simp
    · exact Nat.lt_add_right _ (ih h)

/-- The search ends at the last section of the list with the name. -/
theorem findLast_eq (buf sec : List UInt8) (base : List IniSection) :
    (Ini.findLast buf sec base 0 none).bind (base[·]?) =
      base.reverse.find? fun n => Ini.nameOf buf n = sec := by
  induction base using List.reverseRecOn with
  | nil => rfl
  | append_singleton base n ih =>
    rw [findLast_append, List.reverse_append, List.reverse_singleton, List.singleton_append,
      List.find?_cons]
    by_cases hn : Ini.nameOf buf n = sec
    · simp [hn]
    · rw [if_neg hn, ← ih]
      simp only [hn, decide_false]
      cases hj : Ini.findLast buf sec base 0 none with
      | none => rfl
      | some j => exact List.getElem?_append_left (findLast_lt base j hj)

/-- A cached section is the one that a search for its name would find. -/
def CacheOk (ini : Ini) (buf : List UInt8) : Prop :=
  ∀ i, ini.cache = some i → ∃ n, ini.base[i]? = some n ∧
    Ini.findLast buf (Ini.nameOf buf n) ini.base 0 none = some i

theorem cacheOk_found {i : Nat} (h : Ini.findLast buf sec ini.base 0 none = some i) :
    CacheOk { ini with cache := some i } buf := by
  intro j hj
  obtain rfl : i = j := Option.some_inj.mp hj
  have hfound := findLast_eq buf sec ini.base
  have hi := findLast_lt _ _ h
  rw [h, Option.bind_some, List.getElem?_eq_getElem hi] at hfound
  have hname := List.find?_some hfound.symm
  rw [decide_eq_true_eq] at hname
  exact ⟨_, List.getElem?_eq_getElem hi, by rw [hname]; exact h⟩

/-- With such a cache a query is answered as if there were none, and leaves such a cache. -/
theorem value_eq (hc : CacheOk ini buf) (sec key : List UInt8) (dflt : Option (List UInt8)) :
    (ini.value buf sec key dflt).2 = Ini.findKey buf key dflt
        ((ini.base.reverse.find? fun n => Ini.nameOf buf n = sec).elim [] IniSection.kv) ∧
      (ini.value buf sec key dflt).1.base = ini.base ∧ CacheOk (ini.value buf sec key dflt).1 buf := by
  have hnode : (if (ini.cache.bind (ini.base[·]?)).any fun n => Ini.nameOf buf n = sec then ini.cache
      else Ini.findLast buf sec ini.base 0 none) = Ini.findLast buf sec ini.base 0 none := by
    split
    · next hcached =>
      obtain ⟨n, hn, hname⟩ := (Option.any_eq_true _ _).mp hcached
      obtain ⟨i, hi, hni⟩ := Option.bind_eq_some_iff.mp hn
      obtain ⟨m, hm, hfind⟩ := hc i hi
      obtain rfl : m = n := Option.some_inj.mp (hm.symm.trans hni)
      rw [decide_eq_true_eq] at hname
      rw [hi, ← hfind, hname]
    · rfl
  simp only [Ini.value, hnode]
  cases hf : Ini.findLast buf sec ini.base 0 none with
  | none =>
    refine ⟨?_, rfl, hc⟩
    rw [← findLast_eq, hf]
    rfl
  | some i =>
    refine ⟨?_, rfl, cacheOk_found hf⟩
    rw [← findLast_eq, hf]
    rfl

/-- The object after a list of queries. -/
def Ini.queries (ini : Ini) (buf : List UInt8)
    (qs : List (List UInt8 × List UInt8 × Option (List UInt8))) : Ini :=
  qs.foldl (fun ini q => (ini.value buf q.1 q.2.1 q.2.2).1) ini

theorem queries_spec (qs : List (List UInt8 × List UInt8 × Option (List UInt8)))
    (hc : CacheOk ini buf) :
    (ini.queries buf qs).base = ini.base ∧ CacheOk (ini.queries buf qs) buf := by
  induction qs generalizing ini with
  | nil => exact ⟨rfl, hc⟩
  | cons q qs ih =>
    obtain ⟨-, hb, hc'⟩ := value_eq hc q.1 q.2.1 q.2.2
    obtain ⟨hb', hc''⟩ := ih hc'
    exact ⟨hb'.trans hb, hc''⟩

theorem NameAt.nameOf {s : IniSection} {n : List UInt8} (h : NameAt buf s.name n) :
    Ini.nameOf buf s = n := by
  obtain ⟨name, kv⟩ := s
  cases name with
  | none => exact Eq.symm h
  | some p => exact StrAt.cstr h

/-- A search over represented sections finds the represented section. -/
theorem find_rep {secs : List (List UInt8 × IniEntries)} (h : BaseRep buf base secs)
    (sec : List UInt8) :
    Option.Rel (SecRep buf) (base.find? fun n => Ini.nameOf buf n = sec)
      (secs.find? fun s => s.1 = sec) := by
  induction h with
  | nil => exact .none
  | cons hs _ ih =>
    rw [List.find?_cons, List.find?_cons, hs.1.nameOf]
    split
    · exact .some hs
    · exact ih

theorem findKey_rep {kv : List KeyVal} {es : IniEntries} (h : List.Forall₂ (KvRep buf) kv es)
    (dflt : Option (List UInt8)) :
    Ini.findKey buf key dflt kv =
      match es.find? fun e => e.1 = key with
      | none => dflt
      | some e => if e.2 = [] then dflt else some e.2 := by
  induction h with
  | nil => rfl
  | @cons k e _ _ hk _ ih =>
    rw [Ini.findKey, List.find?_cons, hk.1.cstr, ih]
    by_cases hkey : e.1 = key
    · simp only [hkey, if_true, decide_true]
      obtain ⟨kp, vp⟩ := k
      have hv := hk.2
      cases vp with
      | none =>
        have he : e.2 = [] := hv
        rw [if_pos he]
      | some p =>
        rw [if_neg hv.1, ← StrAt.cstr hv.2]
    · simp only [hkey, if_false, decide_false]

end Queries

/-- `parse` on a text: the object it leaves represents the sections in reverse. -/
theorem parse_rep (ini : Ini) (text R : List UInt8) (h0 : 0 ∉ text) :
    ∃ parsed buf ok, ini.parse (text ++ 0 :: R) = some (parsed, buf, ok) ∧
      (ok = true ↔ ∀ l ∈ textLines text, WellFormed l) ∧
      (ok = true → parsed.cache = none ∧ parsed.next = none ∧
        BaseRep buf parsed.base.reverse ((sections text).map fun s => (s.1, s.2.reverse))) := by
  have hrep : BaseRep [] (Ini.base { ini.clear with base := ⟨none, []⟩ :: ini.clear.base })
      [([], [])] := .cons ⟨rfl, .nil⟩ .nil
  obtain ⟨⟨parsed, buf, ok⟩, hres, B, hB, hok, hpush⟩ :=
    parseLoop_spec ((text ++ 0 :: R).length + 1) h0
      (by simp only [List.length_append]; omega) [] R hrep
  refine ⟨parsed, buf, ok, hres, hok, fun h => ?_⟩
  obtain ⟨base, hparsed, hbase⟩ := hpush h
  simp only at hB hparsed
  have hsecs : (List.foldl pushItem [([], [])] ((textLines text).map lineItem)).reverse =
      (sections text).map fun s => (s.1, s.2.reverse) := by
    rw [foldl_pushItem]
    simp [sections]
  have hrev := List.rel_reverse (hbase.append R)
  rw [hsecs, ← hB] at hrev
  rw [hparsed]
  exact ⟨rfl, rfl, hrev⟩

/-- **The meaning of an INI text.** For every text, whatever the object held before and whatever
stands behind the text in memory, `parse` returns, it returns `true` exactly for texts of well formed
lines, and then every query, after any others, is answered by `meaning`. -/
theorem ini_meaning (ini : Ini) (text R : List UInt8) (h0 : 0 ∉ text) :
    ∃ parsed buf ok, ini.parse (text ++ 0 :: R) = some (parsed, buf, ok) ∧
      (ok = true ↔ ∀ l ∈ textLines text, WellFormed l) ∧
      (ok = true → ∀ earlier sec key dflt,
        ((parsed.queries buf earlier).value buf sec key dflt).2 = meaning text sec key dflt) := by
  obtain ⟨parsed, buf, ok, hres, hok, hrep⟩ := parse_rep ini text R h0
  refine ⟨parsed, buf, ok, hres, hok, fun h earlier sec key dflt => ?_⟩
  obtain ⟨hcache, -, hbase⟩ := hrep h
  have hc : CacheOk parsed buf := by
    intro i hi
    rw [hcache] at hi
    cases hi
  obtain ⟨hb, hc'⟩ := queries_spec earlier hc
  have hfound := find_rep hbase sec
  rw [List.find?_map] at hfound
  rw [(value_eq hc' sec key dflt).1, hb, meaning]
  generalize parsed.base.reverse.find? (fun n => decide (Ini.nameOf buf n = sec)) = found at *
  change Option.Rel _ _ (((sections text).find? fun s => s.1 = sec).map _) at hfound
  cases hs : (sections text).find? fun s => s.1 = sec with
  | none =>
    rw [hs] at hfound
    cases hfound
    rfl
  | some s =>
    rw [hs] at hfound
    cases hfound with
    | some hrep => exact findKey_rep hrep.2 dflt

/-- The text of `test_ini.cpp`. -/
def testIni : List UInt8 :=
  " [ main]\n author = wh\n\rtime = 2014 \n[te st ] \n;qweqweqweqwe\nresult=false\n".toUTF8.toList

theorem ini_meaning_test :
    (∀ l ∈ textLines testIni, WellFormed l) ∧
      meaning testIni "main".toUTF8.toList "time".toUTF8.toList none = some "2014".toUTF8.toList ∧
      ∃ parsed buf ok,
        Ini.parse ⟨[⟨some 4, []⟩], some 0, none, []⟩ (testIni ++ 0 :: [7]) = some (parsed, buf, ok) ∧
        (ok = true ↔ ∀ l ∈ textLines testIni, WellFormed l) ∧
        (ok = true → ∀ earlier sec key dflt,
          ((parsed.queries buf earlier).value buf sec key dflt).2 = meaning testIni sec key dflt) :=
  ⟨by decide +kernel, by decide +kernel, ini_meaning _ testIni [7] (by decide +kernel)⟩

end HoNet.Cfg
