import HoNet.Cfg.IniMeaning

/-!
# Queries by name and section by section

`ini::value(sec, key, def)` looks a section up by its name, through `cache`; `next_section` moves the
pointer `next` along the list, and `value(key, def)` asks the section it is at. The forms with a
number for `def` ask the ones here with `NULL` and convert what they get.

* `asks_spec` — what any queries leave of the object.
* `visits_between` — between two `next_section` calls that return `false` every section is visited
  once.
* `lookups_agree` — what the queries are to answer (`Ini.Agrees`), after every text that is parsed.
-/

namespace HoNet.Cfg

open HoNet.CString

namespace Ini

/-- `next_section`. -/
def nextSection (ini : Ini) : Ini × Bool :=
  let next := match ini.next with
    | some i => if i + 1 < ini.base.length then some (i + 1) else none
    | none => if 0 < ini.base.length then some 0 else none
  ({ ini with next := next }, next.isSome)

/-- `value(key, def)`: the string returned. -/
def valueHere (ini : Ini) (buf key : List UInt8) (dflt : Option (List UInt8)) :
    Option (List UInt8) :=
  findKey buf key dflt ((ini.next.bind (ini.base[·]?)).elim [] IniSection.kv)

inductive Query where
  | byName (sec key : List UInt8) (dflt : Option (List UInt8))
  | nextSection
  | here (key : List UInt8) (dflt : Option (List UInt8))
  deriving DecidableEq, Repr

/-- The object after one query. -/
def ask (ini : Ini) (buf : List UInt8) : Query → Ini
  | .byName sec key dflt => (ini.value buf sec key dflt).1
  | .nextSection => ini.nextSection.1
  | .here _ _ => ini

def asks (ini : Ini) (buf : List UInt8) (qs : List Query) : Ini :=
  qs.foldl (fun ini q => ini.ask buf q) ini

/-- The section each `next_section` call of the queries moves to, `none` where it returns `false`. -/
def visits (buf : List UInt8) : Ini → List Query → List (Option Nat)
  | _, [] => []
  | ini, .nextSection :: qs => ini.nextSection.1.next :: visits buf ini.nextSection.1 qs
  | ini, q :: qs => visits buf (ini.ask buf q) qs

/-- What a search of the section list without the cache finds. -/
def search (base : List IniSection) (buf sec key : List UInt8) (dflt : Option (List UInt8)) :
    Option (List UInt8) :=
  findKey buf key dflt (((findLast buf sec base 0 none).bind (base[·]?)).elim [] IniSection.kv)

end Ini

/-! ## The cursor -/

section Cursor

/-- The pointer after `next_section` on a list of `n` sections. -/
def advance (n : Nat) : Option Nat → Option Nat
  | some i => if i + 1 < n then some (i + 1) else none
  | none => if 0 < n then some 0 else none

/-- Where it is after each of a number of calls. -/
def advances (n : Nat) : Option Nat → Nat → List (Option Nat)
  | _, 0 => []
  | c, k + 1 => advance n c :: advances n (advance n c) k

variable {n : Nat} {c : Option Nat}

/-- Behind a position the calls go on from there. -/
theorem advances_tail {A D : List (Option Nat)} {x : Option Nat} {k : Nat}
    (h : advances n c k = A ++ x :: D) : ∃ k', D = advances n x k' := by
  induction A generalizing c k with
  | nil =>
    cases k with
    | zero => cases h
    | succ k =>
      obtain ⟨hx, hD⟩ := List.cons.inj h
      exact ⟨k, by rw [← hD, hx]⟩
  | cons a A ih =>
    cases k with
    | zero => cases h
    | succ k => exact ih (List.cons.inj h).2

theorem drop_range {i : Nat} (hi : i < n) :
    (List.range n).drop i = i :: (List.range n).drop (i + 1) := by
  have hdrop := List.drop_eq_getElem_cons (l := List.range n) (i := i)
    (by rw [List.length_range]; exact hi)
  rwa [List.getElem_range] at hdrop

/-- From a section on, the later ones are visited up to the next `false`. -/
theorem advances_rest {B C : List (Option Nat)} {i k : Nat}
    (h : advances n (some i) k = B ++ none :: C) (hB : none ∉ B) :
    B = ((List.range n).drop (i + 1)).map some := by
  induction B generalizing i k with
  | nil =>
    cases k with
    | zero => cases h
    | succ k =>
      have hend : advance n (some i) = none := (List.cons.inj h).1
      by_cases hi : i + 1 < n
      · rw [advance, if_pos hi] at hend
        cases hend
      · rw [List.drop_eq_nil_of_le (by rw [List.length_range]; omega)]
        rfl
  | cons b B ih =>
    cases k with
    | zero => cases h
    | succ k =>
      obtain ⟨hb, hrest⟩ := List.cons.inj h
      rw [List.mem_cons, not_or] at hB
      by_cases hi : i + 1 < n
      · rw [advance, if_pos hi] at hb hrest
        rw [ih hrest hB.2, ← hb, drop_range hi]
        rfl
      · rw [advance, if_neg hi] at hb
        exact absurd hb hB.1

/-- From `false` to `false` all of them are, in order. -/
theorem advances_between {B C : List (Option Nat)} {k : Nat}
    (h : advances n none k = B ++ none :: C) (hB : none ∉ B) : B = (List.range n).map some := by
  cases k with
  | zero => exact absurd (congrArg List.length h) (by simp [advances])
  | succ k =>
    by_cases hn : 0 < n
    · rw [advances, advance, if_pos hn] at h
      cases B with
      | nil => cases h
      | cons b B =>
        obtain ⟨hb, hrest⟩ := List.cons.inj h
        rw [List.mem_cons, not_or] at hB
        have hzero := drop_range hn
        rw [List.drop_zero] at hzero
        rw [advances_rest hrest hB.2, ← hb, hzero]
        rfl
    · obtain rfl : n = 0 := by omega
      cases B with
      | nil => rfl
      | cons b B =>
        have hb : none = b := (List.cons.inj h).1
        exact absurd List.mem_cons_self (hb ▸ hB)

end Cursor

/-! ## Runs -/

section Runs

variable {ini : Ini} {buf : List UInt8}

theorem nextSection_next (ini : Ini) :
    ini.nextSection.1 = { ini with next := advance ini.base.length ini.next } := by
  cases h : ini.next <;> simp [Ini.nextSection, advance, h]

/-- What queries rely on: a sound cache, and a cursor inside the list. -/
structure Ini.Ready (ini : Ini) (buf : List UInt8) : Prop where
  cache : CacheOk ini buf
  next_lt : ∀ i, ini.next = some i → i < ini.base.length

theorem advance_lt {n i : Nat} {c : Option Nat} (h : advance n c = some i) : i < n := by
  cases c with
  | none =>
    rw [advance] at h
    split_ifs at h with hn
    cases h
    exact hn
  | some j =>
    rw [advance] at h
    split_ifs at h with hj
    cases h
    exact hj

theorem value_next (ini : Ini) (buf sec key : List UInt8) (dflt : Option (List UInt8)) :
    (ini.value buf sec key dflt).1.next = ini.next := by
  unfold Ini.value
  dsimp only
  split_ifs <;> rfl

theorem ask_spec (h : ini.Ready buf) (q : Ini.Query) :
    (ini.ask buf q).base = ini.base ∧ (ini.ask buf q).Ready buf := by
  cases q with
  | byName sec key dflt =>
    obtain ⟨-, hbase, hcache⟩ := value_eq h.cache sec key dflt
    refine ⟨hbase, hcache, fun i hi => ?_⟩
    have hi : (ini.value buf sec key dflt).1.next = some i := hi
    rw [value_next] at hi
    have hlt := h.next_lt i hi
    rwa [← hbase] at hlt
  | nextSection =>
    rw [Ini.ask, nextSection_next]
    exact ⟨rfl, h.cache, fun i hi => advance_lt hi⟩
  | here key dflt => exact ⟨rfl, h⟩

/-- **Queries.** In any order they leave the list, a sound cache and a cursor inside the list. -/
theorem asks_spec (h : ini.Ready buf) (qs : List Ini.Query) :
    (ini.asks buf qs).base = ini.base ∧ (ini.asks buf qs).Ready buf := by
  induction qs generalizing ini with
  | nil => exact ⟨rfl, h⟩
  | cons q qs ih =>
    obtain ⟨hbase, hready⟩ := ask_spec h q
    obtain ⟨hbase', hready'⟩ := ih hready
    exact ⟨hbase'.trans hbase, hready'⟩

/-- Queries by name do not move the cursor. -/
theorem visits_eq (h : ini.Ready buf) (qs : List Ini.Query) :
    ∃ k, Ini.visits buf ini qs = advances ini.base.length ini.next k := by
  induction qs generalizing ini with
  | nil => exact ⟨0, rfl⟩
  | cons q qs ih =>
    obtain ⟨hbase, hready⟩ := ask_spec h q
    obtain ⟨k, hk⟩ := ih hready
    rw [hbase] at hk
    cases q with
    | byName sec key dflt =>
      have hnext : (ini.ask buf (.byName sec key dflt)).next = ini.next :=
        value_next ini buf sec key dflt
      rw [hnext] at hk
      exact ⟨k, hk⟩
    | nextSection =>
      have hnext : (ini.ask buf .nextSection).next = advance ini.base.length ini.next := by
        rw [Ini.ask, nextSection_next]
      rw [hnext] at hk
      refine ⟨k + 1, ?_⟩
      rw [Ini.visits, advances]
      exact congr (congrArg List.cons hnext) hk
    | here key dflt => exact ⟨k, hk⟩

theorem visits_between (h : ini.Ready buf) {qs : List Ini.Query} {A B C : List (Option Nat)}
    (hlog : Ini.visits buf ini qs = A ++ none :: (B ++ none :: C)) (hB : none ∉ B) :
    B = (List.range ini.base.length).map some := by
  obtain ⟨k, hk⟩ := visits_eq h qs
  rw [hk] at hlog
  obtain ⟨k', hk'⟩ := advances_tail hlog
  exact advances_between hk'.symm hB

theorem visits_first (h : ini.Ready buf) (hnext : ini.next = none) {qs : List Ini.Query}
    {B C : List (Option Nat)} (hlog : Ini.visits buf ini qs = B ++ none :: C) (hB : none ∉ B) :
    B = (List.range ini.base.length).map some := by
  obtain ⟨k, hk⟩ := visits_eq h qs
  rw [hk, hnext] at hlog
  exact advances_between hlog hB

/-- A query by name is a search of the list. -/
theorem value_search (h : ini.Ready buf) (sec key : List UInt8) (dflt : Option (List UInt8)) :
    (ini.value buf sec key dflt).2 = Ini.search ini.base buf sec key dflt := by
  rw [(value_eq h.cache sec key dflt).1, Ini.search, findLast_eq]

/-- A name that only one section has leads to that section. -/
theorem find_of_nodup {l : List IniSection} (hnd : (l.map (Ini.nameOf buf)).Nodup) {n : IniSection}
    (hn : n ∈ l) : (l.find? fun m => Ini.nameOf buf m = Ini.nameOf buf n) = some n := by
  obtain ⟨m, hm⟩ : ∃ m, (l.find? fun m => Ini.nameOf buf m = Ini.nameOf buf n) = some m := by
    refine Option.isSome_iff_exists.mp (List.find?_isSome.mpr ⟨n, hn, ?_⟩)
    exact decide_eq_true rfl
  have hname := List.find?_some hm
  rw [hm, List.inj_on_of_nodup_map hnd (List.mem_of_find?_eq_some hm) hn (of_decide_eq_true hname)]

theorem value_here (h : ini.Ready buf) (hnd : (ini.base.map (Ini.nameOf buf)).Nodup) {i : Nat}
    {n : IniSection} (hi : ini.next = some i) (hn : ini.base[i]? = some n) (key : List UInt8)
    (dflt : Option (List UInt8)) :
    ini.valueHere buf key dflt = (ini.value buf (Ini.nameOf buf n) key dflt).2 := by
  have hrev : (ini.base.reverse.map (Ini.nameOf buf)).Nodup := by
    rw [List.map_reverse]
    exact List.nodup_reverse.mpr hnd
  have hmem : n ∈ ini.base.reverse := List.mem_reverse.mpr (List.mem_of_getElem? hn)
  rw [(value_eq h.cache _ key dflt).1, find_of_nodup hrev hmem, Ini.valueHere, hi, Option.bind_some,
    hn]

theorem names_rep {base : List IniSection} {secs : List (List UInt8 × IniEntries)}
    (h : BaseRep buf base secs) : base.map (Ini.nameOf buf) = secs.map Prod.fst := by
  induction h with
  | nil => rfl
  | cons hs _ ih => rw [List.map_cons, List.map_cons, hs.1.nameOf, ih]

/-- What queries of an object are to answer, in any interleaving, after it has parsed `text`. -/
structure Ini.Agrees (text : List UInt8) (parsed : Ini) (buf : List UInt8) : Prop where
  /-- The list holds the sections of the text, the unnamed one included. -/
  names : parsed.base.map (nameOf buf) = ((sections text).map Prod.fst).reverse
  /-- A query by name is answered as by a search of the list without the cache. -/
  byName : ∀ qs sec key dflt,
    ((parsed.asks buf qs).value buf sec key dflt).2 = search parsed.base buf sec key dflt
  /-- Between two `next_section` calls that return `false` every section is visited once. -/
  between : ∀ qs A B C, visits buf parsed qs = A ++ none :: (B ++ none :: C) → none ∉ B →
    B = (List.range parsed.base.length).map some
  /-- So it is up to the first one that does. -/
  first : ∀ qs B C, visits buf parsed qs = B ++ none :: C → none ∉ B →
    B = (List.range parsed.base.length).map some
  /-- With distinct names, asking a visited section is asking for its name. -/
  here : ((sections text).map Prod.fst).Nodup → ∀ qs i, (parsed.asks buf qs).next = some i →
    ∃ n, parsed.base[i]? = some n ∧ ∀ key dflt, (parsed.asks buf qs).valueHere buf key dflt =
      ((parsed.asks buf qs).value buf (nameOf buf n) key dflt).2

/-- **The ways to a value agree** after every text that is parsed. -/
theorem lookups_agree (ini : Ini) (text R : List UInt8) (h0 : 0 ∉ text) :
    ∃ parsed buf ok, ini.parse (text ++ 0 :: R) = some (parsed, buf, ok) ∧
      (ok = true → Ini.Agrees text parsed buf) := by
  obtain ⟨parsed, buf, ok, hres, -, hrep⟩ := parse_rep ini text R h0
  refine ⟨parsed, buf, ok, hres, fun hok => ?_⟩
  obtain ⟨hcache, hnext, hbase⟩ := hrep hok
  have hready : parsed.Ready buf := by
    refine ⟨fun i hi => ?_, fun i hi => ?_⟩
    · rw [hcache] at hi
      cases hi
    · rw [hnext] at hi
      cases hi
  have hnames : parsed.base.map (Ini.nameOf buf) = ((sections text).map Prod.fst).reverse := by
    have hmap := names_rep hbase
    rw [List.map_map, List.map_reverse] at hmap
    rw [← List.reverse_reverse (parsed.base.map (Ini.nameOf buf)), hmap]
    rfl
  refine ⟨hnames, fun qs sec key dflt => ?_, fun qs A B C => visits_between hready,
    fun qs B C => visits_first hready hnext, fun hnd qs i hi => ?_⟩
  · obtain ⟨hsame, hready'⟩ := asks_spec hready qs
    rw [value_search hready', hsame]
  · obtain ⟨hsame, hready'⟩ := asks_spec hready qs
    have hlt := hready'.next_lt i hi
    have hnd' : ((parsed.asks buf qs).base.map (Ini.nameOf buf)).Nodup := by
      rw [hsame, hnames]
      exact List.nodup_reverse.mpr hnd
    rw [hsame] at hlt
    refine ⟨parsed.base[i], List.getElem?_eq_getElem hlt, fun key dflt => ?_⟩
    exact value_here hready' hnd' hi (by rw [hsame]; exact List.getElem?_eq_getElem hlt) key dflt

end Runs

/-- The text of `test_ini.cpp`, parsed by an object that held a section before. -/
theorem lookups_agree_test :
    ∃ parsed buf,
      Ini.parse ⟨[⟨some 4, []⟩], some 0, none, []⟩ (testIni ++ 0 :: [7]) = some (parsed, buf, true) ∧
        Ini.Agrees testIni parsed buf := by
  obtain ⟨parsed, buf, ok, hparse, hagree⟩ :=
    lookups_agree ⟨[⟨some 4, []⟩], some 0, none, []⟩ testIni [7] (by decide +kernel)
  have hok : (Ini.parse ⟨[⟨some 4, []⟩], some 0, none, []⟩ (testIni ++ 0 :: [7])).map (fun r => r.2.2) =
      some true := by decide +kernel
  rw [hparse] at hok
  obtain rfl : ok = true := Option.some.inj hok
  exact ⟨parsed, buf, hparse, hagree rfl⟩

end HoNet.Cfg
