import HoNet.Cfg.IniMeaning
import HoNet.Cfg.StringUtil

/-!
# Writing an INI text and reading it back

An INI text is written line by line from its sections. What `ini::parse` and `ini::value` make of it
is what was written if and only if names, keys and values are of a kind that the format can hold,
and everything that was read from some text is of that kind.

* `sections_print` — the sections of a text that was written.
* `sections_clean` — what is read from a well formed text can be written.
* `ini_roundtrip` — reading back what was written.
* `ini_canonical` — writing again what was read.
* `ini_ints_read_back` — integers, through `tointeger`.
-/

namespace HoNet.Cfg

open HoNet.CString

abbrev IniDocument := List (List UInt8 × IniEntries)

/-! ## Writing -/

def printItem : IniItem → List UInt8
  | .header n => 91 :: n ++ [93]
  | .entry k v => k ++ 61 :: v

def sectionItems (s : List UInt8 × IniEntries) : List IniItem :=
  .header s.1 :: s.2.map fun e => .entry e.1 e.2

def documentItems (top : IniEntries) (secs : IniDocument) : List IniItem :=
  (top.map fun e => .entry e.1 e.2) ++ secs.flatMap sectionItems

def printLines (ls : List (List UInt8)) : List UInt8 := ls.flatMap fun l => l ++ [10]

/-- The entries before the first header, then the sections. -/
def print (top : IniEntries) (secs : IniDocument) : List UInt8 :=
  printLines ((documentItems top secs).map printItem)

/-! ## What the format can hold -/

/-- A string that stands for itself: in one line, without comment, nothing to trim. -/
structure Plain (s : List UInt8) : Prop where
  no_zero : 0 ∉ s
  no_newline : 10 ∉ s
  no_comment : 59 ∉ s
  first : ∀ c ∈ s.head?, isspace c = false
  last : ∀ c ∈ s.getLast?, isspace c = false

def CleanItem : IniItem → Prop
  | .header n => Plain n ∧ n ≠ [] ∧ 93 ∉ n
  | .entry k v => Plain k ∧ k ≠ [] ∧ 61 ∉ k ∧ k.head? ≠ some 91 ∧ Plain v

def Clean (top : IniEntries) (secs : IniDocument) : Prop :=
  ∀ i ∈ documentItems top secs, CleanItem i

instance : DecidablePred Plain := fun s =>
  decidable_of_iff (0 ∉ s ∧ 10 ∉ s ∧ 59 ∉ s ∧ s.head?.all (fun c => !isspace c) = true ∧
      s.getLast?.all (fun c => !isspace c) = true) <| by
    simp only [Option.all_eq_true, Bool.not_eq_true']
    exact ⟨fun h => ⟨h.1, h.2.1, h.2.2.1, h.2.2.2.1, h.2.2.2.2⟩,
      fun h => ⟨h.no_zero, h.no_newline, h.no_comment, h.first, h.last⟩⟩

instance : DecidablePred CleanItem
  | .header n => inferInstanceAs (Decidable (Plain n ∧ n ≠ [] ∧ 93 ∉ n))
  | .entry k v =>
    inferInstanceAs (Decidable (Plain k ∧ k ≠ [] ∧ 61 ∉ k ∧ k.head? ≠ some 91 ∧ Plain v))

/-! ## Trimmed strings -/

variable {s l : List UInt8}

theorem dropWhile_isspace (h : ∀ c ∈ s.head?, isspace c = false) : s.dropWhile isspace = s := by
  cases s with
  | nil => rfl
  | cons c s => rw [List.dropWhile_cons_of_neg (by rw [h c rfl]; decide)]

theorem rdropWhile_isspace (h : ∀ c ∈ s.getLast?, isspace c = false) :
    s.rdropWhile isspace = s := by
  induction s using List.reverseRecOn with
  | nil => rfl
  | append_singleton s c _ =>
    have hc := h c (by rw [List.getLast?_concat]; rfl)
    rw [List.rdropWhile_concat_neg _ _ _ (by rw [hc]; decide)]

theorem trimmed_self (hfirst : ∀ c ∈ s.head?, isspace c = false)
    (hlast : ∀ c ∈ s.getLast?, isspace c = false) : trimmed s = s := by
  rw [trimmed, dropWhile_isspace hfirst, rdropWhile_isspace hlast]

theorem Plain.trimmed (h : Plain s) : trimmed s = s := trimmed_self h.first h.last

/-- Trimming leaves no white space at either end. -/
theorem trimmed_last (s : List UInt8) : ∀ c ∈ (trimmed s).getLast?, isspace c = false := by
  intro c hc
  have hne : trimmed s ≠ [] := by
    intro he
    rw [he] at hc
    cases hc
  have hlast := List.rdropWhile_last_not isspace (s.dropWhile isspace) hne
  rw [List.getLast?_eq_getLast_of_ne_nil hne] at hc
  rw [← Option.some.inj hc]
  exact Bool.eq_false_of_not_eq_true hlast

theorem trimmed_first (s : List UInt8) : ∀ c ∈ (trimmed s).head?, isspace c = false := by
  intro c hc
  have hpre : trimmed s <+: s.dropWhile isspace := List.rdropWhile_prefix ..
  obtain ⟨t, ht⟩ := hpre
  have hhead : (s.dropWhile isspace).head? = some c := by
    rw [← ht, List.head?_append, hc]
    rfl
  have hnot := List.head?_dropWhile_not isspace s
  rw [hhead] at hnot
  simpa using hnot

/-- A part of a line that has been read can be written. -/
theorem plain_trimmed (h0 : 0 ∉ s) (hn : 10 ∉ s) (hc : 59 ∉ s) : Plain (trimmed s) where
  no_zero hm := h0 (trimmed_subset s hm)
  no_newline hm := hn (trimmed_subset s hm)
  no_comment hm := hc (trimmed_subset s hm)
  first := trimmed_first s
  last := trimmed_last s

/-! ## One line -/

variable {i : IniItem} {k v n : List UInt8}

theorem getLast?_entry (k v : List UInt8) :
    (k ++ 61 :: v).getLast? = some (v.getLast?.getD 61) := by
  rw [List.getLast?_append_of_ne_nil _ (List.cons_ne_nil _ _)]
  cases v with
  | nil => rfl
  | cons c v =>
    rw [List.getLast?_cons_cons, List.getLast?_cons]
    rfl

/-- A line that was written is read as it is. -/
theorem lineText_printItem (h : CleanItem i) : lineText (printItem i) = printItem i := by
  have hcut : 59 ∉ printItem i → lineText (printItem i) = trimmed (printItem i) := fun hc => by
    rw [lineText, takeWhile_ne_of_not_mem hc]
  cases i with
  | header n =>
    obtain ⟨hn, -, -⟩ := h
    rw [hcut (by simp [printItem, hn.no_comment])]
    refine trimmed_self (fun c hc => ?_) fun c hc => ?_
    · obtain rfl : 91 = c := Option.some.inj hc
      decide
    · rw [printItem, List.getLast?_concat] at hc
      obtain rfl : 93 = c := Option.some.inj hc
      decide
  | entry k v =>
    obtain ⟨hk, hne, -, -, hv⟩ := h
    rw [hcut (by simp [printItem, hk.no_comment, hv.no_comment])]
    refine trimmed_self (fun c hc => hk.first c ?_) fun c hc => ?_
    · cases k with
      | nil => exact absurd rfl hne
      | cons b k => exact hc
    · rw [printItem, getLast?_entry] at hc
      obtain rfl := Option.some.inj hc
      cases hlast : v.getLast? with
      | none => decide
      | some b => exact hv.last b hlast

theorem no_newline_printItem (h : CleanItem i) : 10 ∉ printItem i ∧ 0 ∉ printItem i := by
  cases i with
  | header n =>
    obtain ⟨hn, -, -⟩ := h
    simp [printItem, hn.no_newline, hn.no_zero]
  | entry k v =>
    obtain ⟨hk, -, -, -, hv⟩ := h
    simp [printItem, hk.no_newline, hk.no_zero, hv.no_newline, hv.no_zero]

theorem takeWhile_upto {c : UInt8} (h : c ∉ s) (t : List UInt8) :
    (s ++ c :: t).takeWhile (fun b => b ≠ c) = s ∧
      (s ++ c :: t).dropWhile (fun b => b ≠ c) = c :: t := by
  have hall : ∀ b ∈ s, decide (b ≠ c) = true := fun b hb =>
    decide_eq_true fun he => h (he ▸ hb)
  rw [List.takeWhile_append_of_pos hall, List.dropWhile_append_of_pos hall]
  simp

theorem entry_head (hne : k ≠ []) (hh : k.head? ≠ some 91) : (k ++ 61 :: v).head? ≠ some 91 := by
  cases k with
  | nil => exact absurd rfl hne
  | cons c k => exact hh

/-- It is well formed and has the item that was written. -/
theorem lineItem_printItem (h : CleanItem i) :
    WellFormed (printItem i) ∧ lineItem (printItem i) = i := by
  cases i with
  | header n =>
    obtain ⟨hn, hne, hclose⟩ := h
    obtain ⟨htake, -⟩ := takeWhile_upto hclose []
    have hhead : (printItem (.header n)).head? = some 91 := rfl
    have htail : (printItem (.header n)).tail = n ++ [93] := rfl
    rw [WellFormed, lineItem, if_pos hhead, if_pos hhead, htail, htake, hn.trimmed]
    exact ⟨⟨by simp, hne⟩, rfl⟩
  | entry k v =>
    obtain ⟨hk, hne, heq, hbracket, hv⟩ := h
    obtain ⟨htake, hdrop⟩ := takeWhile_upto heq v
    have hhead := entry_head (v := v) hne hbracket
    rw [printItem, WellFormed, lineItem, if_neg hhead, if_neg hhead, htake, hdrop, hk.trimmed,
      List.tail_cons, hv.trimmed]
    exact ⟨⟨by simp, hne⟩, rfl⟩

/-- What a line says can be written, if the line is well formed. -/
theorem lineItem_clean (hl : Plain l) (hwf : WellFormed l) : CleanItem (lineItem l) := by
  have hpart (t : List UInt8) (ht : t ⊆ l) : Plain (trimmed t) :=
    plain_trimmed (fun hm => hl.no_zero (ht hm)) (fun hm => hl.no_newline (ht hm))
      fun hm => hl.no_comment (ht hm)
  rw [WellFormed] at hwf
  rw [lineItem]
  by_cases hhead : l.head? = some 91
  · rw [if_pos hhead] at hwf ⊢
    refine ⟨hpart _ ?_, hwf.2, fun hm => ?_⟩
    · exact List.Subset.trans (List.takeWhile_prefix _).subset (List.tail_subset l)
    · exact not_mem_takeWhile_ne _ _ (trimmed_subset _ hm)
  · rw [if_neg hhead] at hwf ⊢
    refine ⟨hpart _ (List.takeWhile_prefix _).subset, hwf.2,
      fun hm => not_mem_takeWhile_ne _ _ (trimmed_subset _ hm), fun hk => ?_, hpart _ ?_⟩
    · -- the key begins where the line begins
      cases l with
      | nil => exact hwf.2 rfl
      | cons c l =>
        have hspace : isspace c = false := hl.first c rfl
        by_cases hc : c = 61
        · rw [List.takeWhile_cons_of_neg (by simp [hc])] at hk
          cases hk
        · rw [List.takeWhile_cons_of_pos (by simpa using hc), trimmed,
            List.dropWhile_cons_of_neg (by rw [hspace]; decide)] at hk
          obtain ⟨r, hr⟩ := List.rdropWhile_prefix isspace (c :: l.takeWhile fun b => b ≠ 61)
          have hfirst := congrArg List.head? hr
          rw [List.head?_append, hk] at hfirst
          exact hhead hfirst.symm
    · exact List.Subset.trans (List.tail_subset _) (List.dropWhile_suffix _).subset

/-! ## The whole text -/

theorem textLines_printLines {ls : List (List UInt8)}
    (h : ∀ l ∈ ls, 10 ∉ l ∧ lineText l = l ∧ l ≠ []) : textLines (printLines ls) = ls := by
  induction ls with
  | nil => decide +kernel
  | cons l ls ih =>
    obtain ⟨hn, htext, hne⟩ := h l List.mem_cons_self
    have hcons : printLines (l :: ls) = l ++ 10 :: printLines ls := by
      simp [printLines]
    rw [hcons, textLines_line hn, htext, if_neg hne, ih fun l hl => h l (List.mem_cons_of_mem _ hl)]
    rfl

theorem printItem_ne_nil (i : IniItem) : printItem i ≠ [] := by
  cases i <;> simp [printItem]

theorem textLines_print {top : IniEntries} {secs : IniDocument} (h : Clean top secs) :
    textLines (print top secs) = (documentItems top secs).map printItem := by
  refine textLines_printLines fun l hl => ?_
  obtain ⟨i, hi, rfl⟩ := List.mem_map.mp hl
  exact ⟨(no_newline_printItem (h i hi)).1, lineText_printItem (h i hi), printItem_ne_nil i⟩

theorem splitItems_entries (es : IniEntries) (items : List IniItem) :
    splitItems ((es.map fun e => .entry e.1 e.2) ++ items) =
      (es ++ (splitItems items).1, (splitItems items).2) := by
  induction es with
  | nil => rfl
  | cons e es ih =>
    rw [List.map_cons, List.cons_append, splitItems, ih]
    rfl

theorem splitItems_document (top : IniEntries) (secs : IniDocument) :
    splitItems (documentItems top secs) = (top, secs) := by
  have hsecs : splitItems (secs.flatMap sectionItems) = ([], secs) := by
    induction secs with
    | nil => rfl
    | cons s secs ih =>
      rw [List.flatMap_cons, sectionItems, List.cons_append, splitItems, splitItems_entries, ih]
      simp only [List.append_nil]
  rw [documentItems, splitItems_entries, hsecs, List.append_nil]

/-- **The sections of a text that was written.** -/
theorem sections_print {top : IniEntries} {secs : IniDocument} (h : Clean top secs) :
    sections (print top secs) = ([], top) :: secs ∧
      (∀ l ∈ textLines (print top secs), WellFormed l) ∧ 0 ∉ print top secs := by
  have hitems : ((documentItems top secs).map printItem).map lineItem = documentItems top secs := by
    rw [List.map_map]
    exact (List.map_congr_left fun i hi => (lineItem_printItem (h i hi)).2).trans (List.map_id _)
  refine ⟨?_, fun l hl => ?_, fun hm => ?_⟩
  · rw [sections, textLines_print h, hitems, splitItems_document]
  · rw [textLines_print h] at hl
    obtain ⟨i, hi, rfl⟩ := List.mem_map.mp hl
    exact (lineItem_printItem (h i hi)).1
  · obtain ⟨l, hl, hm⟩ := List.mem_flatMap.mp hm
    obtain ⟨i, hi, rfl⟩ := List.mem_map.mp hl
    rcases List.mem_append.mp hm with hm | hm
    · exact (no_newline_printItem (h i hi)).2 hm
    · exact absurd (List.mem_singleton.mp hm) (by decide)

theorem plain_lineText (h0 : 0 ∉ l) (hn : 10 ∉ l) : Plain (lineText l) := by
  have hsub : (l.takeWhile fun b => b ≠ 59) ⊆ l := (List.takeWhile_prefix _).subset
  exact plain_trimmed (fun hm => h0 (hsub hm)) (fun hm => hn (hsub hm)) (not_mem_takeWhile_ne l 59)

/-- The lines of a text stand for themselves. -/
theorem plain_textLines {text : List UInt8} (h0 : 0 ∉ text) : ∀ l ∈ textLines text, Plain l := by
  induction hk : text.length using Nat.strong_induction_on generalizing text with
  | _ k ih =>
    have hone {l : List UInt8} (hl0 : 0 ∉ l) (hln : 10 ∉ l) :
        ∀ x ∈ (if lineText l = [] then [] else [lineText l]), Plain x := by
      intro x hx
      split at hx
      · cases hx
      · rw [List.mem_singleton.mp hx]
        exact plain_lineText hl0 hln
    by_cases hn : 10 ∈ text
    · obtain ⟨a, b, ha, rfl⟩ : ∃ a b, 10 ∉ a ∧ text = a ++ 10 :: b :=
        ⟨_, _, not_mem_takeWhile_ne text 10, split_first hn⟩
      rw [List.mem_append, List.mem_cons, not_or, not_or] at h0
      rw [List.length_append, List.length_cons] at hk
      intro l hl
      rw [textLines_line ha] at hl
      rcases List.mem_append.mp hl with hl | hl
      · exact hone h0.1 ha l hl
      · exact ih b.length (by omega) h0.2.2 rfl l hl
    · rw [textLines_last hn]
      exact hone h0 hn

theorem documentItems_split (items : List IniItem) :
    documentItems (splitItems items).1 (splitItems items).2 = items := by
  induction items with
  | nil => rfl
  | cons i items ih =>
    cases i with
    | header n => exact congrArg (IniItem.header n :: ·) ih
    | entry k v => exact congrArg (IniItem.entry k v :: ·) ih

/-- **What is read from a text can be written**, if the text is well formed. -/
theorem sections_clean {text : List UInt8} (h0 : 0 ∉ text)
    (hwf : ∀ l ∈ textLines text, WellFormed l) :
    ∃ top secs, sections text = ([], top) :: secs ∧ Clean top secs := by
  refine ⟨_, _, rfl, fun i hi => ?_⟩
  rw [documentItems_split] at hi
  obtain ⟨l, hl, rfl⟩ := List.mem_map.mp hi
  exact lineItem_clean (plain_textLines h0 l hl) (hwf l hl)

/-! ## Reading back -/

/-- The value of the last entry for `key` in the first section `sec`, if it is not empty. -/
def lookup (secs : IniDocument) (sec key : List UInt8) (dflt : Option (List UInt8)) :
    Option (List UInt8) :=
  match secs.find? fun s => s.1 = sec with
  | none => dflt
  | some s =>
    match s.2.reverse.find? fun e => e.1 = key with
    | none => dflt
    | some e => if e.2 = [] then dflt else some e.2

/-- The object answers as the sections do, after any other queries. -/
def Answers (parsed : Ini) (buf : List UInt8) (secs : IniDocument) : Prop :=
  ∀ earlier sec key dflt,
    ((parsed.queries buf earlier).value buf sec key dflt).2 = lookup secs sec key dflt

theorem answers_of_rep {parsed : Ini} {buf : List UInt8} {secs : IniDocument}
    (hcache : parsed.cache = none)
    (hrep : BaseRep buf parsed.base.reverse (secs.map fun s => (s.1, s.2.reverse))) :
    Answers parsed buf secs := by
  intro earlier sec key dflt
  have hc : CacheOk parsed buf := fun i hi => by
    rw [hcache] at hi
    cases hi
  obtain ⟨hb, hc'⟩ := queries_spec earlier hc
  rw [(value_eq hc' sec key dflt).1, hb, lookup]
  have hfound := find_rep hrep sec
  rw [List.find?_map] at hfound
  change Option.Rel _ _ ((secs.find? fun s => s.1 = sec).map _) at hfound
  cases hs : secs.find? fun s => s.1 = sec with
  | none =>
    rw [hs] at hfound
    cases hnode : parsed.base.reverse.find? fun n => decide (Ini.nameOf buf n = sec) with
    | none => rfl
    | some node =>
      rw [hnode] at hfound
      cases hfound
  | some s =>
    rw [hs] at hfound
    cases hnode : parsed.base.reverse.find? fun n => decide (Ini.nameOf buf n = sec) with
    | none =>
      rw [hnode] at hfound
      cases hfound
    | some node =>
      rw [hnode] at hfound
      cases hfound with
      | some hrep => exact findKey_rep hrep.2 dflt

/-- `parse` succeeds on a well formed text, and the object answers as its sections do. -/
theorem parse_answers (ini : Ini) {text : List UInt8} (R : List UInt8) (h0 : 0 ∉ text)
    (hwf : ∀ l ∈ textLines text, WellFormed l) :
    ∃ parsed buf, ini.parse (text ++ 0 :: R) = some (parsed, buf, true) ∧
      Answers parsed buf (sections text) := by
  obtain ⟨parsed, buf, ok, hparse, hok, hrep⟩ := parse_rep ini text R h0
  obtain rfl : ok = true := hok.mpr hwf
  obtain ⟨hcache, -, hbase⟩ := hrep rfl
  exact ⟨parsed, buf, hparse, answers_of_rep hcache hbase⟩

/-- **Reading back what was written.** A document is read back as it is from the text that is
written from it exactly if names, keys and values are of a kind that the format can hold, and then
`parse` succeeds on the text, whatever the object held before, and every query, after any others, is
answered from the document. -/
theorem ini_roundtrip (top : IniEntries) (secs : IniDocument) :
    ((0 ∉ print top secs ∧ (∀ l ∈ textLines (print top secs), WellFormed l) ∧
      sections (print top secs) = ([], top) :: secs) ↔ Clean top secs) ∧
    (Clean top secs → ∀ (ini : Ini) R, ∃ parsed buf,
      ini.parse (print top secs ++ 0 :: R) = some (parsed, buf, true) ∧
        Answers parsed buf (([], top) :: secs)) := by
  refine ⟨⟨fun h => ?_, fun h => ?_⟩, fun h ini R => ?_⟩
  · obtain ⟨h0, hwf, heq⟩ := h
    obtain ⟨top', secs', heq', hclean⟩ := sections_clean h0 hwf
    rw [heq] at heq'
    cases heq'
    exact hclean
  · obtain ⟨heq, hwf, h0⟩ := sections_print h
    exact ⟨h0, hwf, heq⟩
  · obtain ⟨heq, hwf, h0⟩ := sections_print h
    obtain ⟨parsed, buf, hparse, hans⟩ := parse_answers ini R h0 hwf
    rw [heq] at hans
    exact ⟨parsed, buf, hparse, hans⟩

/-- **Writing again what was read.** The text that is written from the sections of a text that
`parse` accepts is accepted too, answers every query as the first one does, and has these sections
again. -/
theorem ini_canonical {text : List UInt8} (h0 : 0 ∉ text)
    (hwf : ∀ l ∈ textLines text, WellFormed l) (ini ini' : Ini) (R R' : List UInt8) :
    ∃ top secs, sections text = ([], top) :: secs ∧
      sections (print top secs) = sections text ∧
      ∃ parsed buf parsed' buf', ini.parse (text ++ 0 :: R) = some (parsed, buf, true) ∧
        ini'.parse (print top secs ++ 0 :: R') = some (parsed', buf', true) ∧
        ∀ earlier earlier' sec key dflt,
          ((parsed.queries buf earlier).value buf sec key dflt).2 =
            ((parsed'.queries buf' earlier').value buf' sec key dflt).2 := by
  obtain ⟨top, secs, heq, hclean⟩ := sections_clean h0 hwf
  obtain ⟨heq', hwf', h0'⟩ := sections_print hclean
  obtain ⟨parsed, buf, hparse, hans⟩ := parse_answers ini R h0 hwf
  obtain ⟨parsed', buf', hparse', hans'⟩ := parse_answers ini' R' h0' hwf'
  rw [heq'] at hans'
  rw [heq] at hans
  exact ⟨top, secs, heq, heq'.trans heq.symm, parsed, buf, parsed', buf', hparse, hparse',
    fun earlier earlier' sec key dflt =>
      (hans earlier sec key dflt).trans (hans' earlier' sec key dflt).symm⟩

/-- The text of `test_ini.cpp`. -/
theorem ini_canonical_test :
    ∃ top secs, sections testIni = ([], top) :: secs ∧
      sections (print top secs) = sections testIni := by
  obtain ⟨top, secs, heq, heq', -⟩ := ini_canonical (by decide +kernel : 0 ∉ testIni)
    (by decide +kernel) ⟨[], none, none, []⟩ ⟨[], none, none, []⟩ [] []
  exact ⟨top, secs, heq, heq'⟩

/-! ## Integers -/

/-- `value(sec, key, def)` with an integer. -/
def Ini.valueInt (ini : Ini) (buf sec key : List UInt8) (dflt : ℤ) : Ini × ℤ :=
  let (ini, val) := ini.value buf sec key none
  (ini, match val with
    | none => dflt
    | some val => tointeger val dflt)

/-- Entries with their integers in decimal. -/
def decimals (es : List (List UInt8 × ℤ)) : IniEntries := es.map fun e => (e.1, decimal e.2)

/-- The integer of the last entry for `key` in the first section `sec`. -/
def lookupInt (secs : List (List UInt8 × List (List UInt8 × ℤ))) (sec key : List UInt8) (dflt : ℤ) :
    ℤ :=
  match secs.find? fun s => s.1 = sec with
  | none => dflt
  | some s =>
    match s.2.reverse.find? fun e => e.1 = key with
    | none => dflt
    | some e => e.2

theorem decimal_ne_nil (n : ℤ) : decimal n ≠ [] := by
  unfold decimal
  split
  · exact List.cons_ne_nil _ _
  · exact HoNet.Numeral.numeral_ne_nil _

/-- A decimal stands for itself. -/
theorem decimal_plain (n : ℤ) : Plain (decimal n) := by
  have hchar : ∀ c ∈ decimal n, c ≠ 0 ∧ c ≠ 10 ∧ c ≠ 59 ∧ isspace c = false := by
    intro c hc
    rcases decimal_digits n c hc with rfl | hc
    · decide
    · refine ⟨?_, ?_, ?_, digit_not_space hc⟩ <;> rintro rfl <;> cases hc
  exact ⟨fun hm => (hchar 0 hm).1 rfl, fun hm => (hchar 10 hm).2.1 rfl,
    fun hm => (hchar 59 hm).2.2.1 rfl, fun c hc => (hchar c (List.mem_of_head? hc)).2.2.2,
    fun c hc => (hchar c (List.mem_of_getLast? hc)).2.2.2⟩

theorem lookup_decimals (secs : List (List UInt8 × List (List UInt8 × ℤ))) (sec key : List UInt8)
    (hrange : ∀ s ∈ secs, ∀ e ∈ s.2, -2 ^ 31 ≤ e.2 ∧ e.2 < 2 ^ 31) (dflt : ℤ) :
    (match lookup (secs.map fun s => (s.1, decimals s.2)) sec key none with
      | none => dflt
      | some val => tointeger val dflt) = lookupInt secs sec key dflt := by
  rw [lookup, lookupInt, List.find?_map]
  simp only [Function.comp_def]
  cases hs : secs.find? fun s => decide (s.1 = sec) with
  | none => rfl
  | some s =>
    simp only [Option.map_some, decimals]
    rw [← List.map_reverse, List.find?_map]
    simp only [Function.comp_def]
    cases he : s.2.reverse.find? fun e => decide (e.1 = key) with
    | none => rfl
    | some e =>
      have hmem : e ∈ s.2 := List.mem_reverse.mp (List.mem_of_find?_eq_some he)
      obtain ⟨hlo, hhi⟩ := hrange s (List.mem_of_find?_eq_some hs) e hmem
      simp only [Option.map_some, if_neg (decimal_ne_nil e.2)]
      exact tointeger_decimal hlo hhi dflt

/-- **Integers are read back.** Every integer of 32 bits that is written in decimal under names and
keys that the format can hold is what `value` with an integer returns for them. -/
theorem ini_ints_read_back (top : List (List UInt8 × ℤ))
    (secs : List (List UInt8 × List (List UInt8 × ℤ)))
    (hnames : ∀ s ∈ secs, CleanItem (.header s.1))
    (hkeys : ∀ s ∈ ([], top) :: secs, ∀ e ∈ s.2, CleanItem (.entry e.1 []))
    (hrange : ∀ s ∈ ([], top) :: secs, ∀ e ∈ s.2, -2 ^ 31 ≤ e.2 ∧ e.2 < 2 ^ 31)
    (ini : Ini) (R : List UInt8) :
    ∃ parsed buf,
      ini.parse (print (decimals top) (secs.map fun s => (s.1, decimals s.2)) ++ 0 :: R) =
        some (parsed, buf, true) ∧
      ∀ earlier sec key dflt, ((parsed.queries buf earlier).valueInt buf sec key dflt).2 =
        lookupInt (([], top) :: secs) sec key dflt := by
  have hentries {n : List UInt8} {es : List (List UInt8 × ℤ)} (hs : (n, es) ∈ ([], top) :: secs) :
      ∀ i ∈ (decimals es).map fun e => IniItem.entry e.1 e.2, CleanItem i := by
    intro i hi
    obtain ⟨x, hx, rfl⟩ := List.mem_map.mp hi
    obtain ⟨e, he, rfl⟩ := List.mem_map.mp hx
    obtain ⟨hk, hne, heq, hbracket, -⟩ := hkeys _ hs e he
    exact ⟨hk, hne, heq, hbracket, decimal_plain e.2⟩
  have hclean : Clean (decimals top) (secs.map fun s => (s.1, decimals s.2)) := by
    intro i hi
    rcases List.mem_append.mp hi with hi | hi
    · exact hentries List.mem_cons_self i hi
    · obtain ⟨s', hs', hi⟩ := List.mem_flatMap.mp hi
      obtain ⟨s, hs, rfl⟩ := List.mem_map.mp hs'
      rcases List.mem_cons.mp hi with rfl | hi
      · exact hnames s hs
      · exact hentries (List.mem_cons_of_mem _ hs) i hi
  obtain ⟨heq, hwf, h0⟩ := sections_print hclean
  obtain ⟨parsed, buf, hparse, hans⟩ := parse_answers ini R h0 hwf
  refine ⟨parsed, buf, hparse, fun earlier sec key dflt => ?_⟩
  have hdoc : sections (print (decimals top) (secs.map fun s => (s.1, decimals s.2))) =
      (([], top) :: secs).map fun s => (s.1, decimals s.2) := heq
  rw [hdoc] at hans
  simp only [Ini.valueInt, hans earlier sec key none]
  exact lookup_decimals _ sec key hrange dflt

/-- `k=-5` in front and `k=2147483647` in a section `s`. -/
theorem ini_ints_read_back_two :
    ∃ parsed buf,
      Ini.parse ⟨[], none, none, []⟩ (print (decimals [([107], -5)])
        [([115], decimals [([107], 2147483647)])] ++ [0]) = some (parsed, buf, true) ∧
      (parsed.valueInt buf [115] [107] 0).2 = 2147483647 ∧
      (parsed.valueInt buf [] [107] 0).2 = -5 := by
  obtain ⟨parsed, buf, hparse, hval⟩ := ini_ints_read_back [([107], -5)]
    [([115], [([107], 2147483647)])] (by decide +kernel) (by decide +kernel) (by decide)
    ⟨[], none, none, []⟩ []
  exact ⟨parsed, buf, hparse, hval [] [115] [107] 0, hval [] [] [107] 0⟩

end HoNet.Cfg
