import HoNet.Lib.Stdio
import HoNet.Cfg.CsvHistory
import HoNet.Cfg.IniIterate

/-!
# Loading configuration files

`inifile::load` and `csvfile::load` read a whole file and parse it. Both find the length by seeking to
the end; only `csvfile::load` seeks back before it reads. `strerror(errno)` is a parameter, and so is
what the memory from `malloc` holds.

* `csv_load_eq` — `csvfile::load` parses the bytes of the file.
* `ini_load_empty`, `ini_load_nonempty` — `inifile::load` on a file with no bytes, and on any other.
* `ini_load_iff` — when loading is parsing.
-/

namespace HoNet.Cfg

open HoNet.Stdio

/-- `malloc(len + 1)` and the zero written behind the content. -/
def loadBlock (mem : Nat → UInt8) (len : Nat) : List UInt8 :=
  ((List.range (len + 1)).map mem).set len 0

/-- `csvfile::load`, with the memory `links` of the line nodes. Where `ftell` fails, `len` is the largest
`size_t` and `b[len]` outside the block. -/
def Csv.load (c : Csv) (mem : Nat → UInt8) (links : Nat → Option Nat) (strerror : String) (need : Bool)
    (content : List UInt8) : CsvRes (Csv × Bool) :=
  let f := (fopen content).seekEnd
  match f.ftell with
  | none => .error .outOfBounds
  | some len =>
    let f := f.seekSet
    let read := (f.fread len).1
    let b := readInto (loadBlock mem len) read
    if read.length ≠ len then
      .ok ({ c with errmsg := strerror.toUTF8.toList.take 32 }, false)
    else c.parse links b need

/-- `inifile::load`: the object, the buffer it keeps, and what it returns; `none` where `b[len]` is
outside the block. -/
def Ini.load (ini : Ini) (mem : Nat → UInt8) (strerror : String) (content : List UInt8) :
    Option (Ini × List UInt8 × Bool) :=
  let f := (fopen content).seekEnd
  match f.ftell with
  | none => none
  | some len =>
    let read := (f.fread len).1
    let b := readInto (loadBlock mem len) read
    if read.length ≠ len then some (ini.report strerror, [], false)
    else
      match ini.parse b with
      | none => none
      | some (ini, b, true) => some (ini, b, true)
      | some (ini, _, false) => some (ini.clear, [], false)

section Load

variable (mem : Nat → UInt8) (strerror : String) {content : List UInt8}

/-- With the position set back, what is parsed are the bytes of the file. -/
theorem csv_load_eq (c : Csv) (links : Nat → Option Nat) (need : Bool)
    (hlen : content.length < 2 ^ 31) :
    c.load mem links strerror need content = c.parse links (content ++ [0]) need := by
  have hread : ((fopen content).seekEnd.seekSet.fread content.length).1 = content :=
    fread_of_start rfl
  have htell : (fopen content).seekEnd.ftell = some content.length := by
    rw [ftell_seekEnd]
    exact if_pos hlen
  simp only [Csv.load, htell, hread, ne_eq, not_true_eq_false, if_false, loadBlock, readInto_block]

/-- Of a file that is not empty nothing is read, and loading fails. -/
theorem ini_load_nonempty (ini : Ini) (hlen : content.length < 2 ^ 31) (hne : content ≠ []) :
    ini.load mem strerror content = some (ini.report strerror, [], false) := by
  have hread : ((fopen content).seekEnd.fread content.length).1 = [] :=
    fread_of_end (le_refl _) _
  have htell : (fopen content).seekEnd.ftell = some content.length := by
    rw [ftell_seekEnd]
    exact if_pos hlen
  have hlt : ([] : List UInt8).length ≠ content.length := fun h =>
    hne (List.length_eq_zero_iff.mp h.symm)
  simp only [Ini.load, htell, hread, if_pos hlt]

theorem ini_load_huge (ini : Ini) (hlen : 2 ^ 31 ≤ content.length) :
    ini.load mem strerror content = none := by
  have htell : (fopen content).seekEnd.ftell = none := by
    rw [ftell_seekEnd]
    exact if_neg (Nat.not_lt.mpr hlen)
  simp only [Ini.load, htell]

/-- The empty file is parsed. -/
theorem ini_load_empty (ini : Ini) :
    ∃ parsed buf, ini.parse [0] = some (parsed, buf, true) ∧
      ini.load mem strerror [] = some (parsed, buf, true) := by
  obtain ⟨parsed, buf, ok, hparse, hok, -⟩ := parse_rep ini [] [] List.not_mem_nil
  have hwf : ∀ l ∈ textLines [], WellFormed l := by
    have hnone : textLines [] = [] := by decide +kernel
    rw [hnone]
    intro l hl
    cases hl
  obtain rfl : ok = true := hok.mpr hwf
  refine ⟨parsed, buf, hparse, ?_⟩
  have hblock := readInto_block mem []
  have hempty : readInto (loadBlock mem 0) [] = [0] := hblock
  have hparse : ini.parse [0] = some (parsed, buf, true) := hparse
  have htell : (fopen []).seekEnd.ftell = some 0 := rfl
  have hread : ((fopen []).seekEnd.fread 0).1 = [] := rfl
  simp only [Ini.load, htell, hread, List.length_nil, ne_eq, not_true_eq_false, if_false, hempty,
    hparse]

/-- What `inifile::load` is for: it succeeds where parsing the bytes does, and then the object answers
as the parsed one. -/
def LoadsAsParsed (ini : Ini) (mem : Nat → UInt8) (strerror : String) (content : List UInt8) : Prop :=
  ∃ loaded lbuf lok parsed pbuf pok,
    ini.load mem strerror content = some (loaded, lbuf, lok) ∧
    ini.parse (content ++ [0]) = some (parsed, pbuf, pok) ∧
    (lok = true ↔ pok = true) ∧
    (lok = true → ∀ qs,
      (∀ sec key dflt, ((loaded.asks lbuf qs).value lbuf sec key dflt).2 =
        ((parsed.asks pbuf qs).value pbuf sec key dflt).2) ∧
      (∀ key dflt, (loaded.asks lbuf qs).valueHere lbuf key dflt =
        (parsed.asks pbuf qs).valueHere pbuf key dflt) ∧
      (loaded.asks lbuf qs).nextSection.2 = (parsed.asks pbuf qs).nextSection.2)

/-- **Loading a file.** `inifile::load` does what parsing the bytes of the file does if and only if
the file is empty, or it has a line that is not well formed (and a length that a `long` holds), so
that both fail. -/
theorem ini_load_iff (ini : Ini) (content : List UInt8) (h0 : 0 ∉ content) :
    LoadsAsParsed ini mem strerror content ↔
      content = [] ∨ content.length < 2 ^ 31 ∧ ¬ ∀ l ∈ textLines content, WellFormed l := by
  obtain ⟨parsed, buf, ok, hparse, hok, -⟩ := parse_rep ini content [] h0
  by_cases hne : content = []
  · subst hne
    obtain ⟨parsed, buf, hparse, hload⟩ := ini_load_empty mem strerror ini
    refine iff_of_true ?_ (.inl rfl)
    exact ⟨parsed, buf, true, parsed, buf, true, hload, hparse, Iff.rfl,
      fun _ qs => ⟨fun _ _ _ => rfl, fun _ _ => rfl, rfl⟩⟩
  rw [or_iff_right hne, ← hok]
  rcases Nat.lt_or_ge content.length (2 ^ 31) with hlen | hlen
  · have hload := ini_load_nonempty mem strerror ini hlen hne
    constructor
    · rintro ⟨loaded, lbuf, lok, parsed', pbuf, pok, hl, hp, hiff, -⟩
      rw [hload] at hl
      rw [hparse] at hp
      cases hl
      cases hp
      exact ⟨hlen, fun h => by cases hiff.mpr h⟩
    · rintro ⟨-, hfail⟩
      refine ⟨_, _, _, parsed, buf, ok, hload, hparse, ?_, fun h => by cases h⟩
      exact iff_of_false (fun h => by cases h) hfail
  · refine iff_of_false ?_ fun h => absurd h.1 (Nat.not_lt.mpr hlen)
    rintro ⟨loaded, lbuf, lok, parsed', pbuf, pok, hl, -⟩
    rw [ini_load_huge mem strerror ini hlen] at hl
    cases hl

end Load

/-- The file `k=v`. -/
def oneEntry : List UInt8 := [107, 61, 118]

theorem ini_load_iff_entry :
    0 ∉ oneEntry ∧
      (LoadsAsParsed ⟨[], none, none, []⟩ (fun _ => 7) "No error" oneEntry ↔
        oneEntry = [] ∨
          oneEntry.length < 2 ^ 31 ∧ ¬ ∀ l ∈ textLines oneEntry, WellFormed l) :=
  ⟨by decide, ini_load_iff _ _ _ oneEntry (by decide)⟩

/-- It parses, and does not load. -/
theorem entry_not_loaded :
    (∀ l ∈ textLines oneEntry, WellFormed l) ∧
      Ini.load ⟨[], none, none, []⟩ (fun _ => 7) "No error" oneEntry =
        some (⟨[], none, none, "No error".toUTF8.toList⟩, [], false) ∧
      ¬ LoadsAsParsed ⟨[], none, none, []⟩ (fun _ => 7) "No error" oneEntry := by
  have hwf : ∀ l ∈ textLines oneEntry, WellFormed l := by decide +kernel
  have hload : Ini.load ⟨[], none, none, []⟩ (fun _ => 7) "No error" oneEntry =
      some (⟨[], none, none, "No error".toUTF8.toList⟩, [], false) := by
    refine (ini_load_nonempty _ _ _ (by decide) (by decide)).trans ?_
    decide +kernel
  refine ⟨hwf, hload, ?_⟩
  rintro ⟨loaded, lbuf, lok, parsed, pbuf, pok, hl, hp, hiff, -⟩
  obtain ⟨parsed', buf, ok, hparse, hok, -⟩ :=
    parse_rep ⟨[], none, none, []⟩ oneEntry [] (by decide)
  rw [hload] at hl
  rw [hparse] at hp
  cases hl
  cases hp
  have hfalse := hiff.mpr (hok.mpr hwf)
  cases hfalse

end HoNet.Cfg
