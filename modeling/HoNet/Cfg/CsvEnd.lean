import HoNet.Cfg.CsvRoundTrip

/-!
# Where a CSV text ends without a line break

The end of the input ends a record as CR LF does where the last field is bare, and only there: in
`next_column` a closing quote is looked behind for a comma, CR LF or a further quote, never for the
terminating zero, while a quoted field that reaches the zero unclosed is returned as it is.

* `nextColumn_bareEnd`, `nextColumn_closedEnd`, `nextColumn_openEnd` — the last field.
* `tokenise_end` — the whole text, up to what `next_column` does with the last field.
* `end_closes_iff` — the result.
-/

namespace HoNet.Cfg

open HoNet.CString

/-! ## Texts without a final line break -/

/-- Rows of fields as they may be written. -/
def RowsOk (rs : List (List CsvField)) : Prop := (∀ row ∈ rs, row ≠ []) ∧ ∀ row ∈ rs, ∀ f ∈ row, f.Ok

/-- A text that does not end in CR LF, and that CR LF completes to well-formed records. -/
structure Unended (s : List UInt8) : Prop where
  ne : s ≠ []
  noBreak : ¬ [CR, LF] <:+ s
  completes : ∃ rs, RowsOk rs ∧ s ++ [CR, LF] = writeRows rs

/-- A text whose last field is opened by a quote that nothing closes. -/
def Unclosed (s : List UInt8) : Prop :=
  ∃ (rs : List (List CsvField)) (row : List CsvField) (f : List UInt8),
    RowsOk rs ∧ (∀ g ∈ row, g.Ok) ∧ 0 ∉ f ∧
    s = writeRows rs ++ (writeCommas row ++ QUOTE :: escape f)

/-- What `next_line` and `next_column` make of the text: its rows and fields, or `none` after an
error. -/
def records (s : List UInt8) (errmsgLen : Nat) (need : Bool) :
    CsvRes (Option (List (List (List UInt8)))) :=
  (CsvParse.new (s ++ [0]) errmsgLen need).tokenise.map fun r =>
    r.2.map (List.map (List.map (cstr r.1.buf)))

/-- The text alone gives the same rows and fields as with CR LF behind it. -/
def ClosedByEnd (s : List UInt8) (errmsgLen : Nat) (need : Bool) : Prop :=
  ∃ rs, records s errmsgLen need = .ok (some rs) ∧
    records (s ++ [CR, LF]) errmsgLen need = .ok (some rs)

/-- The last field of the text, and what stands before it. -/
theorem Unended.split {s : List UInt8} (h : Unended s) :
    ∃ (rs : List (List CsvField)) (row : List CsvField) (f : CsvField),
      RowsOk rs ∧ (∀ g ∈ row, g.Ok) ∧ f.Ok ∧
      s = writeRows rs ++ (writeCommas row ++ f.write) ∧ writeCommas row ++ f.write ≠ [] := by
  obtain ⟨rs, ⟨hne, hok⟩, heq⟩ := h.completes
  obtain rfl | ⟨rs, row, rfl⟩ := List.eq_nil_or_concat' rs
  · simp [writeRows] at heq
  obtain rfl | ⟨row, f, rfl⟩ := List.eq_nil_or_concat' row
  · exact absurd rfl (hne [] (by simp))
  have hs : s = writeRows rs ++ (writeCommas row ++ f.write) := by
    have hrow : writeRows (rs ++ [row ++ [f]]) =
        writeRows rs ++ (writeCommas row ++ f.write) ++ [CR, LF] := by
      simp [writeRows, writeRow_snoc]
    exact List.append_cancel_right (heq.trans hrow)
  refine ⟨rs, row, f, ⟨fun r hr => hne r (by simp [hr]), fun r hr => hok r (by simp [hr])⟩,
    fun g hg => hok (row ++ [f]) (by simp) g (by simp [hg]), hok (row ++ [f]) (by simp) f (by simp),
    hs, fun hnil => ?_⟩
  -- with an empty last row the text is empty or ends in CR LF
  rw [hnil, List.append_nil] at hs
  obtain rfl | ⟨rs, r, rfl⟩ := List.eq_nil_or_concat' rs
  · exact h.ne hs
  · refine h.noBreak ?_
    rw [hs, writeRows, List.flatMap_append, List.flatMap_singleton, writeRow, ← List.append_assoc]
    exact List.suffix_append _ _

/-! ## The last field -/

namespace CsvParse

variable {m : List UInt8} {n : Nat}

/-- **A bare field** at the end of the text is returned as it stands. -/
theorem nextColumn_bareEnd {f : CsvField} (hf : f.Ok) (hbare : f.quoted = false) (P : List UInt8) :
    nextColumn ⟨P ++ (f.write ++ [0]), some P.length, false, m, n⟩ =
      .ok (⟨P ++ (f.write ++ [0]), none, false, m, n⟩, true, some P.length) := by
  obtain ⟨text, quoted⟩ := f
  obtain rfl : quoted = false := hbare
  obtain ⟨h0, hbare⟩ := hf
  obtain ⟨hq, hc, hcl⟩ := hbare rfl
  have hw : (⟨text, false⟩ : CsvField).write = text := rfl
  obtain ⟨c, S, hS, hcq⟩ : ∃ c S, text ++ [0] = c :: S ∧ c ≠ QUOTE := by
    cases htext : text with
    | nil => exact ⟨0, [], rfl, by decide⟩
    | cons c l =>
      refine ⟨c, _, rfl, ?_⟩
      rintro rfl
      exact hq (by simp [htext])
  obtain ⟨k, hk⟩ : ∃ k, (P ++ (text ++ [0])).length + 1 = k + 1 + text.length :=
    ⟨P.length + 1, by simp; omega⟩
  have hscan := columnLoop_text (R := [0]) (q := some P.length) (m := m) (n := n) (o := P.length)
    (k + 1) h0 hq hc hcl ⟨0, [], rfl, by decide⟩ (A := P)
  -- the scan stops at the zero behind the field
  rw [columnLoop, read_behind _ rfl, ok_bind, if_pos rfl, ← hk] at hscan
  rw [hw]
  simp only [nextColumn, Bool.false_eq_true, if_false]
  rw [hS] at hscan ⊢
  rw [read_behind _ rfl, ok_bind, if_neg hcq, hscan, List.append_assoc, hS]
  rfl

section Quoted

variable {f : List UInt8} {T : List UInt8}

/-- The scan of a quoted field that is not followed by a separator, up to the rest `T` of the
text. -/
theorem nextColumn_quoted (h0 : 0 ∉ f) (P T : List UInt8) :
    ∃ J k, nextColumn ⟨P ++ (QUOTE :: escape f ++ T), some P.length, false, m, n⟩ =
      columnLoop true (P.length + 1) (k + 1)
        ⟨P ++ [QUOTE] ++ f ++ J ++ T, some P.length, false, m, n⟩
        ((P ++ [QUOTE] ++ f).length + J.length) J.length := by
  have hlen := length_le_escape f
  obtain ⟨k, hk⟩ : ∃ k, (P ++ (QUOTE :: escape f ++ T)).length + 1 = k + 1 + f.length :=
    ⟨(P ++ (QUOTE :: escape f ++ T)).length - f.length, by simp; omega⟩
  obtain ⟨J, heq, -⟩ := columnLoop_escape (R := T) (q := some P.length) (m := m) (n := n)
    (o := P.length + 1) (k + 1) h0 (A := P ++ [QUOTE]) (J := [])
  refine ⟨J, k, ?_⟩
  have hbuf : P ++ (QUOTE :: escape f ++ T) = P ++ [QUOTE] ++ [] ++ (escape f ++ T) := by simp
  have hptr : P.length + 1 = (P ++ [QUOTE]).length + ([] : List UInt8).length := by simp
  have hread : (⟨P ++ (QUOTE :: escape f ++ T), some P.length, false, m, n⟩ : CsvParse).read P.length =
      .ok QUOTE := read_behind _ rfl
  simp only [nextColumn, Bool.false_eq_true, if_false]
  rw [hread, ok_bind, if_pos rfl, hk, ← heq, hbuf, ← hptr, List.length_nil]

/-- **A closed quoted field** at the end of the text is an error: the zero behind the closing quote
is none of the bytes that are looked for. -/
theorem nextColumn_closedEnd (h0 : 0 ∉ f) (P : List UInt8) :
    ∃ p, nextColumn ⟨P ++ ((⟨f, true⟩ : CsvField).write ++ [0]), some P.length, false, m, n⟩ =
      .ok (p, false, none) := by
  have hw : (⟨f, true⟩ : CsvField).write ++ [0] = QUOTE :: escape f ++ [QUOTE, 0] := by
    simp [CsvField.write]
  obtain ⟨J, k, heq⟩ := nextColumn_quoted (m := m) (n := n) h0 P [QUOTE, 0]
  have hbuf : P ++ [QUOTE] ++ f ++ J ++ [QUOTE, 0] = P ++ [QUOTE] ++ f ++ J ++ [QUOTE] ++ [0] := by
    simp
  rw [hw, heq, columnLoop, read_behind _ (by simp; omega), ok_bind, if_neg (by decide), if_pos rfl,
    hbuf, read_behind _ (by simp; omega), ok_bind, if_neg (by decide), if_neg (by decide),
    if_neg (by decide)]
  exact ⟨_, rfl⟩

/-- **An unclosed quoted field** is returned. -/
theorem nextColumn_openEnd (h0 : 0 ∉ f) (P : List UInt8) :
    ∃ p, nextColumn ⟨P ++ (QUOTE :: escape f ++ [0]), some P.length, false, m, n⟩ =
      .ok (p, true, some (P.length + 1)) ∧ p.parsePtr = none := by
  obtain ⟨J, k, heq⟩ := nextColumn_quoted (m := m) (n := n) h0 P [0]
  refine ⟨⟨P ++ [QUOTE] ++ f ++ J ++ [0], none, false, m, n⟩, ?_, rfl⟩
  rw [heq, columnLoop, read_behind _ (by simp; omega), ok_bind, if_pos rfl]
  rfl

end Quoted

/-! ## The whole text -/

theorem length_le_writeCommas (row : List CsvField) : row.length ≤ (writeCommas row).length := by
  induction row with
  | nil => simp
  | cons f row ih =>
    simp only [writeCommas, List.flatMap_cons, List.length_append, List.length_cons] at ih ⊢
    omega

/-- **Up to the last field** `L` the text is tokenised as if it went on; what `next_column` then does
with `L` decides. -/
theorem tokenise_end {rs : List (List CsvField)} (hrs : RowsOk rs) {row : List CsvField}
    (hrow : ∀ f ∈ row, f.Ok) {L : List UInt8}
    (hhead : ∃ c S, writeCommas row ++ L = c :: S ∧ c ≠ 0) (errmsgLen : Nat) (need : Bool) :
    ∃ P ptrss ptrs, List.Forall₂ (List.Forall₂ fun ptr f => StrAt P ptr f.text) ptrss rs ∧
      List.Forall₂ (fun ptr f => StrAt P ptr f.text) ptrs row ∧
      ∀ p out, nextColumn ⟨P ++ (L ++ [0]), some P.length, false, [], errmsgLen⟩ =
          .ok (p, out.isSome, out) → (out.isSome → p.parsePtr = none) →
        (new (writeRows rs ++ (writeCommas row ++ L) ++ [0]) errmsgLen need).tokenise =
          .ok (if out.isSome then { p with needNextline := false } else p,
            out.map fun ptr => ptrss ++ [ptrs ++ [ptr]]) := by
  have hlen := length_le_writeRows rs
  have hlen' := length_le_writeCommas row
  obtain ⟨c, S, hS, hc⟩ := hhead
  have hbuf : writeRows rs ++ (writeCommas row ++ L) ++ [0] =
      [] ++ (writeRows rs ++ (writeCommas row ++ L ++ [0])) := by simp
  obtain ⟨k, hk⟩ : ∃ k, (writeRows rs ++ (writeCommas row ++ L) ++ [0]).length + 1 =
      k + 2 + rs.length :=
    ⟨(writeRows rs ++ (writeCommas row ++ L)).length - rs.length, by
      simp only [List.length_append, List.length_singleton]
      omega⟩
  obtain ⟨M, need', ptrss, heq, hall⟩ := rows_spec (m := []) (n := errmsgLen) rs hrs.1 hrs.2 []
    (writeCommas row ++ L ++ [0]) need (k + 2)
  have hline : nextLine ⟨[] ++ M ++ (writeCommas row ++ L ++ [0]), some ([] ++ M).length, need', [],
        errmsgLen⟩ =
      .ok (⟨[] ++ M ++ (writeCommas row ++ L ++ [0]), some ([] ++ M).length, false, [], errmsgLen⟩,
        true) := by
    simp only [nextLine, hS, List.cons_append]
    rw [read_behind _ rfl, ok_bind]
    simp [hc]
  obtain ⟨k', hk'⟩ : ∃ k', ([] ++ M ++ (writeCommas row ++ L ++ [0])).length + 1 =
      k' + 2 + row.length :=
    ⟨([] ++ M ++ (writeCommas row ++ L)).length - row.length, by
      simp only [List.length_append, List.length_singleton]
      omega⟩
  obtain ⟨M', ptrs, heq', hall'⟩ := columns_commas (m := []) (n := errmsgLen) row hrow ([] ++ M)
    (L ++ [0]) (k' + 2)
  refine ⟨[] ++ M ++ M', ptrss, ptrs, hall.imp fun _ _ h => h.imp fun _ _ hs => hs.append M', hall',
    fun p out hcol hptr => ?_⟩
  rw [tokenise, new]
  simp only
  rw [hk, hbuf]
  refine heq.trans ?_
  rw [rows, hline, ok_bind]
  simp only [if_true]
  rw [hk', List.append_assoc (writeCommas row), heq', columns, hcol, ok_bind]
  cases out with
  | none => simp [Except.map]
  | some ptr =>
    have hnone : p.parsePtr = none := hptr rfl
    have hdone : columns (k' + 1) p = .ok (p, some []) := by
      simp [columns, nextColumn, hnone]
    simp [hdone, rows, nextLine, hnone, Except.map]

end CsvParse

/-! ## The result -/

open CsvParse

variable {errmsgLen : Nat} {need : Bool}

theorem mem_escape {b : UInt8} {l : List UInt8} (h : b ∈ escape l) : b ∈ l := by
  induction l with
  | nil => cases h
  | cons c l ih =>
    rw [escape] at h
    split_ifs at h with hc
    · rcases List.mem_cons.mp h with rfl | h
      · simp [hc]
      rcases List.mem_cons.mp h with rfl | h
      · simp [hc]
      · exact List.mem_cons_of_mem _ (ih h)
    · rcases List.mem_cons.mp h with rfl | h
      · simp
      · exact List.mem_cons_of_mem _ (ih h)

theorem CsvField.Ok.zero_not_mem {f : CsvField} (hf : f.Ok) : 0 ∉ f.write := by
  rw [CsvField.write]
  split_ifs
  · intro h
    simp only [List.mem_append, List.mem_singleton] at h
    rcases h with (h | h) | h
    · exact absurd h (by decide)
    · exact hf.1 (mem_escape h)
    · exact absurd h (by decide)
  · exact hf.1

theorem zero_not_mem_writeCommas {row : List CsvField} (hrow : ∀ f ∈ row, f.Ok) :
    0 ∉ writeCommas row := by
  intro h
  obtain ⟨f, hf, h⟩ := List.mem_flatMap.mp h
  rcases List.mem_append.mp h with h | h
  · exact (hrow f hf).zero_not_mem h
  · exact absurd h (by decide)

/-- With CR LF behind it a text is read as its records. -/
theorem records_writeRows {rs : List (List CsvField)} (hrs : RowsOk rs) :
    records (writeRows rs) errmsgLen need = .ok (some (rs.map (List.map CsvField.text))) := by
  obtain ⟨p, ptrs, heq, -, hall⟩ := tokenise_spec hrs.1 hrs.2 errmsgLen need
  rw [records, heq, ← map_cstr_eq hall]
  rfl

/-- Where the last field is quoted the text ends in a quote, and only there. -/
theorem getLast_eq_quote_iff {rs : List (List CsvField)} {row : List CsvField} {f : CsvField}
    (hf : f.Ok) (hne : writeCommas row ++ f.write ≠ []) :
    (writeRows rs ++ (writeCommas row ++ f.write)).getLast? = some QUOTE ↔ f.quoted = true := by
  obtain ⟨text, quoted⟩ := f
  cases quoted with
  | true =>
    have hw : writeRows rs ++ (writeCommas row ++ (⟨text, true⟩ : CsvField).write) =
        writeRows rs ++ (writeCommas row ++ [QUOTE] ++ escape text) ++ [QUOTE] := by
      simp [CsvField.write]
    rw [hw, List.getLast?_concat]
    simp
  | false =>
    obtain ⟨hq, -, -⟩ := hf.2 rfl
    have hw : (⟨text, false⟩ : CsvField).write = text := rfl
    rw [hw] at hne ⊢
    refine iff_of_false (fun h => ?_) (by simp)
    obtain rfl | ⟨text, b, rfl⟩ := List.eq_nil_or_concat' text
    · -- the last byte is the comma of the field before
      obtain rfl | ⟨row, g, rfl⟩ := List.eq_nil_or_concat' row
      · exact hne rfl
      · simp [writeCommas, COMMA, QUOTE] at h
    · rw [← List.append_assoc, ← List.append_assoc, List.getLast?_concat, Option.some_inj] at h
      exact hq (by simp [h])

section Ends

variable {rs : List (List CsvField)} {row : List CsvField} {f : CsvField}

/-- A quote or an earlier field stands first. -/
theorem head_ne_zero (hrow : ∀ g ∈ row, g.Ok) {T : List UInt8} :
    ∃ c S, writeCommas row ++ QUOTE :: T = c :: S ∧ c ≠ 0 := by
  cases hw : writeCommas row with
  | nil => exact ⟨QUOTE, T, rfl, by decide⟩
  | cons c S =>
    refine ⟨c, _, rfl, fun hc => zero_not_mem_writeCommas hrow ?_⟩
    simp [hw, hc]

theorem records_bareEnd (hrs : RowsOk rs) (hrow : ∀ g ∈ row, g.Ok) (hf : f.Ok)
    (hne : writeCommas row ++ f.write ≠ []) (hbare : f.quoted = false) :
    records (writeRows rs ++ (writeCommas row ++ f.write)) errmsgLen need =
      .ok (some ((rs ++ [row ++ [f]]).map (List.map CsvField.text))) := by
  have hz : 0 ∉ writeCommas row ++ f.write := by
    rw [List.mem_append, not_or]
    exact ⟨zero_not_mem_writeCommas hrow, hf.zero_not_mem⟩
  obtain ⟨c, S, hS⟩ := List.exists_cons_of_ne_nil hne
  obtain ⟨P, ptrss, ptrs, hall, hall', hend⟩ := tokenise_end hrs hrow
    ⟨c, S, hS, fun hc => hz (by simp [hS, hc])⟩ errmsgLen need
  have hlast : StrAt (P ++ (f.write ++ [0])) P.length f.text := by
    refine ⟨hf.1, P, [], ?_, rfl⟩
    simp [CsvField.write, hbare]
  rw [records, hend _ (some P.length) (nextColumn_bareEnd hf hbare P) (fun _ => rfl)]
  have hread : (ptrss ++ [ptrs ++ [P.length]]).map (List.map (cstr (P ++ (f.write ++ [0])))) =
      (rs ++ [row ++ [f]]).map (List.map CsvField.text) := by
    refine map_cstr_eq (List.rel_append (hall.imp fun _ _ h => h.imp fun _ _ hs => hs.append _)
      (.cons ?_ .nil))
    exact List.rel_append (hall'.imp fun _ _ hs => hs.append _) (.cons hlast .nil)
  rw [← hread]
  rfl

theorem records_closedEnd (hrs : RowsOk rs) (hrow : ∀ g ∈ row, g.Ok) (hf : f.Ok)
    (hq : f.quoted = true) :
    records (writeRows rs ++ (writeCommas row ++ f.write)) errmsgLen need = .ok none := by
  obtain ⟨text, quoted⟩ := f
  obtain rfl : quoted = true := hq
  obtain ⟨P, ptrss, ptrs, -, -, hend⟩ := tokenise_end hrs hrow
    (head_ne_zero hrow (T := escape text ++ [QUOTE])) errmsgLen need
  obtain ⟨p, heq⟩ := nextColumn_closedEnd (m := []) (n := errmsgLen) hf.1 P
  have hw : (⟨text, true⟩ : CsvField).write = QUOTE :: (escape text ++ [QUOTE]) := by
    simp [CsvField.write]
  rw [hw] at heq ⊢
  rw [records, hend p none heq (fun h => by cases h)]
  rfl

theorem records_openEnd {t : List UInt8} (hrs : RowsOk rs) (hrow : ∀ g ∈ row, g.Ok) (h0 : 0 ∉ t) :
    ∃ r, records (writeRows rs ++ (writeCommas row ++ QUOTE :: escape t)) errmsgLen need =
      .ok (some r) := by
  obtain ⟨P, ptrss, ptrs, -, -, hend⟩ := tokenise_end hrs hrow (head_ne_zero hrow (T := escape t))
    errmsgLen need
  obtain ⟨p, heq, hptr⟩ := nextColumn_openEnd (m := []) (n := errmsgLen) h0 P
  rw [records, hend p (some (P.length + 1)) heq fun _ => hptr]
  exact ⟨_, rfl⟩

end Ends

/-- **The end of the input** ends a record as CR LF does exactly where the text does not end in a
quote; a quoted field that is never closed is not rejected. -/
theorem end_closes_iff (s : List UInt8) (errmsgLen : Nat) (need : Bool) :
    (Unended s → (ClosedByEnd s errmsgLen need ↔ s.getLast? ≠ some QUOTE)) ∧
    (Unclosed s → records s errmsgLen need ≠ .ok none) := by
  constructor
  · intro hs
    obtain ⟨rs, row, f, hrs, hrow, hf, rfl, hne⟩ := hs.split
    rw [Ne, getLast_eq_quote_iff hf hne]
    constructor
    · rintro ⟨r, hr, -⟩ hq
      rw [records_closedEnd hrs hrow hf hq] at hr
      cases hr
    · intro hq
      have hbare : f.quoted = false := by simpa using hq
      refine ⟨_, records_bareEnd hrs hrow hf hne hbare, ?_⟩
      have hfull : writeRows rs ++ (writeCommas row ++ f.write) ++ [CR, LF] =
          writeRows (rs ++ [row ++ [f]]) := by
        simp [writeRows, writeRow_snoc]
      rw [hfull]
      refine records_writeRows ⟨?_, ?_⟩
      · intro r hr
        rcases List.mem_append.mp hr with hr | hr
        · exact hrs.1 r hr
        · simp [List.mem_singleton.mp hr]
      · intro r hr g hg
        rcases List.mem_append.mp hr with hr | hr
        · exact hrs.2 r hr g hg
        · rw [List.mem_singleton.mp hr] at hg
          rcases List.mem_append.mp hg with hg | hg
          · exact hrow g hg
          · exact List.mem_singleton.mp hg ▸ hf
  · rintro ⟨rs, row, t, hrs, hrow, h0, rfl⟩ hr
    obtain ⟨r, hok⟩ : ∃ r, records (writeRows rs ++ (writeCommas row ++ QUOTE :: escape t)) errmsgLen
        need = .ok (some r) := records_openEnd hrs hrow h0
    rw [hok] at hr
    cases hr

/-- `a,b` is closed by its end; `"a` is not rejected. -/
theorem end_closes_iff_short :
    (ClosedByEnd [97, COMMA, 98] 32 false ↔ [97, COMMA, 98].getLast? ≠ some QUOTE) ∧
    records [QUOTE, 97] 32 false ≠ .ok none := by
  have hrows : RowsOk [[⟨[97], false⟩, ⟨[98], false⟩]] := ⟨by decide, by decide⟩
  exact ⟨(end_closes_iff [97, COMMA, 98] 32 false).1 ⟨by decide, by decide, _, hrows, by decide⟩,
    (end_closes_iff [QUOTE, 97] 32 false).2 ⟨[], [], [97], ⟨by decide, by decide⟩, by decide,
      by decide, by decide⟩⟩

/-- `"a"` is well formed and refused without CR LF behind it; `"a` is not closed and not refused. -/
theorem quoted_not_closedByEnd :
    Unended [QUOTE, 97, QUOTE] ∧ ¬ ClosedByEnd [QUOTE, 97, QUOTE] 32 false ∧
    records [QUOTE, 97, QUOTE] 32 false = .ok none ∧
    Unclosed [QUOTE, 97] ∧ records [QUOTE, 97] 32 false = .ok (some [[[97]]]) := by
  have hrows : RowsOk [[⟨[97], true⟩]] := ⟨by decide, by decide⟩
  have hnone : records [QUOTE, 97, QUOTE] 32 false = .ok none := by decide +kernel
  refine ⟨⟨by decide, by decide, _, hrows, by decide⟩, ?_, hnone,
    ⟨[], [], [97], ⟨by decide, by decide⟩, by decide, by decide, by decide⟩, by decide +kernel⟩
  rintro ⟨rs, hrs, -⟩
  rw [hnone] at hrs
  cases hrs

end HoNet.Cfg
