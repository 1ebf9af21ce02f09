import HoNet.Cfg.Csv

/-!
# CSV round trip

Writing rows of fields, each field quoted or bare, and tokenising the result gives back the rows and
the fields, and every field is still where it was returned when the whole text has been tokenised.

* `columnLoop_escape`, `columnLoop_text` — the scan inside a field, by induction on its text.
* `columnLoop_quoted`, `columnLoop_bare`, `columns_spec`, `rows_spec` — one field, one row, all rows.
* `csv_round_trip` — the result.
-/

namespace HoNet.Cfg

open HoNet.CString

/-! ## The format -/

/-- A field and how it is written. -/
structure CsvField where
  text : List UInt8
  quoted : Bool
  deriving DecidableEq, Repr

/-- A field without NUL; a bare one holds no quote, no comma and no CR LF pair. -/
def CsvField.Ok (f : CsvField) : Prop :=
  0 ∉ f.text ∧
    (f.quoted = false → QUOTE ∉ f.text ∧ COMMA ∉ f.text ∧ ¬ [CR, LF] <:+: f.text)

instance (f : CsvField) : Decidable f.Ok :=
  inferInstanceAs (Decidable (0 ∉ f.text ∧
    (f.quoted = false → QUOTE ∉ f.text ∧ COMMA ∉ f.text ∧ ¬ [CR, LF] <:+: f.text)))

/-- The text with every quote doubled. -/
def escape : List UInt8 → List UInt8
  | [] => []
  | b :: bs => if b = QUOTE then QUOTE :: QUOTE :: escape bs else b :: escape bs

theorem length_le_escape (l : List UInt8) : l.length ≤ (escape l).length := by
  induction l with
  | nil => simp
  | cons b l ih =>
    rw [escape]
    split_ifs <;> simp <;> omega

def CsvField.write (f : CsvField) : List UInt8 :=
  if f.quoted then [QUOTE] ++ escape f.text ++ [QUOTE] else f.text

/-- The fields joined with `,`, ended by CR LF. -/
def writeRow (row : List CsvField) : List UInt8 :=
  List.intercalate [COMMA] (row.map CsvField.write) ++ [CR, LF]

def writeRows (rows : List (List CsvField)) : List UInt8 := rows.flatMap writeRow

/-- What follows a field: CR LF behind the last one of a row, else a comma. -/
def separator (last : Bool) : List UInt8 := if last then [CR, LF] else [COMMA]

/-- The fields of a row that is not ended, each followed by `,`. -/
def writeCommas (row : List CsvField) : List UInt8 := row.flatMap fun f => f.write ++ [COMMA]

theorem writeRow_snoc (row : List CsvField) (f : CsvField) :
    writeRow (row ++ [f]) = writeCommas row ++ f.write ++ [CR, LF] := by
  induction row with
  | nil => simp [writeRow, writeCommas]
  | cons g row ih =>
    have hne : (row ++ [f]).map CsvField.write ≠ [] := by simp
    obtain ⟨w, ws, hw⟩ := List.exists_cons_of_ne_nil hne
    rw [writeRow, hw] at ih
    rw [writeRow, List.cons_append, List.map_cons, hw, List.intercalate_cons_cons]
    simp [writeCommas] at ih ⊢
    exact ih

theorem writeRow_cons (f : CsvField) (row : List CsvField) :
    writeRow (f :: row) =
      f.write ++ separator row.isEmpty ++ if row.isEmpty then [] else writeRow row := by
  cases row with
  | nil => simp [writeRow, separator]
  | cons g row => simp [writeRow, separator, List.intercalate_cons_cons]

/-! ## One field -/

namespace CsvParse

section Scan

variable {A J R f m : List UInt8} {c : UInt8} {q : Option Nat} {n o : Nat}

theorem read_behind (ptr : Nat) (h : ptr = A.length) :
    (⟨A ++ c :: R, q, false, m, n⟩ : CsvParse).read ptr = .ok c := by
  subst h
  simp only [read, get_behind]

/-- Moving a byte over the gap. -/
theorem mvChar_shift (A J R : List UInt8) (c : UInt8) :
    ∃ J', (⟨A ++ J ++ c :: R, q, false, m, n⟩ : CsvParse).mvChar (A.length + J.length) J.length c =
      ⟨A ++ [c] ++ J' ++ R, q, false, m, n⟩ ∧ J'.length = J.length := by
  obtain ⟨J', heq, hlen⟩ := set_shift A J R c c
  refine ⟨J', ?_, hlen⟩
  rw [mvChar]
  split_ifs with hn
  · simp only [Nat.add_sub_cancel, heq]
  · have hJ : J = [] := List.eq_nil_of_length_eq_zero (by omega)
    have hJ' : J' = [] := List.eq_nil_of_length_eq_zero (by omega)
    simp [hJ, hJ']

theorem endField_shift (A J R : List UInt8) (c : UInt8) (next : Nat) (need : Bool) :
    ∃ J', (⟨A ++ J ++ c :: R, q, false, m, n⟩ : CsvParse).endField (A.length + J.length) J.length
        next need o =
      (⟨A ++ [0] ++ J' ++ R, some next, need, m, n⟩, true, some o) ∧ J'.length = J.length := by
  obtain ⟨J', heq, hlen⟩ := set_shift A J R c 0
  refine ⟨J', ?_, hlen⟩
  simp only [endField, setChar, Nat.add_sub_cancel, heq, Bool.false_or]

section Rounds

variable {wq : Bool} {k ptr bytes : Nat} {p : CsvParse}

@[simp] theorem ok_bind {α β : Type} (a : α) (f : α → CsvRes β) : (Except.ok a >>= f) = f a := rfl

@[simp] theorem pure_eq_ok {α : Type} (a : α) : (pure a : CsvRes α) = .ok a := rfl

/-- A byte that is neither a terminator nor a quote is moved. -/
theorem columnLoop_plain (hc : p.read ptr = .ok c) (h0 : c ≠ 0) (hq : c ≠ QUOTE)
    (hcr : c = CR → wq = false → ∃ c₁, p.read (ptr + 1) = .ok c₁ ∧ c₁ ≠ LF)
    (hcomma : c = COMMA → wq = true) :
    columnLoop wq o (k + 1) p ptr bytes =
      columnLoop wq o k (p.mvChar ptr bytes c) (ptr + 1) bytes := by
  rw [columnLoop, hc, ok_bind, if_neg h0, if_neg hq]
  by_cases h₁ : c = CR
  · rw [if_pos h₁]
    cases wq with
    | true => rfl
    | false =>
      obtain ⟨c₁, hr, hne⟩ := hcr h₁ rfl
      rw [if_neg (by decide), hr, ok_bind, if_neg hne]
  · rw [if_neg h₁]
    by_cases h₂ : c = COMMA
    · rw [if_pos h₂, if_pos (hcomma h₂)]
    · rw [if_neg h₂]

/-- A doubled quote is moved as one. -/
theorem columnLoop_doubled (hc : p.read ptr = .ok QUOTE) (hc₁ : p.read (ptr + 1) = .ok QUOTE) :
    columnLoop wq o (k + 1) p ptr bytes =
      columnLoop wq o k (p.mvChar ptr bytes QUOTE) (ptr + 1 + 1) (bytes + 1) := by
  rw [columnLoop, hc, ok_bind, if_neg (by decide), if_pos rfl, hc₁, ok_bind, if_neg (by decide),
    if_neg (by decide), if_pos rfl]

/-- A closing quote. -/
theorem columnLoop_closing (last : Bool) (hc : p.read ptr = .ok QUOTE)
    (hsep : ∀ i (hi : i < (separator last).length),
      p.read (ptr + 1 + i) = .ok ((separator last).get ⟨i, hi⟩)) :
    columnLoop true o (k + 1) p ptr bytes =
      .ok (p.endField ptr bytes (ptr + 1 + (separator last).length) last o) := by
  rw [columnLoop, hc, ok_bind, if_neg (by decide), if_pos rfl]
  cases last with
  | false =>
    have h₁ : p.read (ptr + 1) = .ok COMMA := hsep 0 (by decide)
    rw [h₁, ok_bind, if_pos rfl]
    rfl
  | true =>
    have h₁ : p.read (ptr + 1) = .ok CR := hsep 0 (by decide)
    have h₂ : p.read (ptr + 2) = .ok LF := hsep 1 (by decide)
    rw [h₁, ok_bind, if_neg (by decide), if_pos rfl, h₂, ok_bind, if_pos rfl]
    rfl

/-- A separator behind a bare field. -/
theorem columnLoop_separator (last : Bool)
    (hsep : ∀ i (hi : i < (separator last).length),
      p.read (ptr + i) = .ok ((separator last).get ⟨i, hi⟩)) :
    columnLoop false o (k + 1) p ptr bytes =
      .ok (p.endField ptr bytes (ptr + (separator last).length) last o) := by
  rw [columnLoop]
  cases last with
  | false =>
    have h₁ : p.read ptr = .ok COMMA := hsep 0 (by decide)
    rw [h₁, ok_bind, if_neg (by decide), if_neg (by decide), if_neg (by decide), if_pos rfl]
    rfl
  | true =>
    have h₁ : p.read ptr = .ok CR := hsep 0 (by decide)
    have h₂ : p.read (ptr + 1) = .ok LF := hsep 1 (by decide)
    rw [h₁, ok_bind, if_neg (by decide), if_neg (by decide), if_pos rfl, if_neg (by decide), h₂,
      ok_bind, if_pos rfl]
    rfl

end Rounds

/-- The separator is read where it stands. -/
theorem read_separator (last : Bool) (ptr : Nat) (h : ptr = A.length) (i : Nat)
    (hi : i < (separator last).length) :
    (⟨A ++ (separator last ++ R), q, false, m, n⟩ : CsvParse).read (ptr + i) =
      .ok ((separator last).get ⟨i, hi⟩) := by
  subst h
  rw [read]
  simp only [List.getElem?_append_right (Nat.le_add_right _ _), Nat.add_sub_cancel_left]
  rw [List.getElem?_append_left hi, List.getElem?_eq_getElem hi]
  rfl

/-- The scan inside a quoted field: `A` is what has been read and unescaped, `J` the gap behind
it. -/
theorem columnLoop_escape (k : Nat) (h0 : 0 ∉ f) : ∀ {A J : List UInt8},
    ∃ J', columnLoop true o (k + f.length) ⟨A ++ J ++ (escape f ++ R), q, false, m, n⟩
        (A.length + J.length) J.length =
      columnLoop true o k ⟨A ++ f ++ J' ++ R, q, false, m, n⟩
        ((A ++ f).length + J'.length) J'.length ∧
      (f ++ J').length = J.length + (escape f).length := by
  induction f with
  | nil =>
    intro A J
    exact ⟨J, by simp [escape], by simp [escape]⟩
  | cons b f ih =>
    intro A J
    rw [List.mem_cons, not_or] at h0
    by_cases hq : b = QUOTE
    · subst hq
      have hbuf : A ++ J ++ (escape (QUOTE :: f) ++ R) =
          A ++ J ++ QUOTE :: (QUOTE :: (escape f ++ R)) := by
        simp [escape]
      obtain ⟨J₁, hmv, hlen₁⟩ := mvChar_shift (q := q) (m := m) (n := n) A J
        (QUOTE :: (escape f ++ R)) QUOTE
      obtain ⟨J', heq, hlen⟩ := ih h0.2 (A := A ++ [QUOTE]) (J := J₁ ++ [QUOTE])
      refine ⟨J', ?_, by simp [escape, hlen₁] at hlen ⊢; omega⟩
      rw [hbuf, List.length_cons, ← Nat.add_assoc,
        columnLoop_doubled (read_behind _ (by simp)) ?_, hmv]
      · have hbuf' : A ++ [QUOTE] ++ J₁ ++ QUOTE :: (escape f ++ R) =
            A ++ [QUOTE] ++ (J₁ ++ [QUOTE]) ++ (escape f ++ R) := by
          simp
        have hptr : A.length + J.length + 1 + 1 = (A ++ [QUOTE]).length + (J₁ ++ [QUOTE]).length := by
          simp [hlen₁]; omega
        have hbytes : J.length + 1 = (J₁ ++ [QUOTE]).length := by simp [hlen₁]
        rw [hbuf', hptr, hbytes, heq]
        simp
      · rw [show A ++ J ++ QUOTE :: (QUOTE :: (escape f ++ R)) =
          (A ++ J ++ [QUOTE]) ++ QUOTE :: (escape f ++ R) by simp]
        exact read_behind _ (by simp; omega)
    · have hbuf : A ++ J ++ (escape (b :: f) ++ R) = A ++ J ++ b :: (escape f ++ R) := by
        simp [escape, hq]
      obtain ⟨J₁, hmv, hlen₁⟩ := mvChar_shift (q := q) (m := m) (n := n) A J (escape f ++ R) b
      obtain ⟨J', heq, hlen⟩ := ih h0.2 (A := A ++ [b]) (J := J₁)
      refine ⟨J', ?_, by simp [escape, hq, hlen₁] at hlen ⊢; omega⟩
      rw [hbuf, List.length_cons, ← Nat.add_assoc,
        columnLoop_plain (read_behind _ (by simp)) (Ne.symm h0.1) hq (fun _ h => by cases h)
          (fun _ => rfl), hmv]
      have hptr : A.length + J.length + 1 = (A ++ [b]).length + J₁.length := by
        simp [hlen₁]; omega
      rw [hptr, ← hlen₁, heq]
      simp

/-- The scan of a quoted field. -/
theorem columnLoop_quoted (last : Bool) (h0 : 0 ∉ f) {k : Nat} {A : List UInt8}
    (hk : f.length < k) :
    ∃ J', columnLoop true o k ⟨A ++ (escape f ++ ([QUOTE] ++ separator last ++ R)), q, false, m, n⟩
        A.length 0 =
      .ok (⟨A ++ f ++ [0] ++ J' ++ R,
        some (A.length + (escape f ++ [QUOTE] ++ separator last).length), last, m, n⟩,
        true, some o) ∧
      (f ++ [0] ++ J').length = (escape f ++ [QUOTE] ++ separator last).length := by
  obtain ⟨k, rfl⟩ := Nat.exists_eq_add_of_lt hk
  obtain ⟨J, heq, hlen⟩ := columnLoop_escape (R := [QUOTE] ++ separator last ++ R) (q := q) (m := m)
    (n := n) (o := o) (k + 1) h0 (A := A) (J := [])
  obtain ⟨J', hend, hlen'⟩ := endField_shift (q := q) (m := m) (n := n) (o := o) (A ++ f) J
    (separator last ++ R) QUOTE ((A ++ f).length + J.length + 1 + (separator last).length) last
  refine ⟨J' ++ separator last, ?_, by simp [hlen'] at hlen ⊢; omega⟩
  rw [List.append_nil, List.length_nil, Nat.add_zero A.length] at heq
  rw [show f.length + k + 1 = k + 1 + f.length by omega, heq]
  have hbuf : A ++ f ++ J ++ ([QUOTE] ++ separator last ++ R) =
      A ++ f ++ J ++ QUOTE :: (separator last ++ R) := by simp
  rw [hbuf, columnLoop_closing last (read_behind _ (by simp; omega)) fun i hi => ?_, hend]
  · simp at hlen ⊢; omega
  · rw [show A ++ f ++ J ++ QUOTE :: (separator last ++ R) =
      (A ++ f ++ J ++ [QUOTE]) ++ (separator last ++ R) by simp]
    exact read_separator last _ (by simp; omega) i hi

/-- The scan inside a bare field: nothing is moved. A CR at its end is looked behind. -/
theorem columnLoop_text (k : Nat) (h0 : 0 ∉ f) (hq : QUOTE ∉ f) (hc : COMMA ∉ f)
    (hcl : ¬ [CR, LF] <:+: f) (hR : ∃ c S, R = c :: S ∧ c ≠ LF) : ∀ {A : List UInt8},
    columnLoop false o (k + f.length) ⟨A ++ (f ++ R), q, false, m, n⟩ A.length 0 =
      columnLoop false o k ⟨A ++ f ++ R, q, false, m, n⟩ (A ++ f).length 0 := by
  induction f with
  | nil =>
    intro A
    simp
  | cons b f ih =>
    intro A
    rw [List.mem_cons, not_or] at h0 hq hc
    have hcl' : ¬ [CR, LF] <:+: f := fun h => hcl (h.trans (List.suffix_cons b f).isInfix)
    rw [List.length_cons, ← Nat.add_assoc, List.cons_append,
      columnLoop_plain (read_behind _ rfl) (Ne.symm h0.1) (Ne.symm hq.1) ?_
      (fun h => absurd h.symm hc.1)]
    · have hmv : (⟨A ++ b :: (f ++ R), q, false, m, n⟩ : CsvParse).mvChar A.length 0 b =
          ⟨A ++ [b] ++ (f ++ R), q, false, m, n⟩ := by
        simp [mvChar]
      rw [hmv, show A.length + 1 = (A ++ [b]).length by simp, ih h0.2 hq.2 hc.2 hcl']
      simp
    · rintro rfl -
      obtain ⟨c, S, hS, hne⟩ : ∃ c S, f ++ R = c :: S ∧ c ≠ LF := by
        cases f with
        | nil => exact hR
        | cons c f =>
          refine ⟨c, _, rfl, ?_⟩
          rintro rfl
          exact hcl ⟨[], f, rfl⟩
      refine ⟨c, ?_, hne⟩
      rw [hS, show A ++ CR :: c :: S = (A ++ [CR]) ++ c :: S by simp]
      exact read_behind _ (by simp)

theorem separator_head (last : Bool) :
    ∃ c S, separator last ++ R = c :: S ∧ c ≠ LF ∧ c ≠ QUOTE := by
  cases last with
  | false => exact ⟨COMMA, R, rfl, by decide⟩
  | true => exact ⟨CR, LF :: R, rfl, by decide⟩

/-- The scan of a bare field. -/
theorem columnLoop_bare (last : Bool) (h0 : 0 ∉ f) (hq : QUOTE ∉ f) (hc : COMMA ∉ f)
    (hcl : ¬ [CR, LF] <:+: f) {k : Nat} {A : List UInt8} (hk : f.length < k) :
    ∃ J', columnLoop false o k ⟨A ++ (f ++ (separator last ++ R)), q, false, m, n⟩ A.length 0 =
      .ok (⟨A ++ f ++ [0] ++ J' ++ R, some (A.length + (f ++ separator last).length), last, m, n⟩,
        true, some o) ∧
      (f ++ [0] ++ J').length = (f ++ separator last).length := by
  obtain ⟨k, rfl⟩ := Nat.exists_eq_add_of_lt hk
  obtain ⟨c, S, hS⟩ : ∃ c S, separator last = c :: S := by cases last <;> exact ⟨_, _, rfl⟩
  obtain ⟨J', heq, hlen⟩ := endField_shift (q := q) (m := m) (n := n) (o := o) (A ++ f) []
    (S ++ R) c ((A ++ f).length + (separator last).length) last
  have hJ' : J' = [] := List.eq_nil_of_length_eq_zero hlen
  refine ⟨S, ?_, by simp [hS]⟩
  obtain ⟨d, T, hT, hd, -⟩ := separator_head (R := R) last
  rw [show f.length + k + 1 = k + 1 + f.length by omega,
    columnLoop_text (k + 1) h0 hq hc hcl ⟨d, T, hT, hd⟩,
    columnLoop_separator last (read_separator last _ rfl)]
  rw [List.append_nil, List.length_nil, Nat.add_zero, hJ'] at heq
  rw [hS] at heq ⊢
  rw [List.cons_append, heq]
  simp
  omega

end Scan

/-! ## Columns, rows -/

section Rows

variable {m : List UInt8} {n : Nat}

/-- **One field** is returned where its text stands, and the rest of the buffer is untouched. -/
theorem nextColumn_spec {f : CsvField} (hf : f.Ok) (last : Bool) (P R : List UInt8) :
    ∃ M ptr, nextColumn ⟨P ++ (f.write ++ separator last ++ R), some P.length, false, m, n⟩ =
        .ok (⟨P ++ M ++ R, some (P ++ M).length, last, m, n⟩, true, some ptr) ∧
      M.length = (f.write ++ separator last).length ∧ StrAt (P ++ M) ptr f.text := by
  obtain ⟨text, quoted⟩ := f
  obtain ⟨h0, hbare⟩ := hf
  have h0 : 0 ∉ text := h0
  cases quoted with
  | true =>
    have hw : (⟨text, true⟩ : CsvField).write = [QUOTE] ++ escape text ++ [QUOTE] := rfl
    have hbuf : P ++ ([QUOTE] ++ escape text ++ [QUOTE] ++ separator last ++ R) =
        P ++ QUOTE :: (escape text ++ ([QUOTE] ++ separator last ++ R)) := by simp
    have hbuf' : P ++ QUOTE :: (escape text ++ ([QUOTE] ++ separator last ++ R)) =
        P ++ [QUOTE] ++ (escape text ++ ([QUOTE] ++ separator last ++ R)) := by simp
    obtain ⟨J', heq, hlen⟩ := columnLoop_quoted (R := R) (q := some P.length) (m := m) (n := n)
      (o := P.length + 1) last h0 (A := P ++ [QUOTE])
      (k := (P ++ QUOTE :: (escape text ++ ([QUOTE] ++ separator last ++ R))).length + 1)
      (by have := length_le_escape text; simp; omega)
    refine ⟨[QUOTE] ++ text ++ [0] ++ J', P.length + 1, ?_, ?_, h0, P ++ [QUOTE], J', by simp, by simp⟩
    · rw [hw, hbuf]
      simp only [nextColumn, Bool.false_eq_true, if_false, read_behind _ rfl, ok_bind, if_true]
      have hptr : (P ++ [QUOTE]).length = P.length + 1 := by simp
      rw [← hbuf', hptr] at heq
      rw [heq]
      simp at hlen ⊢
      omega
    · rw [hw]
      simp at hlen ⊢
      omega
  | false =>
    obtain ⟨hq, hc, hcl⟩ := hbare rfl
    have hw : (⟨text, false⟩ : CsvField).write = text := rfl
    -- the first byte is one of the field or of the separator
    obtain ⟨c, S, hS, hcq⟩ : ∃ c S, text ++ (separator last ++ R) = c :: S ∧ c ≠ QUOTE := by
      cases htext : text with
      | nil =>
        obtain ⟨c, S, hS, -, hne⟩ := separator_head (R := R) last
        exact ⟨c, S, hS, hne⟩
      | cons c l =>
        refine ⟨c, _, rfl, ?_⟩
        rintro rfl
        exact hq (by simp [htext])
    obtain ⟨J', heq, hlen⟩ := columnLoop_bare (R := R) (q := some P.length) (m := m) (n := n)
      (o := P.length) last h0 hq hc hcl (A := P)
      (k := (P ++ (text ++ (separator last ++ R))).length + 1) (by simp; omega)
    refine ⟨text ++ [0] ++ J', P.length, ?_, by rw [hw, hlen], h0, P, J', by simp, rfl⟩
    rw [hw, List.append_assoc]
    rw [hS] at heq ⊢
    simp only [nextColumn, Bool.false_eq_true, if_false, read_behind _ rfl, ok_bind, if_neg hcq]
    rw [heq]
    simp at hlen ⊢
    omega

/-- After the last field of a row there is no further column. -/
theorem nextColumn_done {buf : List UInt8} {q : Option Nat} :
    nextColumn ⟨buf, q, true, m, n⟩ = .ok (⟨buf, q, true, m, n⟩, true, none) := by
  cases q <;> rfl

/-- The columns of a row up to its last one. -/
theorem columns_commas : ∀ (row : List CsvField), (∀ f ∈ row, f.Ok) →
    ∀ (P R : List UInt8) (k : Nat),
    ∃ M ptrs, columns (k + row.length) ⟨P ++ (writeCommas row ++ R), some P.length, false, m, n⟩ =
        (columns k ⟨P ++ M ++ R, some (P ++ M).length, false, m, n⟩).map
          (Prod.map id (Option.map (ptrs ++ ·))) ∧
      List.Forall₂ (fun ptr f => StrAt (P ++ M) ptr f.text) ptrs row := by
  intro row
  induction row with
  | nil =>
    intro _ P R k
    refine ⟨[], [], ?_, .nil⟩
    simp only [List.length_nil, Nat.add_zero, writeCommas, List.flatMap_nil, List.nil_append,
      List.append_nil]
    rcases columns k ⟨P ++ R, some P.length, false, m, n⟩ with e | ⟨p, _ | row⟩ <;> rfl
  | cons f row ih =>
    intro hok P R k
    obtain ⟨M, ptr, heq, -, hstr⟩ := nextColumn_spec (m := m) (n := n) (hok f (by simp)) false P
      (writeCommas row ++ R)
    obtain ⟨M', ptrs, heq', hall⟩ := ih (fun x hx => hok x (List.mem_cons_of_mem _ hx)) (P ++ M) R k
    refine ⟨M ++ M', ptr :: ptrs, ?_, ?_⟩
    · have hbuf : P ++ (writeCommas (f :: row) ++ R) =
          P ++ (f.write ++ separator false ++ (writeCommas row ++ R)) := by
        simp [writeCommas, separator]
      rw [hbuf, List.length_cons, ← Nat.add_assoc, columns, heq, ok_bind]
      simp only [if_true]
      rw [heq', ← List.append_assoc]
      rcases columns k ⟨P ++ M ++ M' ++ R, some (P ++ M ++ M').length, false, m, n⟩ with
        e | ⟨p, _ | row⟩ <;> rfl
    · rw [← List.append_assoc]
      exact List.Forall₂.cons (hstr.append M') hall

/-- **One row.** -/
theorem columns_spec {row : List CsvField} (hne : row ≠ []) (hok : ∀ f ∈ row, f.Ok)
    (P R : List UInt8) {k : Nat} (hk : row.length < k) :
    ∃ M ptrs, columns k ⟨P ++ (writeRow row ++ R), some P.length, false, m, n⟩ =
        .ok (⟨P ++ M ++ R, some (P ++ M).length, true, m, n⟩, some ptrs) ∧
      List.Forall₂ (fun ptr f => StrAt (P ++ M) ptr f.text) ptrs row := by
  obtain rfl | ⟨row, f, rfl⟩ := List.eq_nil_or_concat' row
  · exact absurd rfl hne
  rw [List.length_append, List.length_singleton] at hk
  obtain ⟨k, rfl⟩ := Nat.exists_eq_add_of_lt hk
  obtain ⟨M, ptrs, heq, hall⟩ := columns_commas (m := m) (n := n) row (fun x hx => hok x (by simp [hx]))
    P (f.write ++ separator true ++ R) (k + 2)
  obtain ⟨M', ptr, heq', -, hstr⟩ := nextColumn_spec (m := m) (n := n) (hok f (by simp)) true
    (P ++ M) R
  refine ⟨M ++ M', ptrs ++ [ptr], ?_, ?_⟩
  · have hbuf : P ++ (writeRow (row ++ [f]) ++ R) =
        P ++ (writeCommas row ++ (f.write ++ separator true ++ R)) := by
      simp [writeRow_snoc, separator]
    rw [hbuf, show row.length + 1 + k + 1 = k + 2 + row.length by omega, heq, columns, heq', ok_bind]
    simp only [if_true]
    rw [columns, nextColumn_done, ← List.append_assoc]
    rfl
  · rw [← List.append_assoc]
    exact List.rel_append (hall.imp fun _ _ h => h.append M') (.cons hstr .nil)

theorem length_le_writeRow (row : List CsvField) : row.length < (writeRow row).length := by
  induction row with
  | nil => simp [writeRow]
  | cons f row ih =>
    rw [writeRow_cons]
    cases row with
    | nil => simp [separator]
    | cons g row => simp [separator] at ih ⊢; omega

theorem length_le_writeRows (rs : List (List CsvField)) : rs.length ≤ (writeRows rs).length := by
  induction rs with
  | nil => simp
  | cons row rs ih =>
    have := length_le_writeRow row
    rw [writeRows, List.flatMap_cons, ← writeRows, List.length_append, List.length_cons]
    omega

/-- A row does not start with NUL. -/
theorem writeRow_head {row : List CsvField} (hne : row ≠ []) (hok : ∀ f ∈ row, f.Ok) :
    ∃ c S, writeRow row = c :: S ∧ c ≠ 0 := by
  cases row with
  | nil => exact absurd rfl hne
  | cons f row =>
    obtain ⟨h0, -⟩ := hok f (by simp)
    rw [writeRow_cons]
    obtain ⟨text, quoted⟩ := f
    cases quoted with
    | true => exact ⟨QUOTE, _, rfl, by decide⟩
    | false =>
      cases text with
      | nil => cases row <;> exact ⟨_, _, rfl, by decide⟩
      | cons c text => exact ⟨c, _, rfl, fun e => h0 (by simp [e])⟩

/-- **All rows** in front of a rest `R`. -/
theorem rows_spec : ∀ (rs : List (List CsvField)), (∀ row ∈ rs, row ≠ []) →
    (∀ row ∈ rs, ∀ f ∈ row, f.Ok) → ∀ (P R : List UInt8) (need : Bool) (k : Nat),
    ∃ M need' ptrs,
      rows (k + rs.length) ⟨P ++ (writeRows rs ++ R), some P.length, need, m, n⟩ =
        (rows k ⟨P ++ M ++ R, some (P ++ M).length, need', m, n⟩).map
          (Prod.map id (Option.map (ptrs ++ ·))) ∧
      List.Forall₂ (List.Forall₂ fun ptr f => StrAt (P ++ M) ptr f.text) ptrs rs := by
  intro rs
  induction rs with
  | nil =>
    intro _ _ P R need k
    refine ⟨[], need, [], ?_, .nil⟩
    simp only [List.length_nil, Nat.add_zero, writeRows, List.flatMap_nil, List.nil_append,
      List.append_nil]
    rcases rows k ⟨P ++ R, some P.length, need, m, n⟩ with e | ⟨p, _ | rs⟩ <;> rfl
  | cons row rs ih =>
    intro hne hok P R need k
    have hok₁ := hok row (by simp)
    obtain ⟨c, S, hS, hc⟩ := writeRow_head (hne row (by simp)) hok₁
    have hbuf : P ++ (writeRows (row :: rs) ++ R) = P ++ (writeRow row ++ (writeRows rs ++ R)) := by
      simp [writeRows]
    have hlen := length_le_writeRow row
    obtain ⟨M, ptrs, heq, hall⟩ := columns_spec (m := m) (n := n) (hne row (by simp)) hok₁ P
      (writeRows rs ++ R)
      (k := (P ++ (writeRow row ++ (writeRows rs ++ R))).length + 1) (by simp; omega)
    obtain ⟨M', need', ptrss, heq', hall'⟩ := ih (fun r h => hne r (List.mem_cons_of_mem _ h))
      (fun r h => hok r (List.mem_cons_of_mem _ h)) (P ++ M) R true k
    refine ⟨M ++ M', need', ptrs :: ptrss, ?_, ?_⟩
    · have hline : nextLine ⟨P ++ (writeRow row ++ (writeRows rs ++ R)), some P.length, need, m, n⟩ =
          .ok (⟨P ++ (writeRow row ++ (writeRows rs ++ R)), some P.length, false, m, n⟩, true) := by
        simp [nextLine, hS, read_behind, hc]
      rw [hbuf, List.length_cons, ← Nat.add_assoc, rows, hline, ok_bind]
      simp only [if_true]
      rw [heq, ok_bind]
      simp only
      rw [heq', ← List.append_assoc]
      rcases rows k ⟨P ++ M ++ M' ++ R, some (P ++ M ++ M').length, need', m, n⟩ with
        e | ⟨p, _ | rs⟩ <;> rfl
    · rw [← List.append_assoc]
      refine List.Forall₂.cons (hall.imp fun _ _ h => h.append M') hall'

/-- At the terminating zero there is no further row. -/
theorem rows_done {P : List UInt8} {need : Bool} {k : Nat} :
    rows (k + 1) ⟨P ++ [0], some P.length, need, m, n⟩ =
      .ok (⟨P ++ [0], some P.length, false, m, n⟩, some []) := by
  rw [rows]
  simp [nextLine, read_behind]

/-- **The whole text.** -/
theorem tokenise_spec {rs : List (List CsvField)} (hne : ∀ row ∈ rs, row ≠ [])
    (hok : ∀ row ∈ rs, ∀ f ∈ row, f.Ok) (errmsgLen : Nat) (need : Bool) :
    ∃ p ptrs, (new (writeRows rs ++ [0]) errmsgLen need).tokenise = .ok (p, some ptrs) ∧
      p.errmsg = [] ∧
      List.Forall₂ (List.Forall₂ fun ptr f => StrAt p.buf ptr f.text) ptrs rs := by
  have hlen := length_le_writeRows rs
  obtain ⟨k, hk⟩ : ∃ k, (writeRows rs ++ [0]).length + 1 = k + 1 + rs.length :=
    ⟨(writeRows rs ++ [0]).length - rs.length, by simp; omega⟩
  obtain ⟨M, need', ptrs, heq, hall⟩ := rows_spec (m := []) (n := errmsgLen) rs hne hok [] [0] need
    (k + 1)
  refine ⟨⟨[] ++ M ++ [0], some ([] ++ M).length, false, [], errmsgLen⟩, ptrs, ?_, rfl,
    hall.imp fun _ _ h => h.imp fun _ _ hs => hs.append [0]⟩
  rw [rows_done] at heq
  simp only [tokenise, new, hk]
  refine heq.trans ?_
  simp [Except.map]

end Rows

end CsvParse

/-- Pointers that each read as their field. -/
theorem map_cstr_eq {buf : List UInt8} {ptrs : List (List Nat)} {rs : List (List CsvField)}
    (h : List.Forall₂ (List.Forall₂ fun ptr f => StrAt buf ptr f.text) ptrs rs) :
    ptrs.map (List.map (cstr buf)) = rs.map (List.map CsvField.text) := by
  rw [← List.forall₂_eq_eq_eq, List.forall₂_map_left_iff, List.forall₂_map_right_iff]
  refine h.imp fun row fs hrow => ?_
  rw [← List.forall₂_eq_eq_eq, List.forall₂_map_left_iff, List.forall₂_map_right_iff]
  exact hrow.imp fun ptr f hstr => hstr.cstr

/-- **CSV round trip.** For rows of fields written quoted or bare, tokenising the NUL-terminated text
reports no error and returns the rows; in the buffer as the tokeniser leaves it, each returned
pointer reads as its field. -/
theorem csv_round_trip (rs : List (List CsvField)) (hne : ∀ row ∈ rs, row ≠ [])
    (hok : ∀ row ∈ rs, ∀ f ∈ row, f.Ok) (errmsgLen : Nat) (need : Bool) :
    ∃ p ptrs, (CsvParse.new (writeRows rs ++ [0]) errmsgLen need).tokenise = .ok (p, some ptrs) ∧
      p.errmsg = [] ∧
      ptrs.map (List.map (cstr p.buf)) = rs.map (List.map CsvField.text) := by
  obtain ⟨p, ptrs, heq, hmsg, hall⟩ := CsvParse.tokenise_spec hne hok errmsgLen need
  exact ⟨p, ptrs, heq, hmsg, map_cstr_eq hall⟩

/-- Two rows: an empty bare field, a bare CR before the row's CR LF; a quoted quote and comma. -/
theorem csv_round_trip_mixed :
    ∃ p ptrs, (CsvParse.new (writeRows [[⟨[], false⟩, ⟨[97, CR], false⟩], [⟨[QUOTE, COMMA], true⟩]]
        ++ [0]) 32 true).tokenise = .ok (p, some ptrs) ∧ p.errmsg = [] ∧
      ptrs.map (List.map (cstr p.buf)) = [[[], [97, CR]], [[QUOTE, COMMA]]] :=
  csv_round_trip [[⟨[], false⟩, ⟨[97, CR], false⟩], [⟨[QUOTE, COMMA], true⟩]] (by decide) (by decide)
    32 true

end HoNet.Cfg
