import HoNet.Cfg.CsvSafe

/-!
# Parsing more than once with a `csv` object of `csv.cpp`

`csv::parse` widens `col_cnt` while it reads the rows, and replaces `line_cnt` and the grid only when
all rows are read. It never narrows `col_cnt`, so what an earlier text has left there shows up in the
values of a later one, and a text that is refused has widened it already. The nodes of an earlier text
are freed, and what they held shows up in the memory of later ones: the link of the last line node is
never set.

* `lines_eq` — the rows a text has do not depend on the object that parses it.
* `parse_eq`, `parse_text` — what `csv::parse` does to the object, in terms of these rows.
* `history_free_iff` — the objects and texts for which the earlier texts do not matter.
-/

namespace HoNet.Cfg

open HoNet.CString

/-! ## The object -/

/-- `class csv`; the grid as the strings its pointers are at. -/
structure Csv where
  colCnt : Nat
  lineCnt : Nat
  data : List (List UInt8)
  errmsg : List UInt8
  deriving DecidableEq, Repr

/-- The outer loop of `csv::parse` with the `col_cnt` it updates; no rows if `next_column` reports an
error. -/
def CsvParse.lines : Nat → CsvParse → Nat → CsvRes (CsvParse × Nat × Option (List (List Nat)))
  | 0, _, _ => .error .diverges
  | rounds + 1, p, colCnt => do
    let (p, more) ← p.nextLine
    if more then
      let (p, row) ← columns (p.buf.length + 1) p
      match row with
      | none => return (p, colCnt, none)
      | some row =>
        let (p, colCnt, rest) ← lines rounds p (if row.length > colCnt then row.length else colCnt)
        return (p, colCnt, rest.map (row :: ·))
    else return (p, colCnt, some [])

/-- What the memory behind the last of so many line nodes holds for `next`. -/
def behind (mem : Nat → Option Nat) : Nat → Option Nat
  | 0 => none
  | n + 1 => mem n

namespace Csv

/-- `csv::csv`. -/
def new : Csv := ⟨0, 0, [], []⟩

/-- One line of the grid, filled up with empty strings. -/
def cells (buf : List UInt8) (colCnt : Nat) (row : List Nat) : List (List UInt8) :=
  row.map (cstr buf) ++ List.replicate (colCnt - row.length) []

/-- `csv::parse`; `mem` is what the memory of each line node holds for `next` when it is allocated. Of the
last node it is the link that the loop over the lines follows, out of the list unless it is `NULL`. The
grid has `4 * line_cnt * col_cnt` bytes; where that does not fit a `size_t` the allocated block is too
small for what is stored. -/
def parse (c : Csv) (mem : Nat → Option Nat) (str : List UInt8) (need : Bool) :
    CsvRes (Csv × Bool) := do
  let (p, colCnt, rows) ← CsvParse.lines (str.length + 1) (.new str 32 need) c.colCnt
  match rows with
  | none => return ({ c with colCnt := colCnt, errmsg := p.errmsg }, false)
  | some rows =>
    if behind mem rows.length = none ∧ 4 * rows.length * colCnt < 2 ^ 32 then
      return ({ c with
        colCnt := colCnt
        lineCnt := rows.length
        data := rows.flatMap (cells p.buf colCnt) }, true)
    else .error .outOfBounds

/-- `csv::value` for a text; `none` is `NULL`. -/
def value (c : Csv) (line row : Nat) (dflt : Option (List UInt8)) :
    CsvRes (Option (List UInt8)) :=
  if line ≥ c.lineCnt ∨ row ≥ c.colCnt then .ok dflt
  else
    match c.data[line * c.colCnt + row]? with
    | some val => .ok (some val)
    | none => .error .outOfBounds

/-- `csv::value` for a number, with the conversion `tointeger` or `todouble`. -/
def valueAs {α : Type} (conv : List UInt8 → α → α) (c : Csv) (line row : Nat) (dflt : α) :
    CsvRes α := do
  let val ← c.value line row none
  match val with
  | none => return dflt
  | some val => return conv val dflt

end Csv

/-! ## The rows of a text -/

/-- The rows that are complete when the tokeniser is at the end or reports an error, and whether it is
at the end. -/
def CsvParse.complete : Nat → CsvParse → CsvRes (CsvParse × List (List Nat) × Bool)
  | 0, _ => .error .diverges
  | rounds + 1, p => do
    let (p, more) ← p.nextLine
    if more then
      let (p, row) ← columns (p.buf.length + 1) p
      match row with
      | none => return (p, [], false)
      | some row =>
        let (p, rest, ended) ← complete rounds p
        return (p, row :: rest, ended)
    else return (p, [], true)

/-- The complete rows of a text, and whether there is nothing but these. -/
def rowsOf (str : List UInt8) : List (List Nat) × Bool :=
  match CsvParse.complete (str.length + 1) (.new str 32 false) with
  | .ok (_, rows, ended) => (rows, ended)
  | .error _ => ([], false)

/-- `col_cnt` behind the rows. -/
def widen (colCnt : Nat) (rows : List (List Nat)) : Nat :=
  rows.foldl (fun w row => if row.length > w then row.length else w) colCnt

theorem le_widen (rows : List (List Nat)) (w : Nat) : w ≤ widen w rows := by
  induction rows generalizing w with
  | nil => exact le_rfl
  | cons row rows ih =>
    unfold widen
    rw [List.foldl_cons]
    refine le_trans ?_ (ih _)
    split <;> omega

theorem length_le_widen {rows : List (List Nat)} {row : List Nat} (h : row ∈ rows) (w : Nat) :
    row.length ≤ widen w rows := by
  induction rows generalizing w with
  | nil => cases h
  | cons r rows ih =>
    unfold widen
    rw [List.foldl_cons]
    rcases List.mem_cons.mp h with rfl | h
    · refine le_trans ?_ (le_widen rows _)
      split <;> omega
    · exact ih h _

theorem widen_le {rows : List (List Nat)} {w b : Nat} (hw : w ≤ b)
    (h : ∀ row ∈ rows, row.length ≤ b) : widen w rows ≤ b := by
  induction rows generalizing w with
  | nil => exact hw
  | cons row rows ih =>
    unfold widen
    rw [List.foldl_cons]
    refine ih ?_ fun r hr => h r (List.mem_cons_of_mem _ hr)
    have hrow := h row List.mem_cons_self
    split <;> omega

/-- `col_cnt` stays exactly where no row is longer. -/
theorem widen_eq_iff {rows : List (List Nat)} {w : Nat} :
    widen w rows = w ↔ ∀ row ∈ rows, row.length ≤ w := by
  constructor
  · intro h row hrow
    have := length_le_widen hrow w
    omega
  · intro h
    exact le_antisymm (widen_le le_rfl h) (le_widen rows w)

/-- An earlier `col_cnt` does not show exactly where a row is as long. -/
theorem widen_eq_zero_iff {rows : List (List Nat)} {w : Nat} (hne : rows ≠ []) :
    widen w rows = widen 0 rows ↔ ∃ row ∈ rows, w ≤ row.length := by
  constructor
  · intro h
    by_contra! hno
    obtain ⟨row, hrow⟩ := List.exists_mem_of_ne_nil rows hne
    have hpos := hno row hrow
    have hbelow : widen 0 rows ≤ w - 1 := by
      apply widen_le (Nat.zero_le _)
      intro r hr
      have := hno r hr
      omega
    have := le_widen rows w
    omega
  · rintro ⟨row, hrow, hw⟩
    refine le_antisymm (widen_le ?_ fun r hr => length_le_widen hr 0)
      (widen_le (Nat.zero_le _) fun r hr => length_le_widen hr w)
    exact le_trans hw (length_le_widen hrow 0)

/-- The rows do not depend on `col_cnt`. -/
theorem lines_eq (k : Nat) (p : CsvParse) (w : Nat) :
    CsvParse.lines k p w = (CsvParse.complete k p).map fun r =>
      (r.1, widen w r.2.1, if r.2.2 then some r.2.1 else none) := by
  induction k generalizing p w with
  | zero => rfl
  | succ k ih =>
    unfold CsvParse.lines CsvParse.complete
    simp only [bind, Except.bind, pure, Except.pure, ih]
    cases p.nextLine with
    | error e => rfl
    | ok r =>
      obtain ⟨p₁, more⟩ := r
      cases more with
      | false => rfl
      | true =>
        simp only [if_true]
        cases CsvParse.columns (p₁.buf.length + 1) p₁ with
        | error e => rfl
        | ok r =>
          obtain ⟨p₂, row⟩ := r
          cases row with
          | none => rfl
          | some row =>
            dsimp only
            cases CsvParse.complete k p₂ with
            | error e => rfl
            | ok r =>
              obtain ⟨p₃, rest, ended⟩ := r
              cases ended <;> rfl

/-- Nor on what `need_nextline` holds before `next_line` sets it. -/
theorem complete_new (str : List UInt8) (k : Nat) (need : Bool) :
    CsvParse.complete (k + 1) (.new str 32 need) = CsvParse.complete (k + 1) (.new str 32 false) := by
  unfold CsvParse.complete
  rfl

/-! ## The loops end -/

namespace CsvParse

variable {p : CsvParse} {N q k : Nat}

/-- `next_column` with text left reports an error or gets on in the text. -/
theorem nextColumn_progress (hq : p.parsePtr = some q) (hneed : p.needNextline = false)
    (ht : Text p.buf N q) :
    ∃ p' ok out, p.nextColumn = .ok (p', ok, out) ∧ (ok = true → out.isSome = true ∧
      ∀ q', p'.parsePtr = some q' → q < q' ∧ Text p'.buf N q') := by
  obtain ⟨out, ⟨p', ok, o⟩, log, heq, hle, hout⟩ := nextColumnLog_safe hq hneed ht
  refine ⟨p', ok, o, ?_, ?_⟩
  · rw [← nextColumnLog_erase, heq]
    rfl
  · intro hok
    have hret : o = some out := hout.returned hok
    refine ⟨by rw [hret]; rfl, ?_⟩
    intro q' hq'
    obtain ⟨ht', e, hoe, heq', -⟩ := hout.left hok q' hq'
    exact ⟨by omega, ht'⟩

/-- The row is over. -/
theorem columns_over (hk : 0 < k) (h : p.parsePtr = none ∨ p.needNextline = true) :
    columns k p = .ok (p, some []) := by
  obtain ⟨k, rfl⟩ := Nat.exists_eq_succ_of_ne_zero hk.ne'
  have hnext : p.nextColumn = .ok (p, true, none) := by
    unfold nextColumn
    rcases h with h | h
    · rw [h]
    · rw [h]
      cases p.parsePtr with
      | none => rfl
      | some ptr => rfl
  unfold columns
  rw [hnext]
  rfl

theorem columns_returns (hq : p.parsePtr = some q) (hneed : p.needNextline = false)
    (ht : Text p.buf N q) (hk : N - q + 1 < k) :
    ∃ p' row, columns k p = .ok (p', row) ∧ (row.isSome = true →
      ∀ q', p'.parsePtr = some q' → q < q' ∧ Text p'.buf N q') := by
  induction k generalizing p q with
  | zero => omega
  | succ k ih =>
    obtain ⟨p₁, ok, out, heq, hon⟩ := nextColumn_progress hq hneed ht
    unfold columns
    rw [heq]
    cases ok with
    | false =>
      refine ⟨p₁, none, rfl, ?_⟩
      intro hrow
      cases hrow
    | true =>
      obtain ⟨hsome, hleft⟩ := hon rfl
      obtain ⟨ptr, rfl⟩ := Option.isSome_iff_exists.mp hsome
      have hrest : ∃ p' row, columns k p₁ = .ok (p', row) ∧ (row.isSome = true →
          ∀ q', p'.parsePtr = some q' → q < q' ∧ Text p'.buf N q') := by
        by_cases hover : p₁.parsePtr = none ∨ p₁.needNextline = true
        · exact ⟨p₁, some [], columns_over (by omega) hover, fun _ => hleft⟩
        · rw [not_or] at hover
          obtain ⟨q₁, hq₁⟩ := Option.ne_none_iff_exists'.mp hover.1
          obtain ⟨hlt, ht₁⟩ := hleft q₁ hq₁
          have hle := ht₁.le
          obtain ⟨p', row, hcol, hon'⟩ := ih hq₁ (Bool.eq_false_of_not_eq_true hover.2) ht₁ (by omega)
          refine ⟨p', row, hcol, ?_⟩
          intro hrow q' hq'
          exact ⟨hlt.trans (hon' hrow q' hq').1, (hon' hrow q' hq').2⟩
      obtain ⟨p', row, hcol, hon'⟩ := hrest
      simp only [bind, Except.bind, hcol, if_true]
      refine ⟨p', row.map (ptr :: ·), rfl, ?_⟩
      intro hrow
      exact hon' (by simpa using hrow)

/-- `next_line` with text left. -/
theorem nextLine_text (hq : p.parsePtr = some q) (ht : Text p.buf N q) :
    ∃ more, p.nextLine = .ok ({ p with needNextline := false }, more) ∧ (more = true → q < N) := by
  obtain ⟨c, hc, hnext⟩ := Text.read (p := { p with needNextline := false }) ht
  refine ⟨decide (c ≠ 0), ?_, ?_⟩
  · unfold nextLine
    dsimp only
    rw [hq]
    dsimp only
    rw [hq] at hc
    rw [hc]
    rfl
  · intro hmore
    have := (hnext (of_decide_eq_true hmore)).le
    omega

/-- **The outer loop** ends: every row gets on in the text. -/
theorem complete_returns (hk : 0 < k) (h : ∀ q, p.parsePtr = some q → Text p.buf N q ∧ N - q + 1 < k) :
    ∃ r, complete k p = .ok r := by
  induction k generalizing p with
  | zero => omega
  | succ k ih =>
    unfold complete
    cases hq : p.parsePtr with
    | none =>
      have hnone : p.nextLine = .ok ({ p with needNextline := false }, false) := by
        unfold nextLine
        dsimp only
        rw [hq]
      rw [hnone]
      exact ⟨_, rfl⟩
    | some q =>
      obtain ⟨ht, hlt⟩ := h q hq
      obtain ⟨more, hline, hmore⟩ := nextLine_text hq ht
      rw [hline]
      cases more with
      | false => exact ⟨_, rfl⟩
      | true =>
        have hqN := hmore rfl
        have hlen := (List.getElem?_eq_some_iff.mp ht.nul).1
        obtain ⟨p₂, row, hcol, hon⟩ := columns_returns (p := { p with needNextline := false })
          (k := p.buf.length + 1) hq rfl ht (by omega)
        simp only [bind, Except.bind, if_true, hcol]
        cases row with
        | none => exact ⟨_, rfl⟩
        | some row =>
          obtain ⟨r, hr⟩ := ih (p := p₂) (by omega) fun q' hq' => by
            obtain ⟨hlt', ht'⟩ := hon rfl q' hq'
            have hle := ht'.le
            exact ⟨ht', by omega⟩
          rw [hr]
          exact ⟨_, rfl⟩

end CsvParse

/-! ## One call of `csv::parse` -/

namespace Csv

/-- The object behind a text of these rows, the buffer being left as `buf`. -/
def loaded (c : Csv) (buf : List UInt8) (rows : List (List Nat)) : Csv :=
  { c with
    colCnt := widen c.colCnt rows
    lineCnt := rows.length
    data := rows.flatMap (cells buf (widen c.colCnt rows)) }

/-- The object behind a text that is refused after these rows. -/
def refused (c : Csv) (rows : List (List Nat)) (errmsg : List UInt8) : Csv :=
  { c with colCnt := widen c.colCnt rows, errmsg := errmsg }

/-- **One call of `csv::parse`**, in terms of the rows of the text. -/
theorem parse_eq (c : Csv) (mem : Nat → Option Nat) (str : List UInt8) (need : Bool) :
    c.parse mem str need = (CsvParse.complete (str.length + 1) (.new str 32 false)).bind fun r =>
      if r.2.2 then
        if behind mem r.2.1.length = none ∧ 4 * r.2.1.length * widen c.colCnt r.2.1 < 2 ^ 32 then
          .ok (c.loaded r.1.buf r.2.1, true)
        else .error .outOfBounds
      else .ok (c.refused r.2.1 r.1.errmsg, false) := by
  unfold parse
  rw [lines_eq, complete_new]
  cases CsvParse.complete (str.length + 1) (.new str 32 false) with
  | error e => rfl
  | ok r =>
    obtain ⟨p, rows, ended⟩ := r
    cases ended <;> rfl

/-- **The call on a text**: there is a buffer for the grid where it accepts the rows, and a message
where it refuses them. -/
theorem parse_text {text : List UInt8} (rest : List UInt8) (h0 : 0 ∉ text) :
    ∃ buf errmsg, ∀ (c : Csv) mem need, c.parse mem (text ++ 0 :: rest) need =
      if (rowsOf (text ++ 0 :: rest)).2 then
        if behind mem (rowsOf (text ++ 0 :: rest)).1.length = none ∧
            4 * (rowsOf (text ++ 0 :: rest)).1.length *
              widen c.colCnt (rowsOf (text ++ 0 :: rest)).1 < 2 ^ 32 then
          .ok (c.loaded buf (rowsOf (text ++ 0 :: rest)).1, true)
        else .error .outOfBounds
      else .ok (c.refused (rowsOf (text ++ 0 :: rest)).1 errmsg, false) := by
  obtain ⟨⟨p, rows, ended⟩, hrows⟩ := CsvParse.complete_returns (N := text.length)
    (p := .new (text ++ 0 :: rest) 32 false) (k := (text ++ 0 :: rest).length + 1) (by omega)
    fun q hq => by
      obtain rfl : 0 = q := Option.some.inj hq
      refine ⟨.of_append h0, ?_⟩
      simp only [List.length_append, List.length_cons]
      omega
  refine ⟨p.buf, p.errmsg, fun c mem need => ?_⟩
  unfold rowsOf
  rw [parse_eq, hrows]
  rfl

/-! ## Values -/

/-- The two objects give the same values, for every cell and every default. -/
structure SameValues (c c' : Csv) : Prop where
  text : ∀ line row dflt, c.value line row dflt = c'.value line row dflt
  number : ∀ {α : Type} (conv : List UInt8 → α → α) line row dflt,
    c.valueAs conv line row dflt = c'.valueAs conv line row dflt

/-- The values are those of a fresh object that parsed the text, whatever its memory held. -/
def SameAsFresh (c : Csv) (str : List UInt8) : Prop :=
  (∃ mem need f, new.parse mem str need = .ok (f, true)) ∧
    ∀ mem need r, new.parse mem str need = .ok r → r.2 = true ∧ SameValues c r.1

/-- **Earlier texts do not matter** for this call: it returns, and the values behind it are those of a
fresh object if it returns true, and those before it if it returns false. -/
def HistoryFree (c : Csv) (mem : Nat → Option Nat) (str : List UInt8) (need : Bool) : Prop :=
  ∃ c' ok, c.parse mem str need = .ok (c', ok) ∧
    (ok = true → SameAsFresh c' str) ∧ (ok = false → SameValues c' c)

/-- A text that is accepted finds `NULL` behind its last line node, its grid fits a `size_t`, and it has
no row, or one with all the columns the object had; a text that is refused has no row with more columns
than these, or the object has no line. -/
def Fits (c : Csv) (mem : Nat → Option Nat) (str : List UInt8) : Prop :=
  if (rowsOf str).2 then
    behind mem (rowsOf str).1.length = none ∧
      4 * (rowsOf str).1.length * widen c.colCnt (rowsOf str).1 < 2 ^ 32 ∧
      ((rowsOf str).1 = [] ∨ ∃ row ∈ (rowsOf str).1, c.colCnt ≤ row.length)
  else c.lineCnt = 0 ∨ ∀ row ∈ (rowsOf str).1, row.length ≤ c.colCnt

variable {c c' : Csv} {line row : Nat} {dflt : Option (List UInt8)}

theorem SameValues.of_text (h : ∀ line row dflt, c.value line row dflt = c'.value line row dflt) :
    SameValues c c' := by
  refine ⟨h, ?_⟩
  intro α conv line row dflt
  unfold valueAs
  rw [h]

theorem value_outside (h : line ≥ c.lineCnt ∨ row ≥ c.colCnt) : c.value line row dflt = .ok dflt := by
  unfold value
  rw [if_pos h]

/-- Inside the grid the default is never returned. -/
theorem value_inside (hl : line < c.lineCnt) (hr : row < c.colCnt) : c.value line row none ≠ .ok none := by
  unfold value
  rw [if_neg (by omega)]
  split
  · intro h
    cases h
  · intro h
    cases h

/-- Values depend on the counts and the grid; where one object has no line, on the other having none. -/
theorem SameValues.of_eq (hc : c.colCnt = c'.colCnt) (hl : c.lineCnt = c'.lineCnt)
    (hd : c.data = c'.data) : SameValues c c' := by
  apply SameValues.of_text
  intro line row dflt
  unfold value
  rw [hc, hl, hd]

theorem SameValues.of_empty (hc : c.lineCnt = 0) (hc' : c'.lineCnt = 0) : SameValues c c' := by
  apply SameValues.of_text
  intro line row dflt
  rw [value_outside (Or.inl (by omega)), value_outside (Or.inl (by omega))]

/-- With a line in both, the same values mean the same number of columns. -/
theorem SameValues.colCnt_le (h : SameValues c c') (hc : 0 < c.lineCnt) : c.colCnt ≤ c'.colCnt := by
  by_contra! hlt
  have hout : c'.value 0 c'.colCnt none = .ok none := value_outside (Or.inr le_rfl)
  exact value_inside hc hlt ((h.text 0 c'.colCnt none).trans hout)

theorem loaded_same_iff (buf : List UInt8) (rows : List (List Nat)) :
    SameValues (c.loaded buf rows) (new.loaded buf rows) ↔
      rows = [] ∨ ∃ row ∈ rows, c.colCnt ≤ row.length := by
  by_cases hne : rows = []
  · subst hne
    exact iff_of_true (SameValues.of_empty rfl rfl) (Or.inl rfl)
  · have hpos : 0 < rows.length := List.length_pos_iff.mpr hne
    have hle : widen 0 rows ≤ widen c.colCnt rows :=
      widen_le (Nat.zero_le _) fun r hr => length_le_widen hr c.colCnt
    rw [or_iff_right hne, ← widen_eq_zero_iff hne]
    constructor
    · intro h
      exact le_antisymm (h.colCnt_le hpos) hle
    · intro h
      refine SameValues.of_eq h rfl ?_
      unfold loaded
      rw [h]
      rfl

theorem refused_same_iff (rows : List (List Nat)) (errmsg : List UInt8) :
    SameValues (c.refused rows errmsg) c ↔ c.lineCnt = 0 ∨ ∀ row ∈ rows, row.length ≤ c.colCnt := by
  rw [← widen_eq_iff]
  constructor
  · intro h
    rcases Nat.eq_zero_or_pos c.lineCnt with hz | hpos
    · exact Or.inl hz
    · exact Or.inr (le_antisymm (h.colCnt_le hpos) (le_widen rows _))
  · rintro (hz | hw)
    · exact SameValues.of_empty hz hz
    · exact SameValues.of_eq hw rfl rfl

/-- **History of a `csv` object**: a call is free of it exactly where the text fits the columns the
object has and the memory of the last line node is clear. -/
theorem history_free_iff (c : Csv) (mem : Nat → Option Nat) (text rest : List UInt8) (need : Bool)
    (h0 : 0 ∉ text) :
    c.HistoryFree mem (text ++ 0 :: rest) need ↔ c.Fits mem (text ++ 0 :: rest) := by
  obtain ⟨buf, errmsg, hparse⟩ := parse_text rest h0
  unfold HistoryFree SameAsFresh Fits
  simp only [hparse]
  generalize rowsOf (text ++ 0 :: rest) = parsed
  obtain ⟨rows, ended⟩ := parsed
  cases ended with
  | true =>
    simp only [if_true]
    constructor
    · rintro ⟨c', ok, hc', hfresh, -⟩
      split at hc'
      · rename_i hreturns
        cases hc'
        refine ⟨hreturns.1, hreturns.2, ?_⟩
        obtain ⟨⟨memF, needF, f, hf⟩, hall⟩ := hfresh rfl
        split at hf
        · rename_i hF
          have hsame := (hall memF needF _ (if_pos hF)).2
          exact (loaded_same_iff buf rows).mp hsame
        · cases hf
      · cases hc'
    · rintro ⟨hend, hsize, hwide⟩
      have hsame := (loaded_same_iff buf rows).mpr hwide
      -- the grid of the fresh object is no larger
      have hle : widen new.colCnt rows ≤ widen c.colCnt rows :=
        widen_le (Nat.zero_le _) fun r hr => length_le_widen hr c.colCnt
      have hsizeF := lt_of_le_of_lt (Nat.mul_le_mul_left (4 * rows.length) hle) hsize
      refine ⟨_, true, if_pos ⟨hend, hsize⟩, fun _ => ⟨?_, ?_⟩, fun h => by cases h⟩
      · exact ⟨mem, need, _, if_pos ⟨hend, hsizeF⟩⟩
      · intro memF needF r hr
        split at hr
        · cases hr
          exact ⟨rfl, hsame⟩
        · cases hr
  | false =>
    simp only [Bool.false_eq_true, if_false]
    rw [← refused_same_iff rows errmsg]
    constructor
    · rintro ⟨c', ok, hc', -, hsame⟩
      cases hc'
      exact hsame rfl
    · intro hsame
      exact ⟨_, false, rfl, ⟨fun h => (by cases h), fun _ => hsame⟩⟩

/-- `a` and then `b,c` with the same object, each row ended by CR LF, where the memory of the second line
node is not clear. -/
theorem history_free_iff_wider :
    ∃ c : Csv, new.parse (fun _ => none) [97, CR, LF, 0] true = .ok (c, true) ∧
      (c.HistoryFree (fun n => if n = 0 then none else some 7) ([98, COMMA, 99, CR, LF] ++ [0]) true ↔
        c.Fits (fun n => if n = 0 then none else some 7) ([98, COMMA, 99, CR, LF] ++ [0])) :=
  ⟨⟨1, 1, [[97]], []⟩, by decide +kernel,
    history_free_iff ⟨1, 1, [[97]], []⟩ (fun n => if n = 0 then none else some 7)
      [98, COMMA, 99, CR, LF] [] true (by decide)⟩

/-- `a,b` and then `c`: the object has a second column, a fresh one does not. `a` and then a text that
is refused in its second row, behind `b,c`: the object has a second column and no grid for it. `a`, `b`
and then `c`, where the line node of `c` is that of `a` again: it still holds the link to the one of `b`,
which is freed. -/
theorem columns_stay :
    (∃ c c' f : Csv, new.parse (fun _ => none) [97, COMMA, 98, CR, LF, 0] true = .ok (c, true) ∧
      c.parse (fun _ => none) [99, CR, LF, 0] true = .ok (c', true) ∧
      new.parse (fun _ => none) [99, CR, LF, 0] true = .ok (f, true) ∧
      c'.value 0 1 none = .ok (some []) ∧ f.value 0 1 none = .ok none ∧
      ¬ c.HistoryFree (fun _ => none) [99, CR, LF, 0] true) ∧
    (∃ c c' : Csv, new.parse (fun _ => none) [97, CR, LF, 0] true = .ok (c, true) ∧
      c.parse (fun _ => none) [98, COMMA, 99, CR, LF, 100, QUOTE, 101, 0] true = .ok (c', false) ∧
      c.value 0 1 none = .ok none ∧ c'.value 0 1 none = .error .outOfBounds ∧
      ¬ c.HistoryFree (fun _ => none) [98, COMMA, 99, CR, LF, 100, QUOTE, 101, 0] true) ∧
    ∃ c : Csv, new.parse (fun _ => none) [97, CR, LF, 98, CR, LF, 0] true = .ok (c, true) ∧
      c.parse (fun _ => some 1) [99, CR, LF, 0] true = .error .outOfBounds ∧
      ¬ c.HistoryFree (fun _ => some 1) [99, CR, LF, 0] true := by
  refine ⟨?_, ?_, ?_⟩
  · have hparse : parse ⟨2, 1, [[97], [98]], []⟩ (fun _ => none) [99, CR, LF, 0] true =
        .ok (⟨2, 1, [[99], []], []⟩, true) := by decide +kernel
    have hnew : new.parse (fun _ => none) [99, CR, LF, 0] true = .ok (⟨1, 1, [[99]], []⟩, true) := by
      decide +kernel
    refine ⟨_, _, _, by decide +kernel, hparse, hnew, by decide +kernel, by decide +kernel, ?_⟩
    rintro ⟨c', ok, hc', hfresh, -⟩
    rw [hparse] at hc'
    cases hc'
    have hsame := ((hfresh rfl).2 _ _ _ hnew).2
    exact absurd (hsame.text 0 1 none) (by decide +kernel)
  · have hparse : parse ⟨1, 1, [[97]], []⟩ (fun _ => none)
        [98, COMMA, 99, CR, LF, 100, QUOTE, 101, 0] true =
          .ok (⟨2, 1, [[97]], "unexpected char \" on \"e".toUTF8.toList⟩, false) := by decide +kernel
    refine ⟨_, _, by decide +kernel, hparse, by decide +kernel, by decide +kernel, ?_⟩
    rintro ⟨c', ok, hc', -, hsame⟩
    rw [hparse] at hc'
    cases hc'
    exact absurd ((hsame rfl).text 0 1 none) (by decide +kernel)
  · have hparse : parse ⟨1, 2, [[97], [98]], []⟩ (fun _ => some 1) [99, CR, LF, 0] true =
        .error .outOfBounds := by decide +kernel
    refine ⟨_, by decide +kernel, hparse, ?_⟩
    rintro ⟨c', ok, hc', -⟩
    rw [hparse] at hc'
    cases hc'

end Csv

end HoNet.Cfg
