import HoNet.Lib.Chain
import HoNet.Cfg.CsvHistory

/-!
# The grid of `csv.cpp`

`csv::parse` collects the rows in a list of line nodes, each with a list of column nodes, and copies
them into the grid when the text is at its end. `column_node::next` is set to `NULL` when a node is
allocated; `line_node::next` is set when the next line comes, so that of the last node it is what the
memory from `malloc` held there. `csv::value` compares its arguments with the size of the grid from
above only.

A pointer to a node is the number of its allocation; a pointer that memory happened to hold may be any
number.

* `buildLines_eq` — the nodes built are those of the rows the tokeniser finds.
* `built_foldl` — the lists they form.
* `fillLines_eq` — copying and freeing them.
* `parseNodes_eq`, `parseNodes_parse` — the call as a whole.
* `csv_grid_iff` — where the grid is the rows of the text.
-/

namespace HoNet.Cfg

open HoNet.CString HoNet.Linked

/-! ## The nodes -/

/-- The `line_node`s and `column_node`s, and the local variables `line_head` and `tail`: `tail` is
`none` while it points to `line_head`, `tailCol` while `tail->tail` points to `tail->head`. The number
`lines` of line nodes is `line_num`. -/
structure Nodes where
  first : Option Nat
  lineNext : Nat → Option Nat
  lineHead : Nat → Option Nat
  lines : Nat
  tail : Option Nat
  colNext : Nat → Option Nat
  colData : Nat → Nat
  columns : Nat
  tailCol : Option Nat

namespace Nodes

def empty : Nodes := ⟨none, fun _ => none, fun _ => none, 0, none, fun _ => none, fun _ => 0, 0, none⟩

/-- A new line node behind the others; `mem` is what the memory of each holds for `next`. -/
def addLine (mem : Nat → Option Nat) (h : Nodes) : Nodes :=
  let n := h.lines
  let lineNext := Function.update h.lineNext n (mem n)
  let h := { h with
    lineHead := Function.update h.lineHead n none
    lines := n + 1
    tail := some n
    tailCol := none
    lineNext := match h.tail with
      | none => lineNext
      | some t => Function.update lineNext t (some n)
    first := match h.tail with
      | none => some n
      | some _ => h.first }
  h

/-- A new column node behind those of the last line. -/
def addColumn (h : Nodes) (data : Nat) : Nodes :=
  let n := h.columns
  let colNext := Function.update h.colNext n none
  { h with
    colData := Function.update h.colData n data
    columns := n + 1
    tailCol := some n
    colNext := match h.tailCol with
      | none => colNext
      | some t => Function.update colNext t (some n)
    lineHead := match h.tailCol, h.tail with
      | none, some line => Function.update h.lineHead line (some n)
      | _, _ => h.lineHead }

/-- The nodes for one row. -/
def addRow (mem : Nat → Option Nat) (h : Nodes) (row : List Nat) : Nodes :=
  row.foldl addColumn (h.addLine mem)

end Nodes

/-! ## Parsing into nodes -/

namespace CsvParse

/-- The inner loop of `csv::parse`: the nodes and `col_num`. -/
def buildRow : Nat → Nodes → Nat → CsvParse → CsvRes (CsvParse × Option (Nodes × Nat))
  | 0, _, _, _ => .error .diverges
  | rounds + 1, h, colNum, p => do
    let (p, ok, out) ← p.nextColumn
    if ok then
      match out with
      | none => return (p, some (h, colNum))
      | some ptr => buildRow rounds (h.addColumn ptr) (colNum + 1) p
    else return (p, none)

/-- The outer loop: `col_cnt` and the nodes. -/
def buildLines (mem : Nat → Option Nat) :
    Nat → Nodes → Nat → CsvParse → CsvRes (CsvParse × Nat × Option Nodes)
  | 0, _, _, _ => .error .diverges
  | rounds + 1, h, colCnt, p => do
    let (p, more) ← p.nextLine
    if more then
      let (p, row) ← buildRow (p.buf.length + 1) (h.addLine mem) 0 p
      match row with
      | none => return (p, colCnt, none)
      | some (h, colNum) => buildLines mem rounds h (if colNum > colCnt then colNum else colCnt) p
    else return (p, colCnt, some h)

theorem buildRow_eq (k : Nat) (h : Nodes) (m : Nat) (p : CsvParse) :
    buildRow k h m p = (columns k p).map fun r =>
      (r.1, r.2.map fun row => (row.foldl Nodes.addColumn h, m + row.length)) := by
  induction k generalizing h m p with
  | zero => rfl
  | succ k ih =>
    unfold buildRow columns
    simp only [bind, Except.bind, pure, Except.pure, ih]
    cases p.nextColumn with
    | error e => rfl
    | ok r =>
      obtain ⟨p₁, ok, out⟩ := r
      cases ok with
      | false => rfl
      | true =>
        cases out with
        | none => rfl
        | some ptr =>
          simp only [if_true]
          cases columns k p₁ with
          | error e => rfl
          | ok r =>
            obtain ⟨p₂, row⟩ := r
            cases row with
            | none => rfl
            | some row =>
              simp only [Except.map, Option.map_some, List.foldl_cons, List.length_cons]
              rw [show m + 1 + row.length = m + (row.length + 1) by omega]

/-- The nodes are built from the rows that the tokeniser finds. -/
theorem buildLines_eq (mem : Nat → Option Nat) (k : Nat) (h : Nodes) (w : Nat) (p : CsvParse) :
    buildLines mem k h w p = (lines k p w).map fun r =>
      (r.1, r.2.1, r.2.2.map fun rows => rows.foldl (Nodes.addRow mem) h) := by
  induction k generalizing h w p with
  | zero => rfl
  | succ k ih =>
    unfold buildLines lines
    simp only [bind, Except.bind, pure, Except.pure, ih, buildRow_eq]
    cases p.nextLine with
    | error e => rfl
    | ok r =>
      obtain ⟨p₁, more⟩ := r
      cases more with
      | false => rfl
      | true =>
        simp only [if_true]
        cases columns (p₁.buf.length + 1) p₁ with
        | error e => rfl
        | ok r =>
          obtain ⟨p₂, row⟩ := r
          cases row with
          | none => rfl
          | some row =>
            simp only [Except.map, Option.map_some, Nat.zero_add]
            cases lines k p₂ (if row.length > w then row.length else w) with
            | error e => rfl
            | ok r =>
              obtain ⟨p₃, w₃, rest⟩ := r
              cases rest <;> rfl

/-- A text that is tokenised without an error has these rows and no others. -/
theorem rows_eq (k : Nat) (p : CsvParse) :
    rows k p = (complete k p).map fun r => (r.1, if r.2.2 then some r.2.1 else none) := by
  induction k generalizing p with
  | zero => rfl
  | succ k ih =>
    unfold rows complete
    simp only [bind, Except.bind, pure, Except.pure, ih]
    cases p.nextLine with
    | error e => rfl
    | ok r =>
      obtain ⟨p₁, more⟩ := r
      cases more with
      | false => rfl
      | true =>
        simp only [if_true]
        cases columns (p₁.buf.length + 1) p₁ with
        | error e => rfl
        | ok r =>
          obtain ⟨p₂, row⟩ := r
          cases row with
          | none => rfl
          | some row =>
            dsimp only
            cases complete k p₂ with
            | error e => rfl
            | ok r =>
              obtain ⟨p₃, rest, ended⟩ := r
              cases ended <;> rfl

end CsvParse

/-! ## The lists they form -/

namespace Nodes

variable {h : Nodes} {e : Option Nat} {cs row : List Nat} {cols rows : List (List Nat)}

/-- The lines have the column nodes `cols`, which are all in the order of their allocation, and these
have the fields `rows`; `e` is the link of the last line. -/
structure Holds (h : Nodes) (e : Option Nat) (cols rows : List (List Nat)) : Prop where
  lines_eq : h.lines = cols.length
  tail_eq : h.tail = (List.range cols.length).getLast?
  lineChain : Chain h.lineNext h.first (List.range cols.length) e
  columns_eq : cols.flatten = List.range h.columns
  colChain : ∀ i cs, cols[i]? = some cs → Chain h.colNext (h.lineHead i) cs none
  values : cols.map (List.map h.colData) = rows

/-- A line behind those of `cols` has the column nodes `cs` so far. -/
structure Begun (h : Nodes) (e : Option Nat) (cols rows : List (List Nat)) (cs row : List Nat) :
    Prop where
  lines_eq : h.lines = cols.length + 1
  tail_eq : h.tail = some cols.length
  lineChain : Chain h.lineNext h.first (List.range (cols.length + 1)) e
  columns_eq : cols.flatten ++ cs = List.range h.columns
  colChain : ∀ i cs, cols[i]? = some cs → Chain h.colNext (h.lineHead i) cs none
  values : cols.map (List.map h.colData) = rows
  deque : Deque h.colNext (h.lineHead cols.length) h.tailCol cs
  rowValues : cs.map h.colData = row

theorem holds_empty : empty.Holds none [] [] where
  lines_eq := rfl
  tail_eq := rfl
  lineChain := rfl
  columns_eq := rfl
  colChain i cs hi := by simp at hi
  values := rfl

theorem Holds.addLine (H : h.Holds e cols rows) (mem : Nat → Option Nat) :
    (h.addLine mem).Begun (mem cols.length) cols rows [] [] := by
  have hlines := H.lines_eq
  have hchain : Chain (h.addLine mem).lineNext (h.addLine mem).first
      (List.range (cols.length + 1)) (mem cols.length) := by
    have hold := H.lineChain
    have htail := H.tail_eq
    unfold Nodes.addLine
    dsimp only
    rw [hlines, List.range_succ, chain_concat]
    cases hlen : cols.length with
    | zero =>
      rw [hlen] at htail
      rw [htail]
      exact ⟨rfl, Function.update_self ..⟩
    | succ t =>
      rw [hlen, List.range_succ, List.getLast?_concat] at htail
      rw [hlen, List.range_succ] at hold
      rw [htail]
      dsimp only
      have hne : t + 1 ≠ t := by omega
      rw [List.range_succ, Function.update_of_ne hne, Function.update_self]
      refine ⟨Chain.relink (hold.congr ?_) (by simp) _, rfl⟩
      intro z hz
      have hz' : z ≠ t + 1 := by
        simp only [List.mem_append, List.mem_range, List.mem_singleton] at hz
        omega
      exact Function.update_of_ne hz' ..
  refine ⟨congrArg (· + 1) hlines, congrArg some hlines, hchain, ?_, ?_, H.values, ?_, rfl⟩
  · rw [List.append_nil]
    exact H.columns_eq
  · intro i cs hi
    have hi' : i ≠ h.lines := by
      have := (List.getElem?_eq_some_iff.mp hi).1
      omega
    have hhead : (h.addLine mem).lineHead i = h.lineHead i := Function.update_of_ne hi' ..
    rw [hhead]
    exact H.colChain i cs hi
  · have hhead : (h.addLine mem).lineHead cols.length = none := by
      rw [← hlines]
      exact Function.update_self ..
    rw [hhead]
    exact deque_nil

/-- The next node is none of the others. -/
theorem Begun.fresh (H : h.Begun e cols rows cs row) : ∀ c ∈ cols.flatten ++ cs, c ≠ h.columns := by
  intro c hc
  rw [H.columns_eq, List.mem_range] at hc
  exact hc.ne

theorem Begun.colData_eq (H : h.Begun e cols rows cs row) (data : Nat) :
    ∀ c ∈ cols.flatten ++ cs, (h.addColumn data).colData c = h.colData c :=
  fun c hc => Function.update_of_ne (H.fresh c hc) ..

/-- A new column leaves the links of the other lines alone. -/
theorem Begun.colNext_eq (H : h.Begun e cols rows cs row) (data : Nat) :
    ∀ c ∈ cols.flatten, (h.addColumn data).colNext c = h.colNext c := by
  intro c hc
  have hnew := H.fresh c (List.mem_append_left _ hc)
  have hnd : (cols.flatten ++ cs).Nodup := by
    rw [H.columns_eq]
    exact List.nodup_range
  unfold Nodes.addColumn
  cases htail : h.tailCol with
  | none => exact Function.update_of_ne hnew ..
  | some t =>
    have ht : t ∈ cs := List.mem_of_getLast? (H.deque.tail_eq.symm.trans htail)
    have hct : c ≠ t := (List.nodup_append.mp hnd).2.2 c hc t ht
    dsimp only
    rw [Function.update_of_ne hct, Function.update_of_ne hnew]

theorem Begun.lineHead_eq (H : h.Begun e cols rows cs row) (data : Nat) :
    ∀ i, i ≠ cols.length → (h.addColumn data).lineHead i = h.lineHead i := by
  intro i hi
  unfold Nodes.addColumn
  rw [H.tail_eq]
  cases h.tailCol with
  | none => exact Function.update_of_ne hi ..
  | some t => rfl

/-- It is linked behind the columns of its own line. -/
theorem Begun.link (H : h.Begun e cols rows cs row) (data : Nat) :
    Deque (h.addColumn data).colNext ((h.addColumn data).lineHead cols.length)
      (h.addColumn data).tailCol (cs ++ [h.columns]) := by
  have hone : Chain (Function.update h.colNext h.columns none) (some h.columns) [h.columns] none :=
    ⟨rfl, Function.update_self ..⟩
  unfold Nodes.addColumn
  rw [H.tail_eq]
  cases htail : h.tailCol with
  | none =>
    obtain rfl : cs = [] := H.deque.tail_none.mp htail
    dsimp only
    rw [Function.update_self]
    exact hone.deque
  | some t =>
    have hold : Deque (Function.update h.colNext h.columns none) (h.lineHead cols.length)
        h.tailCol cs := H.deque.congr fun z hz =>
      Function.update_of_ne (H.fresh z (List.mem_append_right _ hz)) ..
    rw [htail] at hold
    refine hold.append hone ?_ (List.cons_ne_nil _ _)
    intro z hz hzcs
    rw [List.mem_singleton] at hz
    exact H.fresh z (List.mem_append_right _ hzcs) hz

theorem Begun.addColumn (H : h.Begun e cols rows cs row) (data : Nat) :
    (h.addColumn data).Begun e cols rows (cs ++ [h.columns]) (row ++ [data]) := by
  refine ⟨H.lines_eq, H.tail_eq, H.lineChain, ?_, ?_, ?_, H.link data, ?_⟩
  · rw [← List.append_assoc, H.columns_eq]
    exact List.range_succ.symm
  · intro i cs' hi
    have hi' : i ≠ cols.length := by
      have := (List.getElem?_eq_some_iff.mp hi).1
      omega
    rw [H.lineHead_eq data i hi']
    refine (H.colChain i cs' hi).congr fun z hz => H.colNext_eq data z ?_
    exact List.mem_flatten_of_mem (List.mem_of_getElem? hi) hz
  · rw [← H.values]
    refine List.map_congr_left fun cs' hcs' => List.map_congr_left fun c hc => ?_
    exact H.colData_eq data c (List.mem_append_left _ (List.mem_flatten_of_mem hcs' hc))
  · have hlast : (h.addColumn data).colData h.columns = data := Function.update_self ..
    rw [List.map_append, List.map_singleton, hlast, ← H.rowValues]
    congr 1
    exact List.map_congr_left fun c hc => H.colData_eq data c (List.mem_append_right _ hc)

theorem Begun.holds (H : h.Begun e cols rows cs row) : h.Holds e (cols ++ [cs]) (rows ++ [row]) := by
  refine ⟨?_, ?_, ?_, ?_, ?_, ?_⟩
  · rw [List.length_append]
    exact H.lines_eq
  · rw [List.length_append, List.length_singleton, List.range_succ, List.getLast?_concat]
    exact H.tail_eq
  · rw [List.length_append]
    exact H.lineChain
  · rw [List.flatten_concat]
    exact H.columns_eq
  · intro i cs' hi
    rcases Nat.lt_or_ge i cols.length with hlt | hge
    · rw [List.getElem?_append_left hlt] at hi
      exact H.colChain i cs' hi
    · have hlen := (List.getElem?_eq_some_iff.mp hi).1
      rw [List.length_append, List.length_singleton] at hlen
      obtain rfl : i = cols.length := by omega
      rw [List.getElem?_concat_length] at hi
      cases hi
      exact H.deque.chain
  · rw [List.map_append, List.map_singleton, H.values, H.rowValues]

theorem Begun.foldl (H : h.Begun e cols rows cs row) (fields : List Nat) :
    ∃ cs', (fields.foldl Nodes.addColumn h).Begun e cols rows cs' (row ++ fields) := by
  induction fields generalizing h cs row with
  | nil =>
    rw [List.append_nil]
    exact ⟨cs, H⟩
  | cons field fields ih =>
    obtain ⟨cs', H'⟩ := ih (H.addColumn field)
    rw [List.append_assoc] at H'
    exact ⟨cs', H'⟩

theorem Holds.addRow (H : h.Holds e cols rows) (mem : Nat → Option Nat) (row : List Nat) :
    ∃ cs, (h.addRow mem row).Holds (mem cols.length) (cols ++ [cs]) (rows ++ [row]) := by
  obtain ⟨cs, H'⟩ := (H.addLine mem).foldl row
  exact ⟨cs, H'.holds⟩

/-- **The nodes behind any number of rows.** -/
theorem built_foldl (mem : Nat → Option Nat) (rows : List (List Nat)) :
    ∃ cols, (rows.foldl (addRow mem) empty).Holds (behind mem rows.length) cols rows := by
  induction rows using List.reverseRecOn with
  | nil => exact ⟨[], holds_empty⟩
  | append_singleton rows row ih =>
    obtain ⟨cols, H⟩ := ih
    obtain ⟨cs, H'⟩ := H.addRow mem row
    have hlen : cols.length = rows.length := by
      rw [← H.values, List.length_map]
    rw [hlen] at H'
    refine ⟨cols ++ [cs], ?_⟩
    rw [List.foldl_append, List.length_append]
    exact H'

end Nodes

/-! ## Filling the grid -/

/-- `data[i] = val`. -/
def setCell (data : List (List UInt8)) (i : Nat) (val : List UInt8) : CsvRes (List (List UInt8)) :=
  if i < data.length then .ok (data.set i val) else .error .outOfBounds

/-- What the loop over the lines has freed, in this order, and the grid. -/
structure Filling where
  lines : List Nat
  columns : List Nat
  data : List (List UInt8)
  deriving DecidableEq, Repr

namespace Nodes

/-- The loop over the column nodes of a line. A node is read only while it is allocated. -/
def fillRow (h : Nodes) (buf : List UInt8) (base : Nat) :
    Nat → Option Nat → Nat → Filling → CsvRes (Nat × Filling)
  | 0, _, _, _ => .error .diverges
  | _ + 1, none, row, s => .ok (row, s)
  | rounds + 1, some c, row, s =>
    if c < h.columns ∧ c ∉ s.columns then do
      let data ← setCell s.data (base + row) (cstr buf (h.colData c))
      fillRow h buf base rounds (h.colNext c) (row + 1) { s with columns := s.columns ++ [c], data }
    else .error .outOfBounds

/-- The loop that fills a line up with `""`, for as many columns as are left. -/
def fillRest (base : Nat) : Nat → Nat → List (List UInt8) → CsvRes (List (List UInt8))
  | 0, _, data => .ok data
  | left + 1, row, data => do
    let data ← setCell data (base + row) []
    fillRest base left (row + 1) data

/-- Both loops for the line that begins at `head`. -/
def fillLine (h : Nodes) (buf : List UInt8) (colCnt line : Nat) (head : Option Nat) (s : Filling) :
    CsvRes Filling := do
  let (row, s) ← h.fillRow buf (line * colCnt) (h.columns + 1) head 0 s
  let data ← fillRest (line * colCnt) (colCnt - row) row s.data
  return { s with data }

/-- The loop over the line nodes. -/
def fillLines (h : Nodes) (buf : List UInt8) (colCnt : Nat) :
    Nat → Option Nat → Nat → Filling → CsvRes Filling
  | 0, _, _, _ => .error .diverges
  | _ + 1, none, _, s => .ok s
  | rounds + 1, some cur, line, s =>
    if cur < h.lines ∧ cur ∉ s.lines then do
      let s ← h.fillLine buf colCnt line (h.lineHead cur) s
      fillLines h buf colCnt rounds (h.lineNext cur) (line + 1) { s with lines := s.lines ++ [cur] }
    else .error .outOfBounds

end Nodes

/-- Storing these values one behind the other. -/
def writes : Nat → List (List UInt8) → List (List UInt8) → CsvRes (List (List UInt8))
  | _, [], data => .ok data
  | i, val :: vals, data => do
    let data ← setCell data i val
    writes (i + 1) vals data

section Writes

variable {i : Nat} {vals vals' data : List (List UInt8)}

theorem writes_append :
    writes i (vals ++ vals') data = (writes i vals data).bind (writes (i + vals.length) vals') := by
  induction vals generalizing i data with
  | nil => rfl
  | cons val vals ih =>
    rw [List.cons_append, List.length_cons, writes, writes]
    cases setCell data i val with
    | error e => rfl
    | ok data =>
      have hlen : i + 1 + vals.length = i + (vals.length + 1) := by omega
      simp only [bind, Except.bind, ih, hlen]

/-- They fit the block, or one of them is stored behind it. -/
theorem writes_eq (hi : i ≤ data.length) : writes i vals data =
    if i + vals.length ≤ data.length then .ok (data.take i ++ vals ++ data.drop (i + vals.length))
    else .error .outOfBounds := by
  induction vals generalizing i data with
  | nil =>
    rw [List.length_nil, Nat.add_zero, if_pos hi, List.append_nil, List.take_append_drop]
    rfl
  | cons val vals ih =>
    rw [writes, setCell]
    by_cases hlt : i < data.length
    · have hlen : i + 1 + vals.length = i + (val :: vals).length := by
        rw [List.length_cons]
        omega
      have htake : (data.set i val).take (i + 1) = data.take i ++ [val] := by
        rw [List.take_add_one, List.take_set_of_le le_rfl, List.getElem?_set_self hlt]
        rfl
      have hdrop : (data.set i val).drop (i + (val :: vals).length) =
          data.drop (i + (val :: vals).length) := by
        apply List.drop_set_of_lt
        rw [List.length_cons]
        omega
      have hrest : writes (i + 1) vals (data.set i val) = _ := ih (by rw [List.length_set]; omega)
      rw [List.length_set, hlen, htake, hdrop] at hrest
      rw [if_pos hlt, List.append_cons]
      exact hrest
    · rw [if_neg hlt, if_neg (by rw [List.length_cons]; omega)]
      rfl

/-- A block of a given length. -/
theorem writes_block (hle : data.length ≤ vals.length) :
    writes 0 vals data = if vals.length = data.length then .ok vals else .error .outOfBounds := by
  rw [writes_eq (Nat.zero_le _), Nat.zero_add]
  by_cases heq : vals.length = data.length
  · rw [if_pos heq.le, if_pos heq, heq, List.drop_length, List.take_zero, List.append_nil]
    rfl
  · rw [if_neg (by omega), if_neg heq]

end Writes

theorem Csv.length_cells {buf : List UInt8} {w : Nat} {row : List Nat} (h : row.length ≤ w) :
    (cells buf w row).length = w := by
  unfold cells
  rw [List.length_append, List.length_map, List.length_replicate]
  omega

namespace Nodes

variable {h : Nodes} {buf : List UInt8} {p e : Option Nat} {k base row w line : Nat} {cs : List Nat}
  {cols : List (List Nat)} {s : Filling}

theorem fillRow_eq (hc : Chain h.colNext p cs none) (hnd : (s.columns ++ cs).Nodup)
    (hlt : ∀ c ∈ cs, c < h.columns) (hk : cs.length < k) :
    h.fillRow buf base k p row s =
      (writes (base + row) (cs.map fun c => cstr buf (h.colData c)) s.data).map fun data =>
        (row + cs.length, { s with columns := s.columns ++ cs, data }) := by
  induction cs generalizing p k row s with
  | nil =>
    obtain rfl : p = none := hc
    obtain ⟨k, rfl⟩ := Nat.exists_eq_succ_of_ne_zero (Nat.ne_of_gt hk)
    simp only [fillRow, List.map_nil, writes, Except.map, List.append_nil, List.length_nil,
      Nat.add_zero]
  | cons c cs ih =>
    obtain ⟨rfl, hcs⟩ := hc
    obtain ⟨k, rfl⟩ := Nat.exists_eq_succ_of_ne_zero (Nat.ne_of_gt (Nat.zero_lt_of_lt hk))
    have hfresh : c ∉ s.columns := fun hm =>
      (List.nodup_append.mp hnd).2.2 c hm c List.mem_cons_self rfl
    rw [fillRow, if_pos ⟨hlt c List.mem_cons_self, hfresh⟩, List.map_cons, writes]
    cases setCell s.data (base + row) (cstr buf (h.colData c)) with
    | error e => rfl
    | ok data =>
      rw [List.append_cons] at hnd
      have hrest : h.fillRow buf base k (h.colNext c) (row + 1)
          { s with columns := s.columns ++ [c], data } = _ :=
        ih hcs hnd (fun z hz => hlt z (List.mem_cons_of_mem _ hz)) (Nat.lt_of_succ_lt_succ hk)
      have hlen : row + 1 + cs.length = row + (c :: cs).length := by
        rw [List.length_cons]
        omega
      rw [hlen, ← List.append_cons] at hrest
      exact hrest

theorem fillRest_eq (base left row : Nat) (data : List (List UInt8)) :
    fillRest base left row data = writes (base + row) (List.replicate left []) data := by
  induction left generalizing row data with
  | zero => rfl
  | succ left ih =>
    rw [fillRest, List.replicate_succ, writes]
    cases setCell data (base + row) [] with
    | error e => rfl
    | ok data => exact ih (row + 1) data

/-- A line becomes a line of the grid, and its column nodes are freed. -/
theorem fillLine_eq (hc : Chain h.colNext p cs none) (hnd : (s.columns ++ cs).Nodup)
    (hlt : ∀ c ∈ cs, c < h.columns) :
    h.fillLine buf w line p s =
      (writes (line * w) (Csv.cells buf w (cs.map h.colData)) s.data).map fun data =>
        { s with columns := s.columns ++ cs, data } := by
  have hk : cs.length < h.columns + 1 := by
    have hsub : cs.length ≤ (List.range h.columns).length :=
      (hc.nodup.subperm fun c hc => List.mem_range.mpr (hlt c hc)).length_le
    rw [List.length_range] at hsub
    omega
  rw [fillLine, fillRow_eq hc hnd hlt hk, Csv.cells, writes_append, List.map_map, List.length_map,
    List.length_map, Nat.add_zero, Nat.zero_add]
  change (Except.map _ (writes _ (cs.map (cstr buf ∘ h.colData)) s.data) >>= _) = _
  cases writes (line * w) (cs.map (cstr buf ∘ h.colData)) s.data with
  | error e => rfl
  | ok data =>
    simp only [bind, Except.bind, Except.map, fillRest_eq]
    cases writes (line * w + cs.length) (List.replicate (w - cs.length) []) data with
    | error e => rfl
    | ok data => rfl

/-- **All lines.** Behind the last one the loop is over where its link is `NULL`; any other link is
to a node that is freed, or to none. -/
theorem fillLines_eq (hc : Chain h.lineNext p (List.range' line cols.length) e)
    (hlines : line + cols.length = h.lines) (hfreed : s.lines = List.range line)
    (hcol : ∀ i cs, cols[i]? = some cs → Chain h.colNext (h.lineHead (line + i)) cs none)
    (hcols : s.columns ++ cols.flatten = List.range h.columns) (hw : ∀ cs ∈ cols, cs.length ≤ w)
    (hk : cols.length < k) :
    h.fillLines buf w k p line s =
      (writes (line * w) (cols.flatMap fun cs => Csv.cells buf w (cs.map h.colData)) s.data).bind
        fun data =>
          if e = none then .ok ⟨List.range h.lines, List.range h.columns, data⟩
          else .error .outOfBounds := by
  induction cols generalizing p k line s with
  | nil =>
    obtain rfl : p = e := hc
    obtain ⟨k, rfl⟩ := Nat.exists_eq_succ_of_ne_zero (Nat.ne_of_gt hk)
    rw [List.flatten_nil, List.append_nil] at hcols
    obtain rfl : line = h.lines := hlines
    simp only [List.flatMap_nil, writes, Except.bind]
    cases p with
    | none =>
      rw [fillLines, if_pos rfl, ← hfreed, ← hcols]
    | some cur =>
      have hgone : ¬ (cur < h.lines ∧ cur ∉ s.lines) := by
        rintro ⟨hlt, hnot⟩
        rw [hfreed] at hnot
        exact hnot (List.mem_range.mpr hlt)
      rw [fillLines, if_neg hgone, if_neg (Option.some_ne_none cur)]
  | cons cs cols ih =>
    obtain ⟨rfl, hrest⟩ := hc
    obtain ⟨k, rfl⟩ := Nat.exists_eq_succ_of_ne_zero (Nat.ne_of_gt (Nat.zero_lt_of_lt hk))
    have hlive : line < h.lines ∧ line ∉ s.lines := by
      rw [List.length_cons] at hlines
      rw [hfreed, List.mem_range]
      omega
    rw [List.flatten_cons, ← List.append_assoc] at hcols
    have hin : ∀ c ∈ s.columns ++ cs, c < h.columns := fun c hc => by
      rw [← List.mem_range, ← hcols]
      exact List.mem_append_left _ hc
    have hnd : (s.columns ++ cs).Nodup := by
      have hall : (s.columns ++ cs ++ cols.flatten).Nodup := by
        rw [hcols]
        exact List.nodup_range
      exact (List.nodup_append.mp hall).1
    have hcells : (Csv.cells buf w (cs.map h.colData)).length = w := by
      apply Csv.length_cells
      rw [List.length_map]
      exact hw cs List.mem_cons_self
    have hoffset : line * w + w = (line + 1) * w := by ring
    have hline : h.fillLine buf w line (h.lineHead line) s = _ :=
      fillLine_eq (hcol 0 cs rfl) hnd fun c hc => hin c (List.mem_append_right _ hc)
    rw [fillLines, if_pos hlive, hline, List.flatMap_cons, writes_append, hcells, hoffset]
    cases writes (line * w) (Csv.cells buf w (cs.map h.colData)) s.data with
    | error e => rfl
    | ok data =>
      refine ih hrest ?_ ?_ ?_ hcols ?_ (Nat.lt_of_succ_lt_succ hk)
      · rw [← hlines, List.length_cons]
        omega
      · rw [List.range_succ, hfreed]
      · intro i cs' hi
        rw [Nat.add_assoc, Nat.add_comm 1 i]
        exact hcol (i + 1) cs' hi
      · exact fun cs' hcs' => hw cs' (List.mem_cons_of_mem _ hcs')

/-- The whole loop for nodes built from these rows. -/
theorem Holds.fillLines {rows : List (List Nat)} (H : h.Holds e cols rows)
    (hw : ∀ row ∈ rows, row.length ≤ w) (data : List (List UInt8)) :
    h.fillLines buf w (h.lines + 1) h.first 0 ⟨[], [], data⟩ =
      (writes 0 (rows.flatMap (Csv.cells buf w)) data).bind fun data =>
        if e = none then .ok ⟨List.range h.lines, List.range h.columns, data⟩
        else .error .outOfBounds := by
  have hcells : (cols.flatMap fun cs => Csv.cells buf w (cs.map h.colData)) =
      rows.flatMap (Csv.cells buf w) := by
    rw [← H.values, List.flatMap_map]
  have hcols : ∀ cs ∈ cols, cs.length ≤ w := by
    intro cs hcs
    have hrow := hw (cs.map h.colData) (by rw [← H.values]; exact List.mem_map_of_mem hcs)
    rw [List.length_map] at hrow
    exact hrow
  have hchain := H.lineChain
  rw [List.range_eq_range'] at hchain
  have hcol : ∀ i cs, cols[i]? = some cs → Chain h.colNext (h.lineHead (0 + i)) cs none := by
    intro i cs hi
    rw [Nat.zero_add]
    exact H.colChain i cs hi
  have hall : h.fillLines buf w (h.lines + 1) h.first 0 ⟨[], [], data⟩ = _ :=
    fillLines_eq hchain ((Nat.zero_add _).trans H.lines_eq.symm) rfl hcol H.columns_eq hcols
      (by rw [H.lines_eq]; exact Nat.lt_succ_self _)
  rw [hall, Nat.zero_mul, hcells]

end Nodes

/-! ## The call as a whole -/

namespace Csv

/-- `csv::parse` with its nodes; `mem` is the memory of the line nodes and `block` that of the grid,
whose size is a `size_t`. The line nodes it visits come with the result. -/
def parseNodes (mem : Nat → Option Nat) (block : Nat → List UInt8) (c : Csv) (str : List UInt8)
    (need : Bool) : CsvRes (Csv × Bool × List Nat) := do
  let (p, colCnt, nodes) ← CsvParse.buildLines mem (str.length + 1) .empty c.colCnt (.new str 32 need)
  match nodes with
  | none => return ({ c with colCnt := colCnt, errmsg := p.errmsg }, false, [])
  | some h =>
    let data := (List.range (4 * h.lines * colCnt % 2 ^ 32 / 4)).map block
    let s ← h.fillLines p.buf colCnt (h.lines + 1) h.first 0 ⟨[], [], data⟩
    return ({ c with colCnt := colCnt, lineCnt := h.lines, data := s.data }, true, s.lines)

/-- `csv::value` for any two `int`s. An index below the grid is outside its block. -/
def valueInt (c : Csv) (line row : Int) (dflt : Option (List UInt8)) :
    CsvRes (Option (List UInt8)) :=
  if line ≥ c.lineCnt ∨ row ≥ c.colCnt then .ok dflt
  else if line * c.colCnt + row < 0 then .error .outOfBounds
  else
    match c.data[(line * c.colCnt + row).toNat]? with
    | some val => .ok (some val)
    | none => .error .outOfBounds

variable {mem : Nat → Option Nat} {block : Nat → List UInt8} {c : Csv} {str buf : List UInt8}
  {need : Bool} {p : CsvParse} {rows : List (List Nat)} {w : Nat} {dflt : Option (List UInt8)}

theorem valueInt_natCast (line row : Nat) : c.valueInt line row dflt = c.value line row dflt := by
  have hpos : ¬ (line * c.colCnt + row : Int) < 0 := not_lt.mpr (by positivity)
  have hindex : (line * c.colCnt + row : Int).toNat = line * c.colCnt + row := by
    exact_mod_cast Int.toNat_natCast _
  have hguard : (line : Int) ≥ c.lineCnt ∨ (row : Int) ≥ c.colCnt ↔
      line ≥ c.lineCnt ∨ row ≥ c.colCnt := by omega
  unfold valueInt value
  rw [if_neg hpos, hindex]
  exact if_congr hguard rfl rfl

theorem length_flatMap_cells (hw : ∀ row ∈ rows, row.length ≤ w) :
    (rows.flatMap (cells buf w)).length = rows.length * w := by
  induction rows with
  | nil => simp
  | cons row rows ih =>
    rw [List.flatMap_cons, List.length_append, length_cells (hw row List.mem_cons_self),
      ih fun r hr => hw r (List.mem_cons_of_mem _ hr), List.length_cons]
    ring

/-- The cell of a line and a column. -/
theorem getElem?_flatMap_cells (hw : ∀ row ∈ rows, row.length ≤ w) {i j : Nat} (hi : i < rows.length)
    (hj : j < w) : (rows.flatMap (cells buf w))[i * w + j]? = (cells buf w rows[i])[j]? := by
  induction rows generalizing i with
  | nil => cases hi
  | cons row rows ih =>
    have hlen : (cells buf w row).length = w := length_cells (hw row List.mem_cons_self)
    rw [List.flatMap_cons]
    cases i with
    | zero =>
      rw [Nat.zero_mul, Nat.zero_add, List.getElem?_append_left (by omega)]
      rfl
    | succ i =>
      have hsplit : (i + 1) * w + j = w + (i * w + j) := by ring
      rw [hsplit, List.getElem?_append_right (by omega), hlen, Nat.add_sub_cancel_left]
      exact ih (fun r hr => hw r (List.mem_cons_of_mem _ hr)) (Nat.lt_of_succ_lt_succ hi)

theorem getElem?_cells {row : List Nat} {j : Nat} (hj : j < w) (h : row.length ≤ w) :
    (cells buf w row)[j]? = some (row[j]?.elim [] (cstr buf)) := by
  unfold cells
  rcases Nat.lt_or_ge j row.length with hlt | hge
  · rw [List.getElem?_append_left (by rw [List.length_map]; exact hlt), List.getElem?_map,
      List.getElem?_eq_getElem hlt]
    rfl
  · rw [List.getElem?_append_right (by rw [List.length_map]; exact hge), List.length_map,
      List.getElem?_replicate_of_lt (by omega), List.getElem?_eq_none hge]
    rfl

theorem parseNodes_eq (hw : ∀ row ∈ rows, row.length ≤ w)
    (h : CsvParse.lines (str.length + 1) (.new str 32 need) c.colCnt = .ok (p, w, some rows)) :
    c.parseNodes mem block str need =
      if behind mem rows.length = none ∧ 4 * rows.length * w < 2 ^ 32 then
        .ok ({ c with colCnt := w, lineCnt := rows.length, data := rows.flatMap (cells p.buf w) },
          true, List.range rows.length)
      else .error .outOfBounds := by
  obtain ⟨cols, H⟩ := Nodes.built_foldl mem rows
  have hlines : (rows.foldl (Nodes.addRow mem) .empty).lines = rows.length := by
    rw [H.lines_eq, ← H.values, List.length_map]
  have hlen : cols.length = rows.length := H.lines_eq.symm.trans hlines
  unfold parseNodes
  rw [CsvParse.buildLines_eq, h]
  simp only [Except.map, Option.map_some, bind, Except.bind, pure, Except.pure]
  generalize rows.foldl (Nodes.addRow mem) .empty = nodes at H hlines
  rw [H.fillLines hw]
  simp only [hlines]
  have hdata : ((List.range (4 * rows.length * w % 2 ^ 32 / 4)).map block).length =
      4 * rows.length * w % 2 ^ 32 / 4 := by
    rw [List.length_map, List.length_range]
  -- the block is never larger than the cells
  have hsize : 4 * rows.length * w % 2 ^ 32 / 4 ≤ rows.length * w ∧
      (rows.length * w = 4 * rows.length * w % 2 ^ 32 / 4 ↔ 4 * rows.length * w < 2 ^ 32) := by
    rw [Nat.mul_assoc]
    generalize rows.length * w = m
    omega
  rw [writes_block (by rw [hdata, length_flatMap_cells hw]; exact hsize.1), hdata,
    length_flatMap_cells hw]
  by_cases hfits : 4 * rows.length * w < 2 ^ 32
  · rw [if_pos (hsize.2.mpr hfits)]
    by_cases hend : behind mem rows.length = none
    · rw [if_pos ⟨hend, hfits⟩]
      simp only [Except.bind, if_pos hend]
    · rw [if_neg fun h => hend h.1]
      simp only [Except.bind, if_neg hend]
  · rw [if_neg fun h => hfits (hsize.2.mp h), if_neg fun h => hfits h.2]
    rfl

/-- The rows that a call without an error finds, and the `col_cnt` behind them. -/
theorem lines_of_complete {ended : Bool}
    (h : CsvParse.complete (str.length + 1) (.new str 32 need) = .ok (p, rows, ended)) :
    CsvParse.lines (str.length + 1) (.new str 32 need) c.colCnt =
      .ok (p, widen c.colCnt rows, if ended then some rows else none) := by
  rw [lines_eq, h]
  rfl

/-- **Refinement.** With its nodes the call is that on whole rows. -/
theorem parseNodes_parse : c.parseNodes mem block str need =
    (c.parse mem str need).map fun r => (r.1, r.2, if r.2 then List.range r.1.lineCnt else []) := by
  cases hrows : CsvParse.complete (str.length + 1) (.new str 32 need) with
  | error e =>
    unfold parseNodes parse
    rw [CsvParse.buildLines_eq, lines_eq, hrows]
    rfl
  | ok r =>
    obtain ⟨p, rows, ended⟩ := r
    have hlines : CsvParse.lines (str.length + 1) (.new str 32 need) c.colCnt = _ :=
      lines_of_complete hrows
    cases ended with
    | false =>
      unfold parseNodes parse
      rw [CsvParse.buildLines_eq, hlines]
      rfl
    | true =>
      rw [parseNodes_eq (fun r hr => length_le_widen hr _) hlines]
      unfold parse
      rw [hlines]
      simp only [if_true, bind, Except.bind, pure, Except.pure]
      split <;> rfl

/-! ## The grid of a text -/

/-- The field in a cell of the grid, the empty string where the row is shorter, and the default outside
the grid. -/
def gridField (buf : List UInt8) (rows : List (List Nat)) (line row : Int)
    (dflt : Option (List UInt8)) : Option (List UInt8) :=
  if 0 ≤ line ∧ line < rows.length ∧ 0 ≤ row ∧ row < widen 0 rows then
    match rows[line.toNat]?.bind fun fields => fields[row.toNat]? with
    | some ptr => some (cstr buf ptr)
    | none => some []
  else dflt

/-- Inside the grid. -/
theorem value_cell {i j : Nat} (hi : i < rows.length) (hj : j < widen 0 rows) :
    (new.loaded buf rows).value i j dflt = .ok (gridField buf rows i j dflt) := by
  have hw : ∀ row ∈ rows, row.length ≤ widen 0 rows := fun row hrow => length_le_widen hrow 0
  have hin : ¬ (i ≥ (new.loaded buf rows).lineCnt ∨ j ≥ (new.loaded buf rows).colCnt) := by
    rw [not_or]
    exact ⟨Nat.not_le.mpr hi, Nat.not_le.mpr hj⟩
  have hcell : (new.loaded buf rows).data[i * (new.loaded buf rows).colCnt + j]? =
      some (rows[i][j]?.elim [] (cstr buf)) :=
    (getElem?_flatMap_cells hw hi hj).trans (getElem?_cells hj (hw _ (List.getElem_mem hi)))
  unfold value gridField
  rw [if_neg hin, hcell, if_pos (by omega)]
  simp only [Int.toNat_natCast, List.getElem?_eq_getElem hi, Option.bind_some]
  cases rows[i][j]? <;> rfl

/-- Inside the upper bounds the default is never returned. -/
theorem valueInt_ne_dflt {line row : Int} (hl : line < c.lineCnt) (hr : row < c.colCnt) :
    c.valueInt line row none ≠ .ok none := by
  unfold valueInt
  rw [if_neg (by omega)]
  split
  · intro h
    cases h
  · split
    · intro h
      cases h
    · intro h
      cases h

theorem tokenise_rows (h : CsvParse.tokenise (.new str 32 need) = .ok (p, some rows)) :
    CsvParse.complete (str.length + 1) (.new str 32 need) = .ok (p, rows, true) := by
  unfold CsvParse.tokenise at h
  rw [CsvParse.rows_eq] at h
  change (CsvParse.complete (str.length + 1) (.new str 32 need)).map _ = _ at h
  cases hrows : CsvParse.complete (str.length + 1) (.new str 32 need) with
  | error e =>
    rw [hrows] at h
    cases h
  | ok r =>
    obtain ⟨p', rows', ended⟩ := r
    rw [hrows] at h
    cases ended <;> cases h
    rfl

/-- **The grid of a text**, and where it is what the text says: the memory of the last line node holds
`NULL` for its link, the size of the grid is a `size_t`, and neither argument of `csv::value` is below
zero, unless one is not below its upper bound. -/
theorem csv_grid_iff (mem : Nat → Option Nat) (block : Nat → List UInt8) (str : List UInt8)
    (need : Bool) (p : CsvParse) (rows : List (List Nat)) (line row : Int)
    (h : CsvParse.tokenise (.new str 32 need) = .ok (p, some rows)) :
    (∃ c, new.parseNodes mem block str need = .ok (c, true, List.range rows.length) ∧
        c.data.length = rows.length * widen 0 rows ∧
        ∀ dflt, c.valueInt line row dflt = .ok (gridField p.buf rows line row dflt)) ↔
      behind mem rows.length = none ∧ 4 * rows.length * widen 0 rows < 2 ^ 32 ∧
        (line ≥ rows.length ∨ row ≥ widen 0 rows ∨ 0 ≤ line ∧ 0 ≤ row) := by
  have hw : ∀ row ∈ rows, row.length ≤ widen 0 rows := fun row hrow => length_le_widen hrow 0
  have hparse : new.parseNodes mem block str need = _ :=
    parseNodes_eq hw (lines_of_complete (tokenise_rows h))
  rw [hparse]
  constructor
  · rintro ⟨c, hc, -, hval⟩
    split at hc
    · rename_i hok
      cases hc
      refine ⟨hok.1, hok.2, ?_⟩
      by_contra! hin
      obtain ⟨hl, hr, hneg⟩ := hin
      refine valueInt_ne_dflt hl hr ((hval none).trans ?_)
      unfold gridField
      rw [if_neg (by omega)]
    · cases hc
  · rintro ⟨hend, hfits, hargs⟩
    refine ⟨new.loaded p.buf rows, ?_, length_flatMap_cells hw, fun dflt => ?_⟩
    · rw [if_pos ⟨hend, hfits⟩]
      rfl
    · by_cases hout : line ≥ rows.length ∨ row ≥ widen 0 rows
      · have hdflt : gridField p.buf rows line row dflt = dflt := if_neg (by omega)
        rw [hdflt]
        exact if_pos hout
      · obtain ⟨hl, hr⟩ : 0 ≤ line ∧ 0 ≤ row := by omega
        obtain ⟨i, rfl⟩ := Int.eq_ofNat_of_zero_le hl
        obtain ⟨j, rfl⟩ := Int.eq_ofNat_of_zero_le hr
        rw [valueInt_natCast, value_cell (by omega) (by omega)]

/-- `a,b` and `c`, where the memory of the line nodes is zero: the last cell is empty. -/
theorem csv_grid_iff_ragged :
    (∃ c, new.parseNodes (fun _ => none) (fun _ => []) [97, COMMA, 98, CR, LF, 99, 0] true =
        .ok (c, true, List.range [[0, 2], [5]].length) ∧
        c.data.length = [[0, 2], [5]].length * widen 0 [[0, 2], [5]] ∧
        ∀ dflt, c.valueInt 1 1 dflt =
          .ok (gridField [97, 0, 98, 0, LF, 99, 0] [[0, 2], [5]] 1 1 dflt)) ↔
      behind (fun _ => none) [[0, 2], [5]].length = none ∧
        4 * [[0, 2], [5]].length * widen 0 [[0, 2], [5]] < 2 ^ 32 ∧
        ((1 : Int) ≥ [[0, 2], [5]].length ∨ (1 : Int) ≥ widen 0 [[0, 2], [5]] ∨
          (0 : Int) ≤ 1 ∧ (0 : Int) ≤ 1) :=
  csv_grid_iff (fun _ => none) (fun _ => []) [97, COMMA, 98, CR, LF, 99, 0] true
    ⟨[97, 0, 98, 0, LF, 99, 0], none, false, [], 32⟩ [[0, 2], [5]] 1 1 (by decide +kernel)

/-- `a` where the memory of its line node is not zero. `a` and `b`: the column below zero of the second
line is the cell of the first, and the line below zero is outside the grid. -/
theorem link_not_set :
    (∃ p, CsvParse.tokenise (.new [97, 0] 32 true) = .ok (p, some [[0]]) ∧
      new.parseNodes (fun _ => some 7) (fun _ => []) [97, 0] true = .error .outOfBounds) ∧
    ∃ p c, CsvParse.tokenise (.new [97, CR, LF, 98, 0] 32 true) = .ok (p, some [[0], [3]]) ∧
      new.parseNodes (fun _ => none) (fun _ => []) [97, CR, LF, 98, 0] true = .ok (c, true, [0, 1]) ∧
      c.valueInt 1 (-1) none = .ok (some [97]) ∧ gridField p.buf [[0], [3]] 1 (-1) none = none ∧
      c.valueInt (-1) 0 none = .error .outOfBounds :=
  ⟨⟨⟨[97, 0], none, false, [], 32⟩, by decide +kernel, by decide +kernel⟩,
    ⟨[97, 0, LF, 98, 0], none, false, [], 32⟩, ⟨1, 2, [[97], [98]], []⟩, by decide +kernel,
    by decide +kernel, by decide +kernel, by decide +kernel, by decide +kernel⟩

end Csv

end HoNet.Cfg
