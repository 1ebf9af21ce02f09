import HoNet.Cfg.Csv

/-!
# Tokenising is safe

The tokeniser of `csv.cpp` with a record of every byte it reads and writes, and the loop of
`csv::parse` as a sequence of calls, on a buffer that holds any text, its terminating NUL and
whatever stands behind it.

* `nextColumnLog_erase`, `nextLineLog_erase` — the record does not change what is computed.
* `round_safe`, `columnLoopLog_safe` — one pass of the scan, and the scan of a field.
* `step_safe`, `run_safe` — one call, which gets nearer to the end of the text, and all calls.
* `csv_safe` — the result.
-/

namespace HoNet.Cfg

open HoNet.CString

/-- A byte that is read, or written while the field that starts at `start` is scanned at `scan`. -/
inductive Access where
  | read (i : Nat)
  | write (i start scan : Nat)
  deriving DecidableEq, Repr

/-- How a pass from the label `loop` ends: the function returns, or goes to `loop` again. -/
inductive Round where
  | stop (r : CsvParse × Bool × Option Nat)
  | on (p : CsvParse) (ptr bytes : Nat)

namespace CsvParse

/-! ## The record -/

/-- What `_snprintf` reads at `parse_error`. -/
def errorReads (p : CsvParse) (ptr : Nat) : List Access :=
  if p.errmsgLen > 0 then
    .read ptr :: (List.range ((cstr p.buf ptr).length + 1)).map fun i => .read (ptr + i)
  else []

/-- `MV_CHAR`. -/
def moveLog (start ptr bytes : Nat) : List Access :=
  if bytes > 0 then [.read ptr, .write (ptr - bytes) start ptr] else []

/-- `goto parse_error`. -/
def failRound (p : CsvParse) (ptr : Nat) (log : List Access) : Round × List Access :=
  (.stop (p.parseError ptr), log ++ p.errorReads ptr)

/-- `SET_CHAR` and `return`. -/
def endRound (p : CsvParse) (ptr bytes next : Nat) (need : Bool) (out : Nat) (log : List Access) :
    Round × List Access :=
  (.stop (p.endField ptr bytes next need out), log ++ [.write (ptr - bytes) out ptr])

/-- `MV_CHAR` and `goto loop`. -/
def moveRound (p : CsvParse) (ptr bytes : Nat) (c : UInt8) (next bytes' out : Nat)
    (log : List Access) : Round × List Access :=
  (.on (p.mvChar ptr bytes c) next bytes', log ++ moveLog out ptr bytes)

/-- One pass from the label `loop`. -/
def round (withQuote : Bool) (out : Nat) (p : CsvParse) (ptr bytes : Nat) :
    CsvRes (Round × List Access) := do
  let c ← p.read ptr
  let log := [Access.read ptr]
  if c = 0 then return (.stop ({ p with parsePtr := none }, true, some out), log)
  else if c = QUOTE then
    let c₁ ← p.read (ptr + 1)
    let log := log ++ [Access.read (ptr + 1)]
    if c₁ = COMMA then
      if withQuote then return p.endRound ptr bytes (ptr + 2) false out log
      else return p.failRound ptr log
    else if c₁ = CR then
      let c₂ ← p.read (ptr + 2)
      let log := log ++ [Access.read (ptr + 2)]
      if c₂ = LF then
        if withQuote then return p.endRound ptr bytes (ptr + 3) true out log
        else return p.failRound ptr log
      else return p.failRound ptr log
    else if c₁ = QUOTE then return p.moveRound ptr bytes c (ptr + 1 + 1) (bytes + 1) out log
    else return p.failRound ptr log
  else if c = CR then
    if withQuote then return p.moveRound ptr bytes c (ptr + 1) bytes out log
    else
      let c₁ ← p.read (ptr + 1)
      let log := log ++ [Access.read (ptr + 1)]
      if c₁ = LF then return p.endRound ptr bytes (ptr + 2) true out log
      else return p.moveRound ptr bytes c (ptr + 1) bytes out log
  else if c = COMMA then
    if withQuote then return p.moveRound ptr bytes c (ptr + 1) bytes out log
    else return p.endRound ptr bytes (ptr + 1) false out log
  else return p.moveRound ptr bytes c (ptr + 1) bytes out log

/-- The code from the label `loop` on, with its record. -/
def columnLoopLog (withQuote : Bool) (out : Nat) :
    Nat → CsvParse → Nat → Nat → CsvRes ((CsvParse × Bool × Option Nat) × List Access)
  | 0, _, _, _ => .error .diverges
  | rounds + 1, p, ptr, bytes => do
    let (r, log) ← round withQuote out p ptr bytes
    match r with
    | .stop r => return (r, log)
    | .on p ptr bytes =>
      let (r, rest) ← columnLoopLog withQuote out rounds p ptr bytes
      return (r, log ++ rest)

def nextColumnLog (p : CsvParse) : CsvRes ((CsvParse × Bool × Option Nat) × List Access) :=
  match p.parsePtr with
  | none => .ok ((p, true, none), [])
  | some ptr =>
    if p.needNextline then .ok ((p, true, none), [])
    else do
      let c ← p.read ptr
      let (r, log) ←
        if c = QUOTE then columnLoopLog true (ptr + 1) (p.buf.length + 1) p (ptr + 1) 0
        else columnLoopLog false ptr (p.buf.length + 1) p ptr 0
      return (r, .read ptr :: log)

def nextLineLog (p : CsvParse) : CsvRes ((CsvParse × Bool) × List Access) :=
  let p := { p with needNextline := false }
  match p.parsePtr with
  | none => .ok ((p, false), [])
  | some ptr => do
    let c ← p.read ptr
    return ((p, decide (c ≠ 0)), [.read ptr])

/-! ## The record changes nothing -/

section Erase

variable {wq : Bool} {out k ptr bytes : Nat} {p : CsvParse}

theorem columnLoop_round :
    columnLoop wq out (k + 1) p ptr bytes = (do
      let (r, _) ← round wq out p ptr bytes
      match r with
      | .stop r => return r
      | .on p ptr bytes => columnLoop wq out k p ptr bytes) := by
  rw [columnLoop, round]
  cases p.read ptr with
  | error e => rfl
  | ok c =>
    simp only [bind, Except.bind, pure, Except.pure]
    by_cases h0 : c = 0
    · rw [if_pos h0, if_pos h0]
    rw [if_neg h0, if_neg h0]
    by_cases hq : c = QUOTE
    · rw [if_pos hq, if_pos hq]
      -- the bytes ahead are read in some branches only
      cases p.read (ptr + 1) with
      | error e => rfl
      | ok c₁ =>
        by_cases h₁ : c₁ = COMMA
        · simp only [if_pos h₁]
          cases wq <;> rfl
        by_cases h₂ : c₁ = CR
        · simp only [if_neg h₁, if_pos h₂]
          cases p.read (ptr + 2) with
          | error e => rfl
          | ok c₂ =>
            by_cases h₃ : c₂ = LF
            · simp only [if_pos h₃]
              cases wq <;> rfl
            · simp only [if_neg h₃]
              rfl
        by_cases h₃ : c₁ = QUOTE
        · simp only [if_neg h₁, if_neg h₂, if_pos h₃]
          rfl
        · simp only [if_neg h₁, if_neg h₂, if_neg h₃]
          rfl
    rw [if_neg hq, if_neg hq]
    by_cases hcr : c = CR
    · rw [if_pos hcr, if_pos hcr]
      cases wq with
      | true => rfl
      | false =>
        cases p.read (ptr + 1) with
        | error e => rfl
        | ok c₁ => by_cases h₁ : c₁ = LF <;> simp only [h₁, if_true, if_false] <;> rfl
    rw [if_neg hcr, if_neg hcr]
    by_cases hcomma : c = COMMA
    · rw [if_pos hcomma, if_pos hcomma]
      cases wq <;> rfl
    · rw [if_neg hcomma, if_neg hcomma]
      rfl

theorem columnLoopLog_erase :
    (columnLoopLog wq out k p ptr bytes).map Prod.fst = columnLoop wq out k p ptr bytes := by
  induction k generalizing p ptr bytes with
  | zero => rfl
  | succ k ih =>
    rw [columnLoopLog, columnLoop_round]
    cases round wq out p ptr bytes with
    | error e => rfl
    | ok r =>
      obtain ⟨r, log⟩ := r
      cases r with
      | stop r => rfl
      | on p ptr bytes =>
        simp only [bind, Except.bind]
        rw [← ih]
        cases columnLoopLog wq out k p ptr bytes <;> rfl

theorem nextColumnLog_erase (p : CsvParse) : p.nextColumnLog.map Prod.fst = p.nextColumn := by
  rw [nextColumnLog, nextColumn]
  cases p.parsePtr with
  | none => rfl
  | some ptr =>
    simp only
    split_ifs
    · rfl
    · cases p.read ptr with
      | error e => rfl
      | ok c =>
        simp only [bind, Except.bind]
        split_ifs <;> rw [← columnLoopLog_erase] <;>
          cases columnLoopLog _ _ (p.buf.length + 1) p _ 0 <;> rfl

theorem nextLineLog_erase (p : CsvParse) : p.nextLineLog.map Prod.fst = p.nextLine := by
  obtain ⟨buf, q, need, m, n⟩ := p
  cases q with
  | none => rfl
  | some ptr =>
    simp only [nextLineLog, nextLine]
    cases (⟨buf, some ptr, false, m, n⟩ : CsvParse).read ptr <;> rfl

end Erase

end CsvParse

/-! ## What is left of the text -/

/-- From `ptr` on the buffer holds no zero up to the one at `N`. -/
structure Text (buf : List UInt8) (N ptr : Nat) : Prop where
  nul : buf[N]? = some 0
  ne : ∀ i, ptr ≤ i → i < N → buf[i]? ≠ some 0
  le : ptr ≤ N

/-- The buffers differ at `a` up to `b` only. -/
def Within (a b : Nat) (buf buf' : List UInt8) : Prop := ∀ i, i < a ∨ b ≤ i → buf'[i]? = buf[i]?

/-- What an access has to keep to: no read is behind the zero at `N`, and a write lies between the
start of the field and the scan. -/
def Access.Good (N : Nat) : Access → Prop
  | .read i => i ≤ N
  | .write i start scan => start ≤ i ∧ i ≤ scan

/-- Every byte that changed has been written. -/
def Written (log : List Access) (buf buf' : List UInt8) : Prop :=
  ∀ i, buf'[i]? ≠ buf[i]? → ∃ start scan, Access.write i start scan ∈ log

section Buffer

variable {buf buf' buf'' : List UInt8} {N ptr a b c : Nat} {v : UInt8} {log log' : List Access}

theorem Within.refl : Within a b buf buf := fun _ _ => rfl

theorem Within.trans (h : Within a b buf buf') (h' : Within a c buf' buf'') (hbc : b ≤ c) :
    Within a c buf buf'' := by
  intro i hi
  rw [h' i hi, h i (hi.imp_right hbc.trans)]

theorem Within.set (ha : a ≤ ptr) (hb : ptr < b) : Within a b buf (buf.set ptr v) := by
  intro i hi
  exact List.getElem?_set_ne (by omega)

theorem Written.refl : Written log buf buf := fun _ h => absurd rfl h

theorem Written.set {start scan : Nat} : Written (log ++ [.write ptr start scan]) buf (buf.set ptr v) := by
  intro i hi
  by_cases h : ptr = i
  · exact ⟨start, scan, by simp [h]⟩
  · exact absurd (List.getElem?_set_ne h) hi

theorem Written.trans (h : Written log buf buf') (h' : Written log' buf' buf'') :
    Written (log ++ log') buf buf'' := by
  intro i hi
  by_cases h₁ : buf'[i]? = buf[i]?
  · obtain ⟨s, c, hm⟩ := h' i (h₁ ▸ hi)
    exact ⟨s, c, List.mem_append_right _ hm⟩
  · obtain ⟨s, c, hm⟩ := h i h₁
    exact ⟨s, c, List.mem_append_left _ hm⟩

theorem Text.within (h : Text buf N ptr) (hw : Within a b buf buf') (hb : b ≤ ptr) :
    Text buf' N ptr where
  nul := by rw [hw N (.inr (hb.trans h.le)), h.nul]
  ne i hi hN := by rw [hw i (.inr (hb.trans hi))]; exact h.ne i hi hN
  le := h.le

theorem Text.of_append {text rest : List UInt8} (h0 : 0 ∉ text) :
    Text (text ++ 0 :: rest) text.length 0 where
  nul := get_behind
  ne i _ hi := by
    rw [List.getElem?_append_left hi]
    exact fun h => h0 (List.mem_of_getElem? h)
  le := Nat.zero_le _

/-- The byte at `ptr` is the terminating zero, or the text goes on behind it. -/
theorem Text.read {p : CsvParse} (h : Text p.buf N ptr) :
    ∃ c, p.read ptr = .ok c ∧ (c ≠ 0 → Text p.buf N (ptr + 1)) := by
  have hlt : ptr < p.buf.length := by
    have := (List.getElem?_eq_some_iff.mp h.nul).1
    have := h.le
    omega
  refine ⟨p.buf[ptr], ?_, fun hc => ⟨h.nul, fun i hi => h.ne i (by omega), ?_⟩⟩
  · rw [CsvParse.read, List.getElem?_eq_getElem hlt]
  · refine Nat.lt_of_le_of_ne h.le ?_
    rintro rfl
    have := h.nul
    rw [List.getElem?_eq_getElem hlt, Option.some_inj] at this
    exact hc this

theorem Text.cstr_length (h : Text buf N ptr) : ptr + (cstr buf ptr).length ≤ N := by
  have hle := h.le
  by_contra hlt
  have hmem : N - ptr < (cstr buf ptr).length := by omega
  have hpre : cstr buf ptr <+: buf.drop ptr := List.takeWhile_prefix _
  have hget := hpre.getElem hmem
  have hne := List.mem_takeWhile_imp (List.getElem_mem hmem)
  rw [hget, List.getElem_drop] at hne
  have := h.nul
  rw [List.getElem?_eq_some_iff] at this
  simp [show ptr + (N - ptr) = N by omega, this.2] at hne

end Buffer

/-! ## The scan of a field -/

/-- What a call that scans the field at `out` may do: it stays in bounds, it leaves alone what
stands before the field, and if it reports a field and text is left, a zero ends the field before
that text. -/
structure Outcome (N out : Nat) (p : CsvParse) (r : CsvParse × Bool × Option Nat)
    (log : List Access) : Prop where
  good : ∀ x ∈ log, x.Good N
  written : Written log p.buf r.1.buf
  within : Within out (N + 1) p.buf r.1.buf
  returned : r.2.1 = true → r.2.2 = some out
  left : r.2.1 = true → ∀ q, r.1.parsePtr = some q →
    Text r.1.buf N q ∧ ∃ e, out ≤ e ∧ e < q ∧ r.1.buf[e]? = some 0

/-- What a pass that goes to `loop` again may do. -/
structure Onward (N out ptr : Nat) (p p' : CsvParse) (ptr' bytes' : Nat) (log : List Access) :
    Prop where
  good : ∀ x ∈ log, x.Good N
  written : Written log p.buf p'.buf
  within : Within out ptr' p.buf p'.buf
  progress : ptr < ptr'
  room : out + bytes' ≤ ptr'
  text : Text p'.buf N ptr'

theorem Outcome.after {N out ptr ptr' bytes' : Nat} {p p' : CsvParse}
    {r : CsvParse × Bool × Option Nat} {log log' : List Access}
    (h : Onward N out ptr p p' ptr' bytes' log) (h' : Outcome N out p' r log') :
    Outcome N out p r (log ++ log') where
  good x hx := (List.mem_append.mp hx).elim (h.good x) (h'.good x)
  written := h.written.trans h'.written
  within := h.within.trans h'.within (h.text.le.trans (Nat.le_succ N))
  returned := h'.returned
  left := h'.left

/-- What a pass may do. -/
def Round.Safe (N out ptr : Nat) (p : CsvParse) : Round × List Access → Prop
  | (.stop r, log) => Outcome N out p r log
  | (.on p' ptr' bytes', log) => Onward N out ptr p p' ptr' bytes' log

namespace CsvParse

section Scan

variable {N out ptr bytes : Nat} {p : CsvParse} {log : List Access}

theorem good_snoc {x : Access} (h : ∀ x ∈ log, x.Good N) (hx : x.Good N) :
    ∀ y ∈ log ++ [x], y.Good N := by
  intro y hy
  rcases List.mem_append.mp hy with hy | hy
  · exact h y hy
  · exact List.mem_singleton.mp hy ▸ hx

theorem errorReads_good (ht : Text p.buf N ptr) : ∀ x ∈ p.errorReads ptr, x.Good N := by
  intro x hx
  rw [errorReads] at hx
  have hlen := ht.cstr_length
  split_ifs at hx
  · rcases List.mem_cons.mp hx with rfl | hx
    · exact ht.le
    · obtain ⟨i, hi, rfl⟩ := List.mem_map.mp hx
      rw [List.mem_range] at hi
      exact (by omega : ptr + i ≤ N)
  · cases hx

theorem failRound_safe (hl : ∀ x ∈ log, x.Good N) (ht : Text p.buf N ptr) :
    Round.Safe N out ptr p (p.failRound ptr log) where
  good x hx := (List.mem_append.mp hx).elim (hl x) (errorReads_good ht x)
  written := .refl
  within := .refl
  returned h := by cases h
  left h := by cases h

theorem endRound_safe {next : Nat} {need : Bool} (hl : ∀ x ∈ log, x.Good N)
    (hroom : out + bytes ≤ ptr) (hnext : ptr < next) (ht : Text p.buf N next) :
    Round.Safe N out ptr p (p.endRound ptr bytes next need out log) := by
  have hle := ht.le
  have hlt : ptr - bytes < p.buf.length := by
    have := (List.getElem?_eq_some_iff.mp ht.nul).1
    omega
  exact {
    good := good_snoc hl ⟨by omega, by omega⟩
    written := .set
    within := .set (by omega) (by omega)
    returned := fun _ => rfl
    left := by
      rintro - q hq
      obtain rfl : next = q := Option.some.inj hq
      refine ⟨ht.within (.set le_rfl (Nat.lt_succ_self _)) (by omega), ptr - bytes, by omega,
        by omega, ?_⟩
      exact List.getElem?_set_self hlt }

theorem moveRound_safe {c : UInt8} {next bytes' : Nat} (hl : ∀ x ∈ log, x.Good N)
    (hroom : out + bytes ≤ ptr) (hnext : ptr < next) (hroom' : out + bytes' ≤ next)
    (ht : Text p.buf N next) :
    Round.Safe N out ptr p (p.moveRound ptr bytes c next bytes' out log) := by
  have hle := ht.le
  rw [moveRound, mvChar, moveLog]
  split_ifs
  · have hw : Within out next p.buf (p.buf.set (ptr - bytes) c) := .set (by omega) (by omega)
    refine ⟨?_, ?_, hw, hnext, hroom', ht.within hw le_rfl⟩
    · rw [← List.singleton_append, ← List.append_assoc]
      exact good_snoc (good_snoc hl (by omega : ptr ≤ N)) ⟨by omega, by omega⟩
    · rw [← List.singleton_append, ← List.append_assoc]
      exact .set
  · exact ⟨by simpa using hl, .refl, .refl, hnext, hroom', ht⟩

/-- **One pass** of the scan. -/
theorem round_safe (wq : Bool) (ht : Text p.buf N ptr) (hroom : out + bytes ≤ ptr) :
    ∃ r, round wq out p ptr bytes = .ok r ∧ Round.Safe N out ptr p r := by
  obtain ⟨c, hc, ht₁⟩ := ht.read
  have hl : ∀ x ∈ [Access.read ptr], x.Good N := by
    simpa [Access.Good] using ht.le
  rw [round, hc]
  by_cases h0 : c = 0
  · refine ⟨_, if_pos h0, hl, .refl, .refl, fun _ => rfl, fun _ q hq => ?_⟩
    cases hq
  have ht₁ := ht₁ h0
  -- the byte behind is read where `c` is not the zero
  obtain ⟨c₁, hc₁, ht₂⟩ := ht₁.read
  have hl₁ := good_snoc hl (x := .read (ptr + 1)) ht₁.le
  have hmove : Round.Safe N out ptr p (p.moveRound ptr bytes c (ptr + 1) bytes out [.read ptr]) :=
    moveRound_safe hl hroom (by omega) (by omega) ht₁
  simp only [bind, Except.bind, pure, Except.pure, if_neg h0]
  by_cases hq : c = QUOTE
  · have hfail : Round.Safe N out ptr p (p.failRound ptr ([.read ptr] ++ [.read (ptr + 1)])) :=
      failRound_safe hl₁ ht
    rw [if_pos hq, hc₁]
    simp only
    by_cases h₁ : c₁ = COMMA
    · rw [if_pos h₁]
      have ht₂ := ht₂ (h₁ ▸ by decide)
      cases wq with
      | true => exact ⟨_, rfl, endRound_safe hl₁ hroom (by omega) ht₂⟩
      | false => exact ⟨_, rfl, hfail⟩
    rw [if_neg h₁]
    by_cases h₂ : c₁ = CR
    · have ht₂ := ht₂ (h₂ ▸ by decide)
      obtain ⟨c₂, hc₂, ht₃⟩ := ht₂.read
      have hl₂ := good_snoc hl₁ (x := .read (ptr + 2)) ht₂.le
      rw [if_pos h₂, show ptr + 2 = ptr + 1 + 1 from rfl, hc₂]
      simp only
      by_cases h₃ : c₂ = LF
      · rw [if_pos h₃]
        have ht₃ := ht₃ (h₃ ▸ by decide)
        cases wq with
        | true => exact ⟨_, rfl, endRound_safe hl₂ hroom (by omega) ht₃⟩
        | false => exact ⟨_, rfl, failRound_safe hl₂ ht⟩
      · rw [if_neg h₃]
        exact ⟨_, rfl, failRound_safe hl₂ ht⟩
    rw [if_neg h₂]
    by_cases h₃ : c₁ = QUOTE
    · rw [if_pos h₃]
      have ht₂ := ht₂ (h₃ ▸ by decide)
      exact ⟨_, rfl, moveRound_safe hl₁ hroom (by omega) (by omega) ht₂⟩
    · rw [if_neg h₃]
      exact ⟨_, rfl, hfail⟩
  rw [if_neg hq]
  by_cases hcr : c = CR
  · rw [if_pos hcr]
    cases wq with
    | true => exact ⟨_, rfl, hmove⟩
    | false =>
      rw [if_neg (by decide), hc₁]
      simp only
      by_cases h₁ : c₁ = LF
      · rw [if_pos h₁]
        have ht₂ := ht₂ (h₁ ▸ by decide)
        exact ⟨_, rfl, endRound_safe hl₁ hroom (by omega) ht₂⟩
      · rw [if_neg h₁]
        exact ⟨_, rfl, moveRound_safe hl₁ hroom (by omega) (by omega) ht₁⟩
  rw [if_neg hcr]
  by_cases hcomma : c = COMMA
  · rw [if_pos hcomma]
    cases wq with
    | true => exact ⟨_, rfl, hmove⟩
    | false => exact ⟨_, rfl, endRound_safe hl hroom (by omega) ht₁⟩
  · rw [if_neg hcomma]
    exact ⟨_, rfl, hmove⟩

/-- **The scan of a field**: each pass gets nearer to the terminating zero. -/
theorem columnLoopLog_safe (wq : Bool) {k : Nat} (ht : Text p.buf N ptr) (hroom : out + bytes ≤ ptr)
    (hk : N - ptr < k) :
    ∃ r log, columnLoopLog wq out k p ptr bytes = .ok (r, log) ∧ Outcome N out p r log := by
  induction k generalizing p ptr bytes with
  | zero => omega
  | succ k ih =>
    obtain ⟨⟨r, log⟩, heq, hsafe⟩ := round_safe wq ht hroom
    rw [columnLoopLog, heq]
    cases r with
    | stop r => exact ⟨r, log, rfl, hsafe⟩
    | on p' ptr' bytes' =>
      have hon : Onward N out ptr p p' ptr' bytes' log := hsafe
      have hprogress := hon.progress
      have hle := hon.text.le
      obtain ⟨r, log', heq', hout⟩ := ih hon.text hon.room (by omega)
      refine ⟨r, log ++ log', ?_, Outcome.after hon hout⟩
      simp only [bind, Except.bind, heq']
      rfl

/-- **One call** of `next_column` with text left. -/
theorem nextColumnLog_safe {q : Nat} (hq : p.parsePtr = some q) (hneed : p.needNextline = false)
    (ht : Text p.buf N q) :
    ∃ out r log, p.nextColumnLog = .ok (r, log) ∧ q ≤ out ∧ Outcome N out p r log := by
  have hlen := (List.getElem?_eq_some_iff.mp ht.nul).1
  obtain ⟨c, hc, ht₁⟩ := ht.read
  simp only [nextColumnLog, hq, hneed, Bool.false_eq_true, if_false, hc, bind, Except.bind]
  -- the first byte is read once more than the scan does
  have hfirst : ∀ {out r log}, Outcome N out p r log → Outcome N out p r (.read q :: log) := by
    intro out r log h
    refine ⟨?_, ?_, h.within, h.returned, h.left⟩
    · rintro x hx
      rcases List.mem_cons.mp hx with rfl | hx
      · exact ht.le
      · exact h.good x hx
    · intro i hi
      obtain ⟨s, e, hm⟩ := h.written i hi
      exact ⟨s, e, List.mem_cons_of_mem _ hm⟩
  by_cases hquote : c = QUOTE
  · obtain ⟨r, log, heq, hout⟩ : ∃ r log,
        columnLoopLog true (q + 1) (p.buf.length + 1) p (q + 1) 0 = .ok (r, log) ∧
          Outcome N (q + 1) p r log :=
      columnLoopLog_safe true (ht₁ (hquote ▸ by decide)) le_rfl (by omega)
    rw [if_pos hquote, heq]
    exact ⟨q + 1, r, _, rfl, by omega, hfirst hout⟩
  · obtain ⟨r, log, heq, hout⟩ : ∃ r log,
        columnLoopLog false q (p.buf.length + 1) p q 0 = .ok (r, log) ∧ Outcome N q p r log :=
      columnLoopLog_safe false ht le_rfl (by omega)
    rw [if_neg hquote, heq]
    exact ⟨q, r, _, rfl, le_rfl, hfirst hout⟩

end Scan

end CsvParse

/-! ## The calls of `csv::parse` -/

/-- Which call `csv::parse` makes next, or how it has ended. -/
inductive Stage where
  | line
  | column
  | done
  | failed
  deriving DecidableEq, Repr

/-- The loop of `csv::parse` between two calls; `fields` are the fields that `next_column` has
returned by a delimiter, each with the string it was when it was returned. -/
structure Drive where
  p : CsvParse
  stage : Stage
  log : List Access
  fields : List (Nat × List UInt8)
  deriving DecidableEq, Repr

namespace Drive

/-- Before the first call, on a buffer with the text, its terminating zero and `rest` behind it. -/
def parse (text rest : List UInt8) (errmsgLen : Nat) (need : Bool) : Drive :=
  ⟨CsvParse.new (text ++ 0 :: rest) errmsgLen need, .line, [], []⟩

/-- The next call. -/
def step (d : Drive) : CsvRes Drive :=
  match d.stage with
  | .line => do
    let ((p, more), log) ← d.p.nextLineLog
    return { d with p := p, stage := if more then .column else .done, log := d.log ++ log }
  | .column => do
    let ((p, ok, out), log) ← d.p.nextColumnLog
    let d := { d with p := p, log := d.log ++ log }
    if ok then
      match out with
      | none => return { d with stage := .line }
      | some ptr =>
        -- behind the terminating zero `parse_ptr` is `NULL`
        match p.parsePtr with
        | some _ => return { d with fields := (ptr, cstr p.buf ptr) :: d.fields }
        | none => return d
    else return { d with stage := .failed }
  | .done => return d
  | .failed => return d

/-- The first calls. -/
def run (d : Drive) : Nat → CsvRes Drive
  | 0 => .ok d
  | m + 1 => do
    let d ← run d m
    d.step

/-- `csv::parse` has left its loop. -/
def Over (d : Drive) : Prop := d.stage = .done ∨ d.stage = .failed

instance (d : Drive) : Decidable d.Over :=
  inferInstanceAs (Decidable (d.stage = .done ∨ d.stage = .failed))

/-- The accesses so far are good, and so is the text that is left; every field reads as it did, and
a zero ends it before that text. -/
structure Inv (N : Nat) (buf : List UInt8) (d : Drive) : Prop where
  good : ∀ x ∈ d.log, x.Good N
  written : Written d.log buf d.p.buf
  kept : ∀ f ∈ d.fields, cstr d.p.buf f.1 = f.2
  text : d.stage ≠ .failed → ∀ q, d.p.parsePtr = some q → Text d.p.buf N q
  ends : d.stage ≠ .failed → ∀ q, d.p.parsePtr = some q →
    ∀ f ∈ d.fields, ∃ e, f.1 ≤ e ∧ e < q ∧ d.p.buf[e]? = some 0

/-- How many calls can follow. -/
def measure (N : Nat) (d : Drive) : Nat :=
  match d.stage, d.p.parsePtr with
  | .line, none => 1
  | .column, none => 2
  | .line, some q => 3 * (N - q) + 4
  | .column, some q => 3 * (N - q) + if d.p.needNextline then 5 else 3
  | _, _ => 0

section Calls

variable {N : Nat} {buf : List UInt8} {d d' : Drive}

theorem good_append {log log' : List Access} (h : ∀ x ∈ log, x.Good N) (h' : ∀ x ∈ log', x.Good N) :
    ∀ x ∈ log ++ log', x.Good N :=
  fun x hx => (List.mem_append.mp hx).elim (h x) (h' x)

/-- A call that changes neither the buffer nor `parse_ptr`. -/
theorem Inv.same (h : Inv N buf d) (hf : d.stage ≠ .failed) (hbuf : d'.p.buf = d.p.buf)
    (hptr : d'.p.parsePtr = d.p.parsePtr) (hfields : d'.fields = d.fields) {log : List Access}
    (hlog : d'.log = d.log ++ log) (hgood : ∀ x ∈ log, x.Good N) : Inv N buf d' where
  good := by rw [hlog]; exact good_append h.good hgood
  written := by rw [hlog, hbuf]; exact h.written.trans .refl
  kept := by rw [hbuf, hfields]; exact h.kept
  text _ := by rw [hbuf, hptr]; exact h.text hf
  ends _ := by rw [hbuf, hptr, hfields]; exact h.ends hf

/-- A call that scans a field leaves the earlier ones alone. -/
theorem Inv.earlier {q out : Nat} {r : CsvParse × Bool × Option Nat} {log : List Access}
    (h : Inv N buf d) (hf : d.stage ≠ .failed) (hq : d.p.parsePtr = some q) (hqo : q ≤ out)
    (hout : Outcome N out d.p r log) {f : Nat × List UInt8} (hm : f ∈ d.fields) :
    cstr r.1.buf f.1 = f.2 ∧ ∃ e, f.1 ≤ e ∧ e < out ∧ r.1.buf[e]? = some 0 := by
  obtain ⟨e, hfe, heq, hz⟩ := h.ends hf q hq f hm
  have hsame : ∀ i, i ≤ e → r.1.buf[i]? = d.p.buf[i]? := fun i hi => hout.within i (.inl (by omega))
  refine ⟨?_, e, hfe, by omega, by rw [hsame e le_rfl, hz]⟩
  rw [cstr_congr hfe hz hsame, h.kept f hm]

/-- **One call**: it keeps the invariant and gets nearer to the end. -/
theorem step_safe (h : Inv N buf d) :
    ∃ d', d.step = .ok d' ∧ Inv N buf d' ∧ d.fields <:+ d'.fields ∧
      (d.Over ∧ d' = d ∨ d'.measure N < d.measure N) := by
  obtain ⟨p, stage, log, fields⟩ := d
  have hnil : ∀ x ∈ ([] : List Access), x.Good N := fun _ hx => by cases hx
  have hline : Stage.line ≠ .failed := by decide
  have hcolumn : Stage.column ≠ .failed := by decide
  obtain ⟨b, ptr, need, m, n⟩ := p
  cases stage with
  | done => exact ⟨_, rfl, h, List.suffix_rfl, .inl ⟨.inl rfl, rfl⟩⟩
  | failed => exact ⟨_, rfl, h, List.suffix_rfl, .inl ⟨.inr rfl, rfl⟩⟩
  | line =>
    cases ptr with
    | none =>
      refine ⟨_, rfl, h.same hline rfl rfl rfl rfl hnil, List.suffix_rfl, .inr ?_⟩
      exact Nat.zero_lt_one
    | some q =>
      have ht := h.text hline q rfl
      obtain ⟨c, hc, -⟩ := Text.read (p := ⟨b, some q, false, m, n⟩) ht
      refine ⟨⟨⟨b, some q, false, m, n⟩, if decide (c ≠ 0) then .column else .done,
        log ++ [.read q], fields⟩, ?_, ?_, List.suffix_rfl, .inr ?_⟩
      · simp only [step, CsvParse.nextLineLog, hc, bind, Except.bind, pure, Except.pure]
      · exact h.same hline rfl rfl rfl rfl (by simpa [Access.Good] using ht.le)
      · by_cases h0 : c = 0 <;> simp [measure, h0]
  | column =>
    cases ptr with
    | none =>
      refine ⟨_, rfl, h.same hcolumn rfl rfl rfl rfl hnil, List.suffix_rfl, .inr ?_⟩
      exact Nat.one_lt_two
    | some q =>
      cases need with
      | true =>
        refine ⟨_, rfl, h.same hcolumn rfl rfl rfl rfl hnil, List.suffix_rfl, .inr ?_⟩
        simp [measure]
      | false =>
        obtain ⟨out, r, log', heq, hqo, hout⟩ := CsvParse.nextColumnLog_safe
          (p := ⟨b, some q, false, m, n⟩) rfl rfl (h.text hcolumn q rfl)
        have hearlier := fun f hm => h.earlier hcolumn rfl hqo hout (f := f) hm
        have hgood := good_append h.good hout.good
        have hwritten := h.written.trans hout.written
        obtain ⟨p', ok, o⟩ := r
        cases ok with
        | false =>
          refine ⟨⟨p', .failed, log ++ log', fields⟩, ?_, ?_, List.suffix_rfl, .inr ?_⟩
          · simp only [step, heq, bind, Except.bind]
            rfl
          · exact ⟨hgood, hwritten, fun f hm => (hearlier f hm).1, fun hf => absurd rfl hf,
              fun hf => absurd rfl hf⟩
          · simp [measure]
        | true =>
          obtain rfl : o = some out := hout.returned rfl
          have hleft := hout.left rfl
          cases hptr : p'.parsePtr with
          | none =>
            refine ⟨⟨p', .column, log ++ log', fields⟩, ?_, ?_, List.suffix_rfl, .inr ?_⟩
            · simp only [step, heq, bind, Except.bind, if_true, hptr]
              rfl
            · exact ⟨hgood, hwritten, fun f hm => (hearlier f hm).1,
                fun _ q' hq' => by simp [hptr] at hq', fun _ q' hq' => by simp [hptr] at hq'⟩
            · simp [measure, hptr]
          | some q' =>
            obtain ⟨ht', e, hoe, heq', hz⟩ := hleft q' hptr
            refine ⟨⟨p', .column, log ++ log', (out, cstr p'.buf out) :: fields⟩, ?_, ?_,
              List.suffix_cons _ _, .inr ?_⟩
            · simp only [step, heq, bind, Except.bind, if_true, hptr]
              rfl
            · refine ⟨hgood, hwritten, ?_, ?_, ?_⟩
              · intro f hm
                rcases List.mem_cons.mp hm with rfl | hm
                · rfl
                · exact (hearlier f hm).1
              · intro _ q'' hq''
                obtain rfl : q' = q'' := Option.some.inj (hptr.symm.trans hq'')
                exact ht'
              · intro _ q'' hq'' f hm
                obtain rfl : q' = q'' := Option.some.inj (hptr.symm.trans hq'')
                rcases List.mem_cons.mp hm with rfl | hm
                · exact ⟨e, hoe, heq', hz⟩
                · obtain ⟨e', hfe, heo, hz'⟩ := (hearlier f hm).2
                  exact ⟨e', hfe, by omega, hz'⟩
            · have := ht'.le
              simp only [measure, hptr]
              split_ifs <;> omega

theorem measure_eq_zero_iff : d.measure N = 0 ↔ d.Over := by
  obtain ⟨⟨b, ptr, need, m, n⟩, stage, log, fields⟩ := d
  cases stage <;> cases ptr <;> cases need <;> simp [measure, Over]

/-- **All calls**: the invariant holds between any two of them, fields are only added, and as many
calls as the measure counts are enough. -/
theorem run_safe (h : Inv N buf d) (k j : Nat) :
    ∃ d₁ d₂, d.run k = .ok d₁ ∧ d.run (k + j) = .ok d₂ ∧ Inv N buf d₁ ∧ Inv N buf d₂ ∧
      d₁.fields <:+ d₂.fields ∧ (d₂.Over ∨ d₂.measure N + j ≤ d₁.measure N) := by
  induction j with
  | zero =>
    -- up to the first of the two states
    have hfirst : ∃ d₁, d.run k = .ok d₁ ∧ Inv N buf d₁ := by
      induction k with
      | zero => exact ⟨d, rfl, h⟩
      | succ k ih =>
        obtain ⟨d₁, hrun, hinv⟩ := ih
        obtain ⟨d₂, hstep, hinv₂, -, -⟩ := step_safe hinv
        exact ⟨d₂, by simp only [run, hrun, bind, Except.bind, hstep], hinv₂⟩
    obtain ⟨d₁, hrun, hinv⟩ := hfirst
    exact ⟨d₁, d₁, hrun, hrun, hinv, hinv, List.suffix_rfl, .inr le_rfl⟩
  | succ j ih =>
    obtain ⟨d₁, d₂, hrun₁, hrun₂, hinv₁, hinv₂, hsuf, hover⟩ := ih
    obtain ⟨d₃, hstep, hinv₃, hsuf₃, hless⟩ := step_safe hinv₂
    have hrun₃ : d.run (k + (j + 1)) = .ok d₃ := by
      rw [← Nat.add_assoc]
      simp only [run, hrun₂, bind, Except.bind, hstep]
    refine ⟨d₁, d₃, hrun₁, hrun₃, hinv₁, hinv₃, hsuf.trans hsuf₃, ?_⟩
    rcases hless with ⟨ho, rfl⟩ | hless
    · exact .inl ho
    · rcases hover with ho | hover
      · rw [measure_eq_zero_iff.mpr ho] at hless
        exact absurd hless (Nat.not_lt_zero _)
      · exact .inr (by omega)

theorem parse_inv {text rest : List UInt8} (h0 : 0 ∉ text) (errmsgLen : Nat) (need : Bool) :
    Inv text.length (text ++ 0 :: rest) (parse text rest errmsgLen need) where
  good _ hx := by cases hx
  written := .refl
  kept _ hf := by cases hf
  text := by
    rintro - q hq
    obtain rfl : 0 = q := Option.some.inj hq
    exact .of_append h0
  ends _ _ _ _ hf := by cases hf

end Calls

end Drive

/-- **Tokenising is safe.** On a buffer with any text, its terminating zero and anything behind it,
`csv::parse` leaves its loop after at most `3 * text.length + 4` calls. After any number of calls no
byte behind the terminating zero has been read, every write was between the start of the field and
the scan, every changed byte was written so, and each field returned by a delimiter still reads as
it did after any number of further calls. -/
theorem csv_safe (text rest : List UInt8) (h0 : 0 ∉ text) (errmsgLen : Nat) (need : Bool) :
    (∃ e, (Drive.parse text rest errmsgLen need).run (3 * text.length + 4) = .ok e ∧ e.Over) ∧
    ∀ k, ∃ d₁, (Drive.parse text rest errmsgLen need).run k = .ok d₁ ∧
      (∀ x ∈ d₁.log, x.Good text.length) ∧ Written d₁.log (text ++ 0 :: rest) d₁.p.buf ∧
      ∀ j, ∃ d₂, (Drive.parse text rest errmsgLen need).run (k + j) = .ok d₂ ∧
        d₁.fields <:+ d₂.fields ∧ ∀ f ∈ d₁.fields, cstr d₂.p.buf f.1 = f.2 := by
  have hinv : Drive.Inv text.length (text ++ 0 :: rest) (Drive.parse text rest errmsgLen need) :=
    Drive.parse_inv h0 errmsgLen need
  constructor
  · obtain ⟨d₁, d₂, hrun₁, hrun₂, -, -, -, hover⟩ := Drive.run_safe hinv 0 (3 * text.length + 4)
    obtain rfl : Drive.parse text rest errmsgLen need = d₁ := Except.ok.inj hrun₁
    rw [Nat.zero_add] at hrun₂
    refine ⟨d₂, hrun₂, hover.elim id fun hle => ?_⟩
    have hm : (Drive.parse text rest errmsgLen need).measure text.length = 3 * text.length + 4 := rfl
    exact (Drive.measure_eq_zero_iff (N := text.length)).mp (by omega)
  · intro k
    obtain ⟨d₁, -, hrun₁, -, hinv₁, -, -, -⟩ := Drive.run_safe hinv k 0
    refine ⟨d₁, hrun₁, hinv₁.good, hinv₁.written, fun j => ?_⟩
    obtain ⟨d₁', d₂, hrun₁', hrun₂, -, hinv₂, hsuf, -⟩ := Drive.run_safe hinv k j
    obtain rfl : d₁ = d₁' := Except.ok.inj (hrun₁.symm.trans hrun₁')
    exact ⟨d₂, hrun₂, hsuf, fun f hf => hinv₂.kept f (hsuf.mem hf)⟩

/-- A doubled quote and a bare CR at the very end of the text, in front of a byte that is not
text. -/
theorem csv_safe_truncated :
    (∃ e, (Drive.parse [QUOTE, 97, QUOTE, QUOTE, QUOTE, COMMA, 98, CR] [LF] 32 true).run 28 = .ok e ∧
      e.Over) ∧
    ∀ k, ∃ d₁, (Drive.parse [QUOTE, 97, QUOTE, QUOTE, QUOTE, COMMA, 98, CR] [LF] 32 true).run k =
      .ok d₁ ∧ ∀ x ∈ d₁.log, x.Good 8 := by
  obtain ⟨hover, hsafe⟩ := csv_safe [QUOTE, 97, QUOTE, QUOTE, QUOTE, COMMA, 98, CR] [LF] (by decide)
    32 true
  refine ⟨hover, fun k => ?_⟩
  obtain ⟨d₁, hrun, hgood, -⟩ := hsafe k
  exact ⟨d₁, hrun, hgood⟩

end HoNet.Cfg
