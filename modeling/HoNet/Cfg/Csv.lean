import HoNet.Lib.CString

/-!
# The CSV tokeniser of `csv.cpp`

`csv_parse` tokenises a NUL-terminated buffer in place: it unescapes a field by moving bytes to the
left while it scans, and it terminates each field with a zero of its own. The loop over rows and
columns is the one of `csv::parse`.
-/

namespace HoNet.Cfg

open HoNet.CString

/-! ## The tokeniser -/

inductive CsvFault where
  | outOfBounds
  | diverges
  deriving DecidableEq, Repr

abbrev CsvRes (α : Type) := Except CsvFault α

/-- `class csv_parse`, with the buffer it works on; `errmsg` is what `_snprintf` has written. -/
structure CsvParse where
  buf : List UInt8
  parsePtr : Option Nat
  needNextline : Bool
  errmsg : List UInt8
  errmsgLen : Nat
  deriving DecidableEq, Repr

def QUOTE : UInt8 := 34
def COMMA : UInt8 := 44
def CR : UInt8 := 13
def LF : UInt8 := 10

namespace CsvParse

/-- `csv_parse(msg, err, len)`; `need` is the value of the uninitialised `need_nextline`. -/
def new (buf : List UInt8) (errmsgLen : Nat) (need : Bool) : CsvParse :=
  ⟨buf, some 0, need, [], errmsgLen⟩

def read (p : CsvParse) (ptr : Nat) : CsvRes UInt8 :=
  match p.buf[ptr]? with
  | some b => .ok b
  | none => .error .outOfBounds

/-- `SET_CHAR(ptr, n, c)`. -/
def setChar (p : CsvParse) (ptr n : Nat) (c : UInt8) : CsvParse :=
  { p with buf := p.buf.set (ptr - n) c }

/-- `MV_CHAR(ptr, n)` where `*ptr` is `c`. -/
def mvChar (p : CsvParse) (ptr n : Nat) (c : UInt8) : CsvParse :=
  if n > 0 then { p with buf := p.buf.set (ptr - n) c } else p

/-- `"unexpected char %c on %s"` for the text at `ptr`. -/
def unexpected (p : CsvParse) (ptr : Nat) : List UInt8 :=
  "unexpected char ".toUTF8.toList ++ (p.buf.drop ptr).take 1 ++ " on ".toUTF8.toList ++
    cstr p.buf ptr

/-- The label `parse_error`. -/
def parseError (p : CsvParse) (ptr : Nat) : CsvParse × Bool × Option Nat :=
  ({ p with errmsg := if p.errmsgLen > 0 then (p.unexpected ptr).take p.errmsgLen else p.errmsg },
    false, none)

/-- A field ends: it is terminated `n` bytes before `ptr`, and parsing goes on at `next`. -/
def endField (p : CsvParse) (ptr n next : Nat) (need : Bool) (out : Nat) :
    CsvParse × Bool × Option Nat :=
  ({ p.setChar ptr n 0 with parsePtr := some next, needNextline := p.needNextline || need },
    true, some out)

/-- The code from the label `loop` on; the first argument bounds its rounds. The result is what
`next_column` returns and what it stores in `*out`. -/
def columnLoop (withQuote : Bool) (out : Nat) :
    Nat → CsvParse → Nat → Nat → CsvRes (CsvParse × Bool × Option Nat)
  | 0, _, _, _ => .error .diverges
  | rounds + 1, p, ptr, bytes => do
    let c ← p.read ptr
    if c = 0 then return ({ p with parsePtr := none }, true, some out)
    else if c = QUOTE then
      let c₁ ← p.read (ptr + 1)
      if c₁ = COMMA then
        if withQuote then return p.endField ptr bytes (ptr + 2) false out
        else return p.parseError ptr
      else if c₁ = CR then
        let c₂ ← p.read (ptr + 2)
        if c₂ = LF then
          if withQuote then return p.endField ptr bytes (ptr + 3) true out
          else return p.parseError ptr
        else return p.parseError ptr
      else if c₁ = QUOTE then
        columnLoop withQuote out rounds (p.mvChar ptr bytes c) (ptr + 1 + 1) (bytes + 1)
      else return p.parseError ptr
    else if c = CR then
      if withQuote then
        columnLoop withQuote out rounds (p.mvChar ptr bytes c) (ptr + 1) bytes
      else
        let c₁ ← p.read (ptr + 1)
        if c₁ = LF then return p.endField ptr bytes (ptr + 2) true out
        else columnLoop withQuote out rounds (p.mvChar ptr bytes c) (ptr + 1) bytes
    else if c = COMMA then
      if withQuote then
        columnLoop withQuote out rounds (p.mvChar ptr bytes c) (ptr + 1) bytes
      else return p.endField ptr bytes (ptr + 1) false out
    else columnLoop withQuote out rounds (p.mvChar ptr bytes c) (ptr + 1) bytes

def nextColumn (p : CsvParse) : CsvRes (CsvParse × Bool × Option Nat) :=
  match p.parsePtr with
  | none => .ok (p, true, none)
  | some ptr =>
    if p.needNextline then .ok (p, true, none)
    else do
      let c ← p.read ptr
      if c = QUOTE then columnLoop true (ptr + 1) (p.buf.length + 1) p (ptr + 1) 0
      else columnLoop false ptr (p.buf.length + 1) p ptr 0

def nextLine (p : CsvParse) : CsvRes (CsvParse × Bool) :=
  let p := { p with needNextline := false }
  match p.parsePtr with
  | none => .ok (p, false)
  | some ptr => do
    let c ← p.read ptr
    return (p, decide (c ≠ 0))

/-- The columns of one row, as the inner loop of `csv::parse` collects them; `none` if `next_column`
reports an error. -/
def columns : Nat → CsvParse → CsvRes (CsvParse × Option (List Nat))
  | 0, _ => .error .diverges
  | rounds + 1, p => do
    let (p, ok, out) ← p.nextColumn
    if ok then
      match out with
      | none => return (p, some [])
      | some ptr =>
        let (p, rest) ← columns rounds p
        return (p, rest.map (ptr :: ·))
    else return (p, none)

/-- The rows, as the outer loop of `csv::parse` collects them. -/
def rows : Nat → CsvParse → CsvRes (CsvParse × Option (List (List Nat)))
  | 0, _ => .error .diverges
  | rounds + 1, p => do
    let (p, more) ← p.nextLine
    if more then
      let (p, row) ← columns (p.buf.length + 1) p
      match row with
      | none => return (p, none)
      | some row =>
        let (p, rest) ← rows rounds p
        return (p, rest.map (row :: ·))
    else return (p, some [])

/-- Driving the tokeniser over a text. -/
def tokenise (p : CsvParse) : CsvRes (CsvParse × Option (List (List Nat))) :=
  rows (p.buf.length + 1) p

end CsvParse

end HoNet.Cfg
