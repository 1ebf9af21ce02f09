import HoNet.Lib.CString

/-!
# The INI reader of `ini.cpp`

`ini::parse` cuts the caller's buffer into strings by writing NULs and keeps pointers into it. New
sections and new keys go to the front of their lists; `value` takes the last section of the list that
has the name, and the first key.
-/

namespace HoNet.Cfg

open HoNet.CString

structure KeyVal where
  key : Nat
  val : Option Nat
  deriving DecidableEq, Repr

/-- `struct section`; the name `none` is the literal `""` of the first section. -/
structure IniSection where
  name : Option Nat
  kv : List KeyVal
  deriving DecidableEq, Repr

/-- `class ini`; `cache` and `next` are positions in the list `base`. -/
structure Ini where
  base : List IniSection
  cache : Option Nat
  next : Option Nat
  errmsg : List UInt8
  deriving DecidableEq, Repr

namespace Ini

/-- `_snprintf(errmsg, sizeof(errmsg), ..)` with `char errmsg[16]`. -/
def report (ini : Ini) (text : String) : Ini :=
  { ini with errmsg := text.toUTF8.toList.take 16 }

/-! ## Trimming -/

/-- The loop of `ltrim` over the bytes from `p` on. -/
def ltrimFrom : List UInt8 → Nat → Nat
  | [], p => p
  | b :: bs, p => if b = 0 then p else if isspace b then ltrimFrom bs (p + 1) else p

def ltrim (buf : List UInt8) (str : Nat) : Nat := ltrimFrom (buf.drop str) str

/-- The loop of `rtrim`: `e` is where the white space at the end starts, `none` for `-1`. -/
def rtrimLoop : List UInt8 → Nat → Option Nat → Option Nat
  | [], _, e => e
  | b :: bs, i, e =>
    if b = 0 then e
    else if isspace b then
      match e with
      | none => rtrimLoop bs (i + 1) (some i)
      | some e => rtrimLoop bs (i + 1) (some e)
    else rtrimLoop bs (i + 1) none

def rtrim (buf : List UInt8) (str : Nat) : List UInt8 :=
  match rtrimLoop (buf.drop str) 0 none with
  | none => buf
  | some e => buf.set (str + e) 0

/-- The buffer after `trim` and the pointer it returns. -/
def trim (buf : List UInt8) (str : Nat) : List UInt8 × Nat :=
  let ret := ltrim buf str
  (rtrim buf ret, ret)

/-! ## Parsing -/

def byteAt (buf : List UInt8) (p : Nat) : UInt8 := buf.getD p 0

def parseSection (ini : Ini) (buf : List UInt8) (str : Nat) : Ini × List UInt8 × Bool :=
  let nm := str + 1
  match strchr buf nm 93 with
  | none => (ini.report "not found section end flag ]", buf, false)
  | some e =>
    let buf := buf.set e 0
    let (buf, nm) := trim buf nm
    if byteAt buf nm = 0 then (ini.report "empty section name", buf, false)
    else ({ ini with base := ⟨some nm, []⟩ :: ini.base }, buf, true)

/-- The new key goes to the section in front. -/
def addKey (kv : KeyVal) : List IniSection → List IniSection
  | [] => []
  | sec :: rest => { sec with kv := kv :: sec.kv } :: rest

def parseKeyval (ini : Ini) (buf : List UInt8) (str : Nat) : Ini × List UInt8 × Bool :=
  match strchr buf str 61 with
  | none => (ini.report "not found key value flag =", buf, false)
  | some val =>
    let buf := buf.set val 0
    let (buf, key) := trim buf str
    if byteAt buf key = 0 then (ini.report "empty keyval name", buf, false)
    else
      let (buf, val) := trim buf (val + 1)
      let kv : KeyVal := ⟨key, if byteAt buf val = 0 then none else some val⟩
      ({ ini with base := addKey kv ini.base }, buf, true)

def clear (_ : Ini) : Ini := ⟨[], none, none, []⟩

/-- `comment = strchr(line, ';')` and the NUL written there. -/
def cutComment (buf : List UInt8) (line : Nat) : List UInt8 :=
  match strchr buf line 59 with
  | none => buf
  | some comment => buf.set comment 0

/-- The body of the loop of `parse` behind the search for the end of the line. -/
def parseLine (ini : Ini) (buf : List UInt8) (line : Nat) : Ini × List UInt8 × Bool :=
  let (buf, line) := trim (cutComment buf line) line
  if byteAt buf line = 0 then (ini, buf, true)
  else if byteAt buf line = 91 then ini.parseSection buf line
  else ini.parseKeyval buf line

/-- `while (line)`; the first argument bounds the rounds. -/
def parseLoop : Nat → Ini → List UInt8 → Nat → Option (Ini × List UInt8 × Bool)
  | 0, _, _, _ => none
  | rounds + 1, ini, buf, line =>
    match strchr buf line 10 with
    | none => some (ini.parseLine buf line)
    | some nextline =>
      match ini.parseLine (buf.set nextline 0) line with
      | (ini, buf, false) => some (ini, buf, false)
      | (ini, buf, true) => parseLoop rounds ini buf (nextline + 1)

/-- `ini::parse` on the buffer: the object and the buffer it leaves, and what it returns. -/
def parse (ini : Ini) (buf : List UInt8) : Option (Ini × List UInt8 × Bool) :=
  let ini := ini.clear
  let ini := { ini with base := ⟨none, []⟩ :: ini.base }
  parseLoop (buf.length + 1) ini buf 0

/-! ## Queries -/

def nameOf (buf : List UInt8) (sec : IniSection) : List UInt8 :=
  match sec.name with
  | none => []
  | some p => cstr buf p

/-- The loop over the sections: the position of the last one with the name. -/
def findLast (buf sec : List UInt8) : List IniSection → Nat → Option Nat → Option Nat
  | [], _, node => node
  | n :: rest, i, node => findLast buf sec rest (i + 1) (if nameOf buf n = sec then some i else node)

/-- The loop over the keys of a section. -/
def findKey (buf key : List UInt8) (dflt : Option (List UInt8)) : List KeyVal → Option (List UInt8)
  | [] => dflt
  | n :: rest =>
    if cstr buf n.key = key then
      match n.val with
      | some v => some (cstr buf v)
      | none => dflt
    else findKey buf key dflt rest

/-- `value(sec, key, def)`: the object with its cache, and the string returned. -/
def value (ini : Ini) (buf sec key : List UInt8) (dflt : Option (List UInt8)) :
    Ini × Option (List UInt8) :=
  let cached := (ini.cache.bind (ini.base[·]?)).any fun n => nameOf buf n = sec
  let node := if cached then ini.cache else findLast buf sec ini.base 0 none
  let ini := if node.isSome then { ini with cache := node } else ini
  (ini, findKey buf key dflt ((node.bind (ini.base[·]?)).elim [] IniSection.kv))

end Ini

end HoNet.Cfg
