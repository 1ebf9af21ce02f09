import Mathlib.Data.List.Basic
import Mathlib.Tactic

/-!
# Reading a file through its position

A stream opened for reading is its content and a position. `fread` reads from the position on and
moves it; `fseek` moves it without reading.

* `fread_of_end` — behind a seek to the end nothing is read.
* `fread_of_start` — from the start, everything.
-/

namespace HoNet.Stdio

structure File where
  content : List UInt8
  pos : Nat
  deriving DecidableEq, Repr

/-- `fopen(.., "rb")` on a readable file. -/
def fopen (content : List UInt8) : File := ⟨content, 0⟩

/-- `fseek(f, 0, SEEK_SET)`. -/
def File.seekSet (f : File) : File := { f with pos := 0 }

/-- `fseek(f, 0, SEEK_END)`. -/
def File.seekEnd (f : File) : File := { f with pos := f.content.length }

/-- `ftell`, which fails where no `long` holds the position. -/
def File.ftell (f : File) : Option Nat := if f.pos < 2 ^ 31 then some f.pos else none

/-- `fread(.., 1, n, f)`: what is read, and the stream behind it. -/
def File.fread (f : File) (n : Nat) : List UInt8 × File :=
  ((f.content.drop f.pos).take n,
    { f with pos := f.pos + ((f.content.drop f.pos).take n).length })

variable {content : List UInt8} {f : File}

theorem fread_of_end (h : f.content.length ≤ f.pos) (n : Nat) : (f.fread n).1 = [] := by
  rw [File.fread, List.drop_eq_nil_of_le h, List.take_nil]

theorem fread_of_start (h : f.pos = 0) : (f.fread f.content.length).1 = f.content := by
  rw [File.fread, h, List.drop_zero, List.take_length]

theorem ftell_seekEnd (f : File) :
    f.seekEnd.ftell = if f.content.length < 2 ^ 31 then some f.content.length else none := rfl

/-- A block of memory into which something was read. -/
def readInto (block read : List UInt8) : List UInt8 := read ++ block.drop read.length

/-- A block of one byte more than the content, ended by a zero, becomes the content as a string. -/
theorem readInto_block (mem : Nat → UInt8) (content : List UInt8) :
    readInto (((List.range (content.length + 1)).map mem).set content.length 0) content =
      content ++ [0] := by
  rw [readInto, List.range_succ, List.map_append, List.map_singleton,
    List.set_append_right _ _ (by rw [List.length_map, List.length_range]), List.length_map,
    List.length_range, Nat.sub_self, List.set_cons_zero]
  have hlen : ((List.range content.length).map mem).length = content.length := by
    rw [List.length_map, List.length_range]
  rw [List.drop_left' hlen]

end HoNet.Stdio
