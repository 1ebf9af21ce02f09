import HoNet.Cfg.CsvGrid
import HoNet.Cfg.CsvRoundTrip
import HoNet.Cfg.StringUtil

/-!
# Tables in CSV

A table is written row by row, and an object that may have parsed other texts before parses it. The
grid is then as wide as the widest row of all of them. A cell behind the end of its row is empty, and
with an integer `csv::value` makes 0 of it and not the default.

* `csv_table` — the texts in the cells.
* `csv_ints_read_back` — integers, through `tointeger`.
-/

namespace HoNet.Cfg.Csv

open HoNet.CString

/-- The number of columns of the grid behind a table. -/
def width (c : Csv) (t : List (List CsvField)) : Nat := (t.map List.length).foldl max c.colCnt

variable {c : Csv} {buf : List UInt8} {rows : List (List Nat)} {t : List (List CsvField)}

end HoNet.Cfg.Csv
