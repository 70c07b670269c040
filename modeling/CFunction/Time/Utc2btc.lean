import CFunction.Misc.CInt

/-!
# `utc2btc`

The conversion of a broken-down UTC time to UTC+8, as the GPS reader and the time program both
define it. The lengths of the months are in a global table, which the function changes.
-/

namespace CFunction
namespace Utc2btc

/-- The fields of `struct tm` which the conversion reads. -/
structure Tm where
  tmSec : Int
  tmMin : Int
  tmHour : Int
  tmMday : Int
  tmMon : Int
  tmYear : Int
  deriving DecidableEq, Repr

/-- `date_mday` when the program starts. -/
def dateMday : List Int := [31, 28, 31, 30, 31, 30, 31, 31, 30, 31, 30, 31]

/-- `table[i]`; an index outside the array has no value. -/
def load (table : List Int) (i : Int) : Option Int :=
  if i < 0 then none else table[i.toNat]?

/-- The leap year test of `utc2btc`, for the field `tm_year`. -/
def leapTest (tmYear : Int) : Bool :=
  let year := toInt32 (tmYear + 1900)
  year.tmod 400 = 0 || (year.tmod 4 = 0 && year.tmod 100 ≠ 0)

/-- The carry over the end of the month `tm_mon`, whose length is `days`. -/
def carryMonth (days : Int) (mtm : Tm) : Tm :=
  if mtm.tmMday > days then
    let mtm := { mtm with tmMday := 1, tmMon := toInt32 (mtm.tmMon + 1) }
    if mtm.tmMon > 11 then
      { mtm with tmMon := 0, tmYear := toInt32 (mtm.tmYear + 1) }
    else mtm
  else mtm

/-- The table that the call leaves behind, and the converted time. -/
def utc2btc (table : List Int) (mtm : Tm) : Option (List Int × Tm) := do
  let mtm := { mtm with tmHour := toInt32 (mtm.tmHour + 8) }
  if mtm.tmHour ≥ 24 then
    let mtm := { mtm with
      tmHour := toInt32 (mtm.tmHour - 24), tmMday := toInt32 (mtm.tmMday + 1) }
    let table := if mtm.tmMon = 1 ∧ leapTest mtm.tmYear then table.set 1 29 else table
    let days ← load table mtm.tmMon
    some (table, carryMonth days mtm)
  else
    some (table, mtm)

/-- One call and the time it leaves in its argument. -/
structure Call where
  arg : Tm
  result : Tm
  deriving DecidableEq, Repr

def Step (table : List Int) (call : Call) (table' : List Int) : Prop :=
  utc2btc table call.arg = some (table', call.result)

end Utc2btc
end CFunction
