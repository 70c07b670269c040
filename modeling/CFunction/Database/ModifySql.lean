import CFunction.Misc.Connection

/-!
# `modify_sql`

The database library is known by its rules: `sqlite3_exec` runs the statements of a text on the
connection. How a text is compiled to statements is a parameter, and so is which steps fail for
a reason outside of the database.
-/

namespace CFunction
namespace ModifySql

def SQLITE_OK : Int := 0

def SQLITE_ERROR : Int := 1

/-- What `modify_sql` gives to `sqlite3_exec`. -/
inductive Command (Text : Type*) where
  | beginExclusiveTransaction
  | sql (text : Text)
  | commitTransaction

/-- The steps of one call that fail for a reason outside of the database. -/
structure Faults where
  begin : Bool
  statement : Option Nat
  commit : Bool
  deriving DecidableEq, Repr

variable {Text δ : Type*} (compile : Text → List (Statement δ))

def sqlite3Exec (conn : Connection δ) (command : Command Text) (faults : Faults) :
    Connection δ × Int :=
  let (conn, ok) := match command with
    | .beginExclusiveTransaction => conn.begin faults.begin
    | .sql text => conn.exec (compile text) faults.statement
    | .commitTransaction => conn.commit faults.commit
  (conn, if ok then SQLITE_OK else SQLITE_ERROR)

/-- The connection behind the call, and its result. -/
def modifySql (conn : Connection δ) (sql : Text) (faults : Faults) : Connection δ × Int :=
  let (conn, ret) := sqlite3Exec compile conn .beginExclusiveTransaction faults
  if ret ≠ SQLITE_OK then
    (conn, -1)
  else
    let (conn, ret) := sqlite3Exec compile conn (.sql sql) faults
    if ret ≠ SQLITE_OK then
      (conn, -1)
    else
      let (conn, ret) := sqlite3Exec compile conn .commitTransaction faults
      if ret ≠ SQLITE_OK then
        (conn, -1)
      else
        (conn, 0)

/-- One call, with the connection before and after it. -/
structure Call (Text δ : Type*) where
  before : Connection δ
  sql : Text
  faults : Faults
  after : Connection δ
  ret : Int

def Step (conn : Connection δ) (call : Call Text δ) (conn' : Connection δ) : Prop :=
  call.before = conn ∧ call.after = conn' ∧
    modifySql compile conn call.sql call.faults = (conn', call.ret)

end ModifySql
end CFunction
