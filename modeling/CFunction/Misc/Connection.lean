import Mathlib.Logic.Basic

/-!
# A connection to a transactional store

The contents are of any type `δ`, and a statement is a partial function on them. A connection is
in auto-commit mode, or it has a transaction open: then its statements change a working copy
which a commit makes durable.
-/

namespace CFunction

/-- The effect of a statement, which may fail on some contents. -/
abbrev Statement (δ : Type*) := δ → Option δ

namespace Statement

variable {δ : Type*}

/-- The effect of the statements of a text, one after the other. -/
def effect (ss : List (Statement δ)) (d : δ) : Option δ := ss.foldlM (fun d s => s d) d

/-- Runs statements until one of them fails, and tells whether all have succeeded. `fault` is the
index of a statement that fails for a reason outside of its contents, such as a lock on a table.
The statement that fails changes nothing. -/
def exec : List (Statement δ) → Option Nat → δ → δ × Bool
  | [], _, d => (d, true)
  | _ :: _, some 0, d => (d, false)
  | s :: ss, fault, d =>
    match s d with
    | none => (d, false)
    | some d' => exec ss (fault.map Nat.pred) d'

theorem effect_of_exec (ss : List (Statement δ)) (fault : Option Nat) (d : δ) :
    (exec ss fault d).2 = true → effect ss d = some (exec ss fault d).1 := by
  fun_induction exec ss fault d with
  | case1 => exact fun _ => rfl
  | case2 => exact fun h => absurd h Bool.false_ne_true
  | case3 => exact fun h => absurd h Bool.false_ne_true
  | case4 d s ss fault _ d' hs ih =>
    intro hok
    rw [effect, List.foldlM_cons, hs]
    exact ih hok

end Statement

/-- A connection: the durable contents, and the working copy of an open transaction. -/
structure Connection (δ : Type*) where
  durable : δ
  working : Option δ

namespace Connection

variable {δ : Type*}

def autoCommit (d : δ) : Connection δ := ⟨d, none⟩

/-- A transaction does not begin inside another one. -/
def begin (conn : Connection δ) (fault : Bool) : Connection δ × Bool :=
  match conn.working, fault with
  | none, false => ({ conn with working := some conn.durable }, true)
  | _, _ => (conn, false)

def exec (conn : Connection δ) (ss : List (Statement δ)) (fault : Option Nat) :
    Connection δ × Bool :=
  match conn.working with
  | none =>
    let r := Statement.exec ss fault conn.durable
    ({ conn with durable := r.1 }, r.2)
  | some d =>
    let r := Statement.exec ss fault d
    ({ conn with working := some r.1 }, r.2)

/-- A commit that fails leaves the transaction open. -/
def commit (conn : Connection δ) (fault : Bool) : Connection δ × Bool :=
  match conn.working, fault with
  | some d, false => (autoCommit d, true)
  | _, _ => (conn, false)

end Connection
end CFunction
