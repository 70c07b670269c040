import CFunction.Database.ModifySql
import CFunction.Misc.Runs

/-!
# Runs of `modify_sql`

A failed statement and a failed commit return while the transaction is open, and nothing rolls it
back: the next call does not begin.
-/

namespace CFunction
namespace ModifySql

variable {Text δ : Type*} (compile : Text → List (Statement δ))

/-- The contract of one call. -/
structure AllOrNothing (call : Call Text δ) : Prop where
  /-- No transaction is open behind the call. -/
  closed : call.after.working = none
  applied : call.ret = 0 →
    Statement.effect (compile call.sql) call.before.durable = some call.after.durable
  untouched : call.ret = -1 → call.after.durable = call.before.durable
  returns : call.ret = 0 ∨ call.ret = -1

/-- The call does not begin, or neither its statements nor its commit fail. -/
def Completes (call : Call Text δ) : Prop :=
  call.faults.begin = true ∨
    ((Statement.exec (compile call.sql) call.faults.statement call.before.durable).2 = true ∧
      call.faults.commit = false)

/-- What a call does in auto-commit mode. -/
theorem modifySql_autoCommit (d : δ) (sql : Text) (faults : Faults) :
    modifySql compile (.autoCommit d) sql faults =
      if faults.begin then (.autoCommit d, -1)
      else
        let r := Statement.exec (compile sql) faults.statement d
        if r.2 then
          if faults.commit then (⟨d, some r.1⟩, -1) else (.autoCommit r.1, 0)
        else (⟨d, some r.1⟩, -1) := by
  cases hbegin : faults.begin with
  | true => simp [modifySql, sqlite3Exec, Connection.begin, Connection.autoCommit, hbegin,
      SQLITE_OK, SQLITE_ERROR]
  | false =>
    cases hexec : (Statement.exec (compile sql) faults.statement d).2 <;>
      cases hcommit : faults.commit <;>
        simp [modifySql, sqlite3Exec, Connection.begin, Connection.exec, Connection.commit,
          Connection.autoCommit, hbegin, hexec, hcommit, SQLITE_OK, SQLITE_ERROR]

theorem not_allOrNothing_of_open {call : Call Text δ} {d d' : δ}
    (h : (⟨d, some d'⟩ : Connection δ) = call.after) : ¬ AllOrNothing compile call := by
  intro hgood
  have hclosed := hgood.closed
  rw [← h] at hclosed
  contradiction

/-- From auto-commit mode a call keeps its contract exactly when it completes. -/
theorem allOrNothing_iff_completes {call : Call Text δ} {conn' : Connection δ}
    (hauto : call.before.working = none) (h : Step compile call.before call conn') :
    AllOrNothing compile call ↔ Completes compile call := by
  obtain ⟨-, hafter, hcall⟩ := h
  have hbefore : call.before = .autoCommit call.before.durable := by
    rw [Connection.autoCommit, ← hauto]
  rw [hbefore, modifySql_autoCommit, ← hafter] at hcall
  unfold Completes
  cases hbegin : call.faults.begin with
  | true =>
    rw [hbegin, if_pos rfl] at hcall
    obtain ⟨hconn, hret⟩ := Prod.mk.inj hcall
    refine iff_of_true ⟨?_, ?_, ?_, Or.inr hret.symm⟩ (Or.inl rfl)
    · rw [← hconn]
      rfl
    · intro hzero
      rw [hzero] at hret
      contradiction
    · intro _
      rw [← hconn]
      rfl
  | false =>
    rw [hbegin, if_neg Bool.false_ne_true] at hcall
    cases hexec : (Statement.exec (compile call.sql) call.faults.statement
        call.before.durable).2 with
    | false =>
      simp only [hexec, if_neg Bool.false_ne_true] at hcall
      exact iff_of_false (not_allOrNothing_of_open compile (Prod.mk.inj hcall).1) (by simp)
    | true =>
      simp only [hexec, if_pos] at hcall
      cases hcommit : call.faults.commit with
      | true =>
        rw [hcommit, if_pos rfl] at hcall
        exact iff_of_false (not_allOrNothing_of_open compile (Prod.mk.inj hcall).1) (by simp)
      | false =>
        rw [hcommit, if_neg Bool.false_ne_true] at hcall
        obtain ⟨hconn, hret⟩ := Prod.mk.inj hcall
        refine iff_of_true ⟨?_, ?_, ?_, Or.inl hret.symm⟩ (by simp)
        · rw [← hconn]
          rfl
        · intro _
          rw [← hconn]
          exact Statement.effect_of_exec _ _ _ hexec
        · intro hfailed
          rw [hfailed] at hret
          contradiction

/-- Over a run: the contract of all calls, and the connection while it is kept. -/
theorem run_allOrNothing {d₀ : δ} {calls : List (Call Text δ)} {conn : Connection δ}
    (run : Run (Step compile) (.autoCommit d₀) calls conn) :
    ((∀ call ∈ calls, AllOrNothing compile call) ↔ ∀ call ∈ calls, Completes compile call) ∧
      ((∀ call ∈ calls, AllOrNothing compile call) → conn.working = none) := by
  induction run with
  | nil => exact ⟨iff_of_true (by simp) (by simp), fun _ => rfl⟩
  | @snoc calls conn conn' call _ hstep ih =>
    obtain ⟨hiff, hclosed⟩ := ih
    have hbefore := hstep.1
    have hafter := hstep.2.1
    subst hbefore
    simp only [List.mem_append, List.mem_singleton, or_imp, forall_and, forall_eq]
    refine ⟨?_, fun hgood => hafter ▸ hgood.2.closed⟩
    constructor
    · rintro ⟨hold, hlast⟩
      exact ⟨hiff.1 hold, (allOrNothing_iff_completes compile (hclosed hold) hstep).1 hlast⟩
    · rintro ⟨hold, hlast⟩
      have hgood := hiff.2 hold
      exact ⟨hgood, (allOrNothing_iff_completes compile (hclosed hgood) hstep).2 hlast⟩

/-- In a run from auto-commit mode, all calls keep their contract exactly when all complete. -/
theorem modifySql_run_allOrNothing_iff {d₀ : δ} {calls : List (Call Text δ)} {conn : Connection δ}
    (run : Run (Step compile) (.autoCommit d₀) calls conn) :
    (∀ call ∈ calls, AllOrNothing compile call) ↔ ∀ call ∈ calls, Completes compile call :=
  (run_allOrNothing compile run).1

/-- A table of one counter: `true` counts on, `false` violates a constraint. -/
def counter : Bool → List (Statement Nat)
  | true => [fun n => some (n + 1)]
  | false => [fun _ => none]

/-- The counter goes on from 0, is locked by another connection for one call, goes on, and meets
its constraint. -/
def counterCalls : List (Call Bool Nat) :=
  [⟨.autoCommit 0, true, ⟨false, none, false⟩, .autoCommit 1, 0⟩,
    ⟨.autoCommit 1, true, ⟨true, none, false⟩, .autoCommit 1, -1⟩,
    ⟨.autoCommit 1, true, ⟨false, none, false⟩, .autoCommit 2, 0⟩,
    ⟨.autoCommit 2, false, ⟨false, none, false⟩, ⟨2, some 2⟩, -1⟩]

theorem modifySql_run_allOrNothing_iff_counter :
    (∀ call ∈ counterCalls, AllOrNothing counter call) ↔
      ∀ call ∈ counterCalls, Completes counter call := by
  have hrun : Run (Step counter) (.autoCommit 0) counterCalls ⟨2, some 2⟩ :=
    (((Run.nil.snoc ⟨rfl, rfl, rfl⟩).snoc ⟨rfl, rfl, rfl⟩).snoc ⟨rfl, rfl, rfl⟩).snoc
      ⟨rfl, rfl, rfl⟩
  exact modifySql_run_allOrNothing_iff counter hrun

/-- A statement that fails leaves its transaction open. -/
theorem failed_statement_stays_open :
    ¬ ∀ calls conn, Run (Step counter) (.autoCommit 0) calls conn →
      ∀ call ∈ calls, AllOrNothing counter call := by
  intro h
  have hrun : Run (Step counter) (.autoCommit 0)
      [⟨.autoCommit 0, false, ⟨false, none, false⟩, ⟨0, some 0⟩, -1⟩] ⟨0, some 0⟩ :=
    Run.nil.snoc ⟨rfl, rfl, rfl⟩
  exact not_allOrNothing_of_open counter rfl (h _ _ hrun _ List.mem_cons_self)

end ModifySql
end CFunction
