import CFunction.Misc.Notices
import CFunction.Process.Sigchld
import Mathlib.Data.List.Nodup

/-!
# Every child is reported

A child that has ended waits for `waitpid`, and `SIGCHLD` is the notice of it. The process is thus
an instance of notices that collapse, in which nobody looks when the handler is installed.
-/

namespace CFunction
namespace Sigchld

open Notices

variable {es : List Event} {s s' : State} {e : Event} {i : Nat} {status : Status}

/-! ### Histories -/

def Event.ending : Event → Option (Nat × Status)
  | .ends i status => some (i, status)
  | _ => none

def Event.report : Event → Option (Nat × Status)
  | .reports i status => some (i, status)
  | _ => none

/-- The children that have ended, in their order. -/
def endings (es : List Event) : List (Nat × Status) := es.filterMap Event.ending

/-- The lines that `do_sig_child` has printed. -/
def reports (es : List Event) : List (Nat × Status) := es.filterMap Event.report

theorem endings_concat (es : List Event) (e : Event) :
    endings (es ++ [e]) = endings es ++ e.ending.toList := by
  rw [endings, List.filterMap_append, endings]
  cases e <;> rfl

/-- The notice that a step is. -/
def Event.notice : Event → Option (Notices.Event (Nat × Status))
  | .forks _ => none
  | .sigaction => some .listen
  | .ends i status => some (.arrive [(i, status)])
  | .deliver => some .start
  | .reports i status => some (.take [(i, status)])
  | .returns => some .finish

theorem arrived_notices (es : List Event) : arrived (es.filterMap Event.notice) = endings es := by
  induction es with
  | nil => rfl
  | cons e es ih =>
    cases e with
    | forks => exact ih
    | ends i status => exact congrArg ((i, status) :: ·) ih
    | _ => exact ih

theorem taken_notices (es : List Event) : taken (es.filterMap Event.notice) = reports es := by
  induction es with
  | nil => rfl
  | cons e es ih =>
    cases e with
    | forks => exact ih
    | reports i status => exact congrArg ((i, status) :: ·) ih
    | _ => exact ih

/-! ### What a step does -/

theorem fork_cases {granted : Bool} (h : fork s granted = some s') :
    s.installed = false ∧ s'.installed = false ∧ s'.pending = s.pending ∧
      s'.handling = s.handling ∧ (s'.children = s.children ∨
        s'.children = s.children ++ [.running] ∧ s.children.length < CHILDREN) := by
  unfold fork at h
  split at h
  · cases h
  · rename_i hpc
    have hno : s.installed = false := by
      rw [not_not] at hpc
      rw [State.installed, hpc]
      rfl
    split at h
    · rename_i hlt
      split at h
      · cases h
        exact ⟨hno, hno, rfl, rfl, .inr ⟨rfl, hlt⟩⟩
      · cases h
        exact ⟨hno, rfl, rfl, rfl, .inl rfl⟩
    · cases h
      exact ⟨hno, rfl, rfl, rfl, .inl rfl⟩

theorem ends_cases {killedBy : Option Nat} (h : ends s i killedBy = some (s', status)) :
    s.children[i]? = some .running ∧
      s' = { s with children := s.children.set i (.zombie status), pending := s.installed } ∧
      (status = .exited (exitCode i) ∨ ∃ signo, status = .signaled signo) := by
  unfold ends at h
  split at h
  · rename_i hrunning
    obtain ⟨rfl, rfl⟩ := Prod.mk.inj (Option.some.inj h)
    refine ⟨hrunning, rfl, ?_⟩
    cases killedBy with
    | none => exact .inl rfl
    | some signo => exact .inr ⟨signo, rfl⟩
  · cases h

theorem waitpid_cases (h : waitpid s i = some (s', status)) :
    s.handling = true ∧ s.children[i]? = some (.zombie status) ∧
      s' = { s with children := s.children.set i .reaped } := by
  unfold waitpid at h
  split at h
  · rename_i hhandling
    split at h
    · rename_i hzombie
      obtain ⟨rfl, rfl⟩ := Prod.mk.inj (Option.some.inj h)
      exact ⟨hhandling, hzombie, rfl⟩
    · cases h
  · cases h

/-! ### The simulation -/

/-- The zombies wait. -/
structure Represents (s : State) (a : Notices.State (Nat × Status)) : Prop where
  waiting : ∀ e, e ∈ a.waiting ↔ s.children[e.1]? = some (.zombie e.2)
  nodup : a.waiting.Nodup
  listening : a.listening = s.installed
  pending : a.pending = s.pending
  taking : a.taking = s.handling
  ignored : s.installed = false → s.pending = false

/-- `do_sig_child` takes the children that have ended in any order. -/
abbrev AnyOrder (w xs r : List (Nat × Status)) : Prop := w.Perm (xs ++ r)

theorem zombie_concat (cs : List Child) (e : Nat × Status) :
    (cs ++ [.running])[e.1]? = some (.zombie e.2) ↔ cs[e.1]? = some (.zombie e.2) := by
  rcases Nat.lt_trichotomy e.1 cs.length with h | h | h
  · rw [List.getElem?_append_left h]
  · rw [h, List.getElem?_concat_length, List.getElem?_eq_none (Nat.le_refl _)]
    simp
  · rw [List.getElem?_eq_none (by rw [List.length_append, List.length_singleton]; omega),
      List.getElem?_eq_none (Nat.le_of_lt h)]

theorem simulates : Run.Simulates Step (Notices.Step AnyOrder false) Event.notice Represents := by
  intro s e t a R hstep
  cases hstep with
  | forks h =>
    obtain ⟨hno, hno', hpending, hhandling, hchildren⟩ := fork_cases h
    refine ⟨fun e => ?_, R.nodup, ?_, R.pending.trans hpending.symm, R.taking.trans hhandling.symm,
      fun _ => hpending.trans (R.ignored hno)⟩
    · rcases hchildren with hsame | ⟨hmore, -⟩
      · rw [hsame, R.waiting]
      · rw [hmore, zombie_concat, R.waiting]
    · rw [R.listening, hno, hno']
  | sigaction h =>
    unfold sigaction at h
    split at h
    · rename_i hpc
      cases h
      have hno : s.installed = false := by
        rw [State.installed, hpc]
        rfl
      refine ⟨_, .listen (R.listening.trans hno), R.waiting, R.nodup, rfl, ?_, R.taking, ?_⟩
      · exact (R.ignored hno).symm
      · exact fun h => (Bool.false_ne_true h.symm).elim
    · cases h
  | @ends _ i killedBy status h =>
    obtain ⟨hrunning, rfl, -⟩ := ends_cases h
    have hi : i < s.children.length := (List.getElem?_eq_some_iff.1 hrunning).1
    have hnew : (i, status) ∉ a.waiting := by
      rw [R.waiting, hrunning]
      exact fun h => Child.noConfusion (Option.some.inj h)
    refine ⟨_, .arrive (List.cons_ne_nil (i, status) []), fun e => ?_, ?_, R.listening, R.listening,
      R.taking, fun h => h⟩
    · rw [List.mem_append, List.mem_singleton, R.waiting]
      by_cases he : i = e.1
      · rw [← he, List.getElem?_set_self hi, hrunning, Prod.ext_iff]
        simp [he, eq_comm]
      · rw [List.getElem?_set_ne he, Prod.ext_iff]
        simp [Ne.symm he]
    · exact List.nodup_append.2 ⟨R.nodup, List.nodup_singleton _, fun x hx y hy he =>
        hnew (List.mem_singleton.1 hy ▸ he ▸ hx)⟩
  | deliver h =>
    unfold deliver at h
    split at h
    · rename_i hgo
      cases h
      refine ⟨_, .start (R.pending.trans hgo.1) (R.taking.trans (Bool.not_eq_true _ ▸ hgo.2)),
        R.waiting, R.nodup, R.listening, rfl, rfl, fun _ => rfl⟩
    · cases h
  | @reports _ i status h =>
    obtain ⟨hhandling, hzombie, rfl⟩ := waitpid_cases h
    have hmem : (i, status) ∈ a.waiting := (R.waiting (i, status)).2 hzombie
    have hi : i < s.children.length := (List.getElem?_eq_some_iff.1 hzombie).1
    refine ⟨_, .take (R.taking.trans hhandling) (List.perm_cons_erase hmem), fun e => ?_,
      R.nodup.erase _, R.listening, R.pending, R.taking, R.ignored⟩
    show e ∈ a.waiting.erase (i, status) ↔ _
    rw [R.nodup.mem_erase_iff, R.waiting]
    by_cases he : i = e.1
    · rw [← he, List.getElem?_set_self hi, hzombie]
      simp only [Option.some.injEq, Child.zombie.injEq, reduceCtorEq, iff_false, not_and]
      rintro hne rfl
      exact hne (Prod.ext he.symm rfl)
    · rw [List.getElem?_set_ne he]
      exact and_iff_right fun h => he (congrArg Prod.fst h).symm
  | returns h =>
    unfold returns at h
    split at h
    · rename_i hgo
      cases h
      have hnone : a.waiting = [] := by
        refine List.eq_nil_iff_forall_not_mem.2 fun e he => hgo.2 ?_
        exact List.any_eq_true.2 ⟨_, List.mem_of_getElem? ((R.waiting e).1 he), rfl⟩
      exact ⟨_, .finish (R.taking.trans hgo.1) hnone, R.waiting, R.nodup, R.listening, R.pending,
        rfl,
        R.ignored⟩
    · cases h

theorem represents_init : Represents .init .init where
  waiting := fun e => by simp [State.init, Notices.State.init]
  nodup := List.nodup_nil
  listening := rfl
  pending := rfl
  taking := rfl
  ignored := fun _ => rfl

/-! ### Endings -/

/-- Of each child that has ended the state knows. -/
structure Holds (es : List Event) (s : State) : Prop where
  bound : s.children.length ≤ CHILDREN
  ended : ∀ e ∈ endings es, s.children[e.1]? = some (.zombie e.2) ∨
    s.children[e.1]? = some .reaped
  once : ((endings es).map Prod.fst).Nodup
  status : ∀ e ∈ endings es, e.2 = .exited (exitCode e.1) ∨ ∃ signo, e.2 = .signaled signo

theorem Holds.kept (h : Holds es s) (he : e.ending = none) (hbound : s'.children.length ≤ CHILDREN)
    (hkept : ∀ e ∈ endings es, s'.children[e.1]? = s.children[e.1]? ∨
      s'.children[e.1]? = some .reaped) : Holds (es ++ [e]) s' := by
  have heq : endings (es ++ [e]) = endings es := by
    rw [endings_concat, he]
    exact List.append_nil _
  refine ⟨hbound, ?_, ?_, ?_⟩
  · intro d hd
    rw [heq] at hd
    rcases hkept d hd with hsame | hreaped
    · rw [hsame]
      exact h.ended d hd
    · exact .inr hreaped
  · rw [heq]
    exact h.once
  · rw [heq]
    exact h.status

theorem Holds.step (h : Holds es s) (hstep : Step s e s') : Holds (es ++ [e]) s' := by
  cases hstep with
  | forks hf =>
    obtain ⟨-, -, -, -, hsame | ⟨hmore, hlt⟩⟩ := fork_cases hf
    · refine h.kept rfl (hsame ▸ h.bound) fun d _ => .inl (by rw [hsame])
    · refine h.kept rfl ?_ fun d hd => .inl ?_
      · rw [hmore, List.length_append, List.length_singleton]
        exact hlt
      · have hlen : d.1 < s.children.length := by
          rcases h.ended d hd with hd | hd
          · exact (List.getElem?_eq_some_iff.1 hd).1
          · exact (List.getElem?_eq_some_iff.1 hd).1
        rw [hmore, List.getElem?_append_left hlen]
  | sigaction hs =>
    unfold sigaction at hs
    split at hs
    · cases hs
      exact h.kept rfl h.bound fun _ _ => .inl rfl
    · cases hs
  | @ends _ i killedBy status he =>
    obtain ⟨hrunning, rfl, hstatus⟩ := ends_cases he
    have hi : i < s.children.length := (List.getElem?_eq_some_iff.1 hrunning).1
    have hnew : ∀ d ∈ endings es, d.1 ≠ i := by
      rintro d hd rfl
      rcases h.ended d hd with hd | hd
      · rw [hrunning] at hd
        exact Child.noConfusion (Option.some.inj hd)
      · rw [hrunning] at hd
        exact Child.noConfusion (Option.some.inj hd)
    have heq : endings (es ++ [.ends i status]) = endings es ++ [(i, status)] := endings_concat _ _
    refine ⟨?_, ?_, ?_, ?_⟩
    · rw [List.length_set]
      exact h.bound
    · intro d hd
      rw [heq, List.mem_append, List.mem_singleton] at hd
      rcases hd with hd | rfl
      · rw [List.getElem?_set_ne (hnew d hd).symm]
        exact h.ended d hd
      · exact .inl (List.getElem?_set_self hi)
    · rw [heq, List.map_append, List.map_singleton]
      refine List.nodup_append.2 ⟨h.once, List.nodup_singleton _, ?_⟩
      rintro _ hx j hj rfl
      obtain ⟨d, hd, hdj⟩ := List.mem_map.1 hx
      exact hnew d hd (hdj.trans (List.mem_singleton.1 hj))
    · intro d hd
      rw [heq, List.mem_append, List.mem_singleton] at hd
      rcases hd with hd | rfl
      · exact h.status d hd
      · exact hstatus
  | deliver hd =>
    unfold deliver at hd
    split at hd
    · cases hd
      exact h.kept rfl h.bound fun _ _ => .inl rfl
    · cases hd
  | @reports _ i status hw =>
    obtain ⟨-, hzombie, rfl⟩ := waitpid_cases hw
    have hi : i < s.children.length := (List.getElem?_eq_some_iff.1 hzombie).1
    refine h.kept rfl ?_ fun d _ => ?_
    · rw [List.length_set]
      exact h.bound
    · by_cases hd : i = d.1
      · exact .inr (hd ▸ List.getElem?_set_self hi)
      · exact .inl (List.getElem?_set_ne hd)
  | returns hr =>
    unfold returns at hr
    split at hr
    · cases hr
      exact h.kept rfl h.bound fun _ _ => .inl rfl
    · cases hr

theorem holds (run : Run Step .init es s) : Holds es s :=
  run.invariant ⟨Nat.zero_le _, fun _ h => absurd h List.not_mem_nil, List.nodup_nil,
    fun _ h => absurd h List.not_mem_nil⟩ fun _ _ _ _ h hstep => h.step hstep

theorem run_forks {n : Nat} (hn : n ≤ CHILDREN) : Run Step .init (List.replicate n (.forks true))
    ⟨.fork, List.replicate n .running, false, false⟩ := by
  induction n with
  | zero => exact .nil
  | succ n ih =>
    have hlt : (List.replicate n Child.running).length < CHILDREN := by
      rw [List.length_replicate]
      exact hn
    rw [List.replicate_succ', List.replicate_succ']
    refine (ih (Nat.le_of_succ_le hn)).snoc (.forks ?_)
    rw [fork, if_neg (not_not.2 rfl), if_pos hlt]
    rfl

/-! ### The reports -/

theorem exists_notices (run : Run Step .init es s) :
    ∃ a, Run (Notices.Step AnyOrder false) .init (es.filterMap Event.notice) a ∧ Represents s a :=
  Run.simulate simulates represents_init run

theorem notice_eq_listen (h : e.notice = some .listen) : e = .sigaction := by
  cases e with
  | sigaction => rfl
  | _ => cases h

/-- In every run each child ends at most once, with its own status, and `do_sig_child` has printed
exactly the children that have ended and are no zombies. When no `SIGCHLD` is pending and the
handler does not run, it has printed all of them, provided that one has ended since `sigaction`;
otherwise it has printed none. -/
theorem reports_every_ending (run : Run Step .init es s) :
    ((endings es).map Prod.fst).Nodup ∧
      (∀ e ∈ endings es, e.1 < CHILDREN ∧
        (e.2 = .exited (exitCode e.1) ∨ ∃ signo, e.2 = .signaled signo)) ∧
      (∃ zombies, (endings es).Perm (reports es ++ zombies) ∧
        ∀ e, e ∈ zombies ↔ s.children[e.1]? = some (.zombie e.2)) ∧
      (s.installed = true → s.pending = false → s.handling = false →
        ∃ before after, es = before ++ .sigaction :: after ∧
          (endings after ≠ [] → (reports es).Perm (endings es)) ∧
          (endings after = [] → reports es = [])) := by
  obtain ⟨a, arun, R⟩ := exists_notices run
  have hholds := holds run
  have hperm := arrived_perm (fun _ _ _ h => h) arun
  rw [arrived_notices, taken_notices] at hperm
  refine ⟨hholds.once, fun e he => ⟨?_, hholds.status e he⟩, ⟨_, hperm, R.waiting⟩, ?_⟩
  · refine Nat.lt_of_lt_of_le ?_ hholds.bound
    rcases hholds.ended e he with h | h
    · exact (List.getElem?_eq_some_iff.1 h).1
    · exact (List.getElem?_eq_some_iff.1 h).1
  · intro hinstalled hpending hhandling
    obtain ⟨_, _, hes, hheard, hunheard⟩ := at_rest arun (R.listening.trans hinstalled)
      (fun _ => R.pending.trans hpending) (R.taking.trans hhandling)
    obtain ⟨before, rest, rfl, rfl, hrest⟩ := List.filterMap_eq_append_iff.1 hes
    obtain ⟨silent, e, after, rfl, hsilent, he, rfl⟩ := List.filterMap_eq_cons_iff.1 hrest
    have hquiet : endings silent = [] := by
      rw [← arrived_notices, List.filterMap_eq_nil_iff.2 hsilent]
      rfl
    rw [notice_eq_listen he]
    refine ⟨before ++ silent, after, (List.append_assoc ..).symm, fun hlate => ?_, fun hnone => ?_⟩
    · have hall : a.waiting = [] := hheard fun h => hlate (by rw [← arrived_notices, h.1])
      rw [hall, List.append_nil] at hperm
      rw [← notice_eq_listen he]
      exact hperm.symm
    · rw [← notice_eq_listen he, ← taken_notices]
      exact (hunheard ⟨by rw [arrived_notices, hnone], fun h => absurd h Bool.false_ne_true⟩).1

/-- The fourth child ends after `sigaction`. -/
theorem reports_every_ending_fourth : ∃ es s, Run Step .init es s ∧
    endings es = [(3, .exited 4)] ∧ (reports es).Perm (endings es) := by
  have hinstalled := ((run_forks (Nat.le_refl CHILDREN)).snoc (@Step.forks _ _ true rfl)).snoc
    (.sigaction rfl)
  have hended := (hinstalled.snoc (@Step.ends _ _ 3 none _ rfl)).snoc (.deliver rfl)
  have hreported := (hended.snoc (@Step.reports _ _ 3 _ rfl)).snoc (.returns rfl)
  obtain ⟨-, -, -, hrest⟩ := reports_every_ending hreported
  obtain ⟨before, after, -, hlate, hnone⟩ := hrest rfl rfl rfl
  refine ⟨_, _, hreported, rfl, hlate fun h => ?_⟩
  cases hnone h

end Sigchld
end CFunction
