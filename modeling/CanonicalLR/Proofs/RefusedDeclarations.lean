import CanonicalLR.Examples.Small
import CanonicalLR.Grammar.Log
import CanonicalLR.Proofs.SessionTables

/-!
# Refused declarations leave no trace

All checks of a declaration come before its first change, so a session in which one is refused goes
on with the tables that it had before. Then the others get the same answers and lead to the same
tables without it, and so to the same grammar.
-/
namespace CanonicalLR

namespace Session

variable {α β : Type} {s s' : Registry}

/-! ### Refusals -/

/-- Steps that change nothing if they are refused. -/
def Atomic (steps : Session α) : Prop :=
  ∀ s s' e, steps.exec s = (.error e, s') → s' = s

theorem Atomic.bind_pure {steps : Session α} (atomic : steps.Atomic) (f : α → β) :
    Atomic (do return f (← steps)) := by
  intro s s' e refused
  rw [exec_bind] at refused
  split at refused
  · cases refused
  next found =>
    cases refused
    exact atomic s _ _ found

theorem atomic_of_total {steps : Session α} (total : ∀ s, ∃ a, (steps.exec s).1 = .ok a) :
    steps.Atomic := by
  intro s s' e refused
  obtain ⟨a, answered⟩ := total s
  rw [refused] at answered
  cases answered

theorem atomic_terminal (name : String) (precedence : Option Precedence) :
    (terminal name precedence).Atomic := by
  intro s s' e refused
  rw [exec_terminal] at refused
  split at refused
  · cases refused
    rfl
  · split at refused <;> cases refused
    rfl

theorem atomic_nonterminal (name : String) : (nonterminal name).Atomic := by
  intro s s' e refused
  rw [exec_nonterminal] at refused
  split at refused
  · cases refused
    rfl
  · split at refused <;> cases refused
    rfl

theorem atomic_rule (left : NonterminalId) (right : List Symbol) (override : Option Precedence) :
    (rule left right override).Atomic := by
  intro s s' e refused
  rw [exec_rule] at refused
  split at refused
  · cases refused
    rfl
  · split at refused
    · cases refused
      rfl
    · split at refused <;> cases refused

theorem atomic_declare (d : Declaration) : (declare d).Atomic := by
  cases d with
  | terminal name precedence => exact (atomic_terminal name precedence).bind_pure _
  | nonterminal name => exact (atomic_nonterminal name).bind_pure _
  | rule left right override => exact (atomic_rule left right override).bind_pure _
  | precedence assoc =>
    refine (atomic_of_total fun s => ?_).bind_pure _
    rw [exec_precedence]
    cases Assoc.ofName? assoc <;> exact ⟨_, rfl⟩
  | typeTag symbol tag =>
    refine (atomic_of_total fun s => ?_).bind_pure fun _ => Declared.done
    rw [exec_typeTag]
    exact ⟨_, rfl⟩
  | precedenceOf rule terminal =>
    refine (atomic_of_total fun s => ?_).bind_pure fun _ => Declared.done
    rw [exec_precedenceOf]
    exact ⟨_, rfl⟩
  | action | start => exact atomic_of_total fun _ => ⟨_, rfl⟩

/-- The accepted declarations are answered as they were among the others, and lead to the same
tables. -/
theorem declareAll_accepted (ds : List Declaration) (s : Registry) :
    let accepted := Log.accepted (ds.zip (declareAll ds s).1)
    declareAll (accepted.map (·.1)) s = (accepted.map fun x => .ok x.2, (declareAll ds s).2) := by
  induction ds generalizing s with
  | nil => rfl
  | cons d ds ih =>
    simp only [declareAll, List.zip_cons_cons]
    rcases outcome : (declare d).exec s with ⟨e | answer, s'⟩
    · -- What follows a refusal goes on from the tables before it.
      obtain rfl := atomic_declare d _ _ _ outcome
      exact ih s'
    · simp only [Log.accepted_cons_ok, List.map_cons, declareAll, outcome, ih]

end Session

/-- Where nothing is refused, it makes no difference that a refusal would end the definition. -/
theorem Builder.declareAll_of_attemptAll {b : Builder} {ds : List Declaration}
    (accepted : ∀ answer ∈ (b.attemptAll ds).1, answer.isOk) :
    b.declareAll ds = .ok (b.attemptAll ds).2 := by
  induction ds generalizing b with
  | nil => rfl
  | cons d ds ih =>
    simp only [attemptAll, List.forall_mem_cons, attempt, declareAll] at accepted ⊢
    cases outcome : b.declare d with
    | error e =>
      simp [outcome, Except.isOk, Except.toBool] at accepted
    | ok result =>
      simp only [outcome] at accepted
      exact ih accepted.2

namespace Grammar

/-- With the refused declarations left out, the others get the same answers and lead to the same
tables and the same grammar. -/
theorem refused_declarations_leave_no_trace (ds : List Declaration) :
    let run := Session.declareAll ds .initial
    let accepted := Log.accepted (ds.zip run.1)
    let kept := accepted.map (·.1)
    Session.declareAll kept .initial = (accepted.map fun x => .ok x.2, run.2) ∧
      run.1 = (Builder.initial.attemptAll ds).1 ∧ run.2.finish = defineAccepted ds ∧
      defineAccepted kept = defineAccepted ds ∧ define kept = defineAccepted ds := by
  intro run accepted kept
  have built : run = ((Builder.initial.attemptAll ds).1,
      .ofBuilder (Builder.initial.attemptAll ds).2) := Session.declareAll_ofBuilder ds .initial
  have replayed : Session.declareAll kept .initial = (accepted.map fun x => .ok x.2, run.2) :=
    Session.declareAll_accepted ds .initial
  have rebuilt := (Session.declareAll_ofBuilder kept .initial).symm.trans replayed
  rw [built] at rebuilt
  obtain ⟨answers, tables⟩ := Prod.mk.inj rebuilt
  -- The tables tell what the builder is, so equal tables are those of one builder.
  have same : (Builder.initial.attemptAll kept).2 = (Builder.initial.attemptAll ds).2 := by
    simpa only [Registry.builder_ofBuilder] using congrArg Registry.builder tables
  have all_accepted : ∀ answer ∈ (Builder.initial.attemptAll kept).1, answer.isOk := by
    rw [answers]
    exact List.forall_mem_map.mpr fun _ _ => rfl
  refine ⟨replayed, congrArg Prod.fst built, ?_, ?_, ?_⟩
  · rw [built, Registry.finish, Registry.builder_ofBuilder]
    rfl
  · rw [defineAccepted, same]
    rfl
  · rw [define, Builder.declareAll_of_attemptAll all_accepted, same]
    rfl

example : (Session.declareAll Examples.interrupted .initial).1.map (·.isOk) =
    [true, false, true, false, true, true, false, false, true, true, true, true] := by
  decide +kernel

end Grammar

end CanonicalLR
