import CanonicalLR.Grammar.Acceptance

/-!
# Logs

A log lists declarations with the answers that they were given, refusals among them. What holds of
a log and a builder, and is preserved by each declaration whether or not it is refused, is
preserved by any list of them.
-/
namespace CanonicalLR

/-- Declarations with their answers, in the order in which they were made. -/
abbrev Log := List (Declaration × Except DefinitionError Declared)

namespace Declaration

def isTerminal : Declaration → Bool
  | terminal .. => true
  | _ => false

def isNonterminal : Declaration → Bool
  | nonterminal .. => true
  | _ => false

/-- The associativity that a precedence level is opened with. -/
def assoc? : Declaration → Option String
  | precedence assoc => some assoc
  | _ => none

end Declaration

namespace Log

/-- The declarations that were not refused. -/
def accepted (log : Log) : List (Declaration × Declared) :=
  log.filterMap fun (d, answer) => answer.toOption.map (d, ·)

variable {log log' : Log} {d : Declaration}

@[simp] theorem accepted_nil : accepted [] = [] := rfl

@[simp] theorem accepted_append : (log ++ log').accepted = log.accepted ++ log'.accepted :=
  List.filterMap_append

@[simp] theorem accepted_cons_ok {answer : Declared} :
    accepted ((d, .ok answer) :: log) = (d, answer) :: log.accepted := rfl

@[simp] theorem accepted_cons_error {e : DefinitionError} :
    accepted ((d, .error e) :: log) = log.accepted := rfl

end Log

namespace Builder

/-- What a builder answers to some declarations. -/
def log (b : Builder) (ds : List Declaration) : Log := ds.zip (b.attemptAll ds).1

variable {b : Builder} {d : Declaration} {ds : List Declaration}

theorem log_cons : b.log (d :: ds) = (d, (b.attempt d).1) :: (b.attempt d).2.log ds := rfl

/-- Each declaration has its answer. -/
theorem unzip_log : (b.log ds).unzip = (ds, (b.attemptAll ds).1) := by
  refine List.unzip_zip ?_
  induction ds generalizing b with
  | nil => rfl
  | cons d ds ih => exact congrArg (· + 1) ih

theorem log_induction (holds : Log → Builder → Prop)
    (accepted : ∀ log b d answer b', holds log b → b.declare d = .ok (answer, b') →
      holds (log ++ [(d, .ok answer)]) b')
    (refused : ∀ log b d e, holds log b → b.declare d = .error e →
      holds (log ++ [(d, .error e)]) b)
    (before : Log) (start : holds before b) (ds : List Declaration) :
    holds (before ++ b.log ds) (b.attemptAll ds).2 := by
  induction ds generalizing b before with
  | nil => rwa [log, List.zip_nil_left, List.append_nil]
  | cons d ds ih =>
    rw [log_cons, ← List.singleton_append, ← List.append_assoc]
    refine ih (b := (b.attempt d).2) _ ?_
    rw [attempt]
    split
    next answer b' declared => exact accepted before b d answer b' start declared
    next e declared => exact refused before b d e start declared

end Builder

end CanonicalLR
