import CanonicalLR.Grammar.Log

/-!
# Precedences from a log

The precedence of a rule is told from the declarations alone, without a builder. The declaration
that is the first to make the rule passes one to it, and from then on each one that names a terminal
known at that moment replaces it. Where none is left in the end, the last terminal of the right side
lends its own.
-/
namespace CanonicalLR

namespace Declaration

/-- The name and the precedence that a terminal is declared with. -/
def terminal? : Declaration → Option (String × Option Precedence)
  | terminal name p => some (name, p)
  | _ => none

end Declaration

namespace Log

/-- The terminals that are known after some declarations, each with its precedence. -/
def terminals (log : Log) : List (String × Option Precedence) :=
  Vocabulary.reserved.terminals.map (fun t => (t.name, t.precedence)) ++
    log.accepted.filterMap (·.1.terminal?)

/-- What one more declaration makes of the override of a rule, which has none before the rule is
declared. -/
def overrideAfter (index : Nat) (before : Log) (given : Option (Option Precedence)) :
    Declaration × Except DefinitionError Declared → Option (Option Precedence)
  | (.rule _ _ passed, .ok (.rule i)) => if i = index then given <|> some passed else given
  | (.precedenceOf i name, .ok _) =>
    if i = index then given.map (before.terminals.lookup name).getD else given
  | _ => given

def overrideFrom (index : Nat) (before : Log) (given : Option (Option Precedence)) :
    Log → Option (Option Precedence)
  | [] => given
  | call :: calls =>
    overrideFrom index (before ++ [call]) (overrideAfter index before given call) calls

/-- The override that some declarations leave the rule of a number with, if one of them makes it. -/
def override? (log : Log) (index : Nat) : Option (Option Precedence) :=
  overrideFrom index [] none log

variable {log : Log} {call : Declaration × Except DefinitionError Declared} {index : Nat}

theorem overrideFrom_concat {before : Log} {given : Option (Option Precedence)} :
    overrideFrom index before given (log ++ [call]) =
      overrideAfter index (before ++ log) (overrideFrom index before given log) call := by
  induction log generalizing before given with
  | nil => simp [overrideFrom]
  | cons first log ih => simp only [List.cons_append, overrideFrom, ih, List.append_assoc,
      List.nil_append]

@[simp] theorem override?_nil : override? [] index = none := rfl

@[simp] theorem override?_concat :
    override? (log ++ [call]) index = overrideAfter index log (log.override? index) call := by
  rw [override?, overrideFrom_concat, List.nil_append, override?]

@[simp] theorem terminals_concat_ok {d : Declaration} {answer : Declared} :
    terminals (log ++ [(d, .ok answer)]) = log.terminals ++ d.terminal?.toList := by
  cases added : d.terminal? <;> simp [terminals, added]

@[simp] theorem terminals_concat_error {d : Declaration} {e : DefinitionError} :
    terminals (log ++ [(d, .error e)]) = log.terminals := by
  simp [terminals]

end Log

/-- The precedence that counts for a right side, given what is given to the rule itself. -/
inductive Vocabulary.Ranks (v : Vocabulary) (right : List Symbol) :
    Option Precedence → Option Precedence → Prop where
  | own (p : Precedence) : Ranks v right (some p) (some p)
  | inherited {before after : List Symbol} {t : TerminalId}
      (last : right = before ++ .terminal t :: after) (behind : ∀ x ∈ after, x.terminal? = none) :
      Ranks v right none (v.terminalPrecedence t)
  | unranked (without : ∀ x ∈ right, x.terminal? = none) : Ranks v right none none

theorem Vocabulary.ranks_rulePrecedence (v : Vocabulary) (r : Rule) :
    v.Ranks r.right r.override (v.rulePrecedence r) := by
  rw [rulePrecedence]
  cases r.override with
  | some p => exact .own p
  | none =>
    dsimp only
    cases found : r.right.reverse.findSome? Symbol.terminal? with
    | none =>
      refine .unranked fun x member => ?_
      exact List.findSome?_eq_none_iff.mp found x (List.mem_reverse.mpr member)
    | some t =>
      -- What is found first from behind has no terminal behind it.
      obtain ⟨behind, x, front, split, is_terminal, passed⟩ := List.findSome?_eq_some_iff.mp found
      have halves : r.right = front.reverse ++ .terminal t :: behind.reverse := by
        rw [List.reverse_eq_iff] at split
        rw [split, Symbol.terminal?_eq_some_iff.mp is_terminal]
        simp
      exact .inherited halves fun y member => passed y (List.mem_reverse.mp member)

end CanonicalLR
