import CanonicalLR.Parser

/-!
# The course of a run

A run goes through configurations, one for each move that it has made. An error that ends a run is
that of a step from one of them, so what holds of all of them holds of every run, also of one that
never ends. A run has no end if each of its configurations has a next one.
-/
namespace CanonicalLR.Parser

/-- The parser comes from one configuration to another by some moves. -/
inductive Proceeds (g : Grammar) (t : Table) : Config → List Move → Config → Prop where
  | start (c : Config) : Proceeds g t c [] c
  | step {c c' c'' : Config} {moves : List Move} {move : Move}
      (earlier : Proceeds g t c moves c') (stepped : step g t c' = .next move c'') :
      Proceeds g t c (moves ++ [move]) c''

variable {g : Grammar} {t : Table} {c c' c'' : Config} {move : Move} {moves : List Move}

theorem Proceeds.cons (stepped : Parser.step g t c = .next move c')
    (onward : Proceeds g t c' moves c'') : Proceeds g t c (move :: moves) c'' := by
  induction onward with
  | start => exact .step (.start c) stepped
  | step _ last ih => exact .step ih last

/-- A run from a configuration that the parser comes to goes on from the moves it has made. -/
theorem Proceeds.run_eq (onward : Proceeds g t c moves c') (fuel : Nat) :
    run g t (moves.length + fuel) c =
      (run g t fuel c').map fun result => result.map (moves ++ ·) := by
  have unchanged (result : Except ParseError (List Move)) :
      result.map ([] ++ ·) = result := by
    cases result <;> rfl
  -- By the last move, which the rest of the run makes first.
  induction onward generalizing fuel with
  | start => simp only [List.length_nil, Nat.zero_add, unchanged, Option.map_id']
  | @step c' c'' moves move _ stepped ih =>
    have combined (result : Except ParseError (List Move)) :
        (result.map (move :: ·)).map (moves ++ ·) = result.map (moves ++ [move] ++ ·) := by
      cases result with
      | error => rfl
      | ok rest => simp [Except.map]
    rw [List.length_append, List.length_singleton, Nat.add_assoc, Nat.add_comm 1, ih, run, stepped,
      Option.map_map]
    exact congrArg (Option.map · _) (funext combined)

/-- A parser that comes to a configuration where it fails accepts in no number of moves. -/
theorem Proceeds.not_accepted {e : ParseError} (onward : Proceeds g t c moves c')
    (last : Parser.step g t c' = .fail e) (fuel : Nat) (accepted : List Move) :
    run g t fuel c ≠ some (.ok accepted) := by
  intro finished
  have failed : run g t (moves.length + 1) c = some (.error e) := by
    rw [onward.run_eq, run, last]
    rfl
  cases run_unique finished failed

/-- A run that fails comes to a configuration from which no step is left. -/
theorem exists_proceeds_of_error {fuel : Nat} {e : ParseError}
    (failed : run g t fuel c = some (.error e)) :
    ∃ moves c', Proceeds g t c moves c' ∧ step g t c' = .fail e := by
  induction fuel generalizing c with
  | zero => cases failed
  | succ fuel ih =>
    rw [run] at failed
    cases stepped : step g t c with
    | accept => simp [stepped] at failed
    | fail e' =>
      rw [stepped] at failed
      cases failed
      exact ⟨[], c, .start c, stepped⟩
    | next move c₁ =>
      simp only [stepped, Option.map_eq_some_iff] at failed
      obtain ⟨result, rest_failed, combined⟩ := failed
      cases result with
      | ok rest => cases combined
      | error e' =>
        cases combined
        obtain ⟨moves, c', onward, last⟩ := ih rest_failed
        exact ⟨move :: moves, c', onward.cons stepped, last⟩

/-- The configuration after the next move. -/
def next? (g : Grammar) (t : Table) (c : Config) : Option Config :=
  match step g t c with
  | .next _ c' => some c'
  | _ => none

/-- A run never ends if every configuration that it may come to has a next one. -/
theorem run_eq_none_of_next (holds : Config → Prop)
    (onward : ∀ c, holds c → ∃ c', next? g t c = some c' ∧ holds c') (fuel : Nat) {c : Config}
    (here : holds c) : run g t fuel c = none := by
  induction fuel generalizing c with
  | zero => rfl
  | succ fuel ih =>
    obtain ⟨c', next, there⟩ := onward c here
    rw [next?] at next
    split at next
    next move c'' stepped =>
      cases next
      simp [run, stepped, ih there]
    next => cases next

end CanonicalLR.Parser
