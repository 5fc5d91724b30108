import CanonicalLR.Grammar.Overrides
import CanonicalLR.Proofs.Pruning
import Mathlib.Data.List.Induction

/-!
# The precedence of a rule follows its history

A builder holds the overrides that the log of its declarations tells of, at the numbers that rules
are declared with. Finishing renumbers the rules that it keeps and leaves their sides and overrides
as they are. Sides are not taken twice, so a rule of the finished grammar can be traced back to the
number under which it was declared. A declaration that borrows from an unknown terminal adds a
warning, and everything that comes after it is as it would be without it.
-/
namespace CanonicalLR

/-- The first grammar is the second one, but that there is one warning more. -/
def Grammar.WarnsAlso (g g' : Grammar) (w : Warning) : Prop :=
  ∃ front back, g'.warnings = front ++ back ∧ g = { g' with warnings := front ++ w :: back }

theorem lookup_terminals {ts : List Terminal} {name : String} :
    (ts.map fun t => (t.name, t.precedence)).lookup name =
      (ts.find? (·.name == name)).map (·.precedence) := by
  induction ts with
  | nil => rfl
  | cons t ts ih =>
    simp only [List.map_cons, List.lookup_cons, List.find?_cons, ih, BEq.comm (a := name)]
    split <;> simp_all

namespace Builder

variable {b b' : Builder} {d : Declaration} {answer : CanonicalLR.Declared} {log : Log}

/-- The terminals and the overrides are those that the log tells of. -/
structure Follows (b : Builder) (log : Log) : Prop where
  terminals : b.terminals.map (fun t => (t.name, t.precedence)) = log.terminals
  overrides : ∀ index, b.rules[index]?.map (·.override) = log.override? index

theorem initial_follows : initial.Follows [] where
  terminals := rfl
  overrides _ := rfl

theorem Follows.lookup (follows : b.Follows log) (name : String) :
    log.terminals.lookup name = (b.terminals.find? (·.name == name)).map (·.precedence) := by
  rw [← follows.terminals, lookup_terminals]

theorem Accepts.terminals_eq (accepts : b.Accepts d answer b') :
    b'.terminals.map (fun t => (t.name, t.precedence)) =
      b.terminals.map (fun t => (t.name, t.precedence)) ++ d.terminal?.toList := by
  cases accepts with
  | terminal => rw [List.map_append]; rfl
  | typeTag =>
    rw [map_terminals_declareTypeTag fun _ => rfl]
    exact (List.append_nil _).symm
  | nonterminal | precedence | unknownAssoc | rule | duplicate | action | precedenceOf |
    unknownTerminal | start => exact (List.append_nil _).symm

/-- What a declaration does to an override is what it adds to the history. -/
theorem Accepts.overrides_eq (accepts : b.Accepts d answer b') (follows : b.Follows log)
    (index : Nat) :
    b'.rules[index]?.map (·.override) =
      log.overrideAfter index (b.rules[index]?.map (·.override)) (d, .ok answer) := by
  cases accepts with
  | rule =>
    simp only [Log.overrideAfter]
    split
    next equal =>
      subst equal
      simp
    next other =>
      rw [List.getElem?_append]
      split
      · rfl
      · rw [List.getElem?_eq_none (by simp; omega), List.getElem?_eq_none (by omega)]
  | @duplicate _ _ _ first _ _ found =>
    -- The rule is there already, so what is passed now is of no account.
    obtain ⟨inside, _⟩ := List.findIdx?_eq_some_iff_getElem.mp found
    simp only [Log.overrideAfter]
    split
    next equal =>
      subst equal
      simp [inside]
    next => rfl
  | @precedenceOf rule terminal t known =>
    simp only [Log.overrideAfter, follows.lookup, known, List.getElem?_modify]
    split <;> simp [Function.comp_def]
  | @unknownTerminal rule terminal unknown =>
    have missing : b.terminals.find? (·.name == terminal) = none := by
      simpa [List.find?_eq_none] using unknown
    simp only [Log.overrideAfter, follows.lookup, missing]
    split <;> simp [Function.comp_def]
  | action =>
    simp only [declareAction, List.getElem?_modify]
    split <;> simp [Log.overrideAfter, Function.comp_def]
  | @typeTag symbol => cases symbol <;> rfl
  | terminal | nonterminal | precedence | unknownAssoc | start => rfl

theorem Follows.accept (follows : b.Follows log) (declared : b.declare d = .ok (answer, b')) :
    b'.Follows (log ++ [(d, .ok answer)]) where
  terminals := by
    rw [(accepts_of_declare declared).terminals_eq, follows.terminals, Log.terminals_concat_ok]
  overrides index := by
    rw [(accepts_of_declare declared).overrides_eq follows, follows.overrides, Log.override?_concat]

theorem Follows.refuse {e : DefinitionError} (follows : b.Follows log) :
    b.Follows (log ++ [(d, .error e)]) where
  terminals := by rw [follows.terminals, Log.terminals_concat_error]
  overrides index := by
    rw [follows.overrides, Log.override?_concat]
    cases d <;> rfl

theorem attemptAll_follows (ds : List Declaration) :
    (initial.attemptAll ds).2.Follows (initial.log ds) :=
  log_induction (fun log b => b.Follows log) (fun _ _ _ _ _ follows => follows.accept)
    (fun _ _ _ _ follows _ => follows.refuse) [] initial_follows ds

/-! ### Finishing -/

variable {g : Grammar}

/-- A rule of the finished grammar that has the sides of a declared one is the declared one, also
where the numbers of rules have started again. -/
theorem Records.eq_of_sides (records : b.Records log) (finishes : b.Finishes g) {r declared : Rule}
    (member : r ∈ g.rules) (declared_rule : declared ∈ b.rules)
    (same : r.sides = declared.sides) : r = declared := by
  rw [finishes.rules] at member
  rcases mem_foldl_addRule member with added | kept
  · obtain rfl := List.mem_singleton.mp added
    have start_left : declared.left = .start := (congrArg Prod.fst same).symm
    exact absurd start_left (records.rules_declared _ declared_rule).left_ne_start
  · exact List.inj_on_of_nodup_map records.sides (keptRules_subset kept) declared_rule same

/-- The declared rule of a number that has been answered. -/
theorem Records.exists_declared (records : b.Records log) {left : NonterminalId}
    {right : List Symbol} {passed : Option Precedence} {index : Nat}
    (call : (.rule left right passed, .ok (.rule index)) ∈ log) :
    ∃ r, b.rules[index]? = some r ∧ r.left = left ∧ r.right = right := by
  have accepted : (Declaration.rule left right passed, CanonicalLR.Declared.rule index) ∈
      log.accepted := List.mem_filterMap.mpr ⟨_, call, rfl⟩
  obtain ⟨_, answered, found⟩ := records.handles _ _ _ _ accepted
  cases answered
  obtain ⟨r, at_index, sides⟩ := Option.map_eq_some_iff.mp found
  exact ⟨r, at_index, congrArg Prod.fst sides, congrArg Prod.snd sides⟩

/-- A terminal keeps the precedence that it is declared with. -/
theorem Records.terminalPrecedence_eq (records : b.Records log) {name : String}
    {p : Option Precedence} {t : TerminalId}
    (call : (.terminal name p, .ok (.terminal t)) ∈ log) : b.terminalPrecedence t = p := by
  have entry : (.terminal name p, .terminal t) ∈ b.terminalEntries := by
    rw [records.terminals]
    refine List.mem_append_right _ (List.mem_filter.mpr ⟨?_, rfl⟩)
    exact List.mem_filterMap.mpr ⟨_, call, rfl⟩
  obtain ⟨id, inside, same⟩ := List.mem_mapIdx.mp entry
  simp only [List.getElem_map, Prod.mk.injEq, Declaration.terminal.injEq,
    CanonicalLR.Declared.terminal.injEq] at same
  obtain ⟨⟨-, precedence⟩, rfl⟩ := same
  rw [List.length_map] at inside
  simp [Vocabulary.terminalPrecedence, inside, precedence]

/-! ### Warnings in front -/

/-- A builder that has been warned of something before all its own warnings. -/
def prewarned (b : Builder) (ws : List Warning) : Builder := { b with warnings := ws ++ b.warnings }

/-- No declaration looks at the warnings. -/
theorem declare_prewarned (b : Builder) (ws : List Warning) (d : Declaration) :
    (b.prewarned ws).declare d =
      (b.declare d).map fun (answer, b') => (answer, b'.prewarned ws) := by
  have rules : (b.prewarned ws).rules = b.rules := rfl
  have terminals : (b.prewarned ws).terminals = b.terminals := rfl
  cases d with
  | terminal name p =>
    simp only [declare, declareTerminal, apply_ite (Except.map _)]
    rfl
  | nonterminal name =>
    simp only [declare, declareNonterminal, apply_ite (Except.map _)]
    rfl
  | precedence assoc =>
    simp only [declare, declarePrecedence]
    cases Assoc.ofName? assoc <;> simp [Except.map, prewarned, warn]
  | typeTag symbol tag => cases symbol <;> rfl
  | rule left right override =>
    have usable : (b.prewarned ws).usable = b.usable := funext fun x => by cases x <;> rfl
    simp only [declare, declareRule, apply_ite (Except.map _), usable, rules]
    refine if_congr Iff.rfl rfl (if_congr Iff.rfl rfl ?_)
    cases b.rules.findIdx? fun r => r.left == left && r.right == right with
    | some index => simp [Except.map, prewarned, warn]
    | none => rfl
  | action => rfl
  | precedenceOf rule terminal =>
    simp only [declare, declarePrecedenceOf, terminals]
    cases b.terminals.find? (·.name == terminal) with
    | some t => rfl
    | none => simp [Except.map, prewarned, warn]
  | start => rfl

theorem attemptAll_prewarned (b : Builder) (ws : List Warning) (ds : List Declaration) :
    (b.prewarned ws).attemptAll ds =
      ((b.attemptAll ds).1, (b.attemptAll ds).2.prewarned ws) := by
  induction ds generalizing b with
  | nil => rfl
  | cons d ds ih =>
    have attempted : (b.prewarned ws).attempt d =
        ((b.attempt d).1, (b.attempt d).2.prewarned ws) := by
      simp only [attempt, declare_prewarned]
      cases b.declare d <;> rfl
    simp only [attemptAll, attempted, ih]

theorem finish_prewarned (b : Builder) (ws : List Warning) :
    (b.prewarned ws).finish = b.finish.map fun g => { g with warnings := ws ++ g.warnings } := by
  have start : (b.prewarned ws).startSymbol? = b.startSymbol? := rfl
  simp only [startSymbol?] at start
  simp only [finish, start]
  cases b.start <|> b.rules.head?.map (·.left) with
  | none => rfl
  | some start =>
    simp only [apply_ite (Except.map _)]
    refine if_congr Iff.rfl ?_ rfl
    simp only [Except.map, prewarned, Vocabulary.grammar, List.append_assoc]
    rfl

theorem length_answers (b : Builder) (ds : List Declaration) :
    (b.attemptAll ds).1.length = ds.length := by
  induction ds generalizing b with
  | nil => rfl
  | cons d ds ih => exact congrArg (· + 1) (ih _)

theorem log_append (b : Builder) (ds ds' : List Declaration) :
    b.log (ds ++ ds') = b.log ds ++ (b.attemptAll ds).2.log ds' := by
  rw [log, attemptAll_append, List.zip_append (b.length_answers ds).symm]
  rfl

/-- What comes after a warning is what would come without it. -/
theorem attemptAll_warn (b : Builder) (w : Warning) (ds : List Declaration) :
    ((b.warn w).attemptAll ds).1 = (b.attemptAll ds).1 ∧
      ∀ g, ((b.warn w).attemptAll ds).2.finish = .ok g →
        ∃ g', (b.attemptAll ds).2.finish = .ok g' ∧ g.WarnsAlso g' w := by
  let silent : Builder := { b with warnings := [] }
  have warned : b.warn w = silent.prewarned (b.warnings ++ [w]) := by simp [warn, prewarned, silent]
  have unwarned : b = silent.prewarned b.warnings := by simp [prewarned, silent]
  have with_warning := silent.attemptAll_prewarned (b.warnings ++ [w]) ds
  have without := silent.attemptAll_prewarned b.warnings ds
  rw [← warned] at with_warning
  rw [← unwarned] at without
  rw [with_warning, without]
  refine ⟨rfl, fun g finished => ?_⟩
  simp only [finish_prewarned] at finished ⊢
  cases base : (silent.attemptAll ds).2.finish with
  | error e =>
    rw [base] at finished
    cases finished
  | ok g₀ =>
    rw [base] at finished
    cases finished
    exact ⟨_, rfl, b.warnings, g₀.warnings, rfl, by simp⟩

end Builder

/-- Where an element stands among those that are kept, if so many are kept before it. -/
theorem getElem?_filter_countP {α : Type} {p : α → Bool} {xs : List α} {i : Nat} {x : α}
    (found : xs[i]? = some x) (kept : p x = true) :
    (xs.filter p)[(xs.take i).countP p]? = some x := by
  obtain ⟨inside, rfl⟩ := List.getElem?_eq_some_iff.mp found
  have split : xs = xs.take i ++ xs[i] :: xs.drop (i + 1) := by simp
  conv_lhs => rw [split]
  rw [List.countP_eq_length_filter, List.filter_append, List.filter_cons_of_pos kept]
  simp

/-- Some declaration of a rule, the first or another one, is answered with the number. -/
def Log.Handle (log : Log) (index : Nat) (left : NonterminalId) (right : List Symbol) : Prop :=
  ∃ passed, (.rule left right passed, .ok (.rule index)) ∈ log

/-- A rule has an override to be told only if it has been declared. -/
theorem Log.exists_handle_of_override? {log : Log} {index : Nat} {given : Option Precedence}
    (found : log.override? index = some given) : ∃ left right, log.Handle index left right := by
  induction log using List.reverseRecOn generalizing given with
  | nil => cases found
  | append_singleton log call ih =>
    have longer : (∃ left right, Handle log index left right) →
        ∃ left right, Handle (log ++ [call]) index left right := by
      rintro ⟨left, right, passed, member⟩
      exact ⟨left, right, passed, List.mem_append_left _ member⟩
    rw [override?_concat] at found
    unfold overrideAfter at found
    split at found
    next left right passed i =>
      split at found
      next same =>
        subst same
        exact ⟨left, right, passed, by simp⟩
      next => exact longer (ih found)
    next =>
      split at found
      · obtain ⟨earlier, told, _⟩ := Option.map_eq_some_iff.mp found
        exact longer (ih told)
      · exact longer (ih found)
    next => exact longer (ih found)

namespace Grammar

/-- The rules of the grammar of some declarations are declared ones, but for the one that is added,
and their precedences are those that the log tells of, wherever they stand in the end. Borrowing
from a terminal that is not known yet adds a warning and nothing else. -/
structure FollowsHistory (ds : List Declaration) (g : Grammar) : Prop where
  terminals : ∀ name p t, (.terminal name p, .ok (.terminal t)) ∈ Builder.initial.log ds →
    g.terminalPrecedence t = p
  declared : ∀ r ∈ g.rules, r = .accepting g.start ∨
    ∃ index, (Builder.initial.log ds).Handle index r.left r.right
  rules : ∀ index left right, (Builder.initial.log ds).Handle index left right →
    ∃ given, (Builder.initial.log ds).override? index = some given ∧
      ∀ r ∈ g.rules, r.sides = (left, right) → g.Ranks right given (g.rulePrecedence r)
  renumbered : NumbersFit ds →
    ∀ index left right, (Builder.initial.log ds).Handle index left right →
      Reaches (declaredRules ds) g.start left →
      let earlier := (declaredRules ds).take index
      let id := 1 + earlier.countP fun r => Reaches (declaredRules ds) g.start r.left
      g.rules[id]?.map Rule.sides = some (left, right)
  unknown : ∀ before index name after, ds = before ++ .precedenceOf index name :: after →
    (Builder.initial.log before).terminals.lookup name = none →
    let b := (Builder.initial.attemptAll before).2
    let w := .unknownPrecedenceTerminal name ((b.rules[index]?.map b.ruleText).getD "")
    (∃ g', defineAccepted (before ++ after) = .ok g' ∧ g.WarnsAlso g' w) ∧
      ∃ later, Builder.initial.log (before ++ after) = Builder.initial.log before ++ later ∧
        Builder.initial.log ds =
          Builder.initial.log before ++ (.precedenceOf index name, .ok .done) :: later

variable {ds : List Declaration} {g : Grammar}

theorem unknown_only_warns {before after : List Declaration} {index : Nat} {name : String}
    (defined : defineAccepted (before ++ .precedenceOf index name :: after) = .ok g)
    (unknown : (Builder.initial.log before).terminals.lookup name = none) :
    let b := (Builder.initial.attemptAll before).2
    let w := .unknownPrecedenceTerminal name ((b.rules[index]?.map b.ruleText).getD "")
    (∃ g', defineAccepted (before ++ after) = .ok g' ∧ g.WarnsAlso g' w) ∧
      ∃ later, Builder.initial.log (before ++ after) = Builder.initial.log before ++ later ∧
        Builder.initial.log (before ++ .precedenceOf index name :: after) =
          Builder.initial.log before ++ (.precedenceOf index name, .ok .done) :: later := by
  intro b w
  have missing : b.terminals.find? (·.name == name) = none := by
    rw [(Builder.attemptAll_follows before).lookup, Option.map_eq_none_iff] at unknown
    exact unknown
  have attempted : b.attempt (.precedenceOf index name) = (.ok .done, b.warn w) := by
    simp only [Builder.attempt, Builder.declare, Builder.declarePrecedenceOf, missing, w]
  have called : b.attemptAll (.precedenceOf index name :: after) =
      (.ok .done :: (b.attemptAll after).1, ((b.warn w).attemptAll after).2) := by
    simp only [Builder.attemptAll, attempted, (b.attemptAll_warn w after).1]
  constructor
  · rw [defineAccepted, Builder.attemptAll_append] at defined
    rw [defineAccepted, Builder.attemptAll_append]
    refine (b.attemptAll_warn w after).2 g ?_
    rw [← defined]
    exact congrArg (fun run => run.2.finish) called.symm
  · refine ⟨b.log after, Builder.log_append _ _ _, ?_⟩
    rw [Builder.log_append]
    exact congrArg (fun run => _ ++ List.zip _ run.1) called

end Grammar

end CanonicalLR
