import CanonicalLR.Grammar.Definition

/-!
# What declarations guarantee

A builder takes a rule only if all its symbols are declared, and no declaration takes a symbol or a
rule away. So the rules of a defined grammar mention nothing but symbols that the grammar has. As
long as there are numbers for the rules that are kept, rule 0 is the added one, and no other rule
mentions the reserved nonterminal.
-/
namespace CanonicalLR

/-- The symbols that right sides are made of. -/
def Vocabulary.Knows (v : Vocabulary) : Symbol → Prop
  | .terminal t => t ≠ .eoi ∧ t ≠ .epsilon ∧ t < v.terminals.length
  | .nonterminal n => n < v.nonterminals.length

structure Rule.Known (v : Vocabulary) (r : Rule) : Prop where
  left : r.left < v.nonterminals.length
  right : ∀ x ∈ r.right, v.Knows x

/-- A declared rule keeps clear of the reserved nonterminal. -/
structure Rule.Declared (v : Vocabulary) (r : Rule) : Prop extends r.Known v where
  left_ne_start : r.left ≠ .start
  start_not_mem : .nonterminal .start ∉ r.right

theorem Vocabulary.Knows.mono {v v' : Vocabulary} {x : Symbol} (known : v.Knows x)
    (terminals : v.terminals.length ≤ v'.terminals.length)
    (nonterminals : v.nonterminals.length ≤ v'.nonterminals.length) : v'.Knows x := by
  cases x with
  | terminal t => exact ⟨known.1, known.2.1, Nat.lt_of_lt_of_le known.2.2 terminals⟩
  | nonterminal n => exact Nat.lt_of_lt_of_le known nonterminals

theorem Rule.Declared.mono {v v' : Vocabulary} {r : Rule} (declared : r.Declared v)
    (terminals : v.terminals.length ≤ v'.terminals.length)
    (nonterminals : v.nonterminals.length ≤ v'.nonterminals.length) : r.Declared v' where
  left := Nat.lt_of_lt_of_le declared.left nonterminals
  right x member := (declared.right x member).mono terminals nonterminals
  left_ne_start := declared.left_ne_start
  start_not_mem := declared.start_not_mem

theorem Rule.Declared.of_sides {v : Vocabulary} {r r' : Rule} (declared : r.Declared v)
    (left : r'.left = r.left) (right : r'.right = r.right) : r'.Declared v where
  left := left ▸ declared.left
  right := right ▸ declared.right
  left_ne_start := left ▸ declared.left_ne_start
  start_not_mem := right ▸ declared.start_not_mem

/-! ### Builders -/

/-- The invariant of all declarations. -/
structure Builder.Sound (b : Builder) : Prop where
  eoi_known : TerminalId.eoi < b.terminals.length
  start_known : NonterminalId.start < b.nonterminals.length
  rules_declared : ∀ r ∈ b.rules, r.Declared b.toVocabulary

namespace Builder

theorem initial_sound : initial.Sound where
  eoi_known := by decide
  start_known := by decide
  rules_declared := by simp [initial]

/-- Declaring more keeps a builder sound if each rule was there before, with the same sides, or is
a declared one. -/
theorem Sound.grow {b b' : Builder} (sound : b.Sound)
    (terminals : b.terminals.length ≤ b'.terminals.length)
    (nonterminals : b.nonterminals.length ≤ b'.nonterminals.length)
    (rules : ∀ r ∈ b'.rules, (∃ r' ∈ b.rules, r.left = r'.left ∧ r.right = r'.right) ∨
      r.Declared b.toVocabulary) : b'.Sound where
  eoi_known := Nat.lt_of_lt_of_le sound.eoi_known terminals
  start_known := Nat.lt_of_lt_of_le sound.start_known nonterminals
  rules_declared r member := by
    rcases rules r member with ⟨r', member', left, right⟩ | declared
    · exact ((sound.rules_declared r' member').of_sides left right).mono terminals nonterminals
    · exact declared.mono terminals nonterminals

theorem knows_of_usable {b : Builder} {x : Symbol} (usable : b.usable x = true) :
    b.Knows x ∧ x ≠ .nonterminal .start := by
  cases x with
  | terminal t => simpa [Builder.usable, Vocabulary.Knows, and_assoc] using usable
  | nonterminal n =>
    simp only [Builder.usable, usableNonterminal, Bool.and_eq_true, bne_iff_ne,
      decide_eq_true_eq] at usable
    exact ⟨usable.2, fun equal => usable.1 (Symbol.nonterminal.inj equal)⟩

/-- What a rule is checked for when it is declared. -/
theorem declared_of_usable {b : Builder} {r : Rule} (left : b.usableNonterminal r.left = true)
    (right : r.right.all b.usable = true) : r.Declared b.toVocabulary := by
  have checked : r.left ≠ .start ∧ r.left < b.nonterminals.length := by
    simpa [usableNonterminal] using left
  have usable := List.all_eq_true.mp right
  exact {
    left := checked.2
    right := fun x member => (knows_of_usable (usable x member)).1
    left_ne_start := checked.1
    start_not_mem := fun member => (knows_of_usable (usable _ member)).2 rfl }

theorem Sound.modify_rule {b : Builder} (sound : b.Sound) (index : Nat) {f : Rule → Rule}
    (sides : ∀ r, (f r).left = r.left ∧ (f r).right = r.right) :
    ({ b with rules := b.rules.modify index f } : Builder).Sound := by
  refine sound.grow (Nat.le_refl _) (Nat.le_refl _) fun r member => .inl ?_
  obtain ⟨i, inside, rfl⟩ := List.mem_iff_getElem.mp member
  have old : i < b.rules.length := by simpa using inside
  refine ⟨b.rules[i], List.getElem_mem old, ?_⟩
  simp only [List.getElem_modify]
  split
  · exact sides _
  · exact ⟨rfl, rfl⟩

theorem Sound.warn {b : Builder} (sound : b.Sound) (w : Warning) : (b.warn w).Sound :=
  ⟨sound.eoi_known, sound.start_known, sound.rules_declared⟩

theorem declareRule_sound {b b' : Builder} {left : NonterminalId} {right : List Symbol}
    {override : Option Precedence} {answer : CanonicalLR.Declared} (sound : b.Sound)
    (accepted : b.declareRule left right override = .ok (answer, b')) : b'.Sound := by
  simp only [declareRule] at accepted
  split at accepted
  · cases accepted
  next left_usable =>
    split at accepted
    · cases accepted
    next right_usable =>
      split at accepted
      · cases accepted
        exact sound.warn _
      · cases accepted
        refine sound.grow (Nat.le_refl _) (Nat.le_refl _) fun r member => ?_
        rcases List.mem_append.mp member with old | new
        · exact .inl ⟨r, old, rfl, rfl⟩
        · obtain rfl := List.mem_singleton.mp new
          exact .inr (declared_of_usable (by simpa using left_usable) (by simpa using right_usable))

theorem declare_sound {b b' : Builder} {d : Declaration} {answer : CanonicalLR.Declared}
    (sound : b.Sound) (accepted : b.declare d = .ok (answer, b')) : b'.Sound := by
  -- Only the declaration of a rule adds one; the others keep the sides of all rules.
  cases d with
  | terminal name precedence =>
    simp only [declare, declareTerminal] at accepted
    split at accepted
    · cases accepted
    · split at accepted
      · cases accepted
      · cases accepted
        exact sound.grow (by simp) (Nat.le_refl _) fun r member => .inl ⟨r, member, rfl, rfl⟩
  | nonterminal name =>
    simp only [declare, declareNonterminal] at accepted
    split at accepted
    · cases accepted
    · split at accepted
      · cases accepted
      · cases accepted
        exact sound.grow (Nat.le_refl _) (by simp) fun r member => .inl ⟨r, member, rfl, rfl⟩
  | precedence assoc =>
    simp only [declare, declarePrecedence] at accepted
    split at accepted <;> cases accepted <;>
      exact ⟨sound.eoi_known, sound.start_known, sound.rules_declared⟩
  | typeTag symbol tag =>
    cases accepted
    cases symbol with
    | terminal t =>
      exact sound.grow (by simp [declareTypeTag]) (Nat.le_refl _)
        fun r member => .inl ⟨r, member, rfl, rfl⟩
    | nonterminal n =>
      exact sound.grow (Nat.le_refl _) (by simp [declareTypeTag])
        fun r member => .inl ⟨r, member, rfl, rfl⟩
  | rule left right override => exact declareRule_sound sound accepted
  | action rule action =>
    cases accepted
    exact sound.modify_rule rule fun _ => ⟨rfl, rfl⟩
  | precedenceOf rule terminal =>
    cases accepted
    simp only [declarePrecedenceOf]
    split
    · exact sound.modify_rule rule fun _ => ⟨rfl, rfl⟩
    · exact sound.warn _
  | start symbol =>
    cases accepted
    exact ⟨sound.eoi_known, sound.start_known, sound.rules_declared⟩

theorem attempt_sound {b : Builder} (sound : b.Sound) (d : Declaration) :
    (b.attempt d).2.Sound := by
  simp only [attempt]
  split
  next accepted => exact declare_sound sound accepted
  next => exact sound

theorem attemptAll_append (b : Builder) (ds ds' : List Declaration) :
    b.attemptAll (ds ++ ds') =
      ((b.attemptAll ds).1 ++ ((b.attemptAll ds).2.attemptAll ds').1,
        ((b.attemptAll ds).2.attemptAll ds').2) := by
  induction ds generalizing b with
  | nil => rfl
  | cons d ds ih => simp only [List.cons_append, attemptAll, ih]

/-- No list of declarations, refused ones among them, leads to an unsound builder. -/
theorem attemptAll_sound {b : Builder} (sound : b.Sound) (ds : List Declaration) :
    (b.attemptAll ds).2.Sound := by
  induction ds generalizing b with
  | nil => exact sound
  | cons d ds ih => exact ih (attempt_sound sound d)

end Builder

/-! ### Grammars -/

/-- There are rules, and they mention only symbols that the grammar has. -/
structure Grammar.WellFormed (g : Grammar) : Prop where
  eoi_known : TerminalId.eoi < g.terminals.length
  accept_known : RuleId.accept < g.rules.length
  rules_known : ∀ r ∈ g.rules, r.Known g.toVocabulary

/-- Rule 0 takes the reserved nonterminal to the start symbol, and the others do without it. -/
structure Grammar.Augmented (g : Grammar) : Prop extends g.WellFormed where
  accepting : g.rules[RuleId.accept]? = some (.accepting g.start)
  others_declared : ∀ (id : RuleId) (r : Rule), g.rules[id]? = some r → id ≠ .accept →
    r.Declared g.toVocabulary

namespace Grammar.Augmented

variable {g : Grammar} {id : RuleId} {r : Rule}

theorem rule_accept (augmented : g.Augmented) : g.rule .accept = .accepting g.start :=
  Grammar.rule_of_getElem? augmented.accepting

theorem eq_accepting (augmented : g.Augmented) (found : g.rules[RuleId.accept]? = some r) :
    r = .accepting g.start :=
  Option.some.inj (found.symm.trans augmented.accepting)

/-- Rule 0 is the only one for the reserved nonterminal. -/
theorem accept_of_left (augmented : g.Augmented) (found : g.rules[id]? = some r)
    (left : r.left = .start) : id = .accept := by
  refine Decidable.byContradiction fun other => ?_
  exact (augmented.others_declared id r found other).left_ne_start left

/-- Only rule 0 can have the reserved nonterminal on its right side. -/
theorem accept_of_right (augmented : g.Augmented) (found : g.rules[id]? = some r)
    (member : .nonterminal .start ∈ r.right) : id = .accept := by
  refine Decidable.byContradiction fun other => ?_
  exact (augmented.others_declared id r found other).start_not_mem member

end Grammar.Augmented

theorem mem_addRule {rules : List Rule} {r r' : Rule} (member : r' ∈ addRule rules r) :
    r' ∈ rules ∨ r' = r := by
  simp only [addRule] at member
  split at member
  · simpa using member
  · exact List.mem_or_eq_of_mem_set member

theorem length_le_addRule (rules : List Rule) (r : Rule) :
    rules.length ≤ (addRule rules r).length := by
  simp only [addRule]
  split <;> simp

theorem mem_foldl_addRule {rules added : List Rule} {r : Rule}
    (member : r ∈ added.foldl addRule rules) : r ∈ rules ∨ r ∈ added := by
  induction added generalizing rules with
  | nil => exact .inl member
  | cons a added ih =>
    rcases ih member with in_rules | in_added
    · rcases mem_addRule in_rules with old | rfl
      · exact .inl old
      · exact .inr (by simp)
    · exact .inr (by simp [in_added])

theorem length_le_foldl_addRule (rules added : List Rule) :
    rules.length ≤ (added.foldl addRule rules).length := by
  induction added generalizing rules with
  | nil => exact Nat.le_refl _
  | cons a added ih => exact Nat.le_trans (length_le_addRule rules a) (ih _)

namespace Builder

/-- The declared start symbol, or else the left side of the first rule. -/
def startSymbol? (b : Builder) : Option NonterminalId :=
  b.start <|> b.rules.head?.map (·.left)

/-- The rules that finishing keeps. -/
def keptRules (b : Builder) : List Rule :=
  match b.startSymbol? with
  | none => []
  | some start => b.rules.filter fun r => r.left ∈ reachable b.rules start

/-- Each rule that is kept, and the one that is added to them, has a number of its own. -/
def NumbersFit (b : Builder) : Prop := b.keptRules.length < ruleNumbers

instance (b : Builder) : Decidable b.NumbersFit := inferInstanceAs (Decidable (_ < _))

/-- What finishing makes of a builder. -/
structure Finishes (b : Builder) (g : Grammar) : Prop where
  vocabulary : g.toVocabulary = b.toVocabulary
  start : b.startSymbol? = some g.start
  start_known : g.start < b.nonterminals.length
  rules : g.rules = b.keptRules.foldl addRule [.accepting g.start]

theorem finishes_of_finish {b : Builder} {g : Grammar} (finished : b.finish = .ok g) :
    b.Finishes g := by
  simp only [finish] at finished
  split at finished
  · cases finished
  next start found =>
    split at finished
    next known =>
      cases finished
      exact {
        vocabulary := rfl
        start := found
        start_known := known
        rules := by simp only [keptRules, startSymbol?, found, Vocabulary.grammar] }
    next => cases finished

theorem keptRules_subset {b : Builder} {r : Rule} (member : r ∈ b.keptRules) : r ∈ b.rules := by
  simp only [keptRules] at member
  split at member
  · simp at member
  · exact (List.mem_filter.mp member).1

theorem wellFormed_of_finishes {b : Builder} {g : Grammar} (sound : b.Sound)
    (finishes : b.Finishes g) : g.WellFormed where
  eoi_known := by
    rw [finishes.vocabulary]
    exact sound.eoi_known
  accept_known := by
    rw [finishes.rules]
    exact length_le_foldl_addRule [_] _
  rules_known r member := by
    rw [finishes.rules] at member
    rw [finishes.vocabulary]
    -- Whether or not the numbers have started again, a rule is the added one or a kept one.
    rcases mem_foldl_addRule member with added | kept
    · obtain rfl := List.mem_singleton.mp added
      refine ⟨sound.start_known, fun x mentioned => ?_⟩
      obtain rfl := List.mem_singleton.mp mentioned
      exact finishes.start_known
    · exact (sound.rules_declared r (keptRules_subset kept)).toKnown

theorem augmented_of_finishes {b : Builder} {g : Grammar} (sound : b.Sound)
    (finishes : b.Finishes g) (fits : b.NumbersFit) : g.Augmented := by
  -- With room for all of them, the rules that are kept follow the one that is added.
  have room : [Rule.accepting g.start].length + b.keptRules.length ≤ ruleNumbers := by
    rw [List.length_singleton, Nat.add_comm]
    exact fits
  have rules : g.rules = .accepting g.start :: b.keptRules := by
    rw [finishes.rules, foldl_addRule room, List.singleton_append]
  refine { wellFormed_of_finishes sound finishes with accepting := ?_, others_declared := ?_ }
  · rw [rules]
    rfl
  · intro id r found other
    cases id with
    | zero => exact absurd rfl other
    | succ id =>
      rw [rules, List.getElem?_cons_succ] at found
      rw [finishes.vocabulary]
      exact sound.rules_declared r (keptRules_subset (List.mem_of_getElem? found))

end Builder

namespace Grammar

/-- The rules that the declarations make a grammar keep have numbers of their own. -/
def NumbersFit (ds : List Declaration) : Prop := (Builder.initial.attemptAll ds).2.NumbersFit

instance (ds : List Declaration) : Decidable (NumbersFit ds) :=
  inferInstanceAs (Decidable (Builder.NumbersFit _))

variable {ds : List Declaration} {g : Grammar}

theorem wellFormed_of_defined (defined : defineAccepted ds = .ok g) : g.WellFormed :=
  Builder.wellFormed_of_finishes (Builder.attemptAll_sound Builder.initial_sound ds)
    (Builder.finishes_of_finish defined)

theorem augmented_of_defined (defined : defineAccepted ds = .ok g) (fits : NumbersFit ds) :
    g.Augmented :=
  Builder.augmented_of_finishes (Builder.attemptAll_sound Builder.initial_sound ds)
    (Builder.finishes_of_finish defined) fits

end Grammar

end CanonicalLR
