import CanonicalLR.Proofs.Pruning

/-!
# Plain definitions

A plain definition declares terminals, then nonterminals, then rules over them. If all names are
identifiers, no name is there twice and no two rules have the same sides, every declaration is
accepted. The grammar then starts with the left side of the first rule, and if this leads to all the
others, no rule is dropped.

Definitions of any size are had in this way, without going through the declarations one by one.
-/
namespace CanonicalLR

/-- The declared rules that finishing is to keep. -/
def reachedRules (declared : List Rule) (start : NonterminalId) : List Rule :=
  declared.filter fun r => Reaches declared start r.left

/-! ### Numbering -/

section Numbers

variable {kept : List Rule}

theorem numberedRules_of_lt {first : Rule} (few : kept.length < ruleNumbers) :
    numberedRules first kept = first :: kept := by
  have all : kept.length ≤ ruleNumbers - 1 := Nat.le_sub_one_of_lt few
  rw [numberedRules, List.take_of_length_le all, List.drop_of_length_le all]
  rfl

theorem exists_numberedRules (first : Rule) (many : ruleNumbers ≤ kept.length) :
    ∃ last, kept.getLast? = some last ∧
      numberedRules first kept = last :: kept.take (ruleNumbers - 1) := by
  have late : ¬ kept.length ≤ ruleNumbers - 1 := by
    simp only [ruleNumbers] at many ⊢
    omega
  have nonempty : kept ≠ [] := by
    rintro rfl
    exact late (Nat.zero_le _)
  have last := List.getLast?_eq_some_getLast nonempty
  refine ⟨kept.getLast nonempty, last, ?_⟩
  rw [numberedRules, List.getLastD_eq_getLast?, List.getLast?_drop, if_neg late, last,
    Option.getD_some]

end Numbers

/-! ### Declarations that are all accepted -/

namespace Builder

variable {b : Builder} {g : Grammar}

theorem finish_of_known {start : NonterminalId} (found : b.startSymbol? = some start)
    (known : start < b.nonterminals.length) :
    b.finish = .ok (b.grammar start b.rules b.warnings) := by
  rw [startSymbol?] at found
  simp only [finish, found, if_pos known]

theorem keptRules_eq_reachedRules (finished : b.finish = .ok g) :
    b.keptRules = reachedRules b.rules g.start :=
  keptRules_eq (finishes_of_finish finished).start

theorem numberedRules_of_finish (finished : b.finish = .ok g) :
    g.rules = numberedRules (.accepting g.start) (reachedRules b.rules g.start) := by
  rw [(finishes_of_finish finished).rules, foldl_addRule_singleton,
    keptRules_eq_reachedRules finished]

/-- There is no warning if the declarations have given none, no rule is dropped and what is reached
has rules. -/
theorem warnings_eq_nil_of_finish (finished : b.finish = .ok g) (silent : b.warnings = [])
    (kept : ∀ r ∈ b.rules, Reaches b.rules g.start r.left)
    (ruled : ∀ n, Reaches b.rules g.start n → ∃ r ∈ g.rules, r.left = n) : g.warnings = [] := by
  have none_dropped : (b.rules.filter fun r => ¬ Reaches b.rules g.start r.left) = [] :=
    List.filter_eq_nil_iff.mpr fun r member => by simpa using kept r member
  have none_empty : b.emptyWarnings (reachable b.rules g.start) g.rules = [] := by
    refine List.eq_nil_iff_forall_not_mem.mpr fun w member => ?_
    obtain ⟨n, reached, without, _⟩ := Vocabulary.mem_emptyWarnings.mp member
    obtain ⟨r, rule, left⟩ := ruled n (mem_reachable.mp reached)
    exact without r rule left
  rw [warnings_of_finish finished, silent, none_dropped, none_empty]
  rfl

/-- Where each declaration of a list is accepted as long as its key is fresh, and no key is there
twice, all of them are accepted. -/
theorem attemptAll_fresh {α β : Type} (grown : List α → Builder) (declaration : α → Declaration)
    (key : α → β) {given : List β} {as : List α}
    (distinct : (given ++ as.map key).Nodup)
    (accepted : ∀ before, ∀ a ∈ as, key a ∉ given ++ before.map key →
      ∃ answer, (grown before).declare (declaration a) = .ok (answer, grown (before ++ [a]))) :
    ((grown []).attemptAll (as.map declaration)).2 = grown as := by
  -- By induction on what is still to be declared, for every part that has been declared.
  have run (after before : List α) (split : as = before ++ after) :
      ((grown before).attemptAll (after.map declaration)).2 = grown as := by
    induction after generalizing before with
    | nil =>
      rw [split, List.append_nil]
      rfl
    | cons a after ih =>
      have fresh : key a ∉ given ++ before.map key := by
        rw [split, List.map_append, List.map_cons, ← List.append_assoc] at distinct
        exact fun old => List.disjoint_of_nodup_append distinct old List.mem_cons_self
      obtain ⟨answer, declared⟩ := accepted before a (by simp [split]) fresh
      rw [List.map_cons, attemptAll, attempt, declared]
      exact ih (before ++ [a]) (by rw [split, List.append_assoc, List.singleton_append])
  exact run as [] rfl

/-- A name that is fresh is not found. -/
theorem any_name_eq_false {α : Type} {nameOf : α → String} {known : List α} {names : List String}
    {name : String} (listed : known.map nameOf = names) (fresh : name ∉ names) :
    (known.any fun x => nameOf x == name) = false := by
  rw [List.any_eq_false]
  intro x member same
  rw [← listed, ← beq_iff_eq.mp same] at fresh
  exact fresh (List.mem_map_of_mem member)

variable (b)

/-- The builder with more terminals, which are given by their names. -/
def withTerminals (names : List String) : Builder :=
  { b with terminals := b.terminals ++ names.map (⟨·, none, none⟩) }

def withNonterminals (names : List String) : Builder :=
  { b with nonterminals := b.nonterminals ++ names.map (⟨·, none⟩) }

def withMoreRules (rules : List Rule) : Builder := { b with rules := b.rules ++ rules }

/-- Names that are not taken can be given to terminals. -/
theorem attemptAll_terminals {names : List String}
    (identifiers : ∀ name ∈ names, isIdentifier name = true)
    (distinct : (b.terminals.map (·.name) ++ names).Nodup) :
    (b.attemptAll (names.map (.terminal · none))).2 = b.withTerminals names := by
  have run := attemptAll_fresh b.withTerminals (.terminal · none) id
    (by rwa [List.map_id]) fun before name member fresh => by
      have untaken : (b.withTerminals before).terminals.any (·.name == name) = false :=
        any_name_eq_false (by simp [withTerminals, Function.comp_def]) fresh
      refine ⟨.terminal (b.withTerminals before).terminals.length, ?_⟩
      simp only [declare, declareTerminal, identifiers name member, untaken]
      simp [withTerminals]
  simpa [withTerminals] using run

theorem attemptAll_nonterminals {names : List String}
    (identifiers : ∀ name ∈ names, isIdentifier name = true)
    (distinct : (b.nonterminals.map (·.name) ++ names).Nodup) :
    (b.attemptAll (names.map .nonterminal)).2 = b.withNonterminals names := by
  have run := attemptAll_fresh b.withNonterminals .nonterminal id
    (by rwa [List.map_id]) fun before name member fresh => by
      have untaken : (b.withNonterminals before).nonterminals.any (·.name == name) = false :=
        any_name_eq_false (by simp [withNonterminals, Function.comp_def]) fresh
      refine ⟨.nonterminal (b.withNonterminals before).nonterminals.length, ?_⟩
      simp only [declare, declareNonterminal, identifiers name member, untaken]
      simp [withNonterminals]
  simpa [withNonterminals] using run

/-- A rule that has no action yet and mentions only symbols that are there. -/
structure Declares (r : Rule) : Prop where
  left : b.usableNonterminal r.left = true
  right : ∀ x ∈ r.right, b.usable x = true
  plain : r.action = none

/-- Rules over the symbols that are there can be declared, if no two have the same sides. -/
theorem attemptAll_rules {rules : List Rule} (declares : ∀ r ∈ rules, b.Declares r)
    (distinct : (b.rules.map Rule.sides ++ rules.map Rule.sides).Nodup) :
    (b.attemptAll (rules.map fun r => .rule r.left r.right r.override)).2 =
      b.withMoreRules rules := by
  have run := attemptAll_fresh b.withMoreRules
    (fun r => .rule r.left r.right r.override) Rule.sides distinct
    fun before r member fresh => by
      obtain ⟨left_usable, right_usable, plain⟩ := declares r member
      have same_left : (b.withMoreRules before).usableNonterminal r.left = true := left_usable
      have same_right : r.right.all (b.withMoreRules before).usable = true := by
        have same : (b.withMoreRules before).usable = b.usable := funext fun x => by cases x <;> rfl
        rwa [same, List.all_eq_true]
      -- No rule with these sides is there, so this one is not taken for a duplicate.
      have unknown : ((b.withMoreRules before).rules.findIdx? fun r' =>
          r'.left == r.left && r'.right == r.right) = none := by
        have other : ∀ r' ∈ (b.withMoreRules before).rules, r'.sides ≠ r.sides := by
          intro r' old same
          refine fresh (same ▸ ?_)
          rw [← List.map_append]
          exact List.mem_map_of_mem old
        simpa [Rule.sides] using other
      have made : (⟨r.left, r.right, r.override, none⟩ : Rule) = r := by rw [← plain]
      refine ⟨.rule (b.withMoreRules before).rules.length, ?_⟩
      simp only [declare, declareRule, same_left, same_right, unknown, made]
      simp [withMoreRules]
  simpa [withMoreRules] using run

end Builder

theorem Grammar.numbersFit_iff {ds : List Declaration} {g : Grammar}
    (defined : defineAccepted ds = .ok g) :
    NumbersFit ds ↔ (reachedRules (declaredRules ds) g.start).length < ruleNumbers := by
  rw [NumbersFit, Builder.NumbersFit, Builder.keptRules_eq_reachedRules defined]
  rfl

/-! ### From names and rules to grammars -/

/-- A rule without an action over so many terminals and nonterminals, which come after the reserved
ones. -/
structure Rule.Over (r : Rule) (terminals nonterminals : Nat) : Prop where
  left_pos : 0 < r.left
  left_le : r.left ≤ nonterminals
  right : ∀ x ∈ r.right, (∃ n, x = .nonterminal (n + 1) ∧ n < nonterminals) ∨
    ∃ t, x = .terminal (t + 3) ∧ t < terminals
  action : r.action = none

theorem Rule.Over.mono {r : Rule} {terminals nonterminals more : Nat}
    (bounds : r.Over terminals nonterminals) (le : nonterminals ≤ more) :
    r.Over terminals more where
  left_pos := bounds.left_pos
  left_le := Nat.le_trans bounds.left_le le
  right x mentioned := by
    refine (bounds.right x mentioned).imp_left ?_
    rintro ⟨n, rfl, inside⟩
    exact ⟨n, rfl, Nat.lt_of_lt_of_le inside le⟩
  action := bounds.action

namespace Examples

def plain (terminals nonterminals : List String) (rules : List Rule) : List Declaration :=
  terminals.map (.terminal · none) ++ nonterminals.map .nonterminal ++
    rules.map fun r => .rule r.left r.right r.override

/-- Nothing stands in the way of a plain definition. -/
structure Plain (terminals nonterminals : List String) (rules : List Rule) : Prop where
  terminals_identifiers : ∀ name ∈ terminals, isIdentifier name = true
  terminals_apart : (Vocabulary.reserved.terminals.map (·.name) ++ terminals).Nodup
  nonterminals_identifiers : ∀ name ∈ nonterminals, isIdentifier name = true
  nonterminals_apart : (Vocabulary.reserved.nonterminals.map (·.name) ++ nonterminals).Nodup
  rules_over : ∀ r ∈ rules, r.Over terminals.length nonterminals.length
  rules_apart : (rules.map Rule.sides).Nodup

variable {terminals nonterminals : List String} {rules : List Rule}

/-- What is built by a plain definition. -/
def plainBuilder (terminals nonterminals : List String) (rules : List Rule) : Builder :=
  ((Builder.initial.withTerminals terminals).withNonterminals nonterminals).withMoreRules rules

@[simp]
theorem length_terminals_plainBuilder :
    (plainBuilder terminals nonterminals rules).terminals.length = terminals.length + 3 := by
  simp [plainBuilder, Builder.withMoreRules, Builder.withNonterminals, Builder.withTerminals,
    Builder.initial, Vocabulary.reserved]

@[simp]
theorem length_nonterminals_plainBuilder :
    (plainBuilder terminals nonterminals rules).nonterminals.length = nonterminals.length + 1 := by
  simp [plainBuilder, Builder.withMoreRules, Builder.withNonterminals, Builder.withTerminals,
    Builder.initial, Vocabulary.reserved]

/-- A rule over the declared symbols can be declared. -/
theorem declares_of_over {r : Rule} (bounds : r.Over terminals.length nonterminals.length) :
    (plainBuilder terminals nonterminals rules).Declares r := by
  have usable (n : NonterminalId) (positive : 0 < n) (inside : n ≤ nonterminals.length) :
      (plainBuilder terminals nonterminals rules).usableNonterminal n = true := by
    simp only [Builder.usableNonterminal, length_nonterminals_plainBuilder, Bool.and_eq_true,
      bne_iff_ne, decide_eq_true_eq]
    exact ⟨Nat.ne_of_gt positive, Nat.lt_succ_of_le inside⟩
  refine ⟨usable _ bounds.left_pos bounds.left_le, fun x mentioned => ?_, bounds.action⟩
  rcases bounds.right x mentioned with ⟨n, rfl, inside⟩ | ⟨t, rfl, inside⟩
  · exact usable _ (Nat.succ_pos _) inside
  · -- Declared terminals come after the reserved ones, two of which may not be used.
    have beyond (reserved : TerminalId) (less : reserved < 3) : t + 3 ≠ reserved :=
      Nat.ne_of_gt (Nat.lt_of_lt_of_le less (Nat.le_add_left 3 t))
    simp only [Builder.usable, length_terminals_plainBuilder, Bool.and_eq_true, bne_iff_ne,
      decide_eq_true_eq]
    exact ⟨⟨beyond _ (by decide), beyond _ (by decide)⟩, Nat.add_lt_add_right inside 3⟩

theorem Plain.attemptAll (fits : Plain terminals nonterminals rules) :
    (Builder.initial.attemptAll (plain terminals nonterminals rules)).2 =
      plainBuilder terminals nonterminals rules := by
  -- First the terminals, then the nonterminals, then the rules over both.
  have declares : ∀ r ∈ rules, (plainBuilder terminals nonterminals []).Declares r :=
    fun r member => declares_of_over (fits.rules_over r member)
  simp only [plain, Builder.attemptAll_append]
  rw [Builder.attemptAll_terminals _ fits.terminals_identifiers fits.terminals_apart,
    Builder.attemptAll_nonterminals _ fits.nonterminals_identifiers fits.nonterminals_apart]
  exact Builder.attemptAll_rules _ declares fits.rules_apart

/-- A grammar whose rules are all kept and numbered in their order, as far as there are numbers. -/
theorem Plain.exists_grammar (fits : Plain terminals nonterminals rules) {first : Rule}
    (head : rules.head? = some first)
    (reached : ∀ r ∈ rules, Reaches rules first.left r.left) :
    let ds := plain terminals nonterminals rules
    ∃ g, Grammar.defineAccepted ds = .ok g ∧ g.start = first.left ∧
      reachedRules (Grammar.declaredRules ds) g.start = rules ∧
      g.rules = numberedRules (.accepting first.left) rules ∧
      ((∀ n, Reaches rules first.left n → ∃ r ∈ g.rules, r.left = n) → g.warnings = []) := by
  intro ds
  have start : (plainBuilder terminals nonterminals rules).startSymbol? = some first.left := by
    simp [Builder.startSymbol?, plainBuilder, Builder.withMoreRules, Builder.withNonterminals,
      Builder.withTerminals, Builder.initial, head]
  have known : first.left < (plainBuilder terminals nonterminals rules).nonterminals.length := by
    rw [length_nonterminals_plainBuilder]
    exact Nat.lt_succ_of_le (fits.rules_over first (List.mem_of_mem_head? head)).left_le
  have finished := Builder.finish_of_known start known
  -- Every rule is reached, so finishing drops none of them.
  have kept : reachedRules rules first.left = rules :=
    List.filter_eq_self.mpr fun r member => decide_eq_true (reached r member)
  refine ⟨_, (congrArg Builder.finish fits.attemptAll).trans finished, rfl, ?_, ?_, ?_⟩
  · rw [Grammar.declaredRules, fits.attemptAll]
    exact kept
  · rw [Builder.numberedRules_of_finish finished]
    exact congrArg _ kept
  · exact Builder.warnings_eq_nil_of_finish finished rfl reached

end Examples

end CanonicalLR
