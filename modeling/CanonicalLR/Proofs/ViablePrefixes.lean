import CanonicalLR.Proofs.CanonicalCollection
import CanonicalLR.Proofs.RuleSquares

/-!
# Items and rightmost derivations

An item is valid for a string exactly if a rightmost derivation from the reserved nonterminal comes
to exchange the left side of the item's rule, the string is what stands before it together with what
the item has read, and the lookahead begins what stands after it. From derivations to items this
holds of every grammar: whatever nonterminal of a sentential form is exchanged, its rules are
predicted there. From items to derivations, what follows a marker must derive some terminals, so no
nonterminal may be unproductive. Strings that can be read are then the viable prefixes.
-/
namespace CanonicalLR

/-- A rightmost derivation from the reserved nonterminal in which the last step exchanges the
nonterminal between a string and a string of terminals by a rule. -/
def Grammar.Exchanges (g : Grammar) (id : RuleId) (r : Rule) (v : List Symbol)
    (z : List TerminalId) : Prop :=
  g.rules[id]? = some r ∧
    (∃ ids, RightmostDerivation g.rules ids [.nonterminal .start]
      (v ++ .nonterminal r.left :: z.map .terminal)) ∧
    RightmostDerivation g.rules [id] (v ++ .nonterminal r.left :: z.map .terminal)
      (v ++ r.right ++ z.map .terminal)

/-- A prefix of what the last step of a rightmost derivation leaves up to its right side. -/
def Grammar.ViablePrefix (g : Grammar) (w : List Symbol) : Prop :=
  ∃ id r v z, g.Exchanges id r v z ∧ w <+: v ++ r.right

/-- An item as a rightmost derivation has it: the string is what stands before the nonterminal that
is exchanged and what the item has read, and the lookahead comes next after the right side. -/
def Item.Arises (g : Grammar) (w : List Symbol) (i : Item) : Prop :=
  ∃ r v z, g.Exchanges i.rule r v z ∧ i.marker ≤ r.right.length ∧
    w = v ++ r.right.take i.marker ∧ i.lookahead = z.headD .eoi

namespace Grammar

variable {g : Grammar}

theorem exchanges_of {id : RuleId} {r : Rule} {v : List Symbol} {z : List TerminalId}
    {ids : List RuleId} (found : g.rules[id]? = some r)
    (derivation : RightmostDerivation g.rules ids [.nonterminal .start]
      (v ++ .nonterminal r.left :: z.map .terminal)) : g.Exchanges id r v z :=
  ⟨found, ⟨ids, derivation⟩, .cons found (.nil _)⟩

/-- What a string of terminals before others begins with, or else the others. -/
theorem begins_headD {rules : List Rule} {u : List Symbol} {z : List TerminalId}
    (derivation : Derives rules u (z.map .terminal)) (after : List TerminalId) (t : TerminalId) :
    Begins rules (u ++ [.terminal (after.headD t)]) ((z ++ after).headD t) := by
  cases z with
  | nil => exact ⟨[], derivation.append (.refl _)⟩
  | cons a z => exact ⟨z.map .terminal ++ [.terminal (after.headD t)], derivation.append (.refl _)⟩

/-! ### From derivations to items -/

/-- An item stays valid while its right side is read. -/
theorem MarkersFit.valid_of_read (fits : g.MarkersFit) {q : RuleId} {r : Rule}
    {v x y : List Symbol} {t : TerminalId} (found : g.rules[q]? = some r)
    (right : r.right = x ++ y) (valid : Valid g v ⟨q, 0, t⟩) :
    Valid g (v ++ x) ⟨q, x.length, t⟩ := by
  induction x using List.reverseRecOn generalizing y with
  | nil => simpa using valid
  | append_singleton x s ih =>
    rw [List.append_assoc] at right
    have earlier := ih right
    have next := (next?_of_right (t := t) found right).1
    have later := Valid.advance earlier next
    rw [List.append_assoc, fits.advance_eq next] at later
    rwa [List.length_append, List.length_singleton]

/-- The rules of each nonterminal in a string are predicted where it stands, with what begins the
terminals that are derived after it. -/
def Predicts (g : Grammar) (u : List Symbol) : Prop :=
  ∀ (v : List Symbol) (n : NonterminalId) (y : List Symbol) (z : List TerminalId),
    u = v ++ .nonterminal n :: y → Derives g.rules y (z.map .terminal) →
      ∀ (q : RuleId) (r : Rule), g.rules[q]? = some r → r.left = n →
        Valid g v ⟨q, 0, z.headD .eoi⟩

/-- In the beginning there is nothing but the reserved nonterminal, and only rule 0 is for it. -/
theorem Augmented.predicts_start (augmented : g.Augmented) :
    g.Predicts [.nonterminal .start] := by
  intro v n y z whole derivation q r found left
  -- Nothing is before or after the nonterminal, so the item is the one that parsing begins with.
  obtain ⟨rfl, start, rfl⟩ := eq_nil_of_singleton whole
  obtain rfl : z = [] := by
    simpa using Derives.eq_of_terminals (w := []) derivation
  rw [augmented.accept_of_left found (left.trans (Symbol.nonterminal.inj start))]
  exact .start

/-- A nonterminal is not among terminals, so it is on one of the sides before them. -/
theorem nonterminal_before_terminals {v y u x : List Symbol} {n : NonterminalId}
    {after : List TerminalId}
    (whole : u ++ x ++ after.map .terminal = v ++ .nonterminal n :: y) :
    (∃ m, u = v ++ .nonterminal n :: m ∧ y = m ++ x ++ after.map .terminal) ∨
      ∃ x' m, x = x' ++ .nonterminal n :: m ∧ v = u ++ x' ∧ y = m ++ after.map .terminal := by
  have not_after (u : List Symbol) : after.map .terminal ≠ u ++ .nonterminal n :: y := by
    intro same
    refine nonterminal_not_mem_terminals (n := n) (w := after) ?_
    simp [same]
  -- First whether it is among the terminals after the sides, then on which side it is.
  rcases List.append_eq_append_iff.mp whole with ⟨m, _, same⟩ | ⟨m, front, tail⟩
  · exact absurd same (not_after m)
  · rcases List.cons_eq_append_iff.mp tail with ⟨_, same⟩ | ⟨m, rfl, rfl⟩
    · exact absurd same (not_after [])
    · rcases List.append_eq_append_iff.mp front with ⟨x', rfl, rfl⟩ | ⟨x', rfl, middle⟩
      · exact .inr ⟨x', m, rfl, rfl, rfl⟩
      · rcases List.cons_eq_append_iff.mp middle with ⟨rfl, rfl⟩ | ⟨m', rfl, rfl⟩
        · exact .inr ⟨[], m, rfl, by simp, rfl⟩
        · exact .inl ⟨m', rfl, rfl⟩

/-- A rightmost step keeps all nonterminals predicted. -/
theorem MarkersFit.predicts_of_step (fits : g.MarkersFit) {id : RuleId} {r : Rule}
    {before : List Symbol} {after : List TerminalId} (found : g.rules[id]? = some r)
    (predicts : g.Predicts (before ++ .nonterminal r.left :: after.map .terminal)) :
    g.Predicts (before ++ r.right ++ after.map .terminal) := by
  intro v n y z whole derivation q r' found' left
  rcases nonterminal_before_terminals whole with ⟨m, rfl, rfl⟩ | ⟨x, m, right, rfl, rfl⟩
  · -- The nonterminal was there before the step, and what is after it derived the same.
    have step := Yields.exchange (List.mem_of_getElem? found) m (after.map .terminal)
    have earlier : Derives g.rules (m ++ .nonterminal r.left :: after.map .terminal)
        (z.map .terminal) := Relation.ReflTransGen.head step derivation
    exact predicts v n _ z (by simp) earlier q r' found' left
  · -- The rule is predicted for the exchange, and read up to the nonterminal on its right side.
    obtain ⟨w₁, w₂, terminals, rest_derives, after_derives⟩ := derivation.split
    obtain ⟨z', z'', rfl, rfl, rfl⟩ := List.map_eq_append_iff.mp terminals
    obtain rfl : z'' = after := eq_of_map_terminal after_derives.eq_of_terminals
    have predicted := predicts before r.left _ z'' rfl (.refl _) id r found rfl
    have read := fits.valid_of_read found right predicted
    obtain ⟨next, rest⟩ := next?_of_right (t := z''.headD .eoi) found right
    refine .predict read (List.getElem?_eq_some_iff.mp found').1 ?_ ?_
    · rw [next, rule_of_getElem? found', left]
    · rw [rest]
      exact begins_headD rest_derives z'' .eoi

theorem MarkersFit.predicts_of_derivation (fits : g.MarkersFit) {ids : List RuleId}
    {u u' : List Symbol} (derivation : RightmostDerivation g.rules ids u u')
    (predicts : g.Predicts u) : g.Predicts u' := by
  induction derivation with
  | nil => exact predicts
  | cons found _ ih => exact ih (fits.predicts_of_step found predicts)

/-- What arises from a rightmost derivation is valid. -/
theorem Augmented.valid_of_exchanges (augmented : g.Augmented) (fits : g.MarkersFit) {id : RuleId}
    {r : Rule} {v x y : List Symbol} {z : List TerminalId} (exchanges : g.Exchanges id r v z)
    (right : r.right = x ++ y) : Valid g (v ++ x) ⟨id, x.length, z.headD .eoi⟩ := by
  obtain ⟨found, ⟨ids, derivation⟩, _⟩ := exchanges
  have predicts := fits.predicts_of_derivation derivation augmented.predicts_start
  exact fits.valid_of_read found right (predicts v r.left _ z rfl (.refl _) id r found rfl)

theorem Augmented.valid_of_arises (augmented : g.Augmented) (fits : g.MarkersFit)
    {w : List Symbol} {i : Item} (arises : i.Arises g w) : Valid g w i := by
  obtain ⟨r, v, z, exchanges, inside, rfl, lookahead⟩ := arises
  have valid := augmented.valid_of_exchanges fits exchanges
    (List.take_append_drop i.marker r.right).symm
  rwa [List.length_take_of_le inside, ← lookahead] at valid

/-! ### From items to derivations -/

/-- If some derived string begins with a terminal, then so does some derived string of terminals. -/
theorem exists_terminals_of_begins (productive : g.AllProductive) {u : List Symbol}
    (known : ∀ x ∈ u, ∃ r ∈ g.rules, x ∈ r.right) {z : List TerminalId} {b : TerminalId}
    (begins : Begins g.rules (u ++ [.terminal (z.headD .eoi)]) b) :
    ∃ y : List TerminalId, Derives g.rules u (y.map .terminal) ∧ (y ++ z).headD .eoi = b := by
  -- The terminal begins a string derived from before the lookahead, or that vanishes.
  rcases begins_append.mp begins with ⟨rest, derivation⟩ | ⟨vanishes, last⟩
  · have rest_productive (n : NonterminalId) (member : .nonterminal n ∈ rest) :
        Productive g.rules n := by
      obtain ⟨r, rule, mentioned⟩ : ∃ r ∈ g.rules, .nonterminal n ∈ r.right := by
        rcases derivation.symbol_mem (List.mem_cons_of_mem _ member) with given | on_right
        · exact known _ given
        · exact on_right
      exact (productive r rule).2 n mentioned
    obtain ⟨y, onward⟩ := exists_terminals rest_productive
    refine ⟨b :: y, derivation.trans ?_, rfl⟩
    exact Derives.append (.refl [.terminal b]) onward
  · exact ⟨[], vanishes, (begins_terminal.mp last).symm⟩

/-- Valid items arise from rightmost derivations, for what follows their markers can be derived to
terminals from the right. -/
theorem Augmented.arises_of_valid (augmented : g.Augmented) (fits : g.MarkersFit)
    (productive : g.AllProductive) {w : List Symbol} {i : Item} (valid : Valid g w i) :
    i.Arises g w := by
  induction valid with
  | start =>
    have start : RightmostDerivation g.rules [] [.nonterminal .start]
        ([] ++ .nonterminal (Rule.accepting g.start).left ::
          ([] : List TerminalId).map .terminal) := .nil _
    exact ⟨_, [], [], exchanges_of augmented.accepting start, Nat.zero_le _, rfl, rfl⟩
  | @predict w i q b _ known next begins ih =>
    obtain ⟨r, v, z, ⟨found, ⟨ids, derivation⟩, step⟩, _, rfl, lookahead⟩ := ih
    have on_right : ∀ x ∈ i.afterNext g, ∃ r ∈ g.rules, x ∈ r.right := fun x member =>
      ⟨_, rule_mem (Item.rule_known_of_next? next), List.mem_of_mem_drop member⟩
    rw [lookahead] at begins
    obtain ⟨y, rest, first⟩ := exists_terminals_of_begins productive on_right begins
    obtain ⟨rest_ids, rightmost⟩ := rest.exists_rightmost
    have right := Item.right_eq_of_next? next
    rw [Item.right, Item.before, Item.right, rule_of_getElem? found] at right
    -- First the rule of the item, then all that follows the marker.
    have stepped := derivation.trans step
    rw [right] at stepped
    have onward := (rightmost.append_left
      (v ++ r.right.take i.marker ++ [.nonterminal (g.rule q).left])).append_right z
    have exchanged : RightmostDerivation g.rules (ids ++ [i.rule] ++ rest_ids) [.nonterminal .start]
        (v ++ r.right.take i.marker ++ .nonterminal (g.rule q).left :: (y ++ z).map .terminal) := by
      refine RightmostDerivation.trans (by simpa using stepped) (by simpa using onward)
    exact ⟨g.rule q, _, y ++ z, exchanges_of (getElem?_rule known) exchanged, Nat.zero_le _,
      by simp, first.symm⟩
  | @advance w i x _ next ih =>
    obtain ⟨r, v, z, exchanges, _, rfl, lookahead⟩ := ih
    have found := exchanges.1
    have inside : i.marker < r.right.length := by
      have marked := (List.getElem?_eq_some_iff.mp next).1
      rwa [Item.right, rule_of_getElem? found] at marked
    have symbol : r.right[i.marker]? = some x := by
      rw [← rule_of_getElem? found]
      exact next
    rw [fits.advance_eq next]
    refine ⟨r, v, z, exchanges, inside, ?_, lookahead⟩
    rw [List.take_add_one, symbol, Option.toList_some, List.append_assoc]

theorem Augmented.valid_iff_arises (augmented : g.Augmented) (fits : g.MarkersFit)
    (productive : g.AllProductive) {w : List Symbol} {i : Item} : Valid g w i ↔ i.Arises g w :=
  ⟨augmented.arises_of_valid fits productive, augmented.valid_of_arises fits⟩

/-- A string that can be read can be read in part. -/
theorem exists_valid_of_append {w v : List Symbol} (valid : ∃ i, Valid g (w ++ v) i) :
    ∃ i, Valid g w i := by
  induction v using List.reverseRecOn with
  | nil => simpa using valid
  | append_singleton v x ih =>
    obtain ⟨i, valid⟩ := valid
    rw [← List.append_assoc] at valid
    obtain ⟨j, earlier, _⟩ := valid.exists_next
    exact ih ⟨j, earlier⟩

theorem Augmented.exists_valid_iff_viablePrefix (augmented : g.Augmented) (fits : g.MarkersFit)
    (productive : g.AllProductive) {w : List Symbol} :
    (∃ i, Valid g w i) ↔ g.ViablePrefix w := by
  constructor
  · rintro ⟨i, valid⟩
    obtain ⟨r, v, z, exchanges, _, rfl, _⟩ := augmented.arises_of_valid fits productive valid
    exact ⟨i.rule, r, v, z, exchanges, List.prefix_append_right_inj v |>.mpr (List.take_prefix _ _)⟩
  · -- The complete item is valid where the right side ends, so all that is before can be read.
    rintro ⟨id, r, v, z, exchanges, rest, whole⟩
    have complete := augmented.valid_of_exchanges fits exchanges (List.append_nil r.right).symm
    rw [← whole] at complete
    exact exists_valid_of_append ⟨_, complete⟩

end Grammar

/-! ### Where numbers run out -/

section Limits

variable {g : Grammar} {n : Nat} {w : List Symbol}

/-- A viable prefix is part of a string that the reserved nonterminal derives. -/
theorem Grammar.ViablePrefix.exists_derives (viable : g.ViablePrefix w) :
    ∃ v, w <+: v ∧ Derives g.rules [.nonterminal .start] v ∧ ∃ r ∈ g.rules, r.left = .start := by
  obtain ⟨id, r, v, z, ⟨found, ⟨ids, derivation⟩, step⟩, part⟩ := viable
  refine ⟨_, part.trans (List.prefix_append _ _), (derivation.trans step).derives, ?_⟩
  -- The first step exchanges the reserved nonterminal.
  rcases derivation.derives.of_nonterminal with same | ⟨r', member, left, _⟩
  · obtain ⟨_, left, _⟩ := eq_nil_of_singleton same.symm
    exact ⟨r, List.mem_of_getElem? found, Symbol.nonterminal.inj left⟩
  · exact ⟨r', member, left⟩

theorem Examples.Repeats.length_le_of_viablePrefix (repeats : Repeats g n) (positive : 0 < n)
    (viable : g.ViablePrefix w) : w.length ≤ n := by
  obtain ⟨v, part, derivation, _⟩ := viable.exists_derives
  exact Nat.le_trans part.length_le (repeats.length_le_of_derives positive derivation)

theorem Examples.Fronted.not_viablePrefix (fronted : Fronted g n) : ¬ g.ViablePrefix w := by
  intro viable
  obtain ⟨_, _, _, r, member, left⟩ := viable.exists_derives
  exact fronted.left_ne_start member left

end Limits

namespace Grammar

variable {g : Grammar}

/-! ### Automata -/

end Grammar

end CanonicalLR
