import CanonicalLR.Item.Validity
import CanonicalLR.Proofs.Derivations
import CanonicalLR.Proofs.PlainDefinitions

/-!
# Right sides that the markers do not suffice for

On a right side with at least as many symbols as there are markers, the marker never comes to the
end: after its last number it is at the front again. The items of such a rule are never complete,
and reading goes on where the rule has ended.

Two families of grammars show this. In the first one the start symbol stands for so many terminals
of either of two kinds. In the second one it stands for so many nonterminals that vanish, so that
nothing has to be read to go round.
-/
namespace CanonicalLR

/-! ### The item of rule 0 -/

namespace Grammar.Augmented

variable {g : Grammar} {a : TerminalId} (augmented : g.Augmented)

include augmented

theorem next?_front : Item.next? g ⟨.accept, 0, a⟩ = some (.nonterminal g.start) := by
  rw [Item.next?, Item.right, augmented.rule_accept]
  rfl

theorem afterNext_front : Item.afterNext g ⟨.accept, 0, a⟩ = [] := by
  rw [Item.afterNext, Item.right, augmented.rule_accept]
  rfl

theorem next?_accepted : Item.next? g ⟨.accept, 1, a⟩ = none := by
  rw [Item.next?, Item.right, augmented.rule_accept]
  rfl

end Grammar.Augmented

namespace Examples

/-- The start symbol stands for so many times the same symbol. -/
def repetition (n : Nat) (x : Symbol) : Rule := ⟨1, List.replicate n x, none, none⟩

def repetitions (n : Nat) : List Declaration :=
  plain ["a", "b"] ["S"] [repetition n (.terminal 3), repetition n (.terminal 4)]

def vanishing (n : Nat) : List Declaration :=
  plain [] ["S", "B"] [repetition n (.nonterminal 2), ⟨2, [], none, none⟩]

/-- A grammar whose start symbol stands for so many terminals of either of two kinds. -/
structure Repeats (g : Grammar) (n : Nat) : Prop extends g.Augmented where
  start : g.start = 1
  rules : g.rules = [.accepting 1, repetition n (.terminal 3), repetition n (.terminal 4)]

/-- A grammar whose start symbol stands for so many nonterminals that vanish. -/
structure Vanishes (g : Grammar) (n : Nat) : Prop extends g.Augmented where
  start : g.start = 1
  rules : g.rules = [.accepting 1, repetition n (.nonterminal 2), ⟨2, [], none, none⟩]
  silent : g.warnings = []

variable {g : Grammar} {n j k m : Nat} {a : TerminalId} {w : List Symbol} {i : Item}

/-- On a long right side a symbol comes after every marker. -/
theorem marker_lt_of_long (long : markerNumbers ≤ n) (k : Nat) : k % markerNumbers < n :=
  Nat.lt_of_lt_of_le (Nat.mod_lt k (Nat.succ_pos _)) long

theorem eq_of_singleton_eq_replicate {x y : Symbol} {k : Nat} (same : [x] = List.replicate k y) :
    x = y :=
  List.eq_of_mem_replicate (same ▸ List.mem_cons_self)

/-- Of two rules the start symbol leads to, none is dropped, and there are numbers for both. There
is nothing to warn of if they mention no other nonterminals. -/
theorem exists_of_two {terminals nonterminals : List String} {r r' : Rule}
    (fits : Plain terminals nonterminals [r, r']) (reached : Reaches [r, r'] r.left r'.left) :
    ∃ g, Grammar.defineAccepted (plain terminals nonterminals [r, r']) = .ok g ∧ g.Augmented ∧
      g.start = r.left ∧ g.rules = [.accepting r.left, r, r'] ∧
      ((∀ n, .nonterminal n ∈ r.right ++ r'.right → n = r.left ∨ n = r'.left) →
        g.warnings = []) := by
  obtain ⟨g, defined, start, kept, rules, silent⟩ := fits.exists_grammar rfl
    (by simpa using ⟨.start, reached⟩)
  have numbers := (Grammar.numbersFit_iff defined).mpr (by
    rw [kept]
    exact Nat.succ_lt_succ (Nat.succ_lt_succ (Nat.succ_pos _)))
  have listed : g.rules = [.accepting r.left, r, r'] := rules
  refine ⟨g, defined, Grammar.augmented_of_defined defined numbers, start, listed, ?_⟩
  intro closed
  refine silent fun n reached => ?_
  -- What is reached is the start symbol or stands on one of the two right sides.
  have left : n = r.left ∨ n = r'.left := by
    cases reached with
    | start => exact .inl rfl
    | step rule _ mentioned =>
      refine closed n (List.mem_append.mpr ?_)
      rcases List.mem_pair.mp rule with rfl | rfl
      · exact .inl mentioned
      · exact .inr mentioned
  rcases left with rfl | rfl
  · exact ⟨r, by simp [listed], rfl⟩
  · exact ⟨r', by simp [listed], rfl⟩

theorem exists_repetitions (positive : 0 < n) :
    ∃ g, Grammar.defineAccepted (repetitions n) = .ok g ∧ Repeats g n := by
  have bounds (j : Nat) (either : j < 2) : (repetition n (.terminal (j + 3))).Over 2 1 :=
    ⟨Nat.one_pos, Nat.le_refl 1, fun _ member => .inr ⟨j, List.eq_of_mem_replicate member, either⟩,
      rfl⟩
  have fits : Plain ["a", "b"] ["S"] [repetition n (.terminal 3), repetition n (.terminal 4)] := {
    terminals_identifiers := by decide
    terminals_apart := by decide
    nonterminals_identifiers := by decide
    nonterminals_apart := by decide
    rules_over := by simpa using ⟨bounds 0 (by decide), bounds 1 (by decide)⟩
    rules_apart := by simp [repetition, Rule.sides, Nat.ne_of_gt positive] }
  obtain ⟨g, defined, augmented, start, rules, _⟩ := exists_of_two fits .start
  exact ⟨g, defined, { augmented with start := start, rules := rules }⟩

theorem exists_vanishing (positive : 0 < n) :
    ∃ g, Grammar.defineAccepted (vanishing n) = .ok g ∧ Vanishes g n := by
  have long : (repetition n (.nonterminal 2)).Over 0 2 :=
    ⟨Nat.one_pos, Nat.le_succ 1,
      fun _ member => .inl ⟨1, List.eq_of_mem_replicate member, Nat.one_lt_two⟩, rfl⟩
  have empty : Rule.Over ⟨2, [], none, none⟩ 0 2 := ⟨by decide, by decide, nofun, rfl⟩
  have fits : Plain [] ["S", "B"] [repetition n (.nonterminal 2), ⟨2, [], none, none⟩] := {
    terminals_identifiers := by decide
    terminals_apart := by decide
    nonterminals_identifiers := by decide
    nonterminals_apart := by decide
    rules_over := by simpa using ⟨long, empty⟩
    rules_apart := by simp [repetition, Rule.sides] }
  obtain ⟨g, defined, augmented, start, rules, silent⟩ := exists_of_two fits
    (.step List.mem_cons_self .start (by simp [repetition, Nat.ne_of_gt positive]))
  refine ⟨g, defined, { augmented with start := start, rules := rules, silent := silent ?_ }⟩
  intro m mentioned
  rw [List.append_nil] at mentioned
  exact .inr (Symbol.nonterminal.inj (List.eq_of_mem_replicate mentioned))

/-! ### Terminals again and again -/

namespace Repeats

variable (repeats : Repeats g n)

include repeats

theorem known (either : j < 2) : j + 1 < g.rules.length := by
  rw [repeats.rules]
  exact Nat.succ_lt_succ either

theorem rule_repetition (either : j < 2) :
    g.rule (j + 1) = repetition n (.terminal (j + 3)) := by
  refine Grammar.rule_of_getElem? ?_
  rw [repeats.rules]
  match j with
  | 0 | 1 => rfl

theorem rule_cases {q : RuleId} (known : q < g.rules.length) :
    q = .accept ∨ ∃ j < 2, q = j + 1 := by
  rw [repeats.rules] at known
  match q, known with
  | 0, _ => exact .inl rfl
  | 1, _ => exact .inr ⟨0, by decide, rfl⟩
  | 2, _ => exact .inr ⟨1, by decide, rfl⟩

theorem next?_repetition (either : j < 2) (inside : m < n) :
    Item.next? g ⟨j + 1, m, a⟩ = some (.terminal (j + 3)) := by
  rw [Item.next?, Item.right, repeats.rule_repetition either]
  exact List.getElem?_replicate_of_lt inside

/-- After any number of one of the terminals the marker is at that number, up to a multiple of how
many markers there are. -/
theorem valid_iff (long : markerNumbers ≤ n) : Valid g w i ↔
    w = [] ∧ i = ⟨.accept, 0, .eoi⟩ ∨ w = [.nonterminal g.start] ∧ i = ⟨.accept, 1, .eoi⟩ ∨
      ∃ j < 2, ∃ k, w = List.replicate k (.terminal (j + 3)) ∧
        i = ⟨j + 1, k % markerNumbers, .eoi⟩ := by
  have bounded := marker_lt_of_long long
  constructor
  · -- By induction on how an item becomes valid. Only at the start is a nonterminal next.
    intro valid
    induction valid with
    | start => exact .inl ⟨rfl, rfl⟩
    | predict _ known next begins ih =>
      rcases ih with ⟨rfl, rfl⟩ | ⟨rfl, rfl⟩ | ⟨j, either, k, rfl, rfl⟩
      · -- Only the end of the input follows the start symbol.
        obtain rfl := begins_terminal.mp (repeats.afterNext_front ▸ begins)
        rw [repeats.next?_front, repeats.start] at next
        rcases repeats.rule_cases known with rfl | ⟨j, either, rfl⟩
        · rw [repeats.rule_accept] at next
          cases next
        · exact .inr (.inr ⟨j, either, 0, rfl, rfl⟩)
      · rw [repeats.next?_accepted] at next
        cases next
      · rw [repeats.next?_repetition either (bounded k)] at next
        cases next
    | advance _ next ih =>
      rcases ih with ⟨rfl, rfl⟩ | ⟨rfl, rfl⟩ | ⟨j, either, k, rfl, rfl⟩
      · rw [repeats.next?_front] at next
        cases next
        exact .inr (.inl ⟨rfl, rfl⟩)
      · rw [repeats.next?_accepted] at next
        cases next
      · rw [repeats.next?_repetition either (bounded k)] at next
        cases next
        refine .inr (.inr ⟨j, either, k + 1, List.replicate_succ'.symm, ?_⟩)
        simp [Item.advance]
  · rintro (⟨rfl, rfl⟩ | ⟨rfl, rfl⟩ | ⟨j, either, k, rfl, rfl⟩)
    · exact .start
    · exact .advance .start repeats.next?_front
    · induction k with
      | zero =>
        refine .predict .start (repeats.known either) ?_ ?_
        · rw [repeats.next?_front, repeats.start, repeats.rule_repetition either]
          rfl
        · rw [repeats.afterNext_front]
          exact begins_terminal.mpr rfl
      | succ k ih =>
        -- The right side is never at its end, so there is one terminal more.
        have onward := Valid.advance ih (repeats.next?_repetition either (bounded k))
        rw [List.replicate_succ']
        simpa [Item.advance] using onward

/-- After some of the terminals there is one valid item. -/
theorem valid_replicate_iff (long : markerNumbers ≤ n) (either : j < 2) (positive : 0 < k) :
    Valid g (List.replicate k (.terminal (j + 3))) i ↔ i = ⟨j + 1, k % markerNumbers, .eoi⟩ := by
  rw [repeats.valid_iff long]
  constructor
  · rintro (⟨nothing, _⟩ | ⟨start, _⟩ | ⟨j', _, k', same, rfl⟩)
    · exact absurd (List.replicate_eq_nil_iff _ |>.mp nothing) (Nat.ne_of_gt positive)
    · cases eq_of_singleton_eq_replicate start.symm
    · obtain ⟨rfl, symbols⟩ := List.replicate_inj.mp same
      have terminals := Symbol.terminal.inj (symbols.resolve_left (Nat.ne_of_gt positive))
      obtain rfl := Nat.add_right_cancel terminals
      rfl
  · rintro rfl
    exact .inr (.inr ⟨j, either, k, rfl, rfl⟩)

theorem completesAlone (long : markerNumbers ≤ n) : g.CompletesAlone := by
  intro w i i' valid valid' complete
  rcases (repeats.valid_iff long).mp valid with ⟨rfl, rfl⟩ | ⟨rfl, rfl⟩ | ⟨j, either, k, rfl, rfl⟩
  · rw [repeats.next?_front] at complete
    cases complete
  · -- Only after the start symbol is something complete, and there is nothing else then.
    rcases (repeats.valid_iff long).mp valid' with ⟨nothing, _⟩ | ⟨_, rfl⟩ | ⟨j, _, k, same, _⟩
    · cases nothing
    · exact .inl rfl
    · cases eq_of_singleton_eq_replicate same
  · rw [repeats.next?_repetition either (marker_lt_of_long long k)] at complete
    cases complete

theorem derives_cases {v : List Symbol} (derivation : Derives g.rules [.nonterminal g.start] v) :
    v = [.nonterminal g.start] ∨ ∃ j < 2, v = List.replicate n (.terminal (j + 3)) := by
  rcases derivation.of_nonterminal with same | ⟨r, member, left, onward⟩
  · exact .inl same
  · obtain ⟨q, found⟩ := List.getElem?_of_mem member
    have known := (List.getElem?_eq_some_iff.mp found).1
    obtain rfl := Grammar.rule_of_getElem? found
    rw [repeats.start] at left
    rcases repeats.rule_cases known with rfl | ⟨j, either, rfl⟩
    · rw [repeats.rule_accept] at left
      cases left
    · -- Terminals derive nothing but themselves.
      rw [repeats.rule_repetition either, repetition, ← List.map_replicate] at onward
      exact .inr ⟨j, either, by rw [onward.eq_of_terminals, List.map_replicate]⟩

theorem sentence_iff {s : List TerminalId} :
    g.Sentence s ↔ ∃ j < 2, s = List.replicate n (j + 3) := by
  rw [Grammar.Sentence]
  constructor
  · intro derivation
    rcases repeats.derives_cases derivation with same | ⟨j, either, same⟩
    · refine absurd ?_ (nonterminal_not_mem_terminals (n := g.start) (w := s))
      rw [same]
      exact List.mem_cons_self
    · rw [← List.map_replicate] at same
      exact ⟨j, either, eq_of_map_terminal same⟩
  · rintro ⟨j, either, rfl⟩
    have derivation := Derives.of_rule (Grammar.rule_mem (repeats.known either))
    rw [repeats.rule_repetition either] at derivation
    rw [repeats.start, List.map_replicate]
    exact derivation

/-- No sentence has one of the terminals more. -/
theorem not_prefix_of_sentence {s : List TerminalId} (sentence : g.Sentence s) :
    ¬ List.replicate n 3 ++ [3] <+: s ++ [.eoi] := by
  obtain ⟨j, _, rfl⟩ := repeats.sentence_iff.mp sentence
  intro start
  have same := start.eq_of_length (by simp)
  cases List.singleton_inj.mp (List.append_inj' same rfl).2

theorem allProductive : g.AllProductive := by
  have start : Productive g.rules g.start := by
    refine ⟨List.replicate n (0 + 3), repeats.sentence_iff.mpr ⟨0, Nat.zero_lt_two, rfl⟩⟩
  refine Grammar.allProductive_of_single start fun r member x mentioned => ?_
  rw [repeats.rules] at member
  simp only [List.mem_cons, List.not_mem_nil, or_false] at member
  rcases member with rfl | rfl | rfl
  · rw [repeats.start]
    exact .inr (List.mem_singleton.mp mentioned)
  · rw [List.eq_of_mem_replicate mentioned]
    exact .inl rfl
  · rw [List.eq_of_mem_replicate mentioned]
    exact .inl rfl

theorem length_le_of_mem (positive : 0 < n) {r : Rule} (member : r ∈ g.rules) :
    r.right.length ≤ n := by
  rw [repeats.rules] at member
  simp only [List.mem_cons, List.not_mem_nil, or_false] at member
  rcases member with rfl | rfl | rfl
  · exact positive
  · exact Nat.le_of_eq List.length_replicate
  · exact Nat.le_of_eq List.length_replicate

theorem length_le_of_derives (positive : 0 < n) {v : List Symbol}
    (derivation : Derives g.rules [.nonterminal .start] v) : v.length ≤ n := by
  rcases derivation.of_nonterminal with rfl | ⟨r, member, left, onward⟩
  · exact positive
  · -- Only rule 0 is for the reserved nonterminal.
    obtain ⟨q, found⟩ := List.getElem?_of_mem member
    obtain rfl := repeats.accept_of_left found left
    obtain rfl := repeats.eq_accepting found
    rcases repeats.derives_cases onward with rfl | ⟨j, _, rfl⟩
    · exact positive
    · exact Nat.le_of_eq List.length_replicate

theorem length_of_canonical (canonical : Canonical g w i) :
    w.length = i.marker ∧ i.marker ≤ (i.right g).length := by
  induction canonical with
  | start => exact ⟨rfl, Nat.zero_le _⟩
  | @predict w i q b _ _ next _ ih =>
    -- Only before anything is read is a nonterminal next.
    suffices front : i.marker = 0 from ⟨ih.1.trans front, Nat.zero_le _⟩
    have inside := Item.marker_lt_of_next? next
    have mentioned := Item.next?_mem next
    rw [Item.right] at inside mentioned
    rcases repeats.rule_cases (Item.rule_known_of_next? next) with accepting | ⟨j, either, same⟩
    · rw [accepting, repeats.rule_accept] at inside
      exact Nat.lt_one_iff.mp inside
    · rw [same, repeats.rule_repetition either] at mentioned
      cases List.eq_of_mem_replicate mentioned
  | advance _ next ih =>
    exact ⟨by rw [List.length_append, ih.1]; rfl, Item.marker_lt_of_next? next⟩

/-- In the canonical collection nothing is read beyond the end of a right side. -/
theorem length_le_of_canonical (positive : 0 < n) (canonical : Canonical g w i) :
    w.length ≤ n := by
  obtain ⟨read, inside⟩ := repeats.length_of_canonical canonical
  rw [← read] at inside
  rcases Nat.lt_or_ge i.rule g.rules.length with known | unknown
  · exact Nat.le_trans inside (repeats.length_le_of_mem positive (Grammar.rule_mem known))
  · rw [Item.right_of_unknown unknown] at inside
    exact Nat.le_trans inside (Nat.zero_le n)

end Repeats

/-! ### Nonterminals that vanish -/

namespace Vanishes

variable (vanishes : Vanishes g n)

include vanishes

theorem rule_long : g.rule 1 = repetition n (.nonterminal 2) :=
  Grammar.rule_of_getElem? (by rw [vanishes.rules]; rfl)

theorem rule_empty : g.rule 2 = ⟨2, [], none, none⟩ :=
  Grammar.rule_of_getElem? (by rw [vanishes.rules]; rfl)

theorem rule_cases {q : RuleId} (known : q < g.rules.length) :
    q = .accept ∨ q = 1 ∨ q = 2 := by
  rw [vanishes.rules] at known
  match q, known with
  | 0, _ => exact .inl rfl
  | 1, _ => exact .inr (.inl rfl)
  | 2, _ => exact .inr (.inr rfl)

theorem next?_long (inside : m < n) : Item.next? g ⟨1, m, a⟩ = some (.nonterminal 2) := by
  rw [Item.next?, Item.right, vanishes.rule_long]
  exact List.getElem?_replicate_of_lt inside

theorem next?_empty : Item.next? g ⟨2, 0, a⟩ = none := by
  rw [Item.next?, Item.right, vanishes.rule_empty]
  rfl

theorem derives_nil (m : Nat) : Derives g.rules (List.replicate m (.nonterminal 2)) [] := by
  induction m with
  | zero => exact .refl []
  | succ m ih =>
    have empty : (⟨2, [], none, none⟩ : Rule) ∈ g.rules := by simp [vanishes.rules]
    exact Derives.append (Derives.of_rule empty) ih

/-- Nothing that is derived begins with a terminal. -/
theorem not_begins {t : TerminalId} (m : Nat) :
    ¬ Begins g.rules (List.replicate m (.nonterminal 2)) t := by
  rintro ⟨rest, derivation⟩
  rcases derivation.symbol_mem List.mem_cons_self with given | ⟨r, member, mentioned⟩
  · cases List.eq_of_mem_replicate given
  · -- No right side mentions a terminal.
    rw [vanishes.rules] at member
    simp only [List.mem_cons, List.not_mem_nil, or_false] at member
    rcases member with rfl | rfl | rfl
    · cases List.eq_of_mem_singleton mentioned
    · cases List.eq_of_mem_replicate mentioned
    · cases mentioned

theorem begins_iff {t b : TerminalId} (m : Nat) :
    Begins g.rules (List.replicate m (.nonterminal 2) ++ [.terminal t]) b ↔ b = t := by
  rw [begins_append, begins_terminal]
  constructor
  · rintro (begins | ⟨_, same⟩)
    · exact absurd begins (vanishes.not_begins m)
    · exact same
  · exact fun same => .inr ⟨vanishes.derives_nil m, same⟩

theorem afterNext_long : ∃ m, Item.afterNext g ⟨1, k, a⟩ = List.replicate m (.nonterminal 2) := by
  rw [Item.afterNext, Item.right, vanishes.rule_long]
  exact ⟨_, List.drop_replicate⟩

/-- After any number of the nonterminals there is the one item whose marker is at that number, up to
a multiple of how many markers there are, and the one that one more of them has vanished. -/
theorem valid_iff (long : markerNumbers ≤ n) : Valid g w i ↔
    w = [] ∧ i = ⟨.accept, 0, .eoi⟩ ∨ w = [.nonterminal g.start] ∧ i = ⟨.accept, 1, .eoi⟩ ∨
      ∃ k, w = List.replicate k (.nonterminal 2) ∧
        (i = ⟨1, k % markerNumbers, .eoi⟩ ∨ i = ⟨2, 0, .eoi⟩) := by
  have bounded := marker_lt_of_long long
  constructor
  · intro valid
    induction valid with
    | start => exact .inl ⟨rfl, rfl⟩
    | predict _ known next begins ih =>
      rcases ih with ⟨rfl, rfl⟩ | ⟨rfl, rfl⟩ | ⟨k, rfl, rfl | rfl⟩
      · obtain rfl := begins_terminal.mp (vanishes.afterNext_front ▸ begins)
        rw [vanishes.next?_front, vanishes.start] at next
        rcases vanishes.rule_cases known with rfl | rfl | rfl
        · rw [vanishes.rule_accept] at next
          cases next
        · exact .inr (.inr ⟨0, rfl, .inl rfl⟩)
        · rw [vanishes.rule_empty] at next
          cases next
      · rw [vanishes.next?_accepted] at next
        cases next
      · -- What is left of the right side vanishes too.
        obtain ⟨m, rest⟩ := vanishes.afterNext_long (k := k % markerNumbers) (a := .eoi)
        obtain rfl := (vanishes.begins_iff m).mp (rest ▸ begins)
        rw [vanishes.next?_long (bounded k)] at next
        rcases vanishes.rule_cases known with rfl | rfl | rfl
        · rw [vanishes.rule_accept] at next
          cases next
        · rw [vanishes.rule_long] at next
          cases next
        · exact .inr (.inr ⟨k, rfl, .inr rfl⟩)
      · rw [vanishes.next?_empty] at next
        cases next
    | advance _ next ih =>
      rcases ih with ⟨rfl, rfl⟩ | ⟨rfl, rfl⟩ | ⟨k, rfl, rfl | rfl⟩
      · rw [vanishes.next?_front] at next
        cases next
        exact .inr (.inl ⟨rfl, rfl⟩)
      · rw [vanishes.next?_accepted] at next
        cases next
      · rw [vanishes.next?_long (bounded k)] at next
        cases next
        refine .inr (.inr ⟨k + 1, List.replicate_succ'.symm, .inl ?_⟩)
        simp [Item.advance]
      · rw [vanishes.next?_empty] at next
        cases next
  · -- The marker goes round by itself, and everywhere on the way one more is predicted to vanish.
    have around (k : Nat) : Valid g (List.replicate k (.nonterminal 2))
        ⟨1, k % markerNumbers, .eoi⟩ := by
      induction k with
      | zero =>
        refine .predict .start ?_ ?_ ?_
        · rw [vanishes.rules]
          exact Nat.one_lt_succ_succ 1
        · rw [vanishes.next?_front, vanishes.start, vanishes.rule_long]
          rfl
        · rw [vanishes.afterNext_front]
          exact begins_terminal.mpr rfl
      | succ k ih =>
        have onward := Valid.advance ih (vanishes.next?_long (bounded k))
        rw [List.replicate_succ']
        simpa [Item.advance] using onward
    rintro (⟨rfl, rfl⟩ | ⟨rfl, rfl⟩ | ⟨k, rfl, rfl | rfl⟩)
    · exact .start
    · exact .advance .start vanishes.next?_front
    · exact around k
    · refine .predict (around k) ?_ ?_ ?_
      · rw [vanishes.rules]
        exact Nat.lt_succ_self 2
      · rw [vanishes.next?_long (bounded k), vanishes.rule_empty]
      · obtain ⟨m, rest⟩ := vanishes.afterNext_long (k := k % markerNumbers) (a := .eoi)
        rw [rest]
        exact (vanishes.begins_iff m).mpr rfl

theorem completesAlone (long : markerNumbers ≤ n) : g.CompletesAlone := by
  intro w i i' valid valid' complete
  rcases (vanishes.valid_iff long).mp valid with ⟨rfl, rfl⟩ | ⟨rfl, rfl⟩ | ⟨k, rfl, rfl | rfl⟩
  · rw [vanishes.next?_front] at complete
    cases complete
  · rcases (vanishes.valid_iff long).mp valid' with ⟨nothing, _⟩ | ⟨_, rfl⟩ | ⟨k, same, _⟩
    · cases nothing
    · exact .inl rfl
    · rw [vanishes.start] at same
      cases eq_of_singleton_eq_replicate same
  · rw [vanishes.next?_long (marker_lt_of_long long k)] at complete
    cases complete
  · rcases (vanishes.valid_iff long).mp valid' with ⟨_, rfl⟩ | ⟨same, _⟩ | ⟨k', _, rfl | rfl⟩
    · exact .inr ⟨_, vanishes.next?_front⟩
    · rw [vanishes.start] at same
      cases eq_of_singleton_eq_replicate same.symm
    · exact .inr ⟨_, vanishes.next?_long (marker_lt_of_long long k')⟩
    · exact .inl rfl

theorem allProductive : g.AllProductive := by
  have empty : Productive g.rules 2 := ⟨[], vanishes.derives_nil 1⟩
  have start : Productive g.rules 1 := by
    refine Productive.of_rule (r := repetition n (.nonterminal 2)) (by simp [vanishes.rules]) ?_
    intro m mentioned
    obtain rfl := Symbol.nonterminal.inj (List.eq_of_mem_replicate mentioned)
    exact empty
  refine Grammar.allProductive_of_right fun r member m mentioned => ?_
  rw [vanishes.rules] at member
  simp only [List.mem_cons, List.not_mem_nil, or_false] at member
  rcases member with rfl | rfl | rfl
  · obtain rfl := Symbol.nonterminal.inj (List.mem_singleton.mp mentioned)
    exact start
  · obtain rfl := Symbol.nonterminal.inj (List.eq_of_mem_replicate mentioned)
    exact empty
  · cases mentioned

end Vanishes

end Examples

end CanonicalLR
