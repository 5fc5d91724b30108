import CanonicalLR.Examples.Small
import CanonicalLR.Grammar.Reachability
import CanonicalLR.Proofs.DeclarationRecords
import CanonicalLR.Proofs.Derivations

/-!
# What finishing a grammar drops

A finished grammar keeps the declared rules whose left side can be reached from the start symbol,
and no derivation from the start symbol has a use for the others: a step keeps every nonterminal of
the string reachable, so each rule that it uses is kept. The rule that is added makes no difference,
for its left side is on no declared right side. The warnings of finishing can be told from those of
the declarations, and a nonterminal is known by its name, since no name is taken twice.
-/
namespace CanonicalLR

instance {rules : List Rule} {start : NonterminalId} : DecidablePred (Reaches rules start) :=
  fun _ => decidable_of_iff _ mem_reachable

namespace Warning

def isUnreachableRules : Warning → Bool
  | unreachableRules _ => true
  | _ => false

/-- Declarations give no warning of this kind. -/
def OfFinishing : Warning → Prop
  | unreachableRules _ | nonterminalWithoutRules _ => True
  | _ => False

theorem ofFinishing_of_isUnreachableRules {w : Warning}
    (unreachable : w.isUnreachableRules = true) : w.OfFinishing := by
  cases w with
  | unreachableRules => trivial
  | _ => cases unreachable

end Warning

/-- A grammar keeps those of some declared rules that can be reached from its start symbol. It warns
of all the others together and of each reachable nonterminal that has no rules, and generates what
the declared rules do. -/
structure Prunes (declared : List Rule) (g : Grammar) : Prop where
  rules : g.rules = .accepting g.start :: declared.filter fun r => Reaches declared g.start r.left
  dropped : g.warnings.filter Warning.isUnreachableRules =
    let others := declared.filter fun r => ¬ Reaches declared g.start r.left
    if others = [] then [] else [.unreachableRules (others.map g.ruleText)]
  reached_known : ∀ n, Reaches declared g.start n → n < g.nonterminals.length
  without_rules : ∀ n < g.nonterminals.length,
    g.warnings.count (.nonterminalWithoutRules (g.nonterminalName n)) =
      if Reaches declared g.start n ∧ ∀ r ∈ g.rules, r.left ≠ n then 1 else 0
  of_nonterminal : ∀ name, .nonterminalWithoutRules name ∈ g.warnings →
    ∃ n < g.nonterminals.length, g.nonterminalName n = name
  language : ∀ u : List Symbol,
    Derives declared [.nonterminal g.start] u ↔ Derives g.rules [.nonterminal g.start] u

/-! ### What declarations leave -/

namespace Builder

variable {b b' : Builder} {d : Declaration} {answer : CanonicalLR.Declared}

theorem Accepts.not_ofFinishing (accepts : b.Accepts d answer b')
    (declared : ∀ w ∈ b.warnings, ¬ w.OfFinishing) : ∀ w ∈ b'.warnings, ¬ w.OfFinishing := by
  have more (w : Warning) (other : ¬ w.OfFinishing) :
      ∀ w' ∈ b.warnings ++ [w], ¬ w'.OfFinishing := by
    intro w' member
    rcases List.mem_append.mp member with old | new
    · exact declared w' old
    · obtain rfl := List.mem_singleton.mp new
      exact other
  cases accepts with
  | unknownAssoc | duplicate | unknownTerminal => exact more _ id
  | @typeTag symbol => cases symbol <;> exact declared
  | terminal | nonterminal | precedence | rule | action | precedenceOf | start => exact declared

theorem attemptAll_not_ofFinishing (ds : List Declaration) :
    ∀ w ∈ (initial.attemptAll ds).2.warnings, ¬ w.OfFinishing :=
  attemptAll_induction (fun b => ∀ w ∈ b.warnings, ¬ w.OfFinishing)
    (fun _ _ _ _ declared accepts => accepts.not_ofFinishing declared) (by simp [initial]) ds

end Builder

/-! ### The language -/

section Language

variable {declared : List Rule} {start : NonterminalId} {u : List Symbol}

/-- Only reachable nonterminals are derived. -/
theorem reaches_of_derives (derivation : Derives declared [.nonterminal start] u)
    {n : NonterminalId} (member : .nonterminal n ∈ u) : Reaches declared start n := by
  induction derivation generalizing n with
  | refl =>
    obtain rfl := Symbol.nonterminal.inj (List.mem_singleton.mp member)
    exact .start
  | tail _ step ih =>
    obtain ⟨rule, before, after⟩ := step
    rcases List.mem_append.mp member with in_front | in_after
    · rcases List.mem_append.mp in_front with in_before | in_right
      · exact ih (by simp [in_before])
      · -- The nonterminal that is exchanged was reachable before.
        exact .step rule (ih (by simp)) in_right
    · exact ih (by simp [in_after])

/-- What can be had by the declared rules can be had by those that are reachable. -/
theorem derives_kept (derivation : Derives declared [.nonterminal start] u) :
    Derives (.accepting start :: declared.filter fun r => Reaches declared start r.left)
      [.nonterminal start] u := by
  induction derivation with
  | refl => exact .refl _
  | tail earlier step ih =>
    obtain ⟨rule, before, after⟩ := step
    have reached := reaches_of_derives earlier (List.mem_append_right before List.mem_cons_self)
    have kept := List.mem_filter (p := fun r => decide (Reaches declared start r.left)).mpr
      ⟨rule, decide_eq_true reached⟩
    exact Relation.ReflTransGen.tail ih (.exchange (List.mem_cons_of_mem _ kept) before after)

/-- The added rule yields nothing new where no declared rule mentions its left side. -/
theorem derives_declared (unmentioned : ∀ r ∈ declared, .nonterminal .start ∉ r.right)
    (derivation : Derives
      (.accepting start :: declared.filter fun r => Reaches declared start r.left)
      [.nonterminal start] u) : Derives declared [.nonterminal start] u := by
  induction derivation with
  | refl => exact .refl _
  | tail _ step ih =>
    obtain ⟨rule, before, after⟩ := step
    rcases List.mem_cons.mp rule with rfl | kept
    · -- Its left side is in the string only if it is the start symbol itself.
      have mentioned : .nonterminal .start ∈
          before ++ .nonterminal (Rule.accepting start).left :: after :=
        List.mem_append_right before List.mem_cons_self
      rcases ih.symbol_mem mentioned with given | ⟨r, declared_rule, on_right⟩
      · obtain rfl := Symbol.nonterminal.inj (List.mem_singleton.mp given)
        simpa [Rule.accepting] using ih
      · exact absurd on_right (unmentioned r declared_rule)
    · exact Relation.ReflTransGen.tail ih (.exchange (List.mem_filter.mp kept).1 before after)

end Language

/-! ### Finishing -/

namespace Vocabulary

variable {v : Vocabulary}

/-- Different nonterminals have different names. -/
theorem nonterminalName_inj (distinct : (v.nonterminals.map (·.name)).Nodup) {m n : NonterminalId}
    (m_known : m < v.nonterminals.length) (n_known : n < v.nonterminals.length)
    (same : v.nonterminalName m = v.nonterminalName n) : m = n := by
  rw [nonterminalName, nonterminalName, List.getElem?_eq_getElem m_known,
    List.getElem?_eq_getElem n_known] at same
  have inside : m < (v.nonterminals.map (·.name)).length := by simpa using m_known
  refine (List.getElem?_inj inside distinct).mp ?_
  simpa [m_known, n_known] using same

variable {reached : List NonterminalId} {rules : List Rule}

theorem mem_emptyWarnings {w : Warning} :
    w ∈ v.emptyWarnings reached rules ↔ ∃ n ∈ reached, (∀ r ∈ rules, r.left ≠ n) ∧
      w = .nonterminalWithoutRules (v.nonterminalName n) := by
  simp only [emptyWarnings, List.mem_map, List.mem_filter, List.all_eq_true, bne_iff_ne,
    and_assoc, eq_comm (a := w)]

theorem mem_droppedWarnings {dropped : List Rule} {w : Warning} :
    w ∈ v.droppedWarnings dropped ↔
      dropped ≠ [] ∧ w = .unreachableRules (dropped.map v.ruleText) := by
  cases dropped <;> simp [droppedWarnings]

theorem filter_droppedWarnings (dropped : List Rule) :
    (v.droppedWarnings dropped).filter Warning.isUnreachableRules =
      if dropped = [] then [] else [.unreachableRules (dropped.map v.ruleText)] := by
  cases dropped <;> rfl

/-- A nonterminal is warned of once, if at all. -/
theorem count_emptyWarnings (distinct : (v.nonterminals.map (·.name)).Nodup)
    (once : reached.Nodup) (known : ∀ n ∈ reached, n < v.nonterminals.length) {n : NonterminalId}
    (n_known : n < v.nonterminals.length) :
    (v.emptyWarnings reached rules).count (.nonterminalWithoutRules (v.nonterminalName n)) =
      if n ∈ reached ∧ ∀ r ∈ rules, r.left ≠ n then 1 else 0 := by
  have nodup : (v.emptyWarnings reached rules).Nodup := by
    refine List.Nodup.map_on ?_ (once.filter _)
    intro m in_reached m' in_reached' same
    exact nonterminalName_inj distinct (known m (List.mem_of_mem_filter in_reached))
      (known m' (List.mem_of_mem_filter in_reached')) (Warning.nonterminalWithoutRules.inj same)
  have member : .nonterminalWithoutRules (v.nonterminalName n) ∈ v.emptyWarnings reached rules ↔
      n ∈ reached ∧ ∀ r ∈ rules, r.left ≠ n := by
    rw [mem_emptyWarnings]
    constructor
    · rintro ⟨m, in_reached, none, same⟩
      obtain rfl := nonterminalName_inj distinct n_known (known m in_reached)
        (Warning.nonterminalWithoutRules.inj same)
      exact ⟨in_reached, none⟩
    · rintro ⟨in_reached, none⟩
      exact ⟨n, in_reached, none, rfl⟩
  rw [nodup.count]
  simp only [member]

end Vocabulary

namespace Builder

variable {b : Builder} {g : Grammar}

theorem grammar_of_finish (finished : b.finish = .ok g) :
    b.startSymbol? = some g.start ∧ g.start < b.nonterminals.length ∧
      g = b.grammar g.start b.rules b.warnings := by
  simp only [finish] at finished
  split at finished
  · cases finished
  next start found =>
    split at finished
    next known =>
      cases finished
      exact ⟨found, known, rfl⟩
    next => cases finished

/-- Declared rules lead only to declared nonterminals. -/
theorem Sound.known_of_reaches (sound : b.Sound) {start n : NonterminalId}
    (start_known : start < b.nonterminals.length) (reached : Reaches b.rules start n) :
    n < b.nonterminals.length := by
  cases reached with
  | start => exact start_known
  | step rule _ mentioned => exact (sound.rules_declared _ rule).right _ mentioned

theorem keptRules_eq {start : NonterminalId} (found : b.startSymbol? = some start) :
    b.keptRules = b.rules.filter fun r => Reaches b.rules start r.left := by
  simp only [keptRules, found, mem_reachable]

theorem rules_of_finish (finished : b.finish = .ok g) (fits : b.NumbersFit) :
    g.rules = .accepting g.start :: b.rules.filter fun r => Reaches b.rules g.start r.left := by
  have finishes := finishes_of_finish finished
  have room : [Rule.accepting g.start].length + b.keptRules.length ≤ ruleNumbers := by
    rw [List.length_singleton, Nat.add_comm]
    exact fits
  rw [finishes.rules, foldl_addRule room, List.singleton_append, keptRules_eq finishes.start]

/-- First the warnings of the declarations, then those of finishing. -/
theorem warnings_of_finish (finished : b.finish = .ok g) :
    g.warnings = b.warnings ++
      b.droppedWarnings (b.rules.filter fun r => ¬ Reaches b.rules g.start r.left) ++
      b.emptyWarnings (reachable b.rules g.start) g.rules := by
  obtain ⟨_, _, whole⟩ := grammar_of_finish finished
  rw [whole]
  simp only [Vocabulary.grammar, mem_reachable]

/-- The warning of dropped rules is not one of the declarations, nor one of a nonterminal. -/
theorem filter_warnings_of_finish (declared : ∀ w ∈ b.warnings, ¬ w.OfFinishing)
    (finished : b.finish = .ok g) :
    g.warnings.filter Warning.isUnreachableRules =
      let others := b.rules.filter fun r => ¬ Reaches b.rules g.start r.left
      if others = [] then [] else [.unreachableRules (others.map g.ruleText)] := by
  have none_declared : b.warnings.filter Warning.isUnreachableRules = [] := by
    apply List.filter_eq_nil_iff.mpr
    intro w member unreachable
    exact declared w member (Warning.ofFinishing_of_isUnreachableRules unreachable)
  have none_empty : (b.emptyWarnings (reachable b.rules g.start) g.rules).filter
      Warning.isUnreachableRules = [] := by
    apply List.filter_eq_nil_iff.mpr
    intro w member
    obtain ⟨n, _, _, rfl⟩ := Vocabulary.mem_emptyWarnings.mp member
    exact Bool.false_ne_true
  rw [warnings_of_finish finished, List.filter_append, List.filter_append, none_declared,
    none_empty, Vocabulary.filter_droppedWarnings, List.nil_append, List.append_nil,
    (finishes_of_finish finished).vocabulary]

theorem count_warnings_of_finish (declared : ∀ w ∈ b.warnings, ¬ w.OfFinishing)
    (finished : b.finish = .ok g) (name : String) :
    g.warnings.count (.nonterminalWithoutRules name) =
      (b.emptyWarnings (reachable b.rules g.start) g.rules).count
        (.nonterminalWithoutRules name) := by
  have not_declared : .nonterminalWithoutRules name ∉ b.warnings :=
    fun member => declared _ member trivial
  have not_dropped : .nonterminalWithoutRules name ∉
      b.droppedWarnings (b.rules.filter fun r => ¬ Reaches b.rules g.start r.left) :=
    fun member => nomatch (Vocabulary.mem_droppedWarnings.mp member).2
  rw [warnings_of_finish finished, List.count_append, List.count_append,
    List.count_eq_zero.mpr not_declared, List.count_eq_zero.mpr not_dropped, Nat.zero_add]

theorem prunes_of_finish (sound : b.Sound) (distinct : (b.nonterminals.map (·.name)).Nodup)
    (declared : ∀ w ∈ b.warnings, ¬ w.OfFinishing) (finished : b.finish = .ok g)
    (fits : b.NumbersFit) : Prunes b.rules g := by
  obtain ⟨_, start_known, _⟩ := grammar_of_finish finished
  have vocabulary := (finishes_of_finish finished).vocabulary
  have rules := rules_of_finish finished fits
  have known (n) (reached : Reaches b.rules g.start n) : n < b.nonterminals.length :=
    sound.known_of_reaches start_known reached
  have listed_known (n) (listed : n ∈ reachable b.rules g.start) : n < b.nonterminals.length :=
    known n (mem_reachable.mp listed)
  refine {
    rules := rules
    dropped := filter_warnings_of_finish declared finished
    reached_known := ?_, without_rules := ?_, of_nonterminal := ?_, language := ?_ }
  · rwa [vocabulary]
  · intro n n_known
    rw [vocabulary] at n_known ⊢
    rw [count_warnings_of_finish declared finished,
      Vocabulary.count_emptyWarnings distinct (nodup_reachable _ _) listed_known n_known]
    simp only [mem_reachable]
  · intro name member
    rw [← List.count_pos_iff, count_warnings_of_finish declared finished,
      List.count_pos_iff] at member
    obtain ⟨n, listed, _, same⟩ := Vocabulary.mem_emptyWarnings.mp member
    rw [vocabulary]
    exact ⟨n, listed_known n listed, (Warning.nonterminalWithoutRules.inj same).symm⟩
  · intro u
    rw [rules]
    exact ⟨derives_kept, derives_declared fun r rule => (sound.rules_declared r rule).start_not_mem⟩

end Builder

namespace Grammar

/-- The rules that some declarations declare, refused ones left out. -/
def declaredRules (ds : List Declaration) : List Rule := (Builder.initial.attemptAll ds).2.rules

/-- The start symbol that some declarations declare, or else the left side of the first rule. -/
def declaredStart? (ds : List Declaration) : Option NonterminalId :=
  (Builder.initial.attemptAll ds).2.startSymbol?

/-- Finishing keeps what can be reached from the start symbol, warns of the rest, and keeps the
language, as long as the rules have numbers of their own. -/
theorem finishing_prunes {ds : List Declaration} {g : Grammar} (defined : defineAccepted ds = .ok g)
    (fits : NumbersFit ds) : declaredStart? ds = some g.start ∧ Prunes (declaredRules ds) g :=
  ⟨(Builder.grammar_of_finish defined).1,
    Builder.prunes_of_finish (Builder.attemptAll_sound Builder.initial_sound ds)
      (Builder.attemptAll_records ds).nonterminal_names (Builder.attemptAll_not_ofFinishing ds)
      defined fits⟩

/-- Two rules for one nonterminal are dropped, and another nonterminal is left without rules. -/
theorem finishing_prunes_withGaps :
    let g := Examples.grammarOf Examples.withGaps
    defineAccepted Examples.withGaps = .ok g ∧ NumbersFit Examples.withGaps ∧
      declaredStart? Examples.withGaps = some g.start ∧
      Prunes (declaredRules Examples.withGaps) g ∧
      (declaredRules Examples.withGaps).length = 5 ∧ g.rules.length = 4 ∧
      g.warnings = [.unreachableRules ["U := b", "U := S"], .nonterminalWithoutRules "M"] := by
  intro g
  have defined : defineAccepted Examples.withGaps = .ok g := rfl
  have fits : NumbersFit Examples.withGaps := by decide +kernel
  obtain ⟨start, prunes⟩ := finishing_prunes defined fits
  exact ⟨defined, fits, start, prunes, by decide +kernel, by decide +kernel, by decide +kernel⟩

end Grammar

end CanonicalLR
