import CanonicalLR.Proofs.Pruning
import CanonicalLR.Proofs.Renumbering

/-!
# The order of declarations

Declaring the same productions in another order gives the kept rules other numbers. No production is
declared twice, and what is kept depends on the productions alone, so each kept rule is found again
under exactly one number of the other grammar. With that the automata and the tables correspond.
-/
namespace CanonicalLR

/-- Two lists of declarations leave the same precedences of terminals, the same start symbol and the
same productions, in whatever order. -/
structure Reordered (ds ds' : List Declaration) (g g' : Grammar) : Prop where
  precedences : g'.terminals.map (·.precedence) = g.terminals.map (·.precedence)
  start : g'.start = g.start
  productions : ∀ x, x ∈ (Grammar.declaredRules ds).map Rule.production ↔
    x ∈ (Grammar.declaredRules ds').map Rule.production

/-! ### Declared productions -/

/-- No production is declared twice. -/
theorem Builder.attemptAll_nodup_productions (ds : List Declaration) :
    ((initial.attemptAll ds).2.rules.map Rule.production).Nodup := by
  refine List.Nodup.of_map (fun x => (x.1, x.2.1)) ?_
  rw [List.map_map]
  exact (attemptAll_records ds).sides

/-! ### Kept productions -/

section Kept

variable {rules rules' : List Rule} {start : NonterminalId}

theorem sidesIn_of_productions
    (same : ∀ x ∈ rules.map Rule.production, x ∈ rules'.map Rule.production) :
    SidesIn rules rules' := by
  intro r member
  obtain ⟨r', member', equal⟩ := List.mem_map.mp (same _ (List.mem_map_of_mem member))
  exact ⟨r', member', congrArg Prod.fst equal, congrArg (fun x => x.2.1) equal⟩

theorem SidesIn.reaches (sides : SidesIn rules rules') {n : NonterminalId}
    (reached : Reaches rules start n) : Reaches rules' start n := by
  induction reached with
  | start => exact .start
  | step member _ mentioned ih =>
    obtain ⟨r', member', left, right⟩ := sides _ member
    exact .step member' (left ▸ ih) (right ▸ mentioned)

/-- What can be reached is kept in one grammar if it is kept in the other. -/
theorem mem_kept_productions
    (same : ∀ x, x ∈ rules.map Rule.production ↔ x ∈ rules'.map Rule.production)
    (x : NonterminalId × List Symbol × Option Precedence)
    (member : x ∈ (rules.filter fun r => Reaches rules start r.left).map Rule.production) :
    x ∈ (rules'.filter fun r => Reaches rules' start r.left).map Rule.production := by
  obtain ⟨r, kept, rfl⟩ := List.mem_map.mp member
  obtain ⟨declared, reached⟩ := List.mem_filter.mp kept
  obtain ⟨r', declared', equal⟩ :=
    List.mem_map.mp ((same _).mp (List.mem_map_of_mem declared))
  have left : r'.left = r.left := congrArg Prod.fst equal
  have reached' := (sidesIn_of_productions fun x => (same x).mp).reaches (of_decide_eq_true reached)
  exact List.mem_map.mpr ⟨r', List.mem_filter.mpr
    ⟨declared', decide_eq_true (left ▸ reached')⟩, equal⟩

theorem perm_kept_productions (start : NonterminalId)
    (distinct : (rules.map Rule.production).Nodup)
    (distinct' : (rules'.map Rule.production).Nodup)
    (same : ∀ x, x ∈ rules.map Rule.production ↔ x ∈ rules'.map Rule.production) :
    ((rules.filter fun r => Reaches rules start r.left).map Rule.production).Perm
      ((rules'.filter fun r => Reaches rules' start r.left).map Rule.production) := by
  refine (List.perm_ext_iff_of_nodup (distinct.sublist (List.filter_sublist.map _))
    (distinct'.sublist (List.filter_sublist.map _))).mpr fun x => ?_
  exact ⟨mem_kept_productions same x, mem_kept_productions (fun x => (same x).symm) x⟩

end Kept

/-! ### Numbers of kept productions -/

/-- Each production is found again where the other grammar has it. -/
theorem exists_renumbers {g g' : Grammar} (accept_known : RuleId.accept < g.rules.length)
    (perm : (g.rules.map Rule.production).Perm (g'.rules.map Rule.production))
    (distinct : (g.rules.map Rule.production).Nodup)
    (accept : (g'.rules.map Rule.production)[RuleId.accept]? = some (g.rule .accept).production) :
    ∃ p, Renumbers p g g' := by
  have distinct' := perm.nodup_iff.mp distinct
  have listed {h : Grammar} {id : RuleId} (known : id < h.rules.length) :
      (h.rules.map Rule.production)[id]? = some (h.rule id).production := by
    rw [List.getElem?_map, Grammar.getElem?_rule known, Option.map_some]
  let p (id : RuleId) : RuleId := (g'.rules.map Rule.production).idxOf (g.rule id).production
  have found {id : RuleId} (known : id < g.rules.length) :
      (g'.rules.map Rule.production)[p id]? = some (g.rule id).production :=
    List.getElem?_idxOf (perm.subset (List.mem_map_of_mem (Grammar.rule_mem known)))
  have inside {id : RuleId} (known : id < g.rules.length) : p id < g'.rules.length := by
    simpa using (List.getElem?_eq_some_iff.mp (found known)).1
  have production (id) (known : id < g.rules.length) :
      (g'.rule (p id)).production = (g.rule id).production :=
    Option.some.inj ((listed (inside known)).symm.trans (found known))
  -- A number is determined by the production that it is given to.
  have unique {h : Grammar} (once : (h.rules.map Rule.production).Nodup) {id id' : RuleId}
      (known : id < h.rules.length) (same : (h.rules.map Rule.production)[id]? =
        (h.rules.map Rule.production)[id']?) : id = id' :=
    (List.getElem?_inj (by simpa using known) once).mp same
  refine ⟨p, ⟨?_, ⟨fun id known => inside known, ?_, ?_⟩, production⟩⟩
  · exact unique distinct' (inside accept_known) ((found accept_known).trans accept.symm)
  · intro id known id' known' equal
    refine unique distinct known ?_
    rw [listed known, listed known', ← production id known, ← production id' known', equal]
  · intro id' known'
    have member := perm.symm.subset (List.mem_map_of_mem (Grammar.rule_mem known'))
    obtain ⟨r, in_rules, equal⟩ := List.mem_map.mp member
    obtain ⟨id, at_id⟩ := List.getElem?_of_mem in_rules
    have known := (List.getElem?_eq_some_iff.mp at_id).1
    refine ⟨id, known, unique distinct' (inside known) ?_⟩
    rw [found known, Grammar.rule_of_getElem? at_id, equal, listed known']

namespace Grammar

variable {ds ds' : List Declaration} {g g' : Grammar}

theorem Reordered.exists_renumbers (defined : defineAccepted ds = .ok g)
    (defined' : defineAccepted ds' = .ok g') (fits : NumbersFit ds)
    (reordered : Reordered ds ds' g g') : ∃ p, Renumbers p g g' := by
  have distinct := Builder.attemptAll_nodup_productions ds
  have distinct' := Builder.attemptAll_nodup_productions ds'
  have kept := perm_kept_productions g.start distinct distinct' reordered.productions
  -- As many rules are kept, so there are numbers for them in the other grammar too.
  have fits' : NumbersFit ds' := by
    have count := Builder.keptRules_eq (Builder.finishes_of_finish defined).start
    have count' := Builder.keptRules_eq (Builder.finishes_of_finish defined').start
    have lengths := kept.length_eq
    rw [List.length_map, List.length_map] at lengths
    rw [reordered.start] at count'
    rw [NumbersFit, Builder.NumbersFit, count] at fits
    rwa [NumbersFit, Builder.NumbersFit, count', ← lengths]
  have rules := Builder.rules_of_finish defined fits
  have rules' := Builder.rules_of_finish defined' fits'
  rw [reordered.start] at rules'
  have accept : g.rule .accept = .accepting g.start :=
    rule_of_getElem? (by rw [rules]; rfl)
  refine CanonicalLR.exists_renumbers (wellFormed_of_defined defined).accept_known ?_ ?_ ?_
  · rw [rules, rules', List.map_cons, List.map_cons]
    exact kept.cons _
  · rw [rules, List.map_cons, List.nodup_cons]
    refine ⟨fun member => ?_, distinct.sublist (List.filter_sublist.map _)⟩
    -- The added rule has a left side that no declared one has.
    obtain ⟨r, declared, equal⟩ := List.mem_map.mp member
    have sound := Builder.attemptAll_sound Builder.initial_sound ds
    exact (sound.rules_declared r (List.mem_filter.mp declared).1).left_ne_start
      (congrArg Prod.fst equal)
  · rw [rules', accept]
    rfl

end Grammar

end CanonicalLR
