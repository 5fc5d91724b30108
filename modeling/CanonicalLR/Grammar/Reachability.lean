import CanonicalLR.Discovery.Completion
import CanonicalLR.Grammar.Definition

/-!
# What is reachable

The nonterminals that `reachable` lists are those that can be had from the start symbol by going
from the left side of a rule to a nonterminal on its right side, any number of times.
-/
namespace CanonicalLR

inductive Reaches (rules : List Rule) (start : NonterminalId) : NonterminalId → Prop where
  | start : Reaches rules start start
  | step {r : Rule} {n : NonterminalId} (member : r ∈ rules)
      (reached : Reaches rules start r.left) (mentioned : .nonterminal n ∈ r.right) :
      Reaches rules start n

/-- What a rule adds to the known nonterminals in a pass. -/
def reachRule (known : List NonterminalId) (r : Rule) : List NonterminalId :=
  if r.left ∈ known then discoverAll known (r.right.filterMap Symbol.nonterminal?) else known

theorem reachPass_cons (r : Rule) (rules : List Rule) (known : List NonterminalId) :
    reachPass (r :: rules) known = reachPass rules (reachRule known r) := rfl

@[simp] theorem mem_mentioned {right : List Symbol} {n : NonterminalId} :
    n ∈ right.filterMap Symbol.nonterminal? ↔ .nonterminal n ∈ right := by
  simp [List.mem_filterMap]

theorem isPrefix_reachRule (known : List NonterminalId) (r : Rule) :
    known <+: reachRule known r := by
  simp only [reachRule]
  split
  · exact isPrefix_discoverAll _ _
  · exact List.prefix_rfl

theorem isPrefix_reachPass (rules : List Rule) (known : List NonterminalId) :
    known <+: reachPass rules known := by
  induction rules generalizing known with
  | nil => exact List.prefix_rfl
  | cons r rules ih => exact (isPrefix_reachRule known r).trans (ih _)

theorem nodup_reachPass (rules : List Rule) (known : List NonterminalId)
    (distinct : known.Nodup) : (reachPass rules known).Nodup := by
  induction rules generalizing known with
  | nil => exact distinct
  | cons r rules ih =>
    rw [reachPass_cons]
    apply ih
    simp only [reachRule]
    split
    · exact nodup_discoverAll distinct _
    · exact distinct

/-- A pass adds only what the rules lead to from what is known. -/
theorem reachPass_induction {holds : NonterminalId → Prop} {rules : List Rule}
    {known : List NonterminalId} (start : ∀ n ∈ known, holds n)
    (step : ∀ r ∈ rules, holds r.left → ∀ n, .nonterminal n ∈ r.right → holds n) :
    ∀ n ∈ reachPass rules known, holds n := by
  induction rules generalizing known with
  | nil => exact start
  | cons r rules ih =>
    rw [reachPass_cons]
    apply ih
    · intro n member
      simp only [reachRule] at member
      split at member
      next known_left =>
        rcases mem_discoverAll.mp member with old | new
        · exact start n old
        · exact step r (by simp) (start _ known_left) n (mem_mentioned.mp new)
      next => exact start n member
    · exact fun r' member => step r' (by simp [member])

theorem reachPass_closed {rules : List Rule} {known : List NonterminalId}
    (fixed : reachPass rules known = known) {r : Rule} (member : r ∈ rules)
    (known_left : r.left ∈ known) {n : NonterminalId} (mentioned : .nonterminal n ∈ r.right) :
    n ∈ known := by
  induction rules with
  | nil => simp at member
  | cons r' rules ih =>
    -- The first rule adds nothing, for what it adds would stay.
    have idle : reachRule known r' = known := by
      refine eq_of_isPrefix_of_length_le (isPrefix_reachRule known r') ?_
      have longer := (isPrefix_reachPass rules (reachRule known r')).length_le
      rwa [← reachPass_cons, fixed] at longer
    rw [reachPass_cons, idle] at fixed
    rcases List.mem_cons.mp member with rfl | member
    · rw [reachRule, if_pos known_left] at idle
      exact discoverAll_eq_self_iff.mp idle n (mem_mentioned.mpr mentioned)
    · exact ih fixed member

theorem reachPass_reachable (rules : List Rule) (start : NonterminalId) :
    reachPass rules (reachable rules start) = reachable rules start := by
  let findable := start :: (rules.flatMap (·.right)).filterMap Symbol.nonterminal?
  refine discovery_complete (reachPass rules) findable (isPrefix_reachPass rules)
    (nodup_reachPass rules) ?_ _ [start] (by simp) (by simp [findable]) ?_
  · intro known inside
    refine reachPass_induction inside fun r member _ n mentioned => ?_
    refine List.mem_cons_of_mem _ (mem_mentioned.mpr ?_)
    exact List.mem_flatMap.mpr ⟨r, member, mentioned⟩
  · have fewer := List.length_filterMap_le Symbol.nonterminal? (rules.flatMap (·.right))
    simp only [findable, List.length_cons, List.length_nil]
    omega

theorem nodup_reachable (rules : List Rule) (start : NonterminalId) :
    (reachable rules start).Nodup :=
  iterate_induction (reachPass rules) List.Nodup (nodup_reachPass rules) _ [start] (by simp)

theorem mem_reachable {rules : List Rule} {start n : NonterminalId} :
    n ∈ reachable rules start ↔ Reaches rules start n := by
  constructor
  · have sound : ∀ m ∈ reachable rules start, Reaches rules start m :=
      iterate_induction (reachPass rules) (fun known => ∀ m ∈ known, Reaches rules start m)
        (fun known start => reachPass_induction start fun r member reached m mentioned =>
          .step member reached mentioned)
        _ [start] (by simpa using Reaches.start)
    exact sound n
  · intro reached
    induction reached with
    | start =>
      have grown : [start] <+: reachable rules start :=
        iterate_induction (reachPass rules) ([start] <+: ·)
          (fun known grown => grown.trans (isPrefix_reachPass rules known)) _ [start]
          List.prefix_rfl
      exact grown.subset (by simp)
    | step member _ mentioned ih =>
      exact reachPass_closed (reachPass_reachable rules start) member ih mentioned

end CanonicalLR
