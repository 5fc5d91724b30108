import CanonicalLR.Proofs.ParserTermination
import Mathlib.Algebra.Order.BigOperators.Group.List
import Mathlib.Data.Set.Card
import Mathlib.Order.Interval.Set.Nat

/-!
# Left recursion and the height of the stack

However the conflicts of a table are settled, a parser that never comes to an end reduces without
end on one terminal, and what it reduces there vanishes. Either its stack grows without bound; then
among the items by which the vanishing symbols came to be expected there are two for one
nonterminal, one behind the other, so the nonterminal leads to itself behind symbols that vanish. Or
it comes back to a stack that it had before; then a symbol at the lowest place where the stack
changed was reduced to itself.
-/
namespace CanonicalLR

section Recursion

variable (rules : List Rule)

/-- A nonterminal leads to another one that stands behind symbols which vanish, at least one. -/
def LeadsBehind (n m : NonterminalId) : Prop :=
  ∃ front rest, front ≠ [] ∧ Derives rules front [] ∧
    Derives rules [.nonterminal n] (front ++ .nonterminal m :: rest)

/-- Some nonterminal leads to itself behind symbols that vanish. -/
def HiddenLeftRecursive : Prop := ∃ n, LeadsBehind rules n n

/-- Some nonterminal derives itself. -/
def Cyclic : Prop := ∃ n, Relation.TransGen (Yields rules) [.nonterminal n] [.nonterminal n]

end Recursion

variable {rules : List Rule} {g : Grammar}

/-! ### Strings that vanish -/

/-- A string vanishes if each of its symbols does. -/
theorem derives_nil_of_forall {y : List Symbol} (vanish : ∀ x ∈ y, Derives rules [x] []) :
    Derives rules y [] := by
  induction y with
  | nil => exact .refl []
  | cons x y ih =>
    have tail := ih fun x' member => vanish x' (List.mem_cons_of_mem x member)
    exact (vanish x List.mem_cons_self).append tail

/-- The left side of an empty rule vanishes. -/
theorem derives_nil_of_empty {r : Rule} (member : r ∈ rules) (empty : r.right = []) :
    Derives rules [.nonterminal r.left] [] := by
  have derivation := Derives.of_rule member
  rwa [empty] at derivation

theorem LeadsBehind.of_derives {n m k : NonterminalId} {front rest : List Symbol}
    (vanishes : Derives rules front [])
    (derivation : Derives rules [.nonterminal n] (front ++ .nonterminal m :: rest))
    (behind : LeadsBehind rules m k) : LeadsBehind rules n k := by
  obtain ⟨more, last, some, nothing, onward⟩ := behind
  refine ⟨front ++ more, last ++ rest, by simp [some], vanishes.append nothing, ?_⟩
  have extended := (Derives.refl front).append (onward.append (.refl rest))
  simpa using derivation.trans (by simpa using extended)

/-! ### The height of what vanishes -/

namespace Grammar

/-- The nonterminals to which another one leads behind symbols that vanish. -/
def hiddenBelow (g : Grammar) (n : NonterminalId) : Set NonterminalId :=
  {m | m < g.nonterminals.length ∧ LeadsBehind g.rules n m}

/-- How many nonterminals one leads to behind symbols that vanish. -/
noncomputable def hiddenRank (g : Grammar) (n : NonterminalId) : Nat := (g.hiddenBelow n).ncard

theorem finite_hiddenBelow (n : NonterminalId) : (g.hiddenBelow n).Finite :=
  (Set.finite_Iio g.nonterminals.length).subset fun _ member => member.1

theorem hiddenRank_le (n : NonterminalId) : g.hiddenRank n ≤ g.nonterminals.length := by
  have inside : g.hiddenBelow n ⊆ Set.Iio g.nonterminals.length := fun _ member => member.1
  calc g.hiddenRank n
    _ ≤ (Set.Iio g.nonterminals.length).ncard := Set.ncard_le_ncard inside (Set.finite_Iio _)
    _ = g.nonterminals.length := Set.ncard_Iio_nat _

variable {n m : NonterminalId} {front rest : List Symbol}

theorem hiddenBelow_subset (vanishes : Derives g.rules front [])
    (derivation : Derives g.rules [.nonterminal n] (front ++ .nonterminal m :: rest)) :
    g.hiddenBelow m ⊆ g.hiddenBelow n :=
  fun _ member => ⟨member.1, member.2.of_derives vanishes derivation⟩

/-- What follows a front that vanishes has no more below it. -/
theorem hiddenRank_le_of_front (vanishes : Derives g.rules front [])
    (derivation : Derives g.rules [.nonterminal n] (front ++ .nonterminal m :: rest)) :
    g.hiddenRank m ≤ g.hiddenRank n :=
  Set.ncard_le_ncard (hiddenBelow_subset vanishes derivation) (finite_hiddenBelow n)

/-- What stands behind symbols that vanish has less below it, for it does not lead to itself. -/
theorem hiddenRank_lt_of_front (visible : ¬ HiddenLeftRecursive g.rules)
    (known : m < g.nonterminals.length) (some : front ≠ []) (vanishes : Derives g.rules front [])
    (derivation : Derives g.rules [.nonterminal n] (front ++ .nonterminal m :: rest)) :
    g.hiddenRank m < g.hiddenRank n := by
  have behind : LeadsBehind g.rules n m := ⟨front, rest, some, vanishes, derivation⟩
  refine Set.ncard_lt_ncard ?_ (finite_hiddenBelow n)
  refine (Set.ssubset_iff_of_subset (hiddenBelow_subset vanishes derivation)).mpr ?_
  exact ⟨m, ⟨known, behind⟩, fun itself => visible ⟨m, itself.2⟩⟩

/-- What an item has read is as long as its marker says. -/
theorem length_before {i : Item} {x : Symbol} (next : i.next? g = some x) :
    (i.before g).length = i.marker :=
  Item.length_before (Nat.le_of_lt (List.getElem?_eq_some_iff.mp next).1)

/-- What comes next in an item has less below it than the item's rule has, by as much as the item
has read, if all of that vanishes. -/
theorem hiddenRank_of_next (visible : ¬ HiddenLeftRecursive g.rules)
    {width : Nat} (wide : ∀ r ∈ g.rules, r.right.length ≤ width) {i : Item} {m : NonterminalId}
    (next : i.next? g = some (.nonterminal m)) (known : m < g.nonterminals.length)
    (nothing : Derives g.rules (i.before g) []) :
    i.marker + width * g.hiddenRank m ≤ width * g.hiddenRank (g.rule i.rule).left := by
  have marker := length_before next
  have found := rule_mem (Item.rule_known_of_next? next)
  have derivation := Derives.of_rule found
  have right : (g.rule i.rule).right = _ := Item.right_eq_of_next? next
  rw [right] at derivation
  rcases List.eq_nil_or_concat (i.before g) with empty | ⟨_, _, some⟩
  · have scaled := Nat.mul_le_mul_left width (hiddenRank_le_of_front nothing derivation)
    rw [empty, List.length_nil] at marker
    omega
  · have narrow := wide _ found
    rw [right, List.length_append] at narrow
    have rank := hiddenRank_lt_of_front visible known (by simp [some]) nothing derivation
    have scaled := Nat.mul_le_mul_left width (Nat.succ_le_of_lt rank)
    rw [Nat.mul_succ] at scaled
    omega

/-- Where symbols that vanish end a string, the items that are valid for it bound how many. -/
theorem WellFormed.vanishing_height (wf : g.WellFormed) (fits : g.MarkersFit)
    (visible : ¬ HiddenLeftRecursive g.rules) {width : Nat}
    (wide : ∀ r ∈ g.rules, r.right.length ≤ width) {u : List Symbol} {i : Item}
    (valid : Valid g u i) {w y : List Symbol} (whole : u = w ++ y)
    (vanish : ∀ x ∈ y, Derives g.rules [x] []) :
    y.length + width * g.hiddenRank (g.rule i.rule).left ≤
      i.marker + width * (g.nonterminals.length + 1) := by
  induction valid generalizing w y with
  | start =>
    obtain ⟨rfl, rfl⟩ := List.append_eq_nil_iff.mp whole.symm
    have rank := Nat.mul_le_mul_left width (hiddenRank_le (g := g) (g.rule .accept).left)
    simp only [List.length_nil]
    rw [Nat.mul_succ]
    omega
  | @predict u i q b valid known next begins ih =>
    change y.length + width * g.hiddenRank (g.rule q).left ≤
      0 + width * (g.nonterminals.length + 1)
    have bound := ih whole vanish
    obtain ⟨v, read⟩ := valid.exists_before
    have marker := length_before next
    rcases Nat.lt_or_ge y.length i.marker with short | long
    · -- All that vanishes is a part of what the item has read.
      have rank := Nat.mul_le_mul_left width (hiddenRank_le (g := g) (g.rule q).left)
      have narrow := wide _ (rule_mem (Item.rule_known_of_next? next))
      have inside : i.marker ≤ (g.rule i.rule).right.length := valid.marker_le
      rw [Nat.mul_succ]
      omega
    · -- All that the item has read vanishes.
      have above : i.before g <:+ y := List.suffix_of_suffix_length_le
        (whole ▸ read ▸ List.suffix_append v _) (List.suffix_append w y) (by omega)
      have nothing := derives_nil_of_forall fun x member => vanish x (above.subset member)
      have left_known := (wf.rules_known _ (rule_mem known)).left
      have lower := hiddenRank_of_next visible wide next left_known nothing
      omega
  | @advance u i x valid next ih =>
    -- Reading a symbol makes the string longer by one, and the marker too.
    rw [fits.advance_eq next]
    rcases List.eq_nil_or_concat y with rfl | ⟨y, x', rfl⟩
    · have shorter := ih (List.append_nil u).symm (by simp)
      simp only [List.length_nil] at shorter ⊢
      omega
    · rw [List.concat_eq_append, ← List.append_assoc] at whole
      obtain ⟨rfl, _⟩ := List.append_inj' whole rfl
      have shorter := ih rfl fun x member => vanish x (by simp [member])
      simp only [List.concat_eq_append, List.length_append, List.length_singleton] at shorter ⊢
      omega

/-- Without hidden left recursion only so many symbols that vanish can end a string that has valid
items. -/
theorem WellFormed.exists_height (wf : g.WellFormed) (fits : g.MarkersFit)
    (visible : ¬ HiddenLeftRecursive g.rules) : ∃ height, ∀ w y i, Valid g (w ++ y) i →
      (∀ x ∈ y, Derives g.rules [x] []) → y.length ≤ height := by
  let width := (g.rules.map (·.right.length)).sum
  have wide : ∀ r ∈ g.rules, r.right.length ≤ width := fun r member =>
    List.single_le_sum (fun _ _ => Nat.zero_le _) _ (List.mem_map_of_mem member)
  refine ⟨width + width * (g.nonterminals.length + 1), fun w y i valid vanish => ?_⟩
  have bound := wf.vanishing_height fits visible wide valid rfl vanish
  have marker : i.marker ≤ (g.rule i.rule).right.length := valid.marker_le
  have narrow := wide _ (rule_mem (valid.rule_known wf))
  omega

/-! ### Nonterminals that derive a symbol -/

/-- The nonterminals that derive a symbol in one step or more. -/
def derivers (g : Grammar) (x : Symbol) : Set NonterminalId :=
  {n | n < g.nonterminals.length ∧ Relation.TransGen (Yields g.rules) [.nonterminal n] [x]}

/-- How many nonterminals derive a symbol in one step or more. -/
noncomputable def deriverRank (g : Grammar) (x : Symbol) : Nat := (g.derivers x).ncard

/-- Fewer nonterminals derive the left side of a rule than a symbol which is all that is left of the
right side. -/
theorem WellFormed.deriverRank_lt (wf : g.WellFormed) (acyclic : ¬ Cyclic g.rules) {r : Rule}
    (member : r ∈ g.rules) {x : Symbol} {y : List Symbol} (right : r.right = x :: y)
    (vanish : ∀ x ∈ y, Derives g.rules [x] []) :
    g.deriverRank (.nonterminal r.left) < g.deriverRank x := by
  have step : Yields g.rules [.nonterminal r.left] (x :: y) := by
    simpa [right] using Yields.exchange member [] []
  have rest : Derives g.rules (x :: y) [x] := by
    simpa using (Derives.refl [x]).append (derives_nil_of_forall vanish)
  have derived : Relation.TransGen (Yields g.rules) [.nonterminal r.left] [x] :=
    Relation.TransGen.head' step rest
  refine Set.ncard_lt_ncard ?_ ((Set.finite_Iio g.nonterminals.length).subset
    fun _ member => member.1)
  have above : g.derivers (.nonterminal r.left) ⊆ g.derivers x :=
    fun n above => ⟨above.1, above.2.trans derived⟩
  refine (Set.ssubset_iff_of_subset above).mpr ?_
  exact ⟨r.left, ⟨(wf.rules_known r member).left, derived⟩, fun itself => acyclic ⟨_, itself.2⟩⟩

end Grammar

/-! ### Reductions on one lookahead -/

namespace Parser

variable {built : Construction} {input : List TerminalId}

/-- Symbols that vanish can be pushed on what the string spells this often at most. -/
def Height (g : Grammar) (height : Nat) (w : List Symbol) : Prop :=
  ∀ y i, (∀ x ∈ y, Derives g.rules [x] []) → Valid g (w ++ y) i → y.length ≤ height

/-- Runs come to an end after each reduction that takes away some of the string, and of what
vanishes above it. -/
def HaltsBelow (g : Grammar) (t : Table) (input : List TerminalId) (w : List Symbol) : Prop :=
  ∀ y r v, (∀ x ∈ y, Derives g.rules [x] []) → r ∈ g.rules → w ++ y = v ++ r.right →
    v.length < w.length → HaltsAt g t input (v ++ [.nonterminal r.left])

section Lookahead

variable (wf : g.WellFormed) (fits : g.MarkersFit) (constructed : g.construct = .ok built)
  (acyclic : ¬ Cyclic g.rules)
  (shifted : ∀ t rest, input = t :: rest → ∀ u, HaltsAt g built.table rest u)

/-- Only strings with valid items are spelled. -/
theorem haltsAt_of_viable {u : List Symbol} (wf : g.WellFormed) {table : Table}
    (viable : ∀ i, Valid g u i → HaltsAt g table input u) : HaltsAt g table input u := by
  intro stack spells
  obtain ⟨s, below, rfl⟩ := spells.exists_top
  obtain ⟨i, valid⟩ := (wf.kernel_of_walk spells.walk).2
  exact viable i valid _ spells

include wf acyclic in
/-- If runs come to an end wherever there are only so many symbols to push, they do so for any
symbol on top: what takes its place is derived by fewer nonterminals. -/
theorem haltsAt_push (holds : Symbol → Prop) {height : Nat} {w : List Symbol} {table : Table}
    (each : ∀ w, Height g height w → HaltsBelow g table input w → HaltsAt g table input w)
    (heights : ∀ x, holds x → Height g height (w ++ [x]))
    (below : ∀ x y r v, holds x → (∀ x ∈ y, Derives g.rules [x] []) → r ∈ g.rules →
      w ++ x :: y = v ++ r.right → v.length < w.length →
        HaltsAt g table input (v ++ [.nonterminal r.left]))
    (replaced : ∀ r x y, r ∈ g.rules → r.right = x :: y → (∀ x ∈ y, Derives g.rules [x] []) →
      holds x → holds (.nonterminal r.left))
    (x : Symbol) (here : holds x) : HaltsAt g table input (w ++ [x]) := by
  -- By how many nonterminals derive the symbol.
  induction rank : g.deriverRank x using Nat.strongRecOn generalizing x with
  | ind _ ih =>
    subst rank
    refine each _ (heights x here) fun y r v vanish member whole cut => ?_
    rw [List.append_assoc, List.singleton_append] at whole
    rw [List.length_append, List.length_singleton] at cut
    rcases Nat.lt_or_ge v.length w.length with shorter | same
    · exact below x y r v here vanish member whole shorter
    · -- Just the symbol and what is above it make up the right side.
      obtain ⟨rfl, right⟩ := List.append_inj whole (by omega)
      exact ih _ (wf.deriverRank_lt acyclic member right.symm vanish) _
        (replaced r x y member right.symm vanish here) rfl

include wf constructed shifted in
/-- A reduction takes away some of what is spelled or pushes a nonterminal that vanishes. -/
theorem haltsAt_of_below {w : List Symbol} (below : HaltsBelow g built.table input w)
    (pushed : ∀ n, Derives g.rules [.nonterminal n] [] →
      HaltsAt g built.table input (w ++ [.nonterminal n])) : HaltsAt g built.table input w := by
  refine haltsAt_of_reductions wf constructed shifted ?_
  intro i r v _ _ _ _ found whole
  have member := List.mem_of_getElem? found
  by_cases empty : r.right = []
  · rw [empty, List.append_nil] at whole
    exact whole ▸ pushed r.left (derives_nil_of_empty member empty)
  · have longer := List.length_pos_iff.mpr empty
    refine below [] r v (by simp) member (by simpa using whole) ?_
    rw [whole, List.length_append]
    omega

include wf constructed acyclic shifted in
/-- Runs come to an end if they do so after each reduction that takes away some of what the string
spells, and if only so many symbols that vanish can be pushed on it. -/
theorem haltsAt_of_height (height : Nat) (w : List Symbol) (low : Height g height w)
    (below : HaltsBelow g built.table input w) : HaltsAt g built.table input w := by
  -- What vanishes is pushed on a string that has room for one less.
  induction height generalizing w with
  | zero =>
    -- What is pushed cannot be spelled.
    refine haltsAt_of_below wf constructed shifted below fun n vanishes => ?_
    refine haltsAt_of_viable wf fun j valid => ?_
    have bound := low [.nonterminal n] j (by simpa using vanishes) valid
    exact absurd bound (by simp)
  | succ height ih =>
    refine haltsAt_of_below wf constructed shifted below fun n vanishes => ?_
    refine haltsAt_push wf acyclic (fun x => Derives g.rules [x] []) ih ?_ ?_ ?_ _ vanishes
    · intro x vanishes y j nothing valid
      have lower := low (x :: y) j (by simpa [vanishes] using nothing) (by simpa using valid)
      exact Nat.le_of_succ_le_succ lower
    · intro x y r v vanishes nothing member whole shorter
      exact below (x :: y) r v (by simpa [vanishes] using nothing) member whole shorter
    · intro r x y member right nothing vanishes
      have derivation := Derives.of_rule member
      rw [right] at derivation
      refine derivation.trans (derives_nil_of_forall ?_)
      simpa [vanishes] using nothing

include wf fits constructed acyclic shifted in
/-- Without hidden left recursion runs come to an end on each terminal. -/
theorem haltsAt_of_visible (visible : ¬ HiddenLeftRecursive g.rules) (u : List Symbol) :
    HaltsAt g built.table input u := by
  obtain ⟨height, bounds⟩ := wf.exists_height fits visible
  have low (w : List Symbol) : Height g height w :=
    fun y i vanish valid => bounds w y i valid vanish
  have each (w : List Symbol) := haltsAt_of_height wf constructed acyclic shifted height w (low w)
  -- By the length of what is spelled, for a reduction below the top leaves less of it.
  induction length : u.length using Nat.strongRecOn generalizing u with
  | ind _ ih =>
    subst length
    rcases List.eq_nil_or_concat u with rfl | ⟨w, x, rfl⟩
    · exact each [] fun _ _ _ _ _ _ shorter => absurd shorter (Nat.not_lt_zero _)
    · rw [List.concat_eq_append] at ih ⊢
      refine haltsAt_push wf acyclic (fun _ => True) (fun w _ => each w)
        (fun x _ => low _) ?_ (fun _ _ _ _ _ _ _ => trivial) x trivial
      intro x' y r v _ _ _ _ shorter
      refine ih _ ?_ _ rfl
      simp only [List.length_append, List.length_singleton]
      omega

end Lookahead

/-- Without hidden left recursion and without cycles every run comes to an end, however the
conflicts of the table are settled. -/
theorem haltsAt_of_acyclic (wf : g.WellFormed) (fits : g.MarkersFit)
    (constructed : g.construct = .ok built) (visible : ¬ HiddenLeftRecursive g.rules)
    (acyclic : ¬ Cyclic g.rules) (input : List TerminalId) (u : List Symbol) :
    HaltsAt g built.table input u := by
  induction input generalizing u with
  | nil =>
    refine haltsAt_of_visible wf fits constructed acyclic ?_ visible u
    intro _ _ empty
    cases empty
  | cons t input ih =>
    refine haltsAt_of_visible wf fits constructed acyclic ?_ visible u
    intro _ _ same
    cases same
    exact ih

end Parser

end CanonicalLR
