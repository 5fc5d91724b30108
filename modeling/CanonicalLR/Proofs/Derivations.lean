import CanonicalLR.Grammar.Derivation
import Mathlib.Data.List.Basic

/-!
# Taking derivations apart

What a string derives falls into what its parts derive, and strings of terminals derive nothing but
themselves. A string of terminals that is derived at all has a rightmost derivation, and a rightmost
derivation from two parts finishes the right part before it begins with the left one. Productive
symbols derive terminals together.
-/
namespace CanonicalLR

variable {rules : List Rule}

theorem eq_of_map_terminal {w w' : List TerminalId}
    (same : w.map Symbol.terminal = w'.map Symbol.terminal) : w = w' :=
  List.map_injective_iff.mpr (fun _ _ => Symbol.terminal.inj) same

theorem nonterminal_not_mem_terminals {n : NonterminalId} {w : List TerminalId} :
    .nonterminal n ∉ w.map Symbol.terminal := by
  simp

/-- A string of one symbol has nothing before or after it. -/
theorem eq_nil_of_singleton {a b : Symbol} {u v : List Symbol} (whole : [a] = u ++ b :: v) :
    u = [] ∧ b = a ∧ v = [] := by
  rcases List.append_eq_singleton_iff.mp whole.symm with ⟨rfl, tail⟩ | ⟨_, tail⟩
  · obtain ⟨same, nothing⟩ := List.cons.inj tail
    exact ⟨rfl, same, nothing⟩
  · cases tail

theorem Yields.split {x y v : List Symbol} (step : Yields rules (x ++ y) v) :
    (∃ x', v = x' ++ y ∧ Yields rules x x') ∨ (∃ y', v = x ++ y' ∧ Yields rules y y') := by
  generalize whole : x ++ y = u at step
  obtain @⟨r, member, before, after⟩ := step
  -- The nonterminal that is exchanged stands either in `y` or in `x`.
  rcases List.append_eq_append_iff.mp whole with ⟨m, rfl, rfl⟩ | ⟨m, rfl, tail⟩
  · exact .inr ⟨m ++ r.right ++ after, by simp, .exchange member m after⟩
  · rcases List.cons_eq_append_iff.mp tail with ⟨rfl, rfl⟩ | ⟨m', rfl, rfl⟩
    · exact .inr ⟨r.right ++ after, by simp, by simpa using .exchange member [] after⟩
    · exact .inl ⟨before ++ r.right ++ m', by simp, .exchange member before m'⟩

theorem Derives.split {x y v : List Symbol} (derivation : Derives rules (x ++ y) v) :
    ∃ v₁ v₂, v = v₁ ++ v₂ ∧ Derives rules x v₁ ∧ Derives rules y v₂ := by
  -- Each step is made in one of the two parts and leaves the other alone.
  induction derivation with
  | refl => exact ⟨x, y, rfl, .refl x, .refl y⟩
  | tail _ step ih =>
    obtain ⟨v₁, v₂, rfl, left, right⟩ := ih
    rcases step.split with ⟨v₁', rfl, moved⟩ | ⟨v₂', rfl, moved⟩
    · exact ⟨v₁', v₂, rfl, Relation.ReflTransGen.tail left moved, right⟩
    · exact ⟨v₁, v₂', rfl, left, Relation.ReflTransGen.tail right moved⟩

theorem Yields.not_of_terminals {w : List TerminalId} {v : List Symbol} :
    ¬ Yields rules (w.map .terminal) v := by
  intro step
  generalize same : w.map Symbol.terminal = u at step
  obtain @⟨r, member, before, after⟩ := step
  refine nonterminal_not_mem_terminals (n := r.left) (w := w) ?_
  simp [same]

theorem Derives.eq_of_terminals {w : List TerminalId} {v : List Symbol}
    (derivation : Derives rules (w.map .terminal) v) : v = w.map .terminal := by
  cases derivation.cases_head with
  | inl same => exact same.symm
  | inr moved =>
    obtain ⟨_, step, _⟩ := moved
    exact absurd step Yields.not_of_terminals

/-- What a nonterminal derives is itself or derived from a right side of it. -/
theorem Derives.of_nonterminal {n : NonterminalId} {v : List Symbol}
    (derivation : Derives rules [.nonterminal n] v) :
    v = [.nonterminal n] ∨ ∃ r ∈ rules, r.left = n ∧ Derives rules r.right v := by
  rcases derivation.cases_head with same | ⟨u, step, onward⟩
  · exact .inl same.symm
  · generalize whole : [Symbol.nonterminal n] = x at step
    obtain @⟨r, member, before, after⟩ := step
    obtain ⟨rfl, left, rfl⟩ := eq_nil_of_singleton whole
    refine .inr ⟨r, member, Symbol.nonterminal.inj left, ?_⟩
    rwa [List.nil_append, List.append_nil] at onward

/-- Each symbol of a derived string stood in the first string or on a right side. -/
theorem Derives.symbol_mem {u v : List Symbol} (derivation : Derives rules u v) {x : Symbol}
    (member : x ∈ v) : x ∈ u ∨ ∃ r ∈ rules, x ∈ r.right := by
  induction derivation with
  | refl => exact .inl member
  | tail _ step ih =>
    obtain ⟨rule, before, after⟩ := step
    rcases List.mem_append.mp member with in_front | in_after
    · rcases List.mem_append.mp in_front with in_before | in_right
      · exact ih (by simp [in_before])
      · exact .inr ⟨_, rule, in_right⟩
    · exact ih (by simp [in_after])

/-- Terminals stay in what is derived. -/
theorem Derives.terminal_mem {u v : List Symbol} (derivation : Derives rules u v) {t : TerminalId}
    (member : .terminal t ∈ u) : .terminal t ∈ v := by
  induction derivation with
  | refl => exact member
  | tail _ step ih =>
    obtain ⟨_, before, after⟩ := step
    simp only [List.mem_append, List.mem_cons, reduceCtorEq, false_or] at ih ⊢
    rcases ih with before | after
    · exact .inl (.inl before)
    · exact .inr after

/-! ### What begins the derived strings -/

theorem begins_terminal {a t : TerminalId} : Begins rules [.terminal a] t ↔ t = a := by
  constructor
  · rintro ⟨rest, derivation⟩
    have same := Derives.eq_of_terminals (w := [a]) derivation
    simpa using (List.cons_eq_cons.mp same).1
  · rintro rfl
    exact ⟨[], .refl _⟩

theorem begins_append {x y : List Symbol} {t : TerminalId} :
    Begins rules (x ++ y) t ↔ Begins rules x t ∨ Derives rules x [] ∧ Begins rules y t := by
  constructor
  · rintro ⟨rest, derivation⟩
    obtain ⟨v₁, v₂, whole, left, right⟩ := derivation.split
    -- Either the left part gives the first terminal, or it gives nothing.
    rcases List.cons_eq_append_iff.mp whole with ⟨rfl, rfl⟩ | ⟨v, rfl, _⟩
    · exact .inr ⟨left, rest, right⟩
    · exact .inl ⟨v, left⟩
  · rintro (⟨rest, left⟩ | ⟨vanishes, rest, right⟩)
    · exact ⟨rest ++ y, left.append (.refl y)⟩
    · exact ⟨rest, vanishes.append right⟩

theorem Begins.of_derives {u v : List Symbol} {t : TerminalId} (derivation : Derives rules u v)
    (begins : Begins rules v t) : Begins rules u t := by
  obtain ⟨rest, onward⟩ := begins
  exact ⟨rest, derivation.trans onward⟩

/-! ### Rightmost derivations -/

namespace RightmostDerivation

variable {ids ids₁ ids₂ : List RuleId} {u v x y : List Symbol}

theorem append_left (derivation : RightmostDerivation rules ids u v) (w : List Symbol) :
    RightmostDerivation rules ids (w ++ u) (w ++ v) := by
  induction derivation with
  | nil u => exact .nil _
  | cons found rest ih =>
    rename_i id r ids before v after
    have onward : RightmostDerivation rules (id :: ids)
        (w ++ before ++ .nonterminal r.left :: after.map .terminal) (w ++ v) :=
      .cons found (by simpa using ih)
    simpa using onward

theorem append_right (derivation : RightmostDerivation rules ids u v) (z : List TerminalId) :
    RightmostDerivation rules ids (u ++ z.map .terminal) (v ++ z.map .terminal) := by
  induction derivation with
  | nil u => exact .nil _
  | cons found rest ih =>
    rename_i id r ids before v after
    have onward : RightmostDerivation rules (id :: ids)
        (before ++ .nonterminal r.left :: (after ++ z).map .terminal) (v ++ z.map .terminal) :=
      .cons found (by simpa using ih)
    simpa using onward

/-- First the right part becomes a string of terminals, then the left part goes on. -/
theorem join {w : List TerminalId} (right : RightmostDerivation rules ids₂ y (w.map .terminal))
    (left : RightmostDerivation rules ids₁ x v) :
    RightmostDerivation rules (ids₂ ++ ids₁) (x ++ y) (v ++ w.map .terminal) :=
  (right.append_left x).trans (left.append_right w)

theorem of_terminals {w : List TerminalId}
    (derivation : RightmostDerivation rules ids (w.map .terminal) v) :
    ids = [] ∧ v = w.map .terminal := by
  refine ⟨?_, derivation.derives.eq_of_terminals⟩
  generalize same : w.map Symbol.terminal = u at derivation
  cases derivation with
  | nil => rfl
  | cons found rest =>
    have step := Yields.exchange (List.mem_of_getElem? found)
    exact absurd (same ▸ step _ _) Yields.not_of_terminals

theorem split {w : List TerminalId}
    (derivation : RightmostDerivation rules ids (x ++ y) (w.map .terminal)) :
    ∃ ids₁ ids₂ w₁ w₂, ids = ids₂ ++ ids₁ ∧ w = w₁ ++ w₂ ∧
      RightmostDerivation rules ids₁ x (w₁.map .terminal) ∧
      RightmostDerivation rules ids₂ y (w₂.map .terminal) := by
  generalize whole : x ++ y = u at derivation
  generalize last : w.map Symbol.terminal = v at derivation
  induction derivation generalizing x y with
  | nil u =>
    obtain ⟨w₁, w₂, rfl, rfl, rfl⟩ := List.map_eq_append_iff.mp (last.trans whole.symm)
    exact ⟨[], [], w₁, w₂, rfl, rfl, .nil _, .nil _⟩
  | cons found rest ih =>
    rename_i id r ids before v after
    rcases List.append_eq_append_iff.mp whole with ⟨m, rfl, rfl⟩ | ⟨m, rfl, tail⟩
    · -- The exchange is made in the right part.
      obtain ⟨ids₁, ids₂, w₁, w₂, rfl, rfl, left, right⟩ :=
        ih (x := x) (y := m ++ r.right ++ after.map .terminal) (by simp) last
      exact ⟨ids₁, id :: ids₂, w₁, w₂, rfl, rfl, left, .cons found right⟩
    · rcases List.cons_eq_append_iff.mp tail with ⟨rfl, rfl⟩ | ⟨m', rfl, tail'⟩
      · obtain ⟨ids₁, ids₂, w₁, w₂, rfl, rfl, left, right⟩ :=
          ih (x := before) (y := r.right ++ after.map .terminal) (by simp) last
        have onward : RightmostDerivation rules (id :: ids₂)
            ([] ++ .nonterminal r.left :: after.map .terminal) (w₂.map .terminal) :=
          .cons found (by simpa using right)
        exact ⟨ids₁, id :: ids₂, w₁, w₂, rfl, rfl, by simpa using left, onward⟩
      · -- The exchange is made in the left part, so the right part is made of terminals.
        obtain ⟨a₁, a₂, rfl, rfl, rfl⟩ := List.map_eq_append_iff.mp tail'
        obtain ⟨ids₁, ids₂, w₁, w₂, rfl, rfl, left, right⟩ :=
          ih (x := before ++ r.right ++ a₁.map .terminal) (y := a₂.map .terminal) (by simp) last
        obtain ⟨rfl, _⟩ := right.of_terminals
        exact ⟨id :: ids₁, [], w₁, w₂, rfl, rfl, .cons found left, right⟩

theorem nil_iff : RightmostDerivation rules [] u v ↔ u = v := by
  constructor
  · intro derivation
    cases derivation
    rfl
  · rintro rfl
    exact .nil u

theorem append_iff : RightmostDerivation rules (ids₁ ++ ids₂) u v ↔
    ∃ m, RightmostDerivation rules ids₁ u m ∧ RightmostDerivation rules ids₂ m v := by
  constructor
  · intro derivation
    induction ids₁ generalizing u with
    | nil => exact ⟨u, .nil u, derivation⟩
    | cons id ids₁ ih =>
      cases derivation with
      | cons found rest =>
        obtain ⟨m, first, second⟩ := ih rest
        exact ⟨m, .cons found first, second⟩
  · rintro ⟨m, first, second⟩
    exact first.trans second

theorem singleton_iff {id : RuleId} : RightmostDerivation rules [id] u v ↔
    ∃ (r : Rule) (before : List Symbol) (after : List TerminalId), rules[id]? = some r ∧
      u = before ++ .nonterminal r.left :: after.map .terminal ∧
      v = before ++ r.right ++ after.map .terminal := by
  constructor
  · intro derivation
    cases derivation with
    | cons found rest =>
      cases rest
      exact ⟨_, _, _, found, rfl, rfl⟩
  · rintro ⟨r, before, after, found, rfl, rfl⟩
    exact .cons found (.nil _)

/-- The first rule of a rightmost derivation of terminals from a nonterminal is one of its rules. -/
theorem of_nonterminal {n : NonterminalId} {w : List TerminalId}
    (derivation : RightmostDerivation rules ids [.nonterminal n] (w.map .terminal)) :
    ∃ id r later, ids = id :: later ∧ rules[id]? = some r ∧ r.left = n ∧
      RightmostDerivation rules later r.right (w.map .terminal) := by
  generalize whole : [Symbol.nonterminal n] = u at derivation
  cases derivation with
  | nil =>
    refine absurd ?_ (nonterminal_not_mem_terminals (n := n) (w := w))
    simp [← whole]
  | @cons id r later before _ after found onward =>
    obtain ⟨rfl, left, nothing⟩ := eq_nil_of_singleton whole
    obtain rfl : after = [] := List.map_eq_nil_iff.mp nothing
    exact ⟨id, r, later, rfl, found, Symbol.nonterminal.inj left, by simpa using onward⟩

end RightmostDerivation

/-- Whatever the order of its steps, a derivation of terminals can be made a rightmost one. -/
theorem Derives.exists_rightmost {u : List Symbol} {w : List TerminalId}
    (derivation : Derives rules u (w.map .terminal)) :
    ∃ ids, RightmostDerivation rules ids u (w.map .terminal) := by
  -- By the first step: the derivation that follows is split into what it makes of the right side
  -- and of the symbols around it, and put together again from the right.
  induction derivation using Relation.ReflTransGen.head_induction_on with
  | refl => exact ⟨[], .nil _⟩
  | head step _ ih =>
    obtain ⟨ids, onward⟩ := ih
    obtain @⟨r, member, before, after⟩ := step
    obtain ⟨id, found⟩ := List.getElem?_of_mem member
    obtain ⟨front_ids, after_ids, front, w₃, _, rfl, front_derived, after_derived⟩ := onward.split
    obtain ⟨before_ids, right_ids, w₁, w₂, _, rfl, before_derived, right_derived⟩ :=
      front_derived.split
    have exchanged : RightmostDerivation rules (id :: right_ids)
        ([] ++ .nonterminal r.left :: ([] : List TerminalId).map .terminal) (w₂.map .terminal) :=
      .cons found (by simpa using right_derived)
    have joined := after_derived.join (exchanged.join before_derived)
    exact ⟨_, by simpa using joined⟩

/-! ### Productive nonterminals -/

/-- A string of productive symbols derives some terminals. -/
theorem exists_terminals {u : List Symbol}
    (productive : ∀ n, .nonterminal n ∈ u → Productive rules n) :
    ∃ z : List TerminalId, Derives rules u (z.map .terminal) := by
  induction u with
  | nil => exact ⟨[], .refl _⟩
  | cons x u ih =>
    obtain ⟨z, rest⟩ := ih fun n member => productive n (List.mem_cons_of_mem x member)
    cases x with
    | terminal t => exact ⟨t :: z, Derives.append (.refl [.terminal t]) rest⟩
    | nonterminal n =>
      obtain ⟨z', derivation⟩ := productive n List.mem_cons_self
      exact ⟨z' ++ z, by simpa using derivation.append rest⟩

/-- A nonterminal with a rule whose right side is productive is productive. -/
theorem Productive.of_rule {r : Rule} (rule : r ∈ rules)
    (right : ∀ n, .nonterminal n ∈ r.right → Productive rules n) : Productive rules r.left := by
  obtain ⟨z, derivation⟩ := exists_terminals right
  exact ⟨z, (Derives.of_rule rule).trans derivation⟩

/-- It is enough that the nonterminals on right sides are productive. -/
theorem Grammar.allProductive_of_right {g : Grammar}
    (productive : ∀ r ∈ g.rules, ∀ n, .nonterminal n ∈ r.right → Productive g.rules n) :
    g.AllProductive :=
  fun r rule => ⟨.of_rule rule (productive r rule), productive r rule⟩

/-- Where there is only one nonterminal on right sides, it is enough that this one is productive. -/
theorem Grammar.allProductive_of_single {g : Grammar} {n : NonterminalId}
    (productive : Productive g.rules n)
    (single : ∀ r ∈ g.rules, ∀ x ∈ r.right, x.nonterminal? = none ∨ x = .nonterminal n) :
    g.AllProductive := by
  refine allProductive_of_right fun r rule m mentioned => ?_
  obtain rfl : m = n := by simpa [Symbol.nonterminal?] using single r rule _ mentioned
  exact productive

end CanonicalLR
