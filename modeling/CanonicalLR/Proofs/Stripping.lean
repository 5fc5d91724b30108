import CanonicalLR.Discovery.Completion
import CanonicalLR.First.Nullability
import CanonicalLR.First.Stripping

/-!
# Stripping finds every expanded production

A walk only adds productions that can be had by striking nullable nonterminals off the front of a
right side, and there are finitely many of those, so at last a walk adds none and nothing is left to
do. Then no production can be stripped to one that is not there. It is enough that the walk asks for
added productions: a nonterminal becomes known to be nullable only together with a production for it
whose right side is empty, and if that was not there before, the walk has added it.
-/
namespace CanonicalLR.Stripping

/-- A list of productions has what is left of the right sides of rules without some nullable
nonterminals in front, and the known nullable nonterminals are those that may vanish in this way.
FIRST sets are made from the same productions and the same nonterminals. -/
structure Expands (g : Grammar) (s : Stripping) : Prop where
  productions : ∀ n ys, (n, ys) ∈ s.productions ↔
    ∃ r ∈ g.rules, r.left = n ∧ ∃ struck, r.right = struck ++ ys ∧
      ∀ x ∈ struck, ∃ m, x = .nonterminal m ∧ Derives g.rules [.nonterminal m] []
  nullables : ∀ n, n ∈ s.nullables ↔ (n, []) ∈ s.productions
  same_productions : ∀ p, p ∈ s.productions ↔ p ∈ g.expansions g.nullable
  same_nullables : ∀ n, n ∈ s.nullables ↔ n ∈ g.nullable

/-- The invariant of all walks. What can be had by stripping a production that has been passed is
there, unless the walk has added a production since. -/
structure Strips (g : Grammar) (s : Stripping) : Prop where
  distinct : s.productions.Nodup
  given : ∀ r ∈ g.rules, (r.left, r.right) ∈ s.productions
  expanded : ∀ p ∈ s.productions, p ∈ g.expansions g.nullable
  nullables : ∀ n, n ∈ s.nullables ↔ (n, []) ∈ s.productions
  passed : s.changed = false → ∀ p ∈ s.productions.take s.position, ∀ p',
    stripped? s.nullables p = some p' → p' ∈ s.productions

/-- The outcomes of a turn. -/
inductive Turn (s : Stripping) : Stripping → Prop where
  /-- The next production gives nothing new. -/
  | pass {p : NonterminalId × List Symbol} (next : s.productions[s.position]? = some p)
      (old : ∀ p', stripped? s.nullables p = some p' → p' ∈ s.productions) :
      Turn s { s with position := s.position + 1 }
  | add {p p' : NonterminalId × List Symbol} (next : s.productions[s.position]? = some p)
      (stripped : stripped? s.nullables p = some p') (new : p' ∉ s.productions) :
      Turn s {
        productions := s.productions ++ [p']
        nullables := if p'.2.isEmpty then discover s.nullables p'.1 else s.nullables
        position := s.position + 1
        changed := true }
  | restart (all_passed : s.productions.length ≤ s.position) (changed : s.changed = true) :
      Turn s { s with position := 0, changed := false }

variable {g : Grammar} {s next last : Stripping} {p p' : NonterminalId × List Symbol}

theorem stripped?_eq_some_iff {nullables : List NonterminalId} :
    stripped? nullables p = some p' ↔ ∃ n ∈ nullables, p = (p'.1, .nonterminal n :: p'.2) := by
  obtain ⟨left, right⟩ := p
  constructor
  · intro stripped
    simp only [stripped?] at stripped
    split at stripped
    next left n rest same =>
      cases same
      split at stripped
      next nullable =>
        cases stripped
        exact ⟨n, nullable, rfl⟩
      next => cases stripped
    next => cases stripped
  · rintro ⟨n, nullable, same⟩
    cases same
    exact if_pos nullable

/-! ### What expanded productions are -/

theorem mem_nullable_of_expansion {n : NonterminalId} (member : (n, []) ∈ g.expansions g.nullable) :
    n ∈ g.nullable := by
  obtain ⟨r, rule, left, struck, right, all_known⟩ := Grammar.mem_expansions.mp member
  rw [List.append_nil] at right
  rw [← g.nullablePass_nullable]
  exact g.mem_nullablePass.mpr (.inr ⟨r, rule, left, right ▸ all_known⟩)

/-- One more nullable nonterminal can be struck off. -/
theorem mem_expansions_of_cons {n m : NonterminalId} {ys : List Symbol}
    (member : (n, .nonterminal m :: ys) ∈ g.expansions g.nullable) (nullable : m ∈ g.nullable) :
    (n, ys) ∈ g.expansions g.nullable := by
  obtain ⟨r, rule, left, struck, right, all_known⟩ := Grammar.mem_expansions.mp member
  apply Grammar.mem_expansions.mpr
  refine ⟨r, rule, left, struck ++ [.nonterminal m], by simp [right], ?_⟩
  intro x in_struck
  rcases List.mem_append.mp in_struck with earlier | last
  · exact all_known x earlier
  · obtain rfl := List.mem_singleton.mp last
    exact isIn_nonterminal.mpr nullable

/-! ### One turn -/

theorem start_strips (g : Grammar) : (start g).Strips g where
  distinct := nodup_discoverAll .nil _
  given r rule := mem_discoverAll.mpr (.inr (List.mem_map_of_mem rule))
  expanded p member := by
    obtain ⟨r, rule, rfl⟩ : ∃ r ∈ g.rules, (r.left, r.right) = p := by simpa [start] using member
    exact Grammar.mem_expansions.mpr ⟨r, rule, rfl, [], rfl, by simp⟩
  nullables n := by simp [start, and_comm]
  passed _ p none_passed := by simp [start] at none_passed

/-- A production that is there already is taken in without any effect. -/
theorem Strips.takeIn_of_mem (strips : s.Strips g) (old : p ∈ s.productions) : s.takeIn p = s := by
  obtain ⟨n, right⟩ := p
  simp only [takeIn, discover_of_mem old, old, not_true_eq_false, decide_false, Bool.or_false]
  split
  next empty =>
    -- Its left side has been known to be nullable since it was found.
    obtain rfl := List.isEmpty_iff.mp empty
    rw [discover_of_mem ((strips.nullables n).mpr old)]
  next => rfl

theorem Strips.turn_of_turn? (strips : s.Strips g) (turned : s.turn? = some next) :
    s.Turn next := by
  simp only [turn?] at turned
  split at turned
  next p found =>
    split at turned
    next p' stripped =>
      obtain rfl := Option.some.inj turned
      by_cases old : p' ∈ s.productions
      · have passed := strips.takeIn_of_mem old
        have idle : takeIn { s with position := s.position + 1 } p' =
            { s with position := s.position + 1 } :=
          congrArg (fun t : Stripping => { t with position := s.position + 1 }) passed
        rw [idle]
        refine .pass found fun q also_stripped => ?_
        rwa [← Option.some.inj (stripped.symm.trans also_stripped)]
      · simp only [takeIn, discover, old, if_false, not_false_eq_true, decide_true, Bool.or_true]
        exact .add found stripped old
    next none_stripped =>
      obtain rfl := Option.some.inj turned
      refine .pass found fun p' stripped => ?_
      rw [none_stripped] at stripped
      cases stripped
  next all_passed =>
    split at turned
    next changed =>
      obtain rfl := Option.some.inj turned
      exact .restart (List.getElem?_eq_none_iff.mp all_passed) changed
    next => cases turned

/-- What is had by stripping an expanded production is one. -/
theorem Strips.expanded_of_stripped (strips : s.Strips g) (member : p ∈ s.productions)
    (stripped : stripped? s.nullables p = some p') : p' ∈ g.expansions g.nullable := by
  obtain ⟨m, known, rfl⟩ := stripped?_eq_some_iff.mp stripped
  have empty := strips.expanded _ ((strips.nullables m).mp known)
  exact mem_expansions_of_cons (strips.expanded _ member) (mem_nullable_of_expansion empty)

theorem Strips.turn (strips : s.Strips g) (turn : s.Turn next) : next.Strips g := by
  cases turn with
  | @pass p found old =>
    refine { strips with passed := ?_ }
    intro unchanged q in_front q' stripped
    rw [List.take_add_one, found] at in_front
    rcases List.mem_append.mp in_front with earlier | now
    · exact strips.passed unchanged q earlier q' stripped
    · obtain rfl : q = p := by simpa using now
      exact old q' stripped
  | @add p p' found stripped new =>
    have expanded := strips.expanded_of_stripped (List.mem_of_getElem? found) stripped
    refine { distinct := ?_, given := ?_, expanded := ?_, nullables := ?_, passed := nofun }
    · have distinct := nodup_discover strips.distinct p'
      rwa [discover, if_neg new] at distinct
    · intro r rule
      exact List.mem_append_left _ (strips.given r rule)
    · intro q member
      rcases List.mem_append.mp member with old | last
      · exact strips.expanded q old
      · obtain rfl := List.mem_singleton.mp last
        exact expanded
    · intro n
      obtain ⟨left, right⟩ := p'
      rw [List.mem_append, ← strips.nullables n]
      cases right with
      | nil => simp
      | cons => simp
  | restart => exact { strips with passed := fun _ p none_passed => by simp at none_passed }

/-! ### Walks end -/

/-- What is left to do: first the productions that are still to be found, then another walk if this
one has added some, then the productions in front of the walk. -/
def toDo (g : Grammar) (s : Stripping) : Nat × Nat × Nat :=
  ((g.expansions g.nullable).length - s.productions.length, s.changed.toNat,
    s.productions.length - s.position)

theorem Strips.toDo_lt (strips : s.Strips g) (turn : s.Turn next) :
    Prod.Lex (· < ·) (Prod.Lex (· < ·) (· < ·)) (next.toDo g) (s.toDo g) := by
  have next_strips := strips.turn turn
  cases turn with
  | pass found =>
    apply Prod.Lex.right
    apply Prod.Lex.right
    have inside := (List.getElem?_eq_some_iff.mp found).1
    simp only
    omega
  | add =>
    -- All of them are expanded productions, and none is there twice.
    have bounded : _ ≤ (g.expansions g.nullable).length :=
      (List.subperm_of_subset next_strips.distinct next_strips.expanded).length_le
    apply Prod.Lex.left
    simp only [List.length_append, List.length_singleton] at bounded ⊢
    omega
  | restart _ changed =>
    apply Prod.Lex.right
    apply Prod.Lex.left
    simp [changed]

theorem Strips.exists_ends {s : Stripping} (strips : s.Strips g) : ∃ last, s.Ends last := by
  cases turned : s.turn? with
  | none => exact ⟨s, .done turned⟩
  | some next =>
    have turn := strips.turn_of_turn? turned
    have less := strips.toDo_lt turn
    obtain ⟨last, rest⟩ := (strips.turn turn).exists_ends
    exact ⟨last, .turn turned rest⟩
termination_by s.toDo g
decreasing_by exact less

theorem Ends.strips (ends : s.Ends last) (strips : s.Strips g) :
    last.Strips g ∧ last.turn? = none := by
  induction ends with
  | done ended => exact ⟨strips, ended⟩
  | turn turned _ ih => exact ih (strips.turn (strips.turn_of_turn? turned))

/-! ### What has been found then -/

/-- When no turn is left, nothing new can be had by stripping. -/
theorem Strips.closed (strips : s.Strips g) (ended : s.turn? = none) (member : p ∈ s.productions)
    (stripped : stripped? s.nullables p = some p') : p' ∈ s.productions := by
  simp only [turn?] at ended
  split at ended
  next => split at ended <;> cases ended
  next all_passed =>
    split at ended
    next => cases ended
    next unchanged =>
      apply strips.passed (Bool.eq_false_iff.mpr unchanged) p ?_ p' stripped
      rwa [List.take_of_length_le (List.getElem?_eq_none_iff.mp all_passed)]

/-- Known nullable nonterminals are struck off one by one. -/
theorem Strips.mem_of_struck (strips : s.Strips g) (ended : s.turn? = none) {n : NonterminalId}
    {struck xs ys : List Symbol} (member : (n, xs) ∈ s.productions) (split : xs = struck ++ ys)
    (all_known : ∀ x ∈ struck, x.isIn s.nullables = true) : (n, ys) ∈ s.productions := by
  subst split
  induction struck with
  | nil => exact member
  | cons x struck ih =>
    have known := all_known x List.mem_cons_self
    cases x with
    | terminal t => simp at known
    | nonterminal m =>
      apply ih
      · exact fun y later => all_known y (List.mem_cons_of_mem _ later)
      · apply strips.closed ended member
        exact stripped?_eq_some_iff.mpr ⟨m, isIn_nonterminal.mp known, rfl⟩

/-- Each pass over the rules finds only nonterminals that the walks have found too. -/
theorem Strips.mem_nullables (strips : s.Strips g) (ended : s.turn? = none) :
    ∀ n ∈ g.nullable, n ∈ s.nullables := by
  refine iterate_induction g.nullablePass (fun known => ∀ n ∈ known, n ∈ s.nullables) ?_ _ []
    (by simp)
  intro known found n member
  rcases g.mem_nullablePass.mp member with old | ⟨r, rule, rfl, vanishes⟩
  · exact found n old
  · apply (strips.nullables r.left).mpr
    apply strips.mem_of_struck ended (strips.given r rule) (List.append_nil r.right).symm
    intro x mentioned
    have known_x := vanishes x mentioned
    cases x with
    | terminal t => simp at known_x
    | nonterminal m => exact isIn_nonterminal.mpr (found m (isIn_nonterminal.mp known_x))

theorem Strips.nullables_iff (strips : s.Strips g) (ended : s.turn? = none) (n : NonterminalId) :
    n ∈ s.nullables ↔ n ∈ g.nullable := by
  constructor
  · intro known
    exact mem_nullable_of_expansion (strips.expanded _ ((strips.nullables n).mp known))
  · exact strips.mem_nullables ended n

theorem Strips.productions_iff (strips : s.Strips g) (ended : s.turn? = none)
    (p : NonterminalId × List Symbol) : p ∈ s.productions ↔ p ∈ g.expansions g.nullable := by
  constructor
  · exact strips.expanded p
  · intro member
    obtain ⟨n, ys⟩ := p
    obtain ⟨r, rule, rfl, struck, right, all_known⟩ := Grammar.mem_expansions.mp member
    apply strips.mem_of_struck ended (strips.given r rule) right
    intro x in_struck
    have known := all_known x in_struck
    cases x with
    | terminal t => simp at known
    | nonterminal m =>
      exact isIn_nonterminal.mpr (strips.mem_nullables ended m (isIn_nonterminal.mp known))

/-- Known nonterminals are those that derive the empty string. -/
theorem isIn_nullable_iff {x : Symbol} :
    x.isIn g.nullable = true ↔ ∃ m, x = .nonterminal m ∧ Derives g.rules [.nonterminal m] [] := by
  cases x with
  | terminal t => simp
  | nonterminal n => simp [g.mem_nullable]

theorem Strips.expands (strips : s.Strips g) (ended : s.turn? = none) : s.Expands g where
  productions n ys := by
    rw [strips.productions_iff ended, Grammar.mem_expansions]
    simp only [isIn_nullable_iff]
  nullables := strips.nullables
  same_productions := strips.productions_iff ended
  same_nullables := strips.nullables_iff ended

/-- Walks over the productions of a grammar come to an end, and then just the expanded productions
and the nullable nonterminals have been found. -/
theorem stripping_is_exact (g : Grammar) :
    (∃ last, (start g).Ends last) ∧ ∀ last, (start g).Ends last → last.Expands g := by
  have strips := start_strips g
  refine ⟨strips.exists_ends, fun last ends => ?_⟩
  obtain ⟨last_strips, ended⟩ := ends.strips strips
  exact last_strips.expands ended

end CanonicalLR.Stripping
