import CanonicalLR.Parser.Tree
import CanonicalLR.Proofs.AskedSteps
import CanonicalLR.Proofs.SingleNonterminal

/-!
# Statements with an optional else branch

A statement is a plain one, a condition before a statement, or a condition before a statement with
an else branch behind it. So a statement with fewer else branches than conditions can be read in
several ways, which differ in the conditions that the branches belong to. What may come next depends
only on whether a statement has just been read and on how many conditions have no branch yet. The
items of a state agree with that: what can have been read before a statement is made of conditions
and of conditions with a statement and the beginning of a branch, and an else is expected behind the
statement as long as one of the conditions has no branch.
-/
namespace CanonicalLR

/-! ### Grammars -/

structure ElseTerminals where
  condition : TerminalId
  alternative : TerminalId
  plain : TerminalId

namespace ElseTerminals

variable (k : ElseTerminals) (s : NonterminalId)

/-- A condition without a branch. -/
def short : List Symbol := [.terminal k.condition, .nonterminal s]

/-- A condition with a branch. -/
def full : List Symbol :=
  [.terminal k.condition, .nonterminal s, .terminal k.alternative, .nonterminal s]

/-- What a statement may be. -/
def rights : List (List Symbol) := [k.short s, k.full s, [.terminal k.plain]]

end ElseTerminals

/-- The rules are those for statements, and an else is shifted rather than that a condition is left
without a branch. -/
structure ElseGrammar (g : Grammar) (k : ElseTerminals) : Prop where
  distinct : [k.condition, k.alternative, k.plain].Nodup
  offers : g.Offers (k.rights g.start)
  shifted : ∀ q < g.rules.length, (g.rule q).right = k.short g.start →
    g.PrefersShift q k.alternative

namespace ElseGrammar

variable {g : Grammar} {k : ElseTerminals} {s : NonterminalId} {right : List Symbol}

theorem distinct_terminals (grammar : ElseGrammar g k) : k.condition ≠ k.alternative ∧
    k.condition ≠ k.plain ∧ k.alternative ≠ k.plain := by
  simpa [and_assoc] using grammar.distinct

theorem mem_rights : right ∈ k.rights s ↔
    right = k.short s ∨ right = k.full s ∨ right = [.terminal k.plain] := by
  simp [ElseTerminals.rights]

theorem short_mem : k.short s ∈ k.rights s := mem_rights.mpr (.inl rfl)

theorem full_mem : k.full s ∈ k.rights s := mem_rights.mpr (.inr (.inl rfl))

theorem plain_mem : [.terminal k.plain] ∈ k.rights s := mem_rights.mpr (.inr (.inr rfl))

theorem markersFit (grammar : ElseGrammar g k) (augmented : g.Augmented) : g.MarkersFit := by
  refine grammar.offers.markersFit augmented fun right among => ?_
  rcases mem_rights.mp among with rfl | rfl | rfl <;> exact of_decide_eq_true rfl

/-- The end of the input is not one of the terminals. -/
theorem ne_eoi (grammar : ElseGrammar g k) (wf : g.WellFormed) :
    ∀ t ∈ [k.condition, k.alternative, k.plain], t ≠ .eoi := by
  have known {right : List Symbol} {t : TerminalId} (among : right ∈ k.rights g.start)
      (inside : .terminal t ∈ right) : t ≠ .eoi := by
    obtain ⟨q, r, found, _, _, rfl⟩ := grammar.offers.exists_rule among
    exact ((wf.rules_known r (List.mem_of_getElem? found)).right _ inside).1
  intro t member
  simp only [List.mem_cons, List.not_mem_nil, or_false] at member
  rcases member with rfl | rfl | rfl
  · exact known full_mem (by simp [ElseTerminals.full])
  · exact known full_mem (by simp [ElseTerminals.full])
  · exact known plain_mem (by simp)

theorem exists_terminal_mem : ∀ right ∈ k.rights s, ∃ t, .terminal t ∈ right := by
  intro right among
  rcases mem_rights.mp among with rfl | rfl | rfl
  · exact ⟨k.condition, List.mem_cons_self⟩
  · exact ⟨k.condition, List.mem_cons_self⟩
  · exact ⟨k.plain, List.mem_cons_self⟩

/-! ### What may come next -/

/-- Whether a statement is expected or has just been read. -/
inductive Place where
  | before
  | after

/-- When so many conditions have no branch, a statement can be completed in this way. -/
inductive Scans (k : ElseTerminals) (s : NonterminalId) : Place → Nat → List Symbol → Prop where
  | done {n : Nat} : Scans k s .after n []
  | statement {n : Nat} {w : List Symbol} (rest : Scans k s .after n w) :
      Scans k s .before n (.nonterminal s :: w)
  | plain {n : Nat} {w : List Symbol} (rest : Scans k s .after n w) :
      Scans k s .before n (.terminal k.plain :: w)
  | condition {n : Nat} {w : List Symbol} (rest : Scans k s .before (n + 1) w) :
      Scans k s .before n (.terminal k.condition :: w)
  | alternative {n : Nat} {w : List Symbol} (rest : Scans k s .before n w) :
      Scans k s .after (n + 1) (.terminal k.alternative :: w)

namespace Scans

variable {place : Place} {n : Nat}

/-- One more condition without a branch may stay without it. -/
theorem succ {w : List Symbol} (scans : Scans k s place n w) : Scans k s place (n + 1) w := by
  induction scans with
  | done => exact .done
  | statement _ ih => exact .statement ih
  | plain _ ih => exact .plain ih
  | condition _ ih => exact .condition ih
  | alternative _ ih => exact .alternative ih

/-- A statement can be exchanged for what can stand in its place. -/
theorem exchange {before right after : List Symbol}
    (scans : Scans k s place n (before ++ .nonterminal s :: after))
    (exchanged : ∀ n, Scans k s .after n after → Scans k s .before n (right ++ after)) :
    Scans k s place n (before ++ right ++ after) := by
  induction before generalizing place n with
  | nil =>
    cases scans with
    | statement rest => exact exchanged n rest
  | cons x before ih =>
    cases scans with
    | statement rest => exact .statement (ih rest)
    | plain rest => exact .plain (ih rest)
    | condition rest => exact .condition (ih rest)
    | alternative rest => exact .alternative (ih rest)

/-- All that a statement may be can stand in its place. -/
theorem of_right {after : List Symbol} (among : right ∈ k.rights s)
    (scans : Scans k s .after n after) : Scans k s .before n (right ++ after) := by
  rcases mem_rights.mp among with rfl | rfl | rfl
  · exact .condition (.statement scans.succ)
  · exact .condition (.statement (.alternative (.statement scans)))
  · exact .plain scans

end Scans

theorem scans_of_derives (grammar : ElseGrammar g k) (augmented : g.Augmented) {u : List Symbol}
    (derivation : Derives g.rules [.nonterminal g.start] u) : Scans k g.start .before 0 u := by
  refine grammar.offers.of_derives augmented plain_mem (.statement .done) ?_ derivation
  intro before right after among scans
  exact scans.exchange fun n rest => .of_right among rest

/-! ### Strings before a statement -/

/-- What has been begun on the way to a statement. -/
inductive Frame where
  | condition
  | alternative (first : Tree)

namespace Frame

/-- What frames spell, the latest first. -/
def spelled (k : ElseTerminals) (s : NonterminalId) : List Frame → List Symbol
  | [] => []
  | condition :: frames => spelled k s frames ++ [.terminal k.condition]
  | alternative _ :: frames =>
    spelled k s frames ++ [.terminal k.condition, .nonterminal s, .terminal k.alternative]

/-- How many conditions have no branch. -/
def waiting : List Frame → Nat
  | [] => 0
  | condition :: frames => waiting frames + 1
  | alternative _ :: frames => waiting frames

/-- Before a statement a condition or an else has been read. -/
theorem spelled_eq_concat {frames : List Frame} {v : List Symbol} {x : Symbol}
    (whole : spelled k s frames = v ++ [x]) :
    (∃ earlier, frames = condition :: earlier ∧ x = .terminal k.condition ∧
        v = spelled k s earlier) ∨
      ∃ first earlier, frames = alternative first :: earlier ∧ x = .terminal k.alternative ∧
        v = spelled k s earlier ++ k.short s := by
  cases frames with
  | nil => simp [spelled] at whole
  | cons frame earlier =>
    cases frame with
    | condition =>
      obtain ⟨rfl, last⟩ := List.append_inj' whole rfl
      obtain rfl := List.singleton_inj.mp last
      exact .inl ⟨earlier, rfl, rfl, rfl⟩
    | alternative first =>
      have longer : spelled k s earlier ++ k.short s ++ [.terminal k.alternative] = v ++ [x] := by
        rw [← whole, spelled, ElseTerminals.short]
        simp
      obtain ⟨rfl, last⟩ := List.append_inj' longer rfl
      obtain rfl := List.singleton_inj.mp last
      exact .inr ⟨first, earlier, rfl, rfl, rfl⟩

end Frame

/-- What may come after the statement that is expected behind some frames. -/
def Follows (k : ElseTerminals) (frames : List Frame) (b : TerminalId) : Prop :=
  b = .eoi ∨ b = k.alternative ∧ 0 < Frame.waiting frames

theorem Scans.eq_alternative {n : Nat} {t : TerminalId} {w : List Symbol}
    (scans : Scans k s .after n (.terminal t :: w)) : t = k.alternative := by
  cases scans
  rfl

theorem Scans.follows {frames : List Frame} {w : List TerminalId}
    (scans : Scans k s .after (Frame.waiting frames) (w.map .terminal)) :
    Follows k frames (w.headD .eoi) := by
  generalize counted : Frame.waiting frames = n at scans
  cases w with
  | nil => exact .inl rfl
  | cons t w =>
    cases scans with
    | alternative =>
      apply Or.inr
      exact ⟨rfl, by omega⟩

/-- Before a statement the rules are predicted with whatever may come after it. -/
theorem predicts_spelled (grammar : ElseGrammar g k) (augmented : g.Augmented)
    {frames : List Frame} {b : TerminalId} (follows : Follows k frames b) :
    g.PredictsAt g.start (Frame.spelled k g.start frames) b := by
  -- By the frames: each of them is a part of a rule that is predicted without it.
  have fits := grammar.markersFit augmented
  induction frames generalizing b with
  | nil =>
    rcases follows with rfl | ⟨_, some⟩
    · exact fits.predictsAt_of_read (x := []) augmented.accepting .start rfl
        (begins_terminal.mpr rfl)
    · exact absurd some (Nat.lt_irrefl 0)
  | cons frame frames ih =>
    cases frame with
    | condition =>
      have at_end := ih (.inl rfl)
      rcases follows with rfl | ⟨rfl, _⟩
      · obtain ⟨q, r, found, _, left, right⟩ := grammar.offers.exists_rule short_mem
        exact fits.predictsAt_of_read (x := [.terminal k.condition]) found
          (at_end q r found left) right (begins_terminal.mpr rfl)
      · -- The condition may be one with a branch, which begins with the else.
        obtain ⟨q, r, found, _, left, right⟩ := grammar.offers.exists_rule full_mem
        exact fits.predictsAt_of_read (x := [.terminal k.condition]) found
          (at_end q r found left) right ⟨_, .refl _⟩
    | alternative first =>
      obtain ⟨q, r, found, _, left, right⟩ := grammar.offers.exists_rule full_mem
      exact fits.predictsAt_of_read
        (x := [.terminal k.condition, .nonterminal g.start, .terminal k.alternative]) found
        (ih follows q r found left) right (begins_terminal.mpr rfl)

/-! ### Strings that have been read -/

section Strings

variable {frames : List Frame} {u v : List Symbol}

/-- Right sides end in a statement or in a plain one. -/
theorem exists_concat_of_right (among : right ∈ k.rights s) :
    ∃ front x, right = front ++ [x] ∧ (x = .nonterminal s ∨ x = .terminal k.plain) := by
  rcases mem_rights.mp among with rfl | rfl | rfl
  · exact ⟨[.terminal k.condition], _, rfl, .inl rfl⟩
  · exact ⟨[.terminal k.condition, .nonterminal s, .terminal k.alternative], _, rfl, .inl rfl⟩
  · exact ⟨[], _, rfl, .inr rfl⟩

/-- Before a statement no right side has been read. -/
theorem spelled_ne_right (grammar : ElseGrammar g k) (among : right ∈ k.rights g.start) :
    Frame.spelled k g.start frames ≠ v ++ right := by
  intro whole
  obtain ⟨front, x, rfl, last⟩ := exists_concat_of_right among
  obtain ⟨_, condition_ne, alternative_ne⟩ := grammar.distinct_terminals
  rw [← List.append_assoc] at whole
  rcases Frame.spelled_eq_concat whole with ⟨_, _, rfl, _⟩ | ⟨_, _, _, rfl, _⟩
  · rcases last with same | same
    · cases same
    · exact condition_ne (Symbol.terminal.inj same)
  · rcases last with same | same
    · cases same
    · exact alternative_ne (Symbol.terminal.inj same)

/-- Behind a plain statement nothing else can be taken off. -/
theorem eq_of_plain (among : right ∈ k.rights s) (whole : u ++ [.terminal k.plain] = v ++ right) :
    right = [.terminal k.plain] ∧ v = u := by
  rcases mem_rights.mp among with rfl | rfl | rfl
  · have last : u ++ [.terminal k.plain] = v ++ [.terminal k.condition] ++ [.nonterminal s] := by
      rw [whole, ElseTerminals.short]
      simp
    cases (List.append_inj' last rfl).2
  · have last : u ++ [.terminal k.plain] =
        v ++ [.terminal k.condition, .nonterminal s, .terminal k.alternative] ++
          [.nonterminal s] := by
      rw [whole, ElseTerminals.full]
      simp
    cases (List.append_inj' last rfl).2
  · exact ⟨rfl, (List.append_cancel_right whole).symm⟩

/-- Behind a statement a condition can be taken off that is the latest frame, or one with a branch
that the latest frame begins. -/
theorem eq_of_statement (grammar : ElseGrammar g k) (among : right ∈ k.rights g.start)
    (whole : Frame.spelled k g.start frames ++ [.nonterminal g.start] = v ++ right) :
    (∃ earlier, frames = .condition :: earlier ∧ right = k.short g.start ∧
        v = Frame.spelled k g.start earlier) ∨
      ∃ first earlier, frames = .alternative first :: earlier ∧ right = k.full g.start ∧
        v = Frame.spelled k g.start earlier := by
  have different := grammar.distinct_terminals.1
  rcases mem_rights.mp among with rfl | rfl | rfl
  · have longer : Frame.spelled k g.start frames ++ [.nonterminal g.start] =
        v ++ [.terminal k.condition] ++ [.nonterminal g.start] := by
      rw [whole, ElseTerminals.short]
      simp
    rcases Frame.spelled_eq_concat (List.append_inj' longer rfl).1 with
      ⟨earlier, same, _, before⟩ | ⟨_, _, _, same, _⟩
    · exact .inl ⟨earlier, same, rfl, before⟩
    · exact absurd (Symbol.terminal.inj same) different
  · have longer : Frame.spelled k g.start frames ++ [.nonterminal g.start] =
        v ++ k.short g.start ++ [.terminal k.alternative] ++ [.nonterminal g.start] := by
      rw [whole, ElseTerminals.full, ElseTerminals.short]
      simp
    rcases Frame.spelled_eq_concat (List.append_inj' longer rfl).1 with
      ⟨_, _, same, _⟩ | ⟨first, earlier, same, _, before⟩
    · exact absurd (Symbol.terminal.inj same).symm different
    · exact .inr ⟨first, earlier, same, rfl, List.append_cancel_right before⟩
  · cases (List.append_inj' whole rfl).2

/-- An else is next only where a condition and a statement have been read. -/
theorem concat_of_next (grammar : ElseGrammar g k) (augmented : g.Augmented) {i : Item}
    (valid : Valid g u i) (next : i.next? g = some (.terminal k.alternative)) :
    ∃ v, u = v ++ k.short g.start := by
  obtain ⟨v, rfl⟩ := valid.exists_before
  refine ⟨v, congrArg (v ++ ·) ?_⟩
  obtain ⟨different, _, plain_ne⟩ := grammar.distinct_terminals
  have whole := Item.right_eq_of_next? next
  rcases mem_rights.mp (grammar.offers.right_mem_of_next augmented next) with same | same | same
  all_goals rw [same] at whole
  · obtain ⟨_, front, _⟩ : i.before g = [] ∧ k.alternative = k.condition ∧
        i.afterNext g = [.nonterminal g.start] := by
      simpa [ElseTerminals.short, List.cons_eq_append_iff] using whole
    exact absurd front.symm different
  · obtain ⟨read, _⟩ : i.before g = k.short g.start ∧ i.afterNext g = [.nonterminal g.start] := by
      simpa [ElseTerminals.full, ElseTerminals.short, List.cons_eq_append_iff, different.symm]
        using whole
    exact read
  · obtain ⟨_, only, _⟩ : i.before g = [] ∧ k.alternative = k.plain ∧ i.afterNext g = [] := by
      simpa [List.cons_eq_append_iff] using whole
    exact absurd only plain_ne

end Strings

/-! ### What is asked for -/

section Asked

variable {frames : List Frame} {b : TerminalId}

/-- Before a statement a condition and a plain statement are asked for. -/
theorem asked_before (grammar : ElseGrammar g k) (augmented : g.Augmented) {t : TerminalId}
    {y : List Symbol} (among : .terminal t :: y ∈ k.rights g.start) :
    Parser.Asked g (Frame.spelled k g.start frames) t := by
  obtain ⟨q, r, found, _, left, right⟩ := grammar.offers.exists_rule among
  have predicts : g.PredictsAt g.start (Frame.spelled k g.start frames) .eoi :=
    grammar.predicts_spelled augmented (.inl rfl)
  simpa using
    Parser.asked_of_read (grammar.markersFit augmented) (x := []) found left predicts right

/-- A right side that has been read is asked to be reduced on whatever may come next. -/
theorem asked_right (grammar : ElseGrammar g k) (augmented : g.Augmented)
    (among : right ∈ k.rights g.start) (follows : Follows k frames b) :
    Parser.Asked g (Frame.spelled k g.start frames ++ right) b := by
  obtain ⟨q, r, found, proper, left, rfl⟩ := grammar.offers.exists_rule among
  exact Parser.asked_of_predicted (grammar.markersFit augmented) found proper left
    (grammar.predicts_spelled augmented follows)

/-- Behind a condition and a statement an else is asked for. -/
theorem exists_next (grammar : ElseGrammar g k) (augmented : g.Augmented) (frames : List Frame) :
    ∃ i, Valid g (Frame.spelled k g.start (.condition :: frames) ++ [.nonterminal g.start]) i ∧
      i.next? g = some (.terminal k.alternative) := by
  obtain ⟨q, r, found, _, left, right⟩ := grammar.offers.exists_rule full_mem
  have predicts : g.PredictsAt g.start (Frame.spelled k g.start frames) .eoi :=
    grammar.predicts_spelled augmented (.inl rfl)
  have split : r.right = k.short g.start ++ .terminal k.alternative :: [.nonterminal g.start] :=
    right
  have read := (grammar.markersFit augmented).valid_of_read found split (predicts q r found left)
  refine ⟨_, ?_, (Grammar.next?_of_right (t := .eoi) found split).1⟩
  simpa [Frame.spelled, ElseTerminals.short] using read

/-- Behind a statement everything is asked for that may come next. -/
theorem asked_statement (grammar : ElseGrammar g k) (augmented : g.Augmented)
    (follows : Follows k frames b) :
    Parser.Asked g (Frame.spelled k g.start frames ++ [.nonterminal g.start]) b := by
  -- The latest frame is part of a rule that has been read with the statement, or awaits the else.
  cases frames with
  | nil =>
    rcases follows with rfl | ⟨_, some⟩
    · obtain ⟨i, valid, complete, lookahead, _⟩ :=
        (grammar.markersFit augmented).exists_complete augmented.accepting Valid.start
      exact ⟨i, valid, .inr ⟨complete, lookahead, fun _ => rfl⟩⟩
    · exact absurd some (Nat.lt_irrefl 0)
  | cons frame frames =>
    cases frame with
    | condition =>
      rcases follows with rfl | ⟨rfl, _⟩
      · have asked : Parser.Asked g (Frame.spelled k g.start frames ++ k.short g.start) .eoi :=
          grammar.asked_right augmented short_mem (.inl rfl)
        simpa [Frame.spelled, ElseTerminals.short] using asked
      · obtain ⟨i, valid, next⟩ := grammar.exists_next augmented frames
        exact ⟨i, valid, .inl next⟩
    | alternative first =>
      have asked : Parser.Asked g (Frame.spelled k g.start frames ++ k.full g.start) b :=
        grammar.asked_right augmented full_mem follows
      simpa [Frame.spelled, ElseTerminals.full] using asked

/-- Behind a condition and a statement an else is shifted. -/
theorem exists_shift (grammar : ElseGrammar g k) (augmented : g.Augmented) {built : Construction}
    (constructed : g.construct = .ok built) {t : StateId} {below : List StateId}
    (spells : Parser.Spells (.ofGrammar g)
      (Frame.spelled k g.start (.condition :: frames) ++ [.nonterminal g.start]) (t :: below)) :
    ∃ target, built.table.action t k.alternative = some (.shift target) := by
  have wf := augmented.toWellFormed
  obtain ⟨state, found, items⟩ := wf.state_of_walk spells.walk
  obtain ⟨i, valid, next⟩ := grammar.exists_next augmented frames
  refine wf.action_of_prefersShift constructed found ⟨i, (items i).mpr valid, next⟩ ?_
  intro rule proper reduces
  -- Only the condition without a branch can be reduced here.
  obtain ⟨j, valid, complete, _, rfl⟩ := Parser.valid_of_reduces wf spells found reduces
  have known := valid.rule_known wf
  obtain ⟨v, whole⟩ := valid.exists_before
  rw [Item.before_of_complete complete] at whole
  have among := (grammar.offers.sides_of_found (Grammar.getElem?_rule known) proper).2
  rcases grammar.eq_of_statement among whole with ⟨_, _, right, _⟩ | ⟨_, _, same, _⟩
  · exact grammar.shifted j.rule known right
  · cases same

end Asked

end ElseGrammar

end CanonicalLR
