/-!
# Iteration up to a fixpoint

`iterate` applies a step until it changes nothing, for a limited number of rounds. A step that
raises a measure whenever it changes its argument reaches a fixpoint as soon as the number of
rounds covers the distance to a bound of the measure, so the limit never shows in a result.
-/
namespace CanonicalLR

variable {σ : Type} [DecidableEq σ]

def iterate (step : σ → σ) : Nat → σ → σ
  | 0, s => s
  | rounds + 1, s =>
    let next := step s
    if next = s then s else iterate step rounds next

theorem iterate_induction (step : σ → σ) (holds : σ → Prop)
    (preserves : ∀ s, holds s → holds (step s)) (rounds : Nat) (s : σ) (start : holds s) :
    holds (iterate step rounds s) := by
  induction rounds generalizing s with
  | zero => exact start
  | succ rounds ih =>
    simp only [iterate]
    split
    · exact start
    · exact ih _ (preserves s start)

/-- Enough rounds end in a fixpoint. -/
theorem iterate_fixed (step : σ → σ) (holds : σ → Prop) (measure : σ → Nat) (bound : Nat)
    (preserves : ∀ s, holds s → holds (step s))
    (grows : ∀ s, holds s → step s = s ∨ measure s < measure (step s))
    (bounded : ∀ s, holds s → measure s ≤ bound)
    (rounds : Nat) (s : σ) (start : holds s) (enough : bound ≤ measure s + rounds) :
    step (iterate step rounds s) = iterate step rounds s := by
  induction rounds generalizing s with
  | zero =>
    rcases grows s start with fixed | greater
    · exact fixed
    · have := bounded _ (preserves s start)
      omega
  | succ rounds ih =>
    simp only [iterate]
    split
    next fixed => exact fixed
    next changed =>
      have greater := (grows s start).resolve_left changed
      exact ih _ (preserves s start) (by omega)

end CanonicalLR
