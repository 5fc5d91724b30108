/-!
# Lists in order of discovery

A list without repetitions that grows at its end: an element is appended when it is met for the
first time, and its position is its number from then on.
-/
namespace CanonicalLR

variable {α : Type} [DecidableEq α]

def discover (seen : List α) (a : α) : List α :=
  if a ∈ seen then seen else seen ++ [a]

def discoverAll (seen : List α) (as : List α) : List α :=
  as.foldl discover seen

theorem discoverAll_append (seen as bs : List α) :
    discoverAll seen (as ++ bs) = discoverAll (discoverAll seen as) bs :=
  List.foldl_append

@[simp] theorem mem_discover {seen : List α} {a b : α} :
    b ∈ discover seen a ↔ b ∈ seen ∨ b = a := by
  simp only [discover]
  split
  next member =>
    refine ⟨.inl, ?_⟩
    rintro (old | rfl)
    · exact old
    · exact member
  next => simp

@[simp] theorem mem_discoverAll {seen as : List α} {b : α} :
    b ∈ discoverAll seen as ↔ b ∈ seen ∨ b ∈ as := by
  induction as generalizing seen with
  | nil => simp [discoverAll]
  | cons a as ih =>
    rw [discoverAll, List.foldl_cons, ← discoverAll, ih]
    simp [or_assoc]

theorem discover_of_mem {seen : List α} {a : α} (member : a ∈ seen) : discover seen a = seen :=
  if_pos member

/-- Numbers once given stay: discovering more only appends. -/
theorem isPrefix_discover (seen : List α) (a : α) : seen <+: discover seen a := by
  simp only [discover]
  split
  · exact List.prefix_rfl
  · exact List.prefix_append _ _

theorem isPrefix_discoverAll (seen as : List α) : seen <+: discoverAll seen as := by
  induction as generalizing seen with
  | nil => exact List.prefix_rfl
  | cons a as ih => exact (isPrefix_discover seen a).trans (ih _)

theorem nodup_discover {seen : List α} (distinct : seen.Nodup) (a : α) :
    (discover seen a).Nodup := by
  simp only [discover]
  split
  · exact distinct
  next new =>
    refine List.nodup_append.mpr ⟨distinct, by simp, ?_⟩
    rintro b member c single rfl
    exact new (List.mem_singleton.mp single ▸ member)

theorem nodup_discoverAll {seen : List α} (distinct : seen.Nodup) (as : List α) :
    (discoverAll seen as).Nodup := by
  induction as generalizing seen with
  | nil => exact distinct
  | cons a as ih => exact ih (nodup_discover distinct a)

end CanonicalLR
