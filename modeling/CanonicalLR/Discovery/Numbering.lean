import CanonicalLR.Discovery

/-!
# Discovery with an index

A list in order of discovery in which an element is found without looking at all the others: the
elements are in an array, and each has a key by which its number is filed. Numbering an element does
to the elements what discovering it does to the list of them.
-/
namespace CanonicalLR

structure Numbering (α : Type) (key : α → Nat) where
  /-- The numbers of the elements by their keys, up to a multiple of how many files there are. -/
  files : Array (List Nat)
  elements : Array α
  room : 0 < files.size
  filed : ∀ {a : α} {i : Nat}, elements[i]? = some a →
    i ∈ files.getD (key a % files.size) []
  distinct : elements.toList.Nodup

namespace Numbering

variable {α : Type} {key : α → Nat}

def empty (size : Nat) : Numbering α key where
  files := .replicate (size + 1) []
  elements := #[]
  room := by simp
  filed found := by simp at found
  distinct := .nil

variable [DecidableEq α] (x : Numbering α key)

def toList : List α := x.elements.toList

def number? (a : α) : Option Nat :=
  (x.files.getD (key a % x.files.size) []).find? fun i => x.elements[i]? = some a

variable {x} {a : α}

theorem number?_eq_some_iff {i : Nat} : x.number? a = some i ↔ x.elements[i]? = some a := by
  have sound {j : Nat} (found : x.number? a = some j) : x.elements[j]? = some a := by
    simpa using List.find?_some found
  refine ⟨sound, fun at_i => ?_⟩
  -- Some number is found, and no other element is this one.
  obtain ⟨j, found⟩ : ∃ j, x.number? a = some j :=
    Option.isSome_iff_exists.mp (List.find?_isSome.mpr ⟨i, x.filed at_i, by simpa using at_i⟩)
  have at_j := sound found
  rw [← Array.getElem?_toList] at at_i at_j
  obtain ⟨inside, _⟩ := List.getElem?_eq_some_iff.mp at_j
  have same : j = i := (List.getElem?_inj inside x.distinct).mp (at_j.trans at_i.symm)
  exact same ▸ found

theorem number?_eq_none_iff : x.number? a = none ↔ a ∉ x.toList := by
  rw [Option.eq_none_iff_forall_ne_some, toList, List.mem_iff_getElem?, not_exists]
  refine forall_congr' fun i => not_congr ?_
  rw [number?_eq_some_iff, Array.getElem?_toList]

/-- File a new element under the next number. -/
def add (x : Numbering α key) (a : α) (new : x.number? a = none) : Numbering α key where
  -- The files are changed before the elements, so that the elements need not be copied.
  files := x.files.modify (key a % x.files.size) (x.elements.size :: ·)
  elements := x.elements.push a
  room := by simpa using x.room
  filed := by
    intro b i found
    have inside : key b % x.files.size < x.files.size := Nat.mod_lt _ x.room
    rw [Array.getElem?_push] at found
    simp only [Array.size_modify, Array.getD_eq_getD_getElem?, Array.getElem?_modify]
    split at found
    next last =>
      obtain rfl := Option.some.inj found
      simp [inside, last]
    next =>
      have old := x.filed found
      rw [Array.getD_eq_getD_getElem?, Array.getElem?_eq_getElem inside] at old
      split <;> simp_all
  distinct := by
    have fresh := number?_eq_none_iff.mp new
    rw [Array.toList_push, List.nodup_append]
    refine ⟨x.distinct, by simp, ?_⟩
    rintro b member c single rfl
    exact fresh (List.mem_singleton.mp single ▸ member)

/-- The number of an element, which is new if it was not met before. -/
def number (x : Numbering α key) (a : α) : Nat × Numbering α key :=
  match found : x.number? a with
  | some i => (i, x)
  | none => (x.elements.size, x.add a found)

theorem toList_number (x : Numbering α key) (a : α) :
    (x.number a).2.toList = discover x.toList a := by
  rw [number]
  split
  next i found =>
    have member : a ∈ x.toList := by
      have at_i := number?_eq_some_iff.mp found
      exact List.mem_of_getElem? (Array.getElem?_toList.trans at_i)
    rw [discover_of_mem member]
  next new =>
    rw [discover, if_neg (number?_eq_none_iff.mp new), add, toList, Array.toList_push]
    rfl

/-- The number of an element is its position from then on. -/
theorem number_eq_idxOf (x : Numbering α key) (a : α) :
    (x.number a).1 = (discover x.toList a).idxOf a := by
  rw [number]
  split
  next i found =>
    have at_i : x.toList[i]? = some a :=
      Array.getElem?_toList.trans (number?_eq_some_iff.mp found)
    obtain ⟨inside, equal⟩ := List.getElem?_eq_some_iff.mp at_i
    rw [discover_of_mem (List.mem_of_getElem? at_i), ← equal]
    exact (x.distinct.idxOf_getElem i inside).symm
  next new =>
    have fresh := number?_eq_none_iff.mp new
    rw [discover, if_neg fresh, List.idxOf_append, if_neg fresh]
    simp [toList]

end Numbering

end CanonicalLR
