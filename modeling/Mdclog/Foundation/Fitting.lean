import Mathlib.Algebra.BigOperators.Group.List.Basic
import Mathlib.Algebra.GroupWithZero.Nat
import Mathlib.Data.List.Basic
import Mathlib.Data.List.Induction
import Mathlib.Data.List.Infix
import Mathlib.Data.Nat.Basic

/-! The longest prefix of a list whose total cost stays within a budget, as a
writer into a bounded buffer chooses it. -/
namespace Foundation.Fitting

variable {α : Type*} (cost : α → Nat)

def total (xs : List α) : Nat := (xs.map cost).sum

@[simp] theorem total_nil : total cost [] = 0 := rfl

@[simp] theorem total_cons (x : α) (xs : List α) :
    total cost (x :: xs) = cost x + total cost xs := by
  simp [total]

@[simp] theorem total_append (xs ys : List α) :
    total cost (xs ++ ys) = total cost xs + total cost ys := by
  simp [total]

/-- Keep elements as long as they fit, and stop at the first that does not. -/
def fitting : Nat → List α → List α
  | _, [] => []
  | room, x :: xs => if cost x ≤ room then x :: fitting (room - cost x) xs else []

theorem fitting_isPrefix (room : Nat) (xs : List α) : fitting cost room xs <+: xs := by
  induction xs generalizing room with
  | nil => simp [fitting]
  | cons x xs ih =>
    unfold fitting
    split
    · exact List.cons_prefix_cons.mpr ⟨rfl, ih _⟩
    · exact List.nil_prefix

theorem total_fitting_le (room : Nat) (xs : List α) : total cost (fitting cost room xs) ≤ room := by
  induction xs generalizing room with
  | nil => simp [fitting]
  | cons x xs ih =>
    unfold fitting
    split
    · have hrest := ih (room - cost x)
      rw [total_cons]
      omega
    · simp

theorem fitting_map {β : Type*} (f : β → α) (room : Nat) (xs : List β) :
    fitting cost room (xs.map f) = (fitting (fun x => cost (f x)) room xs).map f := by
  induction xs generalizing room with
  | nil => rfl
  | cons x xs ih =>
    rw [List.map_cons, fitting, fitting]
    split
    · rw [ih, List.map_cons]
    · rfl

/-- Every prefix within the budget is a prefix of the one chosen. -/
theorem isPrefix_fitting {room : Nat} {kept xs : List α} (hkept : kept <+: xs)
    (hroom : total cost kept ≤ room) : kept <+: fitting cost room xs := by
  induction kept generalizing room xs with
  | nil => exact List.nil_prefix
  | cons x kept ih =>
    obtain ⟨rest, rfl⟩ := hkept
    rw [total_cons] at hroom
    rw [List.cons_append, fitting, if_pos (by omega)]
    exact List.cons_prefix_cons.mpr ⟨rfl, ih (List.prefix_append _ _) (by omega)⟩

/-- The budget is used up exactly when some prefix costs just that much. -/
theorem total_fitting_eq_iff (room : Nat) (xs : List α) :
    total cost (fitting cost room xs) = room ↔ ∃ front ∈ xs.inits, total cost front = room := by
  constructor
  · intro h
    exact ⟨_, (List.mem_inits _ _).mpr (fitting_isPrefix cost room xs), h⟩
  · rintro ⟨front, hmem, rfl⟩
    obtain ⟨rest, hrest⟩ :=
      isPrefix_fitting cost ((List.mem_inits _ _).mp hmem) (Nat.le_refl (total cost front))
    have hle := total_fitting_le cost (total cost front) xs
    rw [← hrest, total_append] at hle ⊢
    omega

theorem fitting_of_le {room : Nat} {xs : List α} (h : total cost xs ≤ room) :
    fitting cost room xs = xs :=
  (fitting_isPrefix cost room xs).eq_of_length_le
    (isPrefix_fitting cost (List.prefix_refl xs) h).length_le

theorem fitting_eq_self_iff {room : Nat} {xs : List α} :
    fitting cost room xs = xs ↔ total cost xs ≤ room := by
  constructor
  · intro h
    rw [← h]
    exact total_fitting_le cost room xs
  · exact fitting_of_le cost

/-- If the prefix chosen is not everything, the next element did not fit. -/
theorem exists_of_fitting_ne {room : Nat} {xs : List α} (h : fitting cost room xs ≠ xs) :
    ∃ x rest, xs = fitting cost room xs ++ x :: rest ∧
      room < total cost (fitting cost room xs) + cost x := by
  obtain ⟨rest, hrest⟩ := fitting_isPrefix cost room xs
  cases rest with
  | nil =>
    rw [List.append_nil] at hrest
    contradiction
  | cons x rest =>
    refine ⟨x, rest, hrest.symm, ?_⟩
    by_contra hroom
    have hlonger : fitting cost room xs ++ [x] <+: fitting cost room xs := by
      apply isPrefix_fitting
      · exact ⟨rest, by simpa using hrest⟩
      · simp only [total_append, total_cons, total_nil]
        omega
    have hlength := hlonger.length_le
    rw [List.length_append, List.length_singleton] at hlength
    omega

/-- Two nested budgets are the smaller one. -/
theorem fitting_fitting {small large : Nat} (h : small ≤ large) (xs : List α) :
    fitting cost small (fitting cost large xs) = fitting cost small xs := by
  have hsmall : fitting cost small xs <+: fitting cost large xs :=
    isPrefix_fitting cost (fitting_isPrefix cost small xs)
      (Nat.le_trans (total_fitting_le cost small xs) h)
  apply List.IsPrefix.eq_of_length_le
  · exact isPrefix_fitting cost
      ((fitting_isPrefix cost small _).trans (fitting_isPrefix cost large xs))
      (total_fitting_le cost small _)
  · exact (isPrefix_fitting cost hsmall (total_fitting_le cost small xs)).length_le

/-- An element that exceeds the budget can be taken away from the end. -/
theorem fitting_append_singleton {room : Nat} {xs : List α} {x : α}
    (h : room < total cost (xs ++ [x])) :
    fitting cost room (xs ++ [x]) = fitting cost room xs := by
  have hprefix := fitting_isPrefix cost room (xs ++ [x])
  rcases List.prefix_concat_iff.mp hprefix with hall | hinit
  · have := total_fitting_le cost room (xs ++ [x])
    rw [hall] at this
    omega
  · apply List.IsPrefix.eq_of_length_le
    · exact isPrefix_fitting cost hinit (total_fitting_le cost room _)
    · exact (isPrefix_fitting cost
        ((fitting_isPrefix cost room xs).trans (List.prefix_append xs [x]))
        (total_fitting_le cost room xs)).length_le

end Foundation.Fitting
