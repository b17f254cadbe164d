import ShaderForge.Text.Bytes

/-!
# ShaderForge.Order

Strict total orders that can be decided, and sorting by them.

* `Key`        — a type with a decidable strict total order.
* `sortBy`     — insertion sort: equal elements keep their order.
-/

namespace ShaderForge

class Key (κ : Type) where
  below : κ → κ → Bool
  irrefl : ∀ a, below a a = false
  trans : ∀ a b c, below a b = true → below b c = true → below a c = true
  total : ∀ a b, below a b = false → below b a = false → a = b

/-- Puts `a` behind every element of a sorted list that is not above it. -/
def insertBy {α : Type} (below : α → α → Bool) (a : α) : List α → List α
  | [] => [a]
  | b :: l => if below a b then a :: b :: l else b :: insertBy below a l

/-- The list in ascending order; elements that tie keep their order. -/
def sortBy {α : Type} (below : α → α → Bool) (l : List α) : List α :=
  l.foldl (fun sorted a => insertBy below a sorted) []

namespace Bytes

theorem precedes_irrefl (s : Bytes) : precedes s s = false := by
  induction s with
  | nil => rfl
  | cons a s ih => simp [precedes, ih]

theorem precedes_trans (s t u : Bytes) :
    precedes s t = true → precedes t u = true → precedes s u = true := by
  induction s generalizing t u with
  | nil => cases t <;> cases u <;> simp [precedes]
  | cons a s ih =>
    cases t with
    | nil => simp [precedes]
    | cons b t =>
      cases u with
      | nil => simp [precedes]
      | cons c u =>
        simp only [precedes, Bool.or_eq_true, Bool.and_eq_true, decide_eq_true_eq]
        rintro (h | ⟨rfl, h⟩) (k | ⟨rfl, k⟩)
        · exact .inl (UInt8.lt_trans h k)
        · exact .inl h
        · exact .inl k
        · exact .inr ⟨rfl, ih t u h k⟩

theorem precedes_total (s t : Bytes) :
    precedes s t = false → precedes t s = false → s = t := by
  induction s generalizing t with
  | nil => cases t <;> simp [precedes]
  | cons a s ih =>
    cases t with
    | nil => simp [precedes]
    | cons b t =>
      simp only [precedes, Bool.or_eq_false_iff, Bool.and_eq_false_iff, decide_eq_false_iff_not]
      rintro ⟨h, h'⟩ ⟨k, k'⟩
      have hab : a = b := UInt8.le_antisymm (UInt8.not_lt.1 k) (UInt8.not_lt.1 h)
      subst hab
      simp only [not_true_eq_false, false_or] at h' k'
      rw [ih t h' k']

end Bytes

instance : Key Bytes where
  below := Bytes.precedes
  irrefl := Bytes.precedes_irrefl
  trans := Bytes.precedes_trans
  total := Bytes.precedes_total

end ShaderForge
