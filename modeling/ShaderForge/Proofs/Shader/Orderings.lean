import Mathlib.Data.List.Pairwise
import ShaderForge.Proofs.Tables
import ShaderForge.Shader.Metadata

/-!
# ShaderForge.Proofs.Shader.Orderings

The orders in which stages and exports are listed. Neither the order in which a table is gone through nor the way
of sorting shows in them.

* `Sorter`              — a way of sorting; elements that tie may come out in any order.
* `Sorter.sort_eq`      — where nothing ties there is one result.
* `orderings_canonical` — stages by buffer and kind, export names by binding and name.
-/

namespace ShaderForge

/-! ## Sorting without ties -/

/-- A way of sorting: the result is a rearrangement, and if the comparison is an order nothing stands behind what
it is less than. -/
structure Sorter (α : Type) where
  sort : (α → α → Bool) → List α → List α
  perm : ∀ less l, (sort less l).Perm l
  ascends : ∀ less l, Sorts less → (sort less l).Pairwise fun a b => less b a = false

section Sorting

variable {α : Type} {less : α → α → Bool} {l m : List α}

/-- Elements in strict order are the only result of sorting them. -/
theorem Sorter.sort_eq (sorter : Sorter α) (h : Sorts less) (hl : l.Perm m)
    (hm : m.Pairwise fun a b => less a b = true) : sorter.sort less l = m := by
  have hperm := (sorter.perm less l).trans hl
  have : Std.Symm fun a b => less a b = true ∨ less b a = true := ⟨fun _ _ => Or.symm⟩
  have hcompared := (hm.imp (S := fun a b => less a b = true ∨ less b a = true) Or.inl).forall
  refine hperm.eq_of_pairwise (fun a b ha hb hab hba => ?_) (sorter.ascends less l h)
    (hm.imp fun hab => h.asymm _ _ hab)
  by_contra hne
  -- neither is less than the other, but different elements of `m` compare one way or the other
  rcases hcompared (hperm.mem_iff.1 ha) hb hne with hless | hless
  · rw [hba] at hless
    cases hless
  · rw [hab] at hless
    cases hless

variable {κ : Type} [Key κ]

/-- Elements with different keys are sorted strictly by their numbers and keys. -/
theorem sortBy_numbered (number : α → Int) (key : α → κ) (hl : (l.map key).Nodup) :
    (sortBy (fun a b => number a < number b || (number a = number b && Key.below (key a) (key b))) l).Pairwise
      fun a b => number a < number b ∨ (number a = number b ∧ Key.below (key a) (key b) = true) := by
  have hsorted := sortBy_pairwise (sorts_numbered number key) l
  refine (List.pairwise_map.1 (((sortBy_perm l).map key).nodup_iff.2 hl)).imp₂ (fun a b hne hba => ?_) hsorted
  simp only [Bool.or_eq_false_iff, Bool.and_eq_false_iff, decide_eq_false_iff_not] at hba
  rcases Int.lt_or_eq_of_le (Int.not_lt.1 hba.1) with hlt | heq
  · exact .inl hlt
  · refine .inr ⟨heq, ?_⟩
    cases hab : Key.below (key a) (key b) with
    | true => rfl
    | false => exact absurd (Key.total _ _ hab (hba.2.resolve_left (not_not.2 heq.symm))) hne

end Sorting

/-! ## Stages and exports -/

theorem Stages.sorts_before : Sorts Stages.before :=
  sorts_numbered (fun e : StageKind × Stage => e.2.buffer) Prod.fst

theorem Stages.ordered_pairwise (s : Stages) : s.ordered.Pairwise fun a b =>
    a.2.buffer < b.2.buffer ∨ (a.2.buffer = b.2.buffer ∧ a.1.code < b.1.code) := by
  refine (sortBy_numbered (fun e : StageKind × Stage => e.2.buffer) Prod.fst s.ascending.nodup).imp fun hab => ?_
  exact hab.imp_right fun h => ⟨h.1, of_decide_eq_true h.2⟩

namespace Exports

theorem sorts_before : Sorts Exports.before :=
  sorts_numbered (fun e : Bytes × Option Export => bindingOf e.2) Prod.fst

def bindingAt (e : Exports) (name : Bytes) : Int := bindingOf (e.get? name).join

/-- Names are compared by binding, then by themselves. -/
def nameBefore (e : Exports) (a b : Bytes) : Bool :=
  e.bindingAt a < e.bindingAt b || (e.bindingAt a = e.bindingAt b && Key.below a b)

theorem bindingAt_of_mem {e : Exports} {x : Bytes × Option Export} (hx : x ∈ e.toList) :
    e.bindingAt x.1 = bindingOf x.2 := by
  rw [bindingAt, Dict.get?_eq_some_iff.2 hx]
  rfl

theorem names_pairwise (e : Exports) : e.names.Pairwise fun a b =>
    e.bindingAt a < e.bindingAt b ∨ (e.bindingAt a = e.bindingAt b ∧ Bytes.precedes a b = true) := by
  have hmem : ∀ x ∈ e.ordered, x ∈ e.toList := fun x hx => (sortBy_perm _).mem_iff.1 hx
  rw [names, List.pairwise_map]
  refine (sortBy_numbered (fun x : Bytes × Option Export => bindingOf x.2) Prod.fst e.ascending.nodup).imp_of_mem ?_
  intro a b ha hb hab
  rwa [bindingAt_of_mem (hmem a ha), bindingAt_of_mem (hmem b hb)]

end Exports

/-- Stages are listed in strict order of buffer and kind, export names in strict order of binding and name, all of
them, and it is the same list in whatever order the table is gone through and whatever sorts it. -/
theorem orderings_canonical :
    (∀ s : Stages, s.ordered.Perm s.toList ∧
      (s.ordered.Pairwise fun a b =>
        a.2.buffer < b.2.buffer ∨ (a.2.buffer = b.2.buffer ∧ a.1.code < b.1.code)) ∧
      ∀ (sorter : Sorter (StageKind × Stage)) (l : List (StageKind × Stage)), l.Perm s.toList →
        sorter.sort Stages.before l = s.ordered) ∧
    ∀ e : Exports, e.names.Perm e.keys ∧
      (e.names.Pairwise fun a b =>
        e.bindingAt a < e.bindingAt b ∨ (e.bindingAt a = e.bindingAt b ∧ Bytes.precedes a b = true)) ∧
      ∀ (sorter : Sorter Bytes) (l : List Bytes), l.Perm e.keys → sorter.sort e.nameBefore l = e.names := by
  constructor
  · intro s
    have hperm : s.ordered.Perm s.toList := sortBy_perm s.toList
    refine ⟨hperm, s.ordered_pairwise, fun sorter l hl => ?_⟩
    refine sorter.sort_eq Stages.sorts_before (hl.trans hperm.symm) (s.ordered_pairwise.imp fun hab => ?_)
    simpa [Stages.before, Key.below] using hab
  · intro e
    have hperm : e.names.Perm e.keys := (sortBy_perm e.toList).map _
    refine ⟨hperm, e.names_pairwise, fun sorter l hl => ?_⟩
    refine sorter.sort_eq (sorts_numbered e.bindingAt id) (hl.trans hperm.symm) (e.names_pairwise.imp fun hab => ?_)
    simpa [Exports.nameBefore, Key.below] using hab

/-- Sorting the reversed list turns ties round. -/
def Sorter.reversing (α : Type) : Sorter α where
  sort less l := sortBy less l.reverse
  perm _ l := (sortBy_perm l.reverse).trans l.reverse_perm
  ascends _ l h := sortBy_pairwise h l.reverse

/-- Two stages with one buffer; a binding that is the last one, one that is missing and an export that is null. -/
theorem orderings_canonical_ties :
    let s : Stages := Dict.ofList [(.pixel, { buffer := 3 }), (.vertex, { buffer := 3 })]
    let e : Exports := Dict.ofList [("B", none), ("C", some { binding := lastBinding }), ("A", some {}),
      ("D", some { binding := some (-1) })]
    s.ordered.map (·.1) = [.vertex, .pixel] ∧ e.names = [utf8 "D", "A", "B", "C"] ∧
      (Sorter.reversing _).sort Stages.before s.toList.reverse = s.ordered ∧
      (Sorter.reversing _).sort e.nameBefore e.keys.reverse = e.names := by
  intro s e
  exact ⟨by decide, by decide, (orderings_canonical.1 s).2.2 _ _ s.toList.reverse_perm,
    (orderings_canonical.2 e).2.2 _ _ e.keys.reverse_perm⟩

end ShaderForge
