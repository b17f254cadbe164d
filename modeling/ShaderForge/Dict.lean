import ShaderForge.Order

/-!
# ShaderForge.Dict

Finite maps as lists of entries in strictly ascending key order. Two dictionaries with the same
entries are equal, in whatever order the entries were put in.

* `Dict.get?`, `Dict.insert`, `Dict.toList`, `Dict.keys`.
-/

namespace ShaderForge

variable {κ α : Type} [Key κ] [DecidableEq κ]

/-- Puts an entry in its place, or replaces the value of a key that is there already. -/
def insertEntry (k : κ) (v : α) : List (κ × α) → List (κ × α)
  | [] => [(k, v)]
  | (k', v') :: l =>
    if Key.below k k' then (k, v) :: (k', v') :: l
    else if k = k' then (k, v) :: l
    else (k', v') :: insertEntry k v l

def Ascending (l : List (κ × α)) : Prop := l.Pairwise fun a b => Key.below a.1 b.1 = true

omit [DecidableEq κ] in
theorem ascending_nil : Ascending ([] : List (κ × α)) := List.Pairwise.nil

theorem mem_insertEntry {k : κ} {v : α} {e : κ × α} {l : List (κ × α)}
    (h : e ∈ insertEntry k v l) : e = (k, v) ∨ e ∈ l := by
  induction l with
  | nil => simpa [insertEntry] using h
  | cons hd tl ih =>
    obtain ⟨k', v'⟩ := hd
    rw [insertEntry] at h
    split at h
    · simpa using h
    · split at h
      · simp only [List.mem_cons] at h ⊢
        exact h.imp id .inr
      · simp only [List.mem_cons] at h ⊢
        rcases h with h | h
        · exact .inr (.inl h)
        · exact (ih h).imp id .inr

theorem ascending_insertEntry (k : κ) (v : α) {l : List (κ × α)} (h : Ascending l) :
    Ascending (insertEntry k v l) := by
  induction l with
  | nil => exact List.pairwise_singleton _ _
  | cons hd tl ih =>
    obtain ⟨k', v'⟩ := hd
    have htl := List.pairwise_cons.1 h
    rw [insertEntry]
    split
    · rename_i hlt
      refine List.pairwise_cons.2 ⟨?_, h⟩
      intro e he
      rcases List.mem_cons.1 he with rfl | he
      · exact hlt
      · exact Key.trans _ _ _ hlt (htl.1 e he)
    · split
      · rename_i heq
        subst heq
        exact List.pairwise_cons.2 ⟨htl.1, htl.2⟩
      · rename_i hlt hne
        refine List.pairwise_cons.2 ⟨?_, ih htl.2⟩
        intro e he
        rcases mem_insertEntry he with rfl | he
        · cases hb : Key.below k' k with
          | true => rfl
          | false => exact absurd (Key.total _ _ (by simpa using hlt) hb) hne
        · exact htl.1 e he

structure Dict (κ α : Type) [Key κ] where
  toList : List (κ × α)
  ascending : Ascending toList

namespace Dict

instance [DecidableEq α] : DecidableEq (Dict κ α) := fun a b =>
  match a, b with
  | ⟨l, _⟩, ⟨m, _⟩ => if h : l = m then isTrue (by subst h; rfl) else isFalse (by simp [h])

omit [DecidableEq κ] in
theorem ext {a b : Dict κ α} (h : a.toList = b.toList) : a = b := by
  cases a; cases b; simp_all

def empty : Dict κ α := ⟨[], ascending_nil⟩

instance : Inhabited (Dict κ α) := ⟨empty⟩

def insert (d : Dict κ α) (k : κ) (v : α) : Dict κ α :=
  ⟨insertEntry k v d.toList, ascending_insertEntry k v d.ascending⟩

def get? (d : Dict κ α) (k : κ) : Option α := d.toList.lookup k

def contains (d : Dict κ α) (k : κ) : Bool := (d.get? k).isSome

def keys (d : Dict κ α) : List κ := d.toList.map (·.1)

def size (d : Dict κ α) : Nat := d.toList.length

def ofList (l : List (κ × α)) : Dict κ α := l.foldl (fun d (k, v) => d.insert k v) empty

omit [DecidableEq κ] in
theorem ascending_map {β : Type} (f : κ → α → β) {l : List (κ × α)} (h : Ascending l) :
    Ascending (l.map fun e => (e.1, f e.1 e.2)) :=
  List.pairwise_map.2 h

def mapValues {β : Type} (f : κ → α → β) (d : Dict κ α) : Dict κ β :=
  ⟨d.toList.map fun e => (e.1, f e.1 e.2), ascending_map f d.ascending⟩

end Dict

end ShaderForge
