import ShaderForge.Json.Reader
import ShaderForge.Proofs.Text.Utf8

/-!
# ShaderForge.Proofs.Json.Legible

Whatever the octets of a text, the strings that are read from it are valid UTF-8.

* `Json.Legible` — all strings of a value are valid, names of members included.
* `Json.legible_of_read?` — values that were read are legible.
-/

namespace ShaderForge

theorem Utf8.isValid_repair (s : Bytes) : isValid (repair s) = true := by
  have h := isValid_flatMap_encode (characters s)
  rwa [characters, List.flatMap_map] at h

namespace Json

/-- All strings of the value are valid UTF-8, names of members included. -/
inductive Legible : Json → Prop
  | null : Legible .null
  | bool (b : Bool) : Legible (.bool b)
  | number (literal : Bytes) : Legible (.number literal)
  | string {s : Bytes} (h : Utf8.isValid s = true) : Legible (.string s)
  | array {items : List Json} (h : ∀ v ∈ items, Legible v) : Legible (.array items)
  | object {members : List (Bytes × Json)} (names : ∀ m ∈ members, Utf8.isValid m.1 = true)
      (h : ∀ m ∈ members, Legible m.2) : Legible (.object members)

theorem isValid_of_string? {s t rest : Bytes} (h : string? s = some (t, rest)) : Utf8.isValid t = true := by
  obtain ⟨⟨marks, rest'⟩, -, heq⟩ := Option.map_eq_some_iff.1 h
  cases heq
  exact Utf8.isValid_repair _

/-- What the reader gives with the fuel left, at each of its three places. -/
structure ReadsLegible (fuel : Nat) : Prop where
  value : ∀ {depth s v rest}, value? fuel depth s = some (v, rest) → Legible v
  items : ∀ {depth s vs rest}, items? fuel depth s = some (vs, rest) → ∀ v ∈ vs, Legible v
  members : ∀ {depth s ms rest}, members? fuel depth s = some (ms, rest) →
    ∀ m ∈ ms, Utf8.isValid m.1 = true ∧ Legible m.2

namespace ReadsLegible

variable {fuel depth : Nat} {s rest : Bytes}

theorem value_succ (ih : ReadsLegible fuel) {v : Json} (h : value? (fuel + 1) depth s = some (v, rest)) :
    Legible v := by
  rw [value?] at h
  split at h
  · cases h
  split at h
  · split at h
    · cases h
    · cases h
      exact .object (by simp) (by simp)
    · obtain ⟨⟨ms, rest'⟩, hms, heq⟩ := Option.map_eq_some_iff.1 h
      cases heq
      exact .object (fun m hm => (ih.members hms m hm).1) (fun m hm => (ih.members hms m hm).2)
  split at h
  · split at h
    · cases h
    · cases h
      exact .array (by simp)
    · obtain ⟨⟨vs, rest'⟩, hvs, heq⟩ := Option.map_eq_some_iff.1 h
      cases heq
      exact .array (ih.items hvs)
  split at h
  · obtain ⟨⟨t, rest'⟩, ht, heq⟩ := Option.map_eq_some_iff.1 h
    cases heq
    exact .string (isValid_of_string? ht)
  split at h
  · obtain ⟨_, -, heq⟩ := Option.map_eq_some_iff.1 h
    cases heq
    exact .bool true
  split at h
  · obtain ⟨_, -, heq⟩ := Option.map_eq_some_iff.1 h
    cases heq
    exact .bool false
  split at h
  · obtain ⟨_, -, heq⟩ := Option.map_eq_some_iff.1 h
    cases heq
    exact .null
  · obtain ⟨⟨literal, rest'⟩, -, heq⟩ := Option.map_eq_some_iff.1 h
    cases heq
    exact .number literal

theorem items_succ (ih : ReadsLegible fuel) {vs : List Json} (h : items? (fuel + 1) depth s = some (vs, rest)) :
    ∀ v ∈ vs, Legible v := by
  rw [items?] at h
  split at h
  · cases h
  rename_i v rest' hv
  split at h
  · obtain ⟨⟨vs', rest'⟩, hvs, heq⟩ := Option.map_eq_some_iff.1 h
    cases heq
    exact List.forall_mem_cons.2 ⟨ih.value hv, ih.items hvs⟩
  · cases h
    exact List.forall_mem_singleton.2 (ih.value hv)
  · cases h

theorem members_succ (ih : ReadsLegible fuel) {ms : List (Bytes × Json)}
    (h : members? (fuel + 1) depth s = some (ms, rest)) : ∀ m ∈ ms, Utf8.isValid m.1 = true ∧ Legible m.2 := by
  rw [members?] at h
  split at h
  case h_2 => cases h
  split at h
  · cases h
  rename_i name _ hname
  split at h
  case h_2 => cases h
  split at h
  · cases h
  rename_i v _ hv
  have hmember : Utf8.isValid name = true ∧ Legible v := ⟨isValid_of_string? hname, ih.value hv⟩
  split at h
  · obtain ⟨⟨ms', rest'⟩, hms, heq⟩ := Option.map_eq_some_iff.1 h
    cases heq
    exact List.forall_mem_cons.2 ⟨hmember, ih.members hms⟩
  · cases h
    exact List.forall_mem_singleton.2 hmember
  · cases h

end ReadsLegible

/-- Each place of the reader calls the others with less fuel. -/
theorem readsLegible (fuel : Nat) : ReadsLegible fuel := by
  induction fuel with
  | zero => exact ⟨by simp [value?], by simp [items?], by simp [members?]⟩
  | succ fuel ih => exact ⟨ih.value_succ, ih.items_succ, ih.members_succ⟩

theorem legible_of_read? {s : Bytes} {v : Json} (h : read? s = some v) : Legible v := by
  unfold read? at h
  split at h
  · rename_i hv
    split at h
    · cases h
      exact (readsLegible _).value hv
    · cases h
  · cases h

end Json
end ShaderForge
