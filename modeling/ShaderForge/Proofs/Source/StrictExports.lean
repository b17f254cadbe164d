import ShaderForge.Proofs.Shader.Orderings
import ShaderForge.Proofs.Source.FaultPlaces

/-!
# ShaderForge.Proofs.Source.StrictExports

A strict parse does no more than refuse exports without a layout.

* `Scene.attachLayouts_strict`  — strict and lenient work on the same exports, up to the first one without a layout.
* `Scene.attachLayouts_lenient` — lenient work gives a layout to each export that has a struct for it, and to no other.
* `Exports.AllUniform`, `Exports.Lowest` — what a strict parse asks for, and what it names otherwise.
* `Sieves`                      — the outcome of a strict parse beside that of a lenient one.
* `strict_sieves`               — they stand so for every source, in every world.
-/

namespace ShaderForge

/-! ## Exports -/

namespace Exports

def AllUniform (e : Exports) : Prop := ∀ name entry, e.get? name = some entry → ∃ x, entry = some x ∧ x.type = .uniform

/-- The export of the name is bound, and not uniform. -/
def NonUniform (e : Exports) (name : Bytes) (binding : Int) : Prop :=
  ∃ x, e.get? name = some (some x) ∧ x.type = .nonUniform ∧ x.binding = some binding

/-- The export of the name is the one of lowest binding among those that are not uniform. -/
def Lowest (e : Exports) (name : Bytes) : Prop :=
  ∃ binding, e.NonUniform name binding ∧
    ∀ name' binding', e.NonUniform name' binding' → name' = name ∨ binding < binding'

end Exports

namespace Scene

variable {sc : Scene} {v : Survey} {declaration : Option StructBlock}

theorem nonUniform_addExports {b : StructBlock} {binding : Nat} {fs : List Field} {e e' : Exports}
    (he : ∀ x ∈ e.toList, ∃ d, x.2 = some d ∧ d.type = .nonUniform)
    (h : sc.addExports b binding e fs = .ok e') : ∀ x ∈ e'.toList, ∃ d, x.2 = some d ∧ d.type = .nonUniform := by
  induction fs generalizing binding e with
  | nil =>
    cases h
    exact he
  | cons f fs ih =>
    refine ih (fun x hx => ?_) (addExports_cons_ok h).2
    rcases mem_insertEntry hx with rfl | hx
    · exact ⟨_, rfl, rfl⟩
    · exact he x hx

theorem nonUniform_declaredExports {e : Exports} (h : sc.declaredExports declaration = .ok e) :
    ∀ x ∈ e.toList, ∃ d, x.2 = some d ∧ d.type = .nonUniform := by
  unfold declaredExports at h
  split at h
  · cases h
    exact fun _ hx => absurd hx List.not_mem_nil
  · obtain ⟨fs, -, h⟩ := bind_eq_ok_iff.1 h
    exact nonUniform_addExports (fun _ hx => absurd hx List.not_mem_nil) h

/-! ## Layouts -/

theorem attachLayout_of_some {strict : Bool} {e : Exports} {x : Bytes × Option Export} {b : StructBlock}
    {elements : List ExportElement} (hstruct : layoutStruct? v x.1 = some b) (hlayout : sc.layout b = .ok elements) :
    sc.attachLayout strict v declaration e x = .ok (e.insert x.1 (some (Export.laidOut x.2 elements))) := by
  rw [attachLayout, hstruct]
  dsimp only
  rw [hlayout]
  rfl

/-- Strict work ends at the first export that has no struct for its layout, and is lenient work otherwise. -/
theorem attachLayouts_strict {rest : List (Bytes × Option Export)} {e e' : Exports}
    (h : rest.foldlM (sc.attachLayout false v declaration) e = .ok e') :
    rest.foldlM (sc.attachLayout true v declaration) e = match rest.find? fun x => (layoutStruct? v x.1).isNone with
      | none => .ok e'
      | some x => .error (sc.faultAt ((declaration.map StructBlock.offset).getD 0) (.missingLayout x.1)) := by
  induction rest generalizing e with
  | nil => exact h
  | cons x rest ih =>
    rw [List.foldlM_cons] at h ⊢
    obtain ⟨e₁, hstep, h⟩ := bind_eq_ok_iff.1 h
    obtain ⟨hstruct, -, -⟩ | ⟨b, elements, hstruct, hlayout, rfl⟩ := attachLayout_ok hstep
    · rw [attachLayout, hstruct, List.find?_cons_of_pos (by rw [hstruct]; rfl)]
      rfl
    · rw [attachLayout_of_some hstruct hlayout, List.find?_cons_of_neg (by simp [hstruct])]
      exact ih h

/-- What strict work accepts, lenient work accepts as it is. -/
theorem attachLayouts_lenient_of_strict {rest : List (Bytes × Option Export)} {e e' : Exports}
    (h : rest.foldlM (sc.attachLayout true v declaration) e = .ok e') :
    rest.foldlM (sc.attachLayout false v declaration) e = .ok e' := by
  induction rest generalizing e with
  | nil => exact h
  | cons x rest ih =>
    rw [List.foldlM_cons] at h ⊢
    obtain ⟨e₁, hstep, h⟩ := bind_eq_ok_iff.1 h
    obtain ⟨-, hstrict, -⟩ | ⟨b, elements, hstruct, hlayout, rfl⟩ := attachLayout_ok hstep
    · cases hstrict
    · rw [attachLayout_of_some hstruct hlayout]
      exact ih h

/-- An export becomes uniform if it is listed and has a struct for its layout; else it stays as it is. -/
theorem attachLayouts_lenient {rest : List (Bytes × Option Export)} {e e' : Exports}
    (h : rest.foldlM (sc.attachLayout false v declaration) e = .ok e') (name : Bytes) :
    (name ∈ rest.map Prod.fst → (layoutStruct? v name).isSome = true →
      ∃ x, e'.get? name = some (some x) ∧ x.type = .uniform) ∧
    ((name ∈ rest.map Prod.fst → layoutStruct? v name = none) → e'.get? name = e.get? name) := by
  induction rest generalizing e with
  | nil =>
    cases h
    exact ⟨fun hname => absurd hname List.not_mem_nil, fun _ => rfl⟩
  | cons x rest ih =>
    rw [List.foldlM_cons] at h
    obtain ⟨e₁, hstep, h⟩ := bind_eq_ok_iff.1 h
    obtain ⟨huniform, hkept⟩ := ih h
    obtain ⟨hstruct, -, rfl⟩ | ⟨b, elements, hstruct, -, rfl⟩ := attachLayout_ok hstep
    · refine ⟨fun hname hsome => ?_, fun hnone => hkept fun hmem => hnone (List.mem_cons_of_mem _ hmem)⟩
      rcases List.mem_cons.1 hname with rfl | hmem
      · rw [hstruct] at hsome
        cases hsome
      · exact huniform hmem hsome
    · refine ⟨fun hname hsome => ?_, fun hnone => ?_⟩
      · by_cases hmem : name ∈ rest.map Prod.fst
        · exact huniform hmem hsome
        · obtain rfl : name = x.1 := (List.mem_cons.1 hname).resolve_right hmem
          rw [hkept (absurd · hmem), Dict.get?_insert, if_pos rfl]
          exact ⟨_, rfl, rfl⟩
      · rw [hkept fun hmem => hnone (List.mem_cons_of_mem _ hmem), Dict.get?_insert, if_neg]
        rintro rfl
        rw [hnone List.mem_cons_self] at hstruct
        cases hstruct

/-! ## The resource declaration -/

/-- A survey sees the resource declarations of the text, all of them and in order. -/
theorem declarations_survey {stages : Stages} (h : sc.survey stages = .ok v) :
    v.declarations = (structs sc.text).filter fun b => isResourceDeclaration b.name := by
  have hfold : ∀ (bs : List StructBlock) (v₀ : Survey), bs.foldlM sc.surveyStruct v₀ = .ok v →
      v.declarations = v₀.declarations ++ bs.filter fun b => isResourceDeclaration b.name := by
    intro bs
    induction bs with
    | nil =>
      intro v₀ h
      cases h
      simp
    | cons b bs ih =>
      intro v₀ h
      rw [List.foldlM_cons] at h
      obtain ⟨v₁, hstep, h⟩ := bind_eq_ok_iff.1 h
      rw [ih v₁ h, (surveyStruct_ok hstep).2, List.append_assoc, ← List.filter_append]
      rfl
  simpa using hfold (structs sc.text) { stages } h

/-- The struct is the one resource declaration of the text. -/
def Declares (text : Bytes) (b : StructBlock) : Prop :=
  b ∈ structs text ∧ isResourceDeclaration b.name = true ∧
    ∀ b' ∈ structs text, isResourceDeclaration b'.name = true → b' = b

theorem declares_of_theDeclaration {stages : Stages} {b : StructBlock} (hsurvey : sc.survey stages = .ok v)
    (h : sc.theDeclaration v = .ok (some b)) : Declares sc.text b := by
  have hfound := declarations_survey hsurvey
  unfold theDeclaration at h
  split at h
  · cases h
  · rename_i hv
    cases h
    rw [hv] at hfound
    have hmem : ∀ b', b' ∈ structs sc.text ∧ isResourceDeclaration b'.name = true ↔ b' = b := by
      intro b'
      rw [← List.mem_singleton (a := b'), hfound, List.mem_filter]
    exact ⟨((hmem b).2 rfl).1, ((hmem b).2 rfl).2, fun b' hb' hres => (hmem b').1 ⟨hb', hres⟩⟩
  · cases h

end Scene

/-! ## Strict and lenient parses -/

/-- The outcome of a strict parse beside that of a lenient one. It accepts what the lenient one accepts with uniform
exports only, and gives the same result. Else it names the export of lowest binding that is not uniform, at the place
where the resource declaration stands. -/
structure Sieves (strict lenient : Parsed Recovered) : Prop where
  accepts : ∀ r, strict = .ok r ↔ lenient = .ok r ∧ r.exports.AllUniform
  refuses : ∀ r, lenient = .ok r → ¬ r.exports.AllUniform → ∃ name b place,
    r.exports.Lowest name ∧ Scene.Declares (blankComments r.source) b ∧
      r.map.lookup? (lineAt r.source b.offset) = some place ∧
      strict = .error ⟨place.file, place.line, .badStructure (.missingLayout name)⟩

theorem Sieves.of_error (e : ParseError) : Sieves (.error e) (.error e) where
  accepts r := by
    constructor
    · intro h
      cases h
    · rintro ⟨h, -⟩
      cases h
  refuses r h := by cases h

/-- Every line of the merged text has an origin. -/
def Merged.Mapped (m : Merged) : Prop := ∀ offset, ∃ place, m.map.lookup? (lineAt m.text offset) = some place

theorem Merged.mapped_ofLines {ls : List MergedLine} (hne : ls ≠ []) (hlines : ∀ l ∈ ls, Bytes.lf ∉ l.text) :
    (Merged.ofLines ls).Mapped := by
  intro offset
  obtain ⟨l, hl, -⟩ := located_faultAt hne hlines offset (.missingLayout [])
  refine ⟨l.origin, ?_⟩
  have hpos : ¬ ((lineAt (Merged.ofLines ls).text offset : Nat) : Int) < 1 := by
    unfold lineAt
    omega
  rw [SourceMap.lookup?, if_neg hpos, Int.toNat_natCast, lineAt, Nat.add_sub_cancel]
  show (ls.map MergedLine.origin)[_]? = _
  rw [List.getElem?_map, hl, Option.map_some]

namespace Exports

variable {e : Exports}

theorem Numbered.nodup (h : e.Numbered) : (e.ordered.map fun x => x.2.bind Export.binding).Nodup := by
  have hperm : (e.ordered.map fun x => x.2.bind Export.binding).Perm
      ((List.range e.size).map fun i => some (Int.ofNat i)) := ((sortBy_perm _).map _).trans h
  refine hperm.nodup_iff.2 (List.nodup_range.map fun i j hij => ?_)
  exact Int.ofNat.inj (Option.some.inj hij)

theorem Numbered.bound (h : e.Numbered) {x : Bytes × Option Export} (hx : x ∈ e.toList) :
    ∃ binding, x.2.bind Export.binding = some binding := by
  have hmem := h.mem_iff.1 (List.mem_map_of_mem hx)
  obtain ⟨i, -, hi⟩ := List.mem_map.1 hmem
  exact ⟨_, hi.symm⟩

theorem Numbered.pairwise (h : e.Numbered) : e.ordered.Pairwise fun x y =>
    ∀ i j, x.2.bind Export.binding = some i → y.2.bind Export.binding = some j → i < j := by
  refine (List.pairwise_map.1 h.nodup).imp₂ (fun x y hne hsorted i j hi hj => ?_)
    (sortBy_pairwise sorts_before e.toList)
  have hle : ¬ bindingOf y.2 < bindingOf x.2 := by
    intro hlt
    rw [before] at hsorted
    simp [hlt] at hsorted
  rw [bindingOf, bindingOf, hi, hj] at hle
  have hij : i ≠ j := by
    rintro rfl
    exact hne (hi.trans hj.symm)
  simp only [Option.getD_some] at hle
  omega

theorem Lowest.not_allUniform {name : Bytes} (h : e.Lowest name) : ¬ e.AllUniform := by
  obtain ⟨binding, ⟨x, hget, htype, -⟩, -⟩ := h
  intro hall
  obtain ⟨x', hx', htype'⟩ := hall name _ hget
  cases hx'
  rw [htype] at htype'
  exact absurd htype' (by decide)

end Exports

namespace Scene

/-- The first export in listing order that is left without a layout has the lowest binding. -/
theorem lowest_of_find? {sc : Scene} {v : Survey} {declaration : Option StructBlock} {declared e' : Exports}
    {x : Bytes × Option Export} (hdeclared : sc.declaredExports declaration = .ok declared)
    (hattached : declared.ordered.foldlM (sc.attachLayout false v declaration) declared = .ok e')
    (hfind : declared.ordered.find? (fun x => (layoutStruct? v x.1).isNone) = some x) : e'.Lowest x.1 := by
  obtain ⟨hnone, front, back, hsplit, hfront⟩ := List.find?_eq_some_iff_append.1 hfind
  have hnumbered := (shaped_declaredExports hdeclared).2
  have hlisted : ∀ {y}, y ∈ declared.ordered ↔ y ∈ declared.toList := (sortBy_perm _).mem_iff
  have hx : x ∈ declared.toList := hlisted.1 (hsplit ▸ by simp)
  obtain ⟨name, entry⟩ := x
  obtain ⟨d, rfl, htype⟩ := nonUniform_declaredExports hdeclared _ hx
  obtain ⟨binding, hbinding⟩ := hnumbered.bound hx
  have hkept := (attachLayouts_lenient hattached name).2 fun _ => Option.isNone_iff_eq_none.1 hnone
  refine ⟨binding, ⟨d, hkept.trans (Dict.get?_eq_some_iff.2 hx), htype, hbinding⟩, ?_⟩
  rintro name' binding' ⟨d', hget, htype', hbinding'⟩
  obtain ⟨huniform', hkept'⟩ := attachLayouts_lenient hattached name'
  have hstruct : name' ∈ declared.ordered.map Prod.fst → layoutStruct? v name' = none := by
    intro hmem
    by_contra hsome
    obtain ⟨u, hu, hutype⟩ := huniform' hmem (Option.isSome_iff_ne_none.2 hsome)
    rw [hget] at hu
    cases hu
    rw [htype'] at hutype
    exact absurd hutype (by decide)
  rw [hkept' hstruct] at hget
  have hmem : (name', some d') ∈ declared.ordered := hlisted.2 (Dict.get?_eq_some_iff.1 hget)
  have hpairwise := hnumbered.pairwise
  have hnone' := hstruct (List.mem_map_of_mem hmem)
  rw [hsplit] at hmem hpairwise
  rcases List.mem_append.1 hmem with hmem | hmem
  · have hsome := hfront _ hmem
    simp [hnone'] at hsome
  rcases List.mem_cons.1 hmem with heq | hmem
  · exact .inl (congrArg Prod.fst heq)
  · have hlater := (List.pairwise_cons.1 (List.pairwise_append.1 hpairwise).2.1).1 _ hmem
    exact .inr (hlater binding binding' hbinding hbinding')

/-- Once every listed export has a struct for its layout, all are uniform. -/
theorem allUniform_of_find? {sc : Scene} {v : Survey} {declaration : Option StructBlock} {declared e' : Exports}
    (hattached : declared.ordered.foldlM (sc.attachLayout false v declaration) declared = .ok e')
    (hfind : declared.ordered.find? (fun x => (layoutStruct? v x.1).isNone) = none) : e'.AllUniform := by
  intro name entry hget
  obtain ⟨huniform, hkept⟩ := attachLayouts_lenient hattached name
  have hlisted : name ∈ declared.ordered.map Prod.fst := by
    by_contra hmem
    rw [hkept (absurd · hmem)] at hget
    exact hmem (List.mem_map_of_mem ((sortBy_perm _).mem_iff.2 (Dict.get?_eq_some_iff.1 hget)))
  obtain ⟨x, hx, rfl⟩ := List.mem_map.1 hlisted
  have hsome := List.find?_eq_none.1 hfind x hx
  obtain ⟨d, hd, htype⟩ := huniform hlisted (by simpa [Option.isSome_iff_ne_none] using hsome)
  rw [hget] at hd
  exact ⟨d, Option.some.inj hd, htype⟩

theorem read_of_declarations {m : Merged} {v : Survey} {declaration : Option StructBlock} {declared : Exports}
    (h : (ofMerged m).declarations = .ok (v, declaration, declared)) (strict : Bool) :
    (read strict m).2 = (declared.ordered.foldlM ((ofMerged m).attachLayout strict v declaration) declared).map
      fun exports => ⟨v.stages, exports, m.text, m.map⟩ := by
  rw [read_eq, h]
  show declared.ordered.foldlM ((ofMerged m).attachLayout strict v declaration) declared >>= _ = _
  cases declared.ordered.foldlM ((ofMerged m).attachLayout strict v declaration) declared <;> rfl

/-- A strict scan of a merged text sieves what a lenient one gives. -/
theorem read_sieves {m : Merged} (hm : m.Mapped) : Sieves (read true m).2 (read false m).2 := by
  cases hdeclarations : (ofMerged m).declarations with
  | error e =>
    rw [read_eq, read_eq, hdeclarations]
    exact .of_error e
  | ok found =>
    obtain ⟨v, declaration, declared⟩ := found
    rw [read_of_declarations hdeclarations, read_of_declarations hdeclarations]
    obtain ⟨stages, -, hsurvey, hdeclaration, hdeclared⟩ := declarations_ok hdeclarations
    cases hlenient : declared.ordered.foldlM ((ofMerged m).attachLayout false v declaration) declared with
    | error e =>
      -- an earlier fault: the strict scan meets it too, or refuses an export before
      cases hstrict : declared.ordered.foldlM ((ofMerged m).attachLayout true v declaration) declared with
      | error e' => exact ⟨fun r => by simp [Except.map], fun r h => by cases h⟩
      | ok exports =>
        rw [attachLayouts_lenient_of_strict hstrict] at hlenient
        cases hlenient
    | ok exports =>
      rw [attachLayouts_strict hlenient]
      cases hfind : declared.ordered.find? fun x => (layoutStruct? v x.1).isNone with
      | none =>
        have hall := allUniform_of_find? hlenient hfind
        refine ⟨fun r => ⟨fun h => ⟨h, ?_⟩, fun h => h.1⟩, fun r h hnot => ?_⟩
        · cases h
          exact hall
        · cases h
          exact absurd hall hnot
      | some x =>
        have hlowest := lowest_of_find? hdeclared hlenient hfind
        refine ⟨fun r => ⟨fun h => ?_, fun h => ?_⟩, fun r h _ => ?_⟩
        · cases h
        · obtain ⟨h, hall⟩ := h
          cases h
          exact absurd hall hlowest.not_allUniform
        · cases h
          cases declaration with
          | none =>
            cases hdeclared
            cases hfind
          | some b =>
            obtain ⟨place, hplace⟩ := hm b.offset
            refine ⟨x.1, b, place, hlowest, declares_of_theDeclaration hsurvey hdeclaration, hplace, ?_⟩
            show Except.error _ = _
            rw [faultAt, ofMerged]
            dsimp only
            rw [lineAt_blankComments, Option.map_some, Option.getD_some, hplace]

end Scene

variable {σ : Type}

theorem Merge.run_bind_of_error {α β : Type} {x : Merge (StateM σ) α} {f : α → Merge (StateM σ) β} {s s' : σ}
    {e : ParseError} (h : x.run.run s = (.error e, s')) : (x >>= f).run.run s = (.error e, s') := by
  rw [ExceptT.run_bind, StateT.run_bind, h]
  rfl

theorem mapped_of_resolveText {host : Host (StateM σ)} {opts : IncludeOptions} {path : Path} {text : Bytes} {s s' : σ}
    {merged : Merged} (h : (resolveText host opts path text).run.run s = (.ok merged, s')) : merged.Mapped := by
  obtain ⟨ls, s₁, hexpand, h⟩ := Merge.run_bind_ok h
  cases h
  obtain ⟨files, hmerges⟩ := expand_merges hexpand
  exact Merged.mapped_ofLines hmerges.ne_nil fun l hl => (hmerges.traced l hl).oneLine

theorem mapped_of_resolve {host : Host (StateM σ)} {opts : IncludeOptions} {path : Path} {s s' : σ} {merged : Merged}
    (h : (resolve host opts path).run.run s = (.ok merged, s')) : merged.Mapped := by
  obtain ⟨found, s₁, -, h⟩ := Merge.run_bind_ok h
  cases found with
  | error e => cases h
  | ok text => exact mapped_of_resolveText h

theorem sieves_of_merge (host : Host (StateM σ)) (opts : ParseOptions) {merge : Merge (StateM σ) Merged}
    (hmapped : ∀ {s s' merged}, merge.run.run s = (.ok merged, s') → merged.Mapped) (s : σ) :
    Sieves ((merge >>= recover host { opts with strict := true }).run.run s).1
      ((merge >>= recover host { opts with strict := false }).run.run s).1 := by
  cases hmerge : merge.run.run s with
  | mk outcome s' =>
    cases outcome with
    | error e =>
      rw [Merge.run_bind_of_error hmerge, Merge.run_bind_of_error hmerge]
      exact .of_error e
    | ok merged =>
      rw [Merge.run_bind_of_ok hmerge, Merge.run_bind_of_ok hmerge, run_recover, run_recover]
      exact Scene.read_sieves (hmapped hmerge)

/-- In every world and with whatever other settings, a strict parse of a file, or of a text given for it, only sieves
what a lenient one gives. -/
theorem strict_sieves (s : ParserSettings) (path : Path) (w : World) :
    Sieves ((parseFile { s with strict := true } path).run w).1 ((parseFile { s with strict := false } path).run w).1 ∧
      ∀ text, Sieves ((parseSource { s with strict := true } path text).run w).1
        ((parseSource { s with strict := false } path text).run w).1 := by
  constructor
  · rw [run_parseFile, run_parseFile]
    exact sieves_of_merge s.host (s.options w) mapped_of_resolve w
  · intro text
    rw [run_parseSource, run_parseSource]
    exact sieves_of_merge s.host (s.options w) mapped_of_resolveText w

/-- Of two exports without a layout the one that is declared first is named, though its name comes last. -/
theorem strict_sieves_unlaid :
    let text : Bytes := "// resources\nstruct ShaderResources\x7buint z;uint m;uint a;\x7d;struct M\x7bfloat x;\x7d;"
    ∃ r, ((parseSource {} "/r" text).run {}).1 = .ok r ∧ ¬ r.exports.AllUniform ∧ r.exports.Lowest "Z" ∧
      ((parseSource { strict := true } "/r" text).run {}).1 =
        .error ⟨"/r", 2, .badStructure (.missingLayout "Z")⟩ := by
  intro text
  have hsieves := (strict_sieves {} "/r" {}).2 text
  have haccepted : ((parseSource {} "/r" text).run {}).1.isOk = true := by decide +kernel
  have hrefused : ((parseSource { strict := true } "/r" text).run {}).1 =
    .error ⟨"/r", 2, .badStructure (.missingLayout "Z")⟩ := by decide +kernel
  cases hlenient : ((parseSource {} "/r" text).run {}).1 with
  | error e =>
    rw [hlenient] at haccepted
    cases haccepted
  | ok r =>
    have hnot : ¬ r.exports.AllUniform := by
      intro hall
      have hok := (hsieves.accepts r).2 ⟨hlenient, hall⟩
      rw [hrefused] at hok
      cases hok
    obtain ⟨name, b, place, hlowest, -, -, herror⟩ := hsieves.refuses r hlenient hnot
    have hname : utf8 "Z" = name := by
      have hcause := congrArg ParseError.cause (Except.error.inj (hrefused.symm.trans herror))
      exact StructureFault.missingLayout.inj (ParseCause.badStructure.inj hcause)
    exact ⟨r, rfl, hnot, hname ▸ hlowest, hrefused⟩

end ShaderForge
