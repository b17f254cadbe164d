import ShaderForge.Proofs.Source.CommentErasure
import ShaderForge.Proofs.Source.ScanLocality
import ShaderForge.Proofs.Source.Seams

/-!
# ShaderForge.Proofs.Source.InterStage

The bodies of the structs between stages, and what a parse sees of them.

* `SameOutcome`                   — results that are related, or errors of the same cause.
* `Scene.Survey.Alike`            — surveys that differ in the body of one struct at most.
* `Scene.SameDeclarations`        — two scenes with the same functions, and the same structs but for the body of one.
* `exportsName`                   — whether a resource declaration exports a name.
* `Scene.exportsName_of_declared` — the names of the exports are those.
* `interStage_unread`             — the body has no part in a parse, unless the name of its struct is exported.
-/

namespace ShaderForge

/-! ## Outcomes that agree -/

/-- A cause without the line that it names. -/
def ParseCause.unplaced : ParseCause → ParseCause
  | .badStructure (.duplicateStruct name _) => .badStructure (.duplicateStruct name 0)
  | cause => cause

/-- Related results, or errors of the same cause. Where they are reported may differ. -/
inductive SameOutcome {α β : Type} (R : α → β → Prop) : Parsed α → Parsed β → Prop
  | ok {a : α} {b : β} (h : R a b) : SameOutcome R (.ok a) (.ok b)
  | error {e e' : ParseError} (h : e.cause.unplaced = e'.cause.unplaced) : SameOutcome R (.error e) (.error e')

namespace SameOutcome

variable {α β γ δ : Type} {R : α → β → Prop} {S : γ → δ → Prop}

theorem bind {x : Parsed α} {y : Parsed β} {f : α → Parsed γ} {g : β → Parsed δ} (h : SameOutcome R x y)
    (hfg : ∀ a b, R a b → SameOutcome S (f a) (g b)) : SameOutcome S (x >>= f) (y >>= g) := by
  cases h with
  | ok hab => exact hfg _ _ hab
  | error he => exact .error he

theorem foldlM {f : γ → α → Parsed γ} {g : δ → β → Parsed δ} {l : List α} {l' : List β} (hl : List.Forall₂ R l l')
    (hfg : ∀ c d a b, S c d → R a b → SameOutcome S (f c a) (g d b)) {c : γ} {d : δ} (hcd : S c d) :
    SameOutcome S (l.foldlM f c) (l'.foldlM g d) := by
  induction hl generalizing c d with
  | nil => exact .ok hcd
  | cons hab _ ih =>
    rw [List.foldlM_cons, List.foldlM_cons]
    exact (hfg c d _ _ hcd hab).bind fun c d hcd => ih hcd

theorem mapM {f : α → Parsed γ} {g : β → Parsed γ} {l : List α} {l' : List β} (hl : List.Forall₂ R l l')
    (hfg : ∀ a b, R a b → SameOutcome (· = ·) (f a) (g b)) : SameOutcome (· = ·) (l.mapM f) (l'.mapM g) := by
  induction hl with
  | nil => exact .ok rfl
  | cons hab _ ih =>
    rw [List.mapM_cons, List.mapM_cons]
    refine (hfg _ _ hab).bind fun c d hcd => ih.bind fun cs ds hcds => ?_
    subst hcd hcds
    exact .ok rfl

theorem faultAt (sc sc' : Scene) (offset offset' : Nat) {fault fault' : StructureFault}
    (h : (ParseCause.badStructure fault).unplaced = (ParseCause.badStructure fault').unplaced) :
    SameOutcome R (.error (sc.faultAt offset fault)) (.error (sc'.faultAt offset' fault')) := by
  have hcause : ∀ (sc : Scene) offset fault, (sc.faultAt offset fault).cause = .badStructure fault := by
    intro sc offset fault
    unfold Scene.faultAt
    split <;> rfl
  exact .error (by rw [hcause, hcause, h])

end SameOutcome

/-! ## Fields -/

/-- The same declaration. -/
def Field.Alike (f f' : Field) : Prop := f.typeName = f'.typeName ∧ f.name = f'.name ∧ f.semantic = f'.semantic

/-- What is read of declarations is related, or the same declaration is malformed. -/
inductive ReadAlike {α : Type} (R : α → α → Prop) : Except MalformedField α → Except MalformedField α → Prop
  | ok {a b : α} (h : R a b) : ReadAlike R (.ok a) (.ok b)
  | error {e e' : MalformedField} (h : e.declaration = e'.declaration) : ReadAlike R (.error e) (.error e')

theorem ReadAlike.bind {α β : Type} {R : α → α → Prop} {S : β → β → Prop} {x y : Except MalformedField α}
    {f g : α → Except MalformedField β} (h : ReadAlike R x y) (hfg : ∀ a b, R a b → ReadAlike S (f a) (g b)) :
    ReadAlike S (x >>= f) (y >>= g) := by
  cases h with
  | ok hab => exact hfg _ _ hab
  | error he => exact .error he

theorem field?_alike (offset offset' : Nat) (s : Bytes) :
    ReadAlike (fun a b => List.Forall₂ Field.Alike a.toList b.toList) (field? offset s) (field? offset' s) := by
  unfold field?
  dsimp only
  split
  · exact .ok .nil
  · cases declaration? (Bytes.squeeze (Bytes.trim s)) with
    | none => exact .error rfl
    | some d => exact .ok (.cons ⟨rfl, rfl, rfl⟩ .nil)

theorem fieldsFrom_alike (offset offset' : Nat) (pieces : List Bytes) :
    ReadAlike (List.Forall₂ Field.Alike) (fieldsFrom offset pieces) (fieldsFrom offset' pieces) := by
  induction pieces generalizing offset offset' with
  | nil => exact .ok .nil
  | cons piece pieces ih =>
    cases pieces with
    | nil =>
      simp only [fieldsFrom]
      split
      · exact .ok .nil
      · exact .error rfl
    | cons next pieces =>
      have hcons : ∀ o, fieldsFrom o (piece :: next :: pieces) = (do
          let first ← field? o piece
          let more ← fieldsFrom (o + piece.length + 1) (next :: pieces)
          return first.toList ++ more) := fun o => rfl
      rw [hcons, hcons]
      refine (field?_alike offset offset' piece).bind fun a b hab => ?_
      refine (ih (offset + piece.length + 1) (offset' + piece.length + 1)).bind fun fs fs' hfs => ?_
      exact .ok (List.rel_append hab hfs)

/-! ## Scenes -/

namespace Scene

variable {sc sc' : Scene} {b b' : StructBlock}

theorem fields_alike (sc sc' : Scene) (h : b.body = b'.body) :
    SameOutcome (List.Forall₂ Field.Alike) (sc.fields b) (sc'.fields b') := by
  have hread := fieldsFrom_alike b.bodyOffset b'.bodyOffset (Bytes.split (octet ';') b.body)
  unfold fields StructBlock.fields
  rw [← h]
  generalize fieldsFrom b.bodyOffset (Bytes.split (octet ';') b.body) = x at hread
  generalize fieldsFrom b'.bodyOffset (Bytes.split (octet ';') b.body) = y at hread
  cases hread with
  | ok hfs => exact .ok hfs
  | error he => exact .faultAt sc sc' _ _ (by rw [he])

theorem fieldType_alike (sc sc' : Scene) {f f' : Field} (h : f.Alike f') :
    SameOutcome (· = ·) (sc.fieldType f) (sc'.fieldType f') := by
  obtain ⟨htype, hname, -⟩ := h
  unfold fieldType
  rw [htype, hname]
  cases DataType.ofKeyword? f'.typeName with
  | some t => exact .ok rfl
  | none => exact .faultAt sc sc' _ _ rfl

theorem addVertexInputs_alike (sc sc' : Scene) (stages : Stages) (hname : b.name = b'.name) (hbody : b.body = b'.body) :
    SameOutcome (· = ·) (sc.addVertexInputs stages b) (sc'.addVertexInputs stages b') := by
  have hinput : ∀ f f' : Field, f.Alike f' → SameOutcome (· = ·) (sc.vertexInput b f) (sc'.vertexInput b' f') := by
    intro f f' h
    refine (fieldType_alike sc sc' h).bind fun t t' ht => ?_
    obtain ⟨-, hf, hsemantic⟩ := h
    subst ht
    rw [hsemantic, hname, hf]
    cases f'.semantic with
    | some semantic => exact .ok rfl
    | none => exact .faultAt sc sc' _ _ rfl
  unfold addVertexInputs
  cases stages.get? .vertex with
  | none => exact .ok rfl
  | some stage =>
    refine (fields_alike sc sc' hbody).bind fun fs fs' hfs => ?_
    refine (SameOutcome.mapM hfs hinput).bind fun is is' his => ?_
    subst his
    exact .ok rfl

theorem elementsFrom_alike (sc sc' : Scene) {fs fs' : List Field} (h : List.Forall₂ Field.Alike fs fs') (offset : Nat) :
    SameOutcome (· = ·) (sc.elementsFrom offset fs) (sc'.elementsFrom offset fs') := by
  induction h generalizing offset with
  | nil => exact .ok rfl
  | @cons f f' fs fs' hf _ ih =>
    refine (fieldType_alike sc sc' hf).bind fun t t' ht => ?_
    subst ht
    refine (ih (offset + t.size)).bind fun es es' hes => ?_
    subst hes
    rw [hf.2.1]
    exact .ok rfl

theorem layout_alike (sc sc' : Scene) (h : b.body = b'.body) : SameOutcome (· = ·) (sc.layout b) (sc'.layout b') :=
  (fields_alike sc sc' h).bind fun _ _ hfs => elementsFrom_alike sc sc' hfs 0

theorem addExports_alike (sc sc' : Scene) (hname : b.name = b'.name) {fs fs' : List Field}
    (h : List.Forall₂ Field.Alike fs fs') (binding : Nat) (exports : Exports) :
    SameOutcome (· = ·) (sc.addExports b binding exports fs) (sc'.addExports b' binding exports fs') := by
  induction h generalizing binding exports with
  | nil => exact .ok rfl
  | @cons f f' fs fs' hf _ ih =>
    rw [addExports, addExports]
    refine (fieldType_alike sc sc' hf).bind fun t t' ht => ?_
    obtain ⟨htype, hfname, -⟩ := hf
    subst ht
    rw [hfname, hname, htype]
    by_cases huint : t = .uint
    · simp only [huint, ne_eq, not_true_eq_false, if_false]
      by_cases hcontains : exports.contains (normalizeName f'.name) = true
      · rw [if_pos hcontains, if_pos hcontains]
        exact .faultAt sc sc' _ _ rfl
      · rw [if_neg hcontains, if_neg hcontains]
        exact ih (binding + 1) _
    · simp only [huint, ne_eq, not_false_eq_true, if_true]
      exact .faultAt sc sc' _ _ rfl

theorem declaredExports_alike (sc sc' : Scene) {declaration declaration' : Option StructBlock}
    (h : Option.Rel (fun b b' : StructBlock => b.name = b'.name ∧ b.body = b'.body) declaration declaration') :
    SameOutcome (· = ·) (sc.declaredExports declaration) (sc'.declaredExports declaration') := by
  cases h with
  | none => exact .ok rfl
  | some h => exact (fields_alike sc sc' h.2).bind fun fs fs' hfs => addExports_alike sc sc' h.1 hfs 0 Dict.empty

/-- The functions and structs seen so far, but for the body of the named struct. -/
structure Survey.Alike (name : Bytes) (v v' : Survey) : Prop where
  stages : v.stages = v'.stages
  seen : List.Forall₂ (StructBlock.Alike name) v.seen v'.seen
  declarations : List.Forall₂ (fun b b' : StructBlock => b.name = b'.name ∧ b.body = b'.body) v.declarations
    v'.declarations

theorem find?_alike {name : Bytes} {bs bs' : List StructBlock} (h : List.Forall₂ (StructBlock.Alike name) bs bs')
    (n : Bytes) :
    Option.Rel (StructBlock.Alike name) (bs.find? (·.name = n)) (bs'.find? (·.name = n)) := by
  induction h with
  | nil => exact .none
  | @cons b b' bs bs' hb _ ih =>
    rw [List.find?_cons, List.find?_cons, hb.1]
    split
    · exact .some hb
    · exact ih

variable {name : Bytes} (hinter : isInterStage name = true)

include hinter

theorem body_eq_of_alike (h : b.Alike name b') (hb : isInterStage b.name = false) : b.body = b'.body := by
  rcases h.2 with hbody | rfl
  · exact hbody
  · rw [hinter] at hb
    cases hb

theorem surveyStruct_alike (sc sc' : Scene) {v v' : Survey} (hv : v.Alike name v') (hb : b.Alike name b') :
    SameOutcome (Survey.Alike name) (sc.surveyStruct v b) (sc'.surveyStruct v' b') := by
  have hseen : List.Forall₂ (StructBlock.Alike name) (v.seen ++ [b]) (v'.seen ++ [b']) :=
    List.rel_append hv.seen (.cons hb .nil)
  have hfind := find?_alike hv.seen b.name
  unfold surveyStruct
  rw [← hb.1]
  generalize v.seen.find? (·.name = b.name) = first at hfind
  generalize v'.seen.find? (·.name = b.name) = first' at hfind
  cases hfind with
  | some => exact .faultAt sc sc' _ _ rfl
  | none =>
    dsimp only
    by_cases hresource : isResourceDeclaration b.name = true
    · have hinside : isInterStage b.name = false := by
        have hcases : b.name = resourcesStruct ∨ b.name = legacyResourcesStruct := by
          simpa [isResourceDeclaration] using hresource
        rcases hcases with hn | hn <;> rw [hn] <;> decide
      rw [if_pos hresource, if_pos hresource]
      refine .ok ⟨hv.stages, hseen, List.rel_append hv.declarations (.cons ⟨hb.1, ?_⟩ .nil)⟩
      exact body_eq_of_alike hinter hb hinside
    · rw [if_neg hresource, if_neg hresource]
      by_cases hvertex : b.name = vertexInputStruct
      · rw [if_pos hvertex, if_pos hvertex, hv.stages]
        have hbody := body_eq_of_alike hinter hb (by rw [hvertex]; decide)
        refine (addVertexInputs_alike sc sc' v'.stages hb.1 hbody).bind fun st st' hst => ?_
        exact .ok ⟨hst, hseen, hv.declarations⟩
      · rw [if_neg hvertex, if_neg hvertex]
        cases hinside : isInterStage b.name with
        | true => exact .ok ⟨hv.stages, hseen, hv.declarations⟩
        | false =>
          have hbody := body_eq_of_alike hinter hb hinside
          refine (layout_alike sc sc' hbody).bind fun _ _ _ => ?_
          exact .ok ⟨hv.stages, hseen, hv.declarations⟩

omit hinter in
theorem theDeclaration_alike (sc sc' : Scene) {v v' : Survey} (hv : v.Alike name v') :
    SameOutcome (Option.Rel fun b b' : StructBlock => b.name = b'.name ∧ b.body = b'.body) (sc.theDeclaration v)
      (sc'.theDeclaration v') := by
  have hdeclarations := hv.declarations
  unfold theDeclaration
  generalize v.declarations = bs at hdeclarations
  generalize v'.declarations = bs' at hdeclarations
  cases hdeclarations with
  | nil => exact .ok .none
  | cons h hrest =>
    cases hrest with
    | nil => exact .ok (.some h)
    | cons h' _ => exact .faultAt sc sc' _ _ (by rw [h.1, h'.1])

/-- Two scenes with the same functions, and the same structs but for the body of the named one. -/
structure SameDeclarations (name : Bytes) (sc sc' : Scene) : Prop where
  functions : List.Forall₂ (fun f f' : Head => f.name = f'.name) (functions sc.text) (functions sc'.text)
  structs : List.Forall₂ (StructBlock.Alike name) (structs sc.text) (structs sc'.text)

omit hinter in
theorem stages_alike (h : SameDeclarations name sc sc') : SameOutcome (· = ·) sc.stages sc'.stages := by
  refine SameOutcome.foldlM h.functions (fun stages stages' f f' hstages hname => ?_) rfl
  subst hstages
  unfold addStage
  rw [hname]
  split
  · cases StageKind.ofEntryPoint? f'.name with
    | none => exact .faultAt sc sc' _ _ rfl
    | some kind =>
      dsimp only
      cases stages.get? kind with
      | none => exact .ok rfl
      | some first => exact .faultAt sc sc' _ _ rfl
  · exact .ok rfl

theorem declarations_alike (h : SameDeclarations name sc sc') :
    SameOutcome (fun r r' => r.1.Alike name r'.1 ∧ r.2.2 = r'.2.2) sc.declarations sc'.declarations := by
  refine (stages_alike h).bind fun stages stages' hstages => ?_
  subst hstages
  have hsurvey : SameOutcome (Survey.Alike name) (sc.survey stages) (sc'.survey stages) :=
    SameOutcome.foldlM h.structs (fun v v' b b' hv hb => surveyStruct_alike hinter sc sc' hv hb) ⟨rfl, .nil, .nil⟩
  refine hsurvey.bind fun v v' hv => (theDeclaration_alike sc sc' hv).bind fun d d' hd => ?_
  refine (declaredExports_alike sc sc' hd).bind fun e e' he => ?_
  exact .ok ⟨hv, he⟩

omit hinter in
theorem layoutStruct?_alike {v v' : Survey} (hv : v.Alike name v') (n : Bytes) :
    Option.Rel (fun b b' : StructBlock => n ≠ name → b.body = b'.body) (layoutStruct? v n) (layoutStruct? v' n) := by
  unfold layoutStruct?
  split
  · exact .none
  · have hfind := find?_alike hv.seen n
    cases hfound : v.seen.find? (·.name = n) with
    | none =>
      rw [hfound] at hfind
      generalize v'.seen.find? (·.name = n) = found' at hfind
      cases hfind
      exact .none
    | some b =>
      rw [hfound] at hfind
      generalize v'.seen.find? (·.name = n) = found' at hfind
      cases hfind with
      | some hb =>
        refine .some fun hn => hb.2.resolve_right fun heq => hn ?_
        have hname : b.name = n := by simpa using List.find?_some hfound
        rw [← hname, heq]

omit hinter

/-! ## Layouts -/

theorem get?_attachLayout {strict : Bool} {v : Survey} {declaration : Option StructBlock} {e r : Exports}
    {x : Bytes × Option Export} (h : sc.attachLayout strict v declaration e x = .ok r) {n : Bytes} (hn : n ≠ x.1) :
    r.get? n = e.get? n := by
  obtain ⟨-, -, rfl⟩ | ⟨b, elements, -, -, rfl⟩ := attachLayout_ok h
  · rfl
  · rw [Dict.get?_insert, if_neg hn]

/-- An export of another name is given the same layout, whatever the given one has for a body. -/
theorem attachLayout_alike (sc sc' : Scene) (strict : Bool) {v v' : Survey} (hv : v.Alike name v')
    (declaration declaration' : Option StructBlock) {R : Exports → Exports → Prop} {e e' : Exports} (he : R e e')
    {x : Bytes × Option Export} (hx : x.1 ≠ name) (hR : ∀ u, R (e.insert x.1 u) (e'.insert x.1 u)) :
    SameOutcome R (sc.attachLayout strict v declaration e x) (sc'.attachLayout strict v' declaration' e' x) := by
  have hstruct := layoutStruct?_alike hv x.1
  unfold attachLayout
  generalize layoutStruct? v x.1 = found at hstruct
  generalize layoutStruct? v' x.1 = found' at hstruct
  cases hstruct with
  | none =>
    cases strict with
    | true => exact .faultAt sc sc' _ _ rfl
    | false => exact .ok he
  | some hbody =>
    refine (layout_alike sc sc' (hbody hx)).bind fun elements elements' helements => ?_
    subst helements
    exact .ok (hR _)

/-- Where the given name is not among the exports, all of them are given the same layouts. -/
theorem attachLayouts_alike (sc sc' : Scene) (strict : Bool) {v v' : Survey} (hv : v.Alike name v')
    (declaration declaration' : Option StructBlock) {rest : List (Bytes × Option Export)}
    (hrest : ∀ x ∈ rest, x.1 ≠ name) (e : Exports) :
    SameOutcome (· = ·) (rest.foldlM (sc.attachLayout strict v declaration) e)
      (rest.foldlM (sc'.attachLayout strict v' declaration') e) := by
  have hlist : List.Forall₂ (fun x x' => x = x' ∧ x.1 ≠ name) rest rest :=
    List.forall₂_same.2 fun x hx => ⟨rfl, hrest x hx⟩
  refine SameOutcome.foldlM hlist (fun e e' x x' he hx => ?_) rfl
  obtain ⟨rfl, hx⟩ := hx
  exact attachLayout_alike sc sc' strict hv declaration declaration' he hx fun u => by rw [he]

/-- Exports that agree, but for one name. -/
def AgreeOff (name : Bytes) (e e' : Exports) : Prop := ∀ n, n ≠ name → e.get? n = e'.get? n

theorem AgreeOff.insert {e e' : Exports} (h : AgreeOff name e e') (k : Bytes) (u : Option Export) :
    AgreeOff name (e.insert k u) (e'.insert k u) := by
  intro n hn
  rw [Dict.get?_insert, Dict.get?_insert, h n hn]

/-- Layouts that are found for all the exports agree, but for the one of the given name. -/
theorem attachLayouts_agree (sc sc' : Scene) (strict : Bool) {v v' : Survey} (hv : v.Alike name v')
    (declaration declaration' : Option StructBlock) (rest : List (Bytes × Option Export)) {e e' r r' : Exports}
    (he : AgreeOff name e e') (h : rest.foldlM (sc.attachLayout strict v declaration) e = .ok r)
    (h' : rest.foldlM (sc'.attachLayout strict v' declaration') e' = .ok r') : AgreeOff name r r' := by
  induction rest generalizing e e' with
  | nil =>
    cases h
    cases h'
    exact he
  | cons x rest ih =>
    rw [List.foldlM_cons] at h h'
    obtain ⟨e₁, hstep, h⟩ := bind_eq_ok_iff.1 h
    obtain ⟨e₁', hstep', h'⟩ := bind_eq_ok_iff.1 h'
    refine ih ?_ h h'
    by_cases hx : x.1 = name
    · intro n hn
      rw [get?_attachLayout hstep (hx ▸ hn), get?_attachLayout hstep' (hx ▸ hn), he n hn]
    · have hsame := attachLayout_alike sc sc' strict hv declaration declaration' he hx (he.insert x.1)
      rw [hstep, hstep'] at hsame
      cases hsame with
      | ok hagree => exact hagree

/-! ## Exported names -/

theorem mem_addExports {b : StructBlock} {binding : Nat} {fs : List Field} {e e' : Exports}
    (h : sc.addExports b binding e fs = .ok e') {x : Bytes × Option Export} (hx : x ∈ e'.toList) :
    x ∈ e.toList ∨ ∃ f ∈ fs, normalizeName f.name = x.1 := by
  induction fs generalizing binding e with
  | nil =>
    cases h
    exact .inl hx
  | cons f fs ih =>
    rcases ih (addExports_cons_ok h).2 with hin | ⟨g, hg, hname⟩
    · rcases mem_insertEntry hin with rfl | hin
      · exact .inr ⟨f, List.mem_cons_self, rfl⟩
      · exact .inl hin
    · exact .inr ⟨g, List.mem_cons_of_mem _ hg, hname⟩

end Scene

/-- A resource declaration of the text exports the name. -/
def exportsName (text name : Bytes) : Bool :=
  (structs text).any fun b => isResourceDeclaration b.name && match b.fields with
    | .ok fs => fs.any fun f => normalizeName f.name = name
    | .error _ => false

namespace Scene

variable {sc sc' : Scene} {name : Bytes}

theorem exportsName_of_declared {v : Survey} {declaration : Option StructBlock} {declared : Exports}
    (h : sc.declarations = .ok (v, declaration, declared)) {x : Bytes × Option Export} (hx : x ∈ declared.toList) :
    exportsName sc.text x.1 = true := by
  obtain ⟨stages, -, hsurvey, hdeclaration, hdeclared⟩ := declarations_ok h
  cases declaration with
  | none =>
    cases hdeclared
    exact absurd hx List.not_mem_nil
  | some b =>
    obtain ⟨hmem, hresource, -⟩ := declares_of_theDeclaration hsurvey hdeclaration
    obtain ⟨fs, hfs, hexports⟩ := bind_eq_ok_iff.1 hdeclared
    obtain ⟨f, hf, hname⟩ := (mem_addExports hexports hx).resolve_left List.not_mem_nil
    have hread : b.fields = .ok fs := by
      unfold fields at hfs
      split at hfs
      · rename_i hb
        cases hfs
        exact hb
      · cases hfs
    refine List.any_eq_true.2 ⟨b, hmem, ?_⟩
    rw [hresource, hread]
    exact List.any_eq_true.2 ⟨f, hf, decide_eq_true hname⟩

/-! ## Readings -/

theorem read_alike (hinter : isInterStage name = true) (strict : Bool) {m m' : Merged}
    (h : SameDeclarations name (ofMerged m) (ofMerged m')) (hname : exportsName (ofMerged m).text name = false) :
    SameOutcome (fun r r' => r.stages = r'.stages ∧ r.exports = r'.exports) (read strict m).2 (read strict m').2 := by
  have hdeclarations := declarations_alike hinter h
  rw [read_eq, read_eq]
  cases hfound : (ofMerged m).declarations with
  | error e =>
    rw [hfound] at hdeclarations
    generalize (ofMerged m').declarations = found' at hdeclarations
    cases hdeclarations with
    | error he => exact .error he
  | ok found =>
    obtain ⟨v, declaration, declared⟩ := found
    have hother : ∀ x ∈ declared.ordered, x.1 ≠ name := by
      rintro x hx rfl
      rw [exportsName_of_declared hfound ((sortBy_perm _).mem_iff.1 hx)] at hname
      cases hname
    rw [hfound] at hdeclarations
    generalize (ofMerged m').declarations = found' at hdeclarations
    cases hdeclarations with
    | @ok _ found' hsame =>
      obtain ⟨v', declaration', declared'⟩ := found'
      obtain ⟨hv, hdeclared⟩ := hsame
      dsimp only at hv hdeclared
      subst hdeclared
      refine (attachLayouts_alike _ _ strict hv declaration declaration' hother declared).bind fun e e' he => ?_
      exact .ok ⟨hv.stages, he⟩

/-- Two readings that succeed differ in the export of the named struct at most. -/
theorem read_agree (hinter : isInterStage name = true) (strict : Bool) {m m' : Merged}
    (h : SameDeclarations name (ofMerged m) (ofMerged m')) {r r' : Recovered} (hr : (read strict m).2 = .ok r)
    (hr' : (read strict m').2 = .ok r') : r.stages = r'.stages ∧ AgreeOff name r.exports r'.exports := by
  have hdeclarations := declarations_alike hinter h
  rw [read_eq] at hr hr'
  obtain ⟨⟨v, declaration, declared⟩, hfound, hr⟩ := bind_eq_ok_iff.1 hr
  obtain ⟨⟨v', declaration', declared'⟩, hfound', hr'⟩ := bind_eq_ok_iff.1 hr'
  obtain ⟨exports, hexports, hr⟩ := bind_eq_ok_iff.1 hr
  obtain ⟨exports', hexports', hr'⟩ := bind_eq_ok_iff.1 hr'
  cases hr
  cases hr'
  rw [hfound, hfound'] at hdeclarations
  cases hdeclarations with
  | ok hsame =>
    obtain ⟨hv, hdeclared⟩ := hsame
    dsimp only at hv hdeclared
    subst hdeclared
    exact ⟨hv.stages, attachLayouts_agree _ _ strict hv declaration declaration' _ (fun _ _ => rfl) hexports hexports'⟩

end Scene

/-! ## Parses -/

/-- No comment begins in the text. -/
def CommentFree (text : Bytes) : Prop := ∀ v ∈ text.tails, ¬ OpensComment v

instance (text : Bytes) : Decidable (CommentFree text) := inferInstanceAs (Decidable (∀ v ∈ text.tails, _))

theorem CommentFree.blankComments_eq {text : Bytes} (h : CommentFree text) : blankComments text = text := by
  induction text with
  | nil => exact blankComments_nil
  | cons b text ih =>
    rw [CommentFree, List.tails_cons, List.forall_mem_cons] at h
    rw [blankComments_cons h.1, ih h.2]

theorem parseSource_of_plain (s : ParserSettings) (path : Path) (w : World) {text : Bytes}
    (hcomments : CommentFree text) (hdirectives : Complete text) :
    ∃ m, (Scene.ofMerged m).text = text ∧
      ((parseSource s path text).run w).1 = (Scene.read (s.options w).strict m).2 := by
  obtain ⟨map, hmerge⟩ := resolveText_of_free s.host (s.options w).toIncludeOptions path hdirectives w
  refine ⟨⟨text, map⟩, hcomments.blankComments_eq, ?_⟩
  rw [run_parseSource, parseText, Merge.run_bind_of_ok hmerge, run_recover]

/-- In every world, the body of a struct between stages has no part in a parse, unless the name of the struct is
exported. If it is, then the parses that succeed still agree on the stages, and on the exports of other names. -/
theorem interStage_unread (s : ParserSettings) (path : Path) (w : World) {name p x y c : Bytes}
    (hname : isInterStage name = true) (hp : OpensStruct name p) (hx : Flat x) (hy : Flat y)
    (hcomments : CommentFree (braced p x c) ∧ CommentFree (braced p y c))
    (hdirectives : Complete (braced p x c) ∧ Complete (braced p y c)) :
    (exportsName (braced p x c) name = false →
      SameOutcome (fun r r' : Recovered => r.stages = r'.stages ∧ r.exports = r'.exports)
        ((parseSource s path (braced p x c)).run w).1 ((parseSource s path (braced p y c)).run w).1) ∧
    ∀ r r', ((parseSource s path (braced p x c)).run w).1 = .ok r →
      ((parseSource s path (braced p y c)).run w).1 = .ok r' →
        r.stages = r'.stages ∧ ∀ n, n ≠ name → r.exports.get? n = r'.exports.get? n := by
  obtain ⟨m, htext, hread⟩ := parseSource_of_plain s path w hcomments.1 hdirectives.1
  obtain ⟨m', htext', hread'⟩ := parseSource_of_plain s path w hcomments.2 hdirectives.2
  have hword : IsIdentifier name := by
    have hcases : name = utf8 "VSOutput" ∨ name = utf8 "PSOutput" := by simpa [isInterStage] using hname
    rcases hcases with rfl | rfl <;> decide
  have hsame : Scene.SameDeclarations name (Scene.ofMerged m) (Scene.ofMerged m') := by
    constructor
    · rw [htext, htext']
      exact functions_edited hx hy p c
    · rw [htext, htext']
      exact structs_edited hx hy p c hword hp
  rw [hread, hread']
  refine ⟨fun hexports => ?_, fun r r' hr hr' => Scene.read_agree hname _ hsame hr hr'⟩
  exact Scene.read_alike hname _ hsame (by rw [htext, hexports])

/-- The struct is not exported, and neither of the bodies is one that a layout can be read from. -/
theorem interStage_unread_unexported :
    let p : Bytes := "struct ShaderResources \x7b uint Tint; \x7d; struct Tint \x7b float4 rgb; \x7d; struct VSOutput "
    let x : Bytes := " float4 at : SV_Position "
    let y : Bytes := " quux; uint ShaderResources; "
    let c : Bytes := "; VSOutput vs_main() \x7b\x7d"
    ((parseSource {} "/r" (braced p x c)).run {}).1.isOk = true ∧
      SameOutcome (fun r r' : Recovered => r.stages = r'.stages ∧ r.exports = r'.exports)
        ((parseSource {} "/r" (braced p x c)).run {}).1 ((parseSource {} "/r" (braced p y c)).run {}).1 := by
  intro p x y c
  have hp : OpensStruct "VSOutput" p := by
    refine ⟨"struct ShaderResources \x7b uint Tint; \x7d; struct Tint \x7b float4 rgb; \x7d; ", " ", " ", ?_, ?_, ?_,
      ?_⟩ <;> decide +kernel
  have hplain : ∀ body : Bytes, octet '#' ∉ braced p body c → Complete (braced p body c) := fun body h line hline =>
    directiveFree_of_not_mem fun hmem => h (Bytes.subset_of_mem_split hline hmem)
  refine ⟨by decide +kernel, (interStage_unread {} "/r" {} (by decide) hp (by decide) (by decide) ⟨?_, ?_⟩
    ⟨hplain x (by decide +kernel), hplain y (by decide +kernel)⟩).1 (by decide +kernel)⟩
  · decide +kernel
  · decide +kernel

/-- The name of a struct between stages may be exported, and then its body gives the layout, or is at fault. -/
theorem interStage_read :
    let p : Bytes := "struct ShaderResources \x7b uint VSOutput; \x7d; struct VSOutput "
    ((parseSource {} "/r" (braced p " float a; " ";")).run {}).1.isOk = true ∧
      ((parseSource {} "/r" (braced p " quux a; " ";")).run {}).1 =
        .error ⟨"/r", 1, .badStructure (.unknownType "quux" "a")⟩ := by
  decide +kernel

end ShaderForge
